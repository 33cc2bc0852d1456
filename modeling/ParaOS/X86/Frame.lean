import ParaOS.X86.Instr

/-!
# Stack frames

Code that keeps to the usual frame discipline saves `rbp`, sets it up, allocates,
works on the stack below and undoes all this before `ret`.  Since such code has
no branches, how far it is (`Phase`) can be followed instruction by instruction
without running it: `advance` says which instruction is in place in which phase,
and `accepts` that a list goes through to its `ret`.

`InPhase f p s` is what phase `p` means for a state `s` of the activation with
frame `f`.  One instruction keeps it (`inPhase_exec`), and writes nothing at or
above the return address.

### The two design decisions

**Phases are syntactic.**  Whether an instruction is in place depends on the
instruction and the phase alone, never on a register or on memory.  So `accepts` is
decidable and can be asked of a list of instructions before anything runs, and the
proof that it means what it should is made once, for one instruction
(`inPhase_exec`), and not again for each body.

**Only the words that matter are followed.**  In a phase the return address is where
the call left it, the saved `rbp` is below it once it has been pushed, and `rsp` and
`rbp` stand in a fixed distance from both.  Nothing is said of operands or of
locals: `Parawasm.Equivalence` follows these.

### What is load-bearing

A store at offset `off` needs `8 ≤ off`.  The word at offset zero is the one `rbp`
points to, which is the saved `rbp`, and code that stores there returns to its
caller with a wrong frame.  `off ≤ a` keeps a store within what was allocated, so
that it does not reach the operands below.

`add rsp, n` leads to a phase of its own (`freed`), in which nothing is known of
`rsp`: what the code adds need not be what it allocated, and the `mov rsp, rbp` that
has to follow makes up for it.
-/

namespace ParaOS.X86

open Machine

/-- What is known of an activation from its call: the return address, and `rbp` and
`rsp` on entry.  These three are all that an activation has to give back, and they
do not change while it runs. -/
structure Frame where
  ret : Word
  rbp : Word
  rsp : Word

/-- The address of the return address. -/
def Frame.top (f : Frame) : ℕ := f.rsp.toNat

/-- How far an activation is.  The phases follow each other in the order they stand
in here, and the work of a body is done in `framed`: the others are come to once, on
the way in or on the way out. -/
inductive Phase where
  /-- nothing is done -/
  | entry
  /-- `rbp` is pushed -/
  | saved
  /-- `rbp` is set up, `a` bytes are allocated, `h` words are on the stack -/
  | framed (a h : ℕ)
  /-- `rsp` has been moved up and is about to be reset -/
  | freed
  /-- `rsp` is reset -/
  | reset
  /-- `rbp` is popped -/
  | popped
  deriving DecidableEq, Repr

/-- Neither `rsp` nor `rbp`: the registers that code inside a frame may write as it
likes. -/
def Reg.general (r : Reg) : Bool := r ≠ .rsp && r ≠ .rbp

/-- Where a register other than `rsp` and `rbp` may be written: inside the frame,
and without leaving the phase. -/
def writes (p : Phase) (r : Reg) : Option Phase :=
  match p with
  | .framed a n => if r.general then some (.framed a n) else none
  | _ => none

/-- The phase after an instruction that is in place in a phase, `none` if it is out
of place.  A self-move is in place everywhere, since the compiler may leave one
behind and it does nothing.  `mov rsp, rbp` is in place from inside the frame as
well as after `add rsp, n`: both reset `rsp` to the saved `rbp`. -/
def advance (p : Phase) : Instr → Option Phase
  | .nop => some p
  | .push r =>
      match p with
      | .entry => if r = .rbp then some .saved else none
      | .framed a n => if r.general then some (.framed a (n + 1)) else none
      | _ => none
  | .pop r =>
      match p with
      | .saved => if r = .rbp then some .popped else none
      | .reset => if r = .rbp then some .popped else none
      | .framed a (n + 1) => if r.general then some (.framed a n) else none
      | _ => none
  | .mov dst src =>
      if dst = src then some p
      else
        match p with
        | .saved => if dst = .rbp ∧ src = .rsp then some (.framed 0 0) else none
        | .freed => if dst = .rsp ∧ src = .rbp then some .reset else none
        | .framed a n =>
            if dst.general ∧ src.general then some (.framed a n)
            else if dst = .rsp ∧ src = .rbp then some .reset
            else none
        | _ => none
  | .subRsp n =>
      match p with
      | .framed 0 0 => some (.framed n 0)
      | _ => none
  | .addRsp _ =>
      match p with
      | .framed _ _ => some .freed
      | _ => none
  | .store off _ =>
      match p with
      | .framed a n => if 8 ≤ off ∧ off ≤ a then some (.framed a n) else none
      | _ => none
  | .load r off =>
      match p with
      | .framed a n => if r.general ∧ off ≤ a then some (.framed a n) else none
      | _ => none
  | .movImm r _ => writes p r
  | .movLabel r _ => writes p r
  | .add r _ => writes p r
  | .sub r _ => writes p r
  | .callLabel _ =>
      match p with
      | .framed a n => some (.framed a n)
      | _ => none
  | .callReg _ =>
      match p with
      | .framed a n => some (.framed a n)
      | _ => none
  | _ => none

/-- Whether `ret` is in place: with nothing done yet, or with everything undone. -/
def Phase.returns : Phase → Bool
  | .entry => true
  | .popped => true
  | _ => false

/-- Whether every instruction of a list is in place, up to a `ret` in place.  What
stands behind that `ret` is not looked at, as it is never come to: code without
branches is left at its first `ret`. -/
def accepts : Phase → List Instr → Bool
  | _, [] => false
  | p, .ret :: _ => p.returns
  | p, i :: is =>
      match advance p i with
      | some p' => accepts p' is
      | none => false

/-- `ret` ends an activation and leads to no phase of it, so that `accepts` has to
treat it on its own. -/
theorem advance_ret (p : Phase) : advance p .ret = none := by
  cases p <;> rfl

/-- An accepted list that does not return at once is one instruction in place and an
accepted rest. -/
theorem accepts_cons {p : Phase} {i : Instr} {is : List Instr} (hi : i ≠ .ret) :
    accepts p (i :: is) = true ↔ ∃ p', advance p i = some p' ∧ accepts p' is = true := by
  rw [accepts]
  · cases advance p i <;> simp
  · exact hi

/-- With the phase after the first instruction known, acceptance is a question about
the rest. -/
theorem accepts_of_advance {p p' : Phase} {i : Instr} {is : List Instr}
    (h : advance p i = some p') : accepts p (i :: is) = accepts p' is := by
  have hi : i ≠ .ret := by
    rintro rfl
    rw [advance_ret] at h
    cases h
  rw [accepts, h]
  exact hi

/-- A list that is accepted goes on being accepted with more behind it. -/
theorem accepts_append {p : Phase} {is js : List Instr} (h : accepts p is = true) :
    accepts p (is ++ js) = true := by
  induction is generalizing p with
  | nil => cases h
  | cons i is ih =>
      by_cases hi : i = .ret
      · subst hi
        exact h
      · obtain ⟨p', hp', his⟩ := (accepts_cons hi).mp h
        rw [List.cons_append, accepts_of_advance hp']
        exact ih his

/-- The phase after a list without `ret`.  Unlike `accepts` it composes, which is
how the code of a body is put together from the code of its operators. -/
def advances : Phase → List Instr → Option Phase
  | p, [] => some p
  | p, i :: is => (advance p i).bind fun p' => advances p' is

/-- An accepted list may be told piece by piece: the phases of its front, and
acceptance from there. -/
theorem accepts_of_advances {p p' : Phase} {is js : List Instr} (h : advances p is = some p') :
    accepts p (is ++ js) = accepts p' js := by
  induction is generalizing p with
  | nil =>
      cases h
      rfl
  | cons i is ih =>
      rw [advances, Option.bind_eq_some_iff] at h
      obtain ⟨q, hq, h⟩ := h
      rw [List.cons_append, accepts_of_advance hq, ih h]

/-- Two pieces of code behind each other go through the phases of the one and then
of the other. -/
theorem advances_append {p p' q : Phase} {is js : List Instr} (his : advances p is = some p')
    (hjs : advances p' js = some q) : advances p (is ++ js) = some q := by
  induction is generalizing p with
  | nil =>
      cases his
      exact hjs
  | cons i is ih =>
      rw [advances, Option.bind_eq_some_iff] at his
      obtain ⟨p₁, hp₁, his⟩ := his
      rw [List.cons_append, advances, hp₁, Option.bind_some, ih his]

/-- Taking an accepted list apart in front of its `ret`. -/
theorem exists_advances {p : Phase} {is js : List Instr} (his : .ret ∉ is)
    (h : accepts p (is ++ js) = true) :
    ∃ p', advances p is = some p' ∧ accepts p' js = true := by
  induction is generalizing p with
  | nil => exact ⟨p, rfl, h⟩
  | cons i is ih =>
      rw [List.mem_cons, not_or] at his
      obtain ⟨q, hq, h⟩ := (accepts_cons (Ne.symm his.1)).mp h
      obtain ⟨p', hp', h⟩ := ih his.2 h
      exact ⟨p', by rw [advances, hq, Option.bind_some, hp'], h⟩

/-- Accepted code has a `ret`. -/
theorem ret_mem_of_accepts {p : Phase} {is : List Instr} (h : accepts p is = true) : .ret ∈ is := by
  by_contra hret
  rw [← List.append_nil is] at h
  obtain ⟨p', -, hnil⟩ := exists_advances hret h
  cases hnil

/-- A self-move is in place everywhere. -/
theorem advance_self (p : Phase) (a : Reg) : advance p (.mov a a) = some p := by
  simp [advance]

/-! ### Which instruction is in place where

One lemma for each kind of instruction, with every way in which it can be in place.
Here, and nowhere else, `advance` is unfolded: the lemmas about states below start
from these. -/

section Inversion

variable {p p' : Phase} {r dst src : Reg}

/-- `push rbp` starts an activation; any other `push` is of an operand. -/
theorem advance_push (h : advance p (.push r) = some p') :
    (p = .entry ∧ r = .rbp ∧ p' = .saved) ∨
      ∃ a n, p = .framed a n ∧ r.general = true ∧ p' = .framed a (n + 1) := by
  cases p with
  | entry =>
      simp only [advance, Option.ite_none_right_eq_some, Option.some.injEq] at h
      exact .inl ⟨rfl, h.1, h.2.symm⟩
  | framed a n =>
      simp only [advance, Option.ite_none_right_eq_some, Option.some.injEq] at h
      exact .inr ⟨a, n, rfl, h.1, h.2.symm⟩
  | _ => cases h

/-- `pop rbp` ends an activation, also one that has set up no frame; any other `pop`
takes an operand that was pushed in this activation. -/
theorem advance_pop (h : advance p (.pop r) = some p') :
    ((p = .saved ∨ p = .reset) ∧ r = .rbp ∧ p' = .popped) ∨
      ∃ a n, p = .framed a (n + 1) ∧ r.general = true ∧ p' = .framed a n := by
  cases p with
  | saved =>
      simp only [advance, Option.ite_none_right_eq_some, Option.some.injEq] at h
      exact .inl ⟨.inl rfl, h.1, h.2.symm⟩
  | reset =>
      simp only [advance, Option.ite_none_right_eq_some, Option.some.injEq] at h
      exact .inl ⟨.inr rfl, h.1, h.2.symm⟩
  | framed a n =>
      cases n with
      | zero => cases h
      | succ n =>
          simp only [advance, Option.ite_none_right_eq_some, Option.some.injEq] at h
          exact .inr ⟨a, n, rfl, h.1, h.2.symm⟩
  | _ => cases h

/-- A move does nothing, or sets up the frame, or resets the stack, or is between
general registers. -/
theorem advance_mov (h : advance p (.mov dst src) = some p') :
    (dst = src ∧ p' = p) ∨ (p = .saved ∧ dst = .rbp ∧ src = .rsp ∧ p' = .framed 0 0) ∨
      ((p = .freed ∨ ∃ a n, p = .framed a n) ∧ dst = .rsp ∧ src = .rbp ∧ p' = .reset) ∨
      ∃ a n, p = .framed a n ∧ (dst.general = true ∧ src.general = true) ∧ p' = p := by
  by_cases heq : dst = src
  · simp only [advance, if_pos heq, Option.some.injEq] at h
    exact .inl ⟨heq, h.symm⟩
  · cases p with
    | saved =>
        simp only [advance, if_neg heq, Option.ite_none_right_eq_some, Option.some.injEq] at h
        exact .inr (.inl ⟨rfl, h.1.1, h.1.2, h.2.symm⟩)
    | freed =>
        simp only [advance, if_neg heq, Option.ite_none_right_eq_some, Option.some.injEq] at h
        exact .inr (.inr (.inl ⟨.inl rfl, h.1.1, h.1.2, h.2.symm⟩))
    | framed a n =>
        simp only [advance, if_neg heq] at h
        split_ifs at h with hgen hreset
        · exact .inr (.inr (.inr ⟨a, n, rfl, hgen, (Option.some.inj h).symm⟩))
        · exact .inr (.inr (.inl ⟨.inr ⟨a, n, rfl⟩, hreset.1, hreset.2, (Option.some.inj h).symm⟩))
    | _ => simp [advance, heq] at h

/-- A load is of a local into a general register. -/
theorem advance_load {off : ℕ} (h : advance p (.load r off) = some p') :
    ∃ a n, p = .framed a n ∧ (r.general = true ∧ off ≤ a) ∧ p' = p := by
  cases p with
  | framed a n =>
      simp only [advance, Option.ite_none_right_eq_some, Option.some.injEq] at h
      exact ⟨a, n, rfl, h.1, h.2.symm⟩
  | _ => cases h

/-- A store is to a local, and not to the word `rbp` points to. -/
theorem advance_store {off : ℕ} (h : advance p (.store off r) = some p') :
    ∃ a n, p = .framed a n ∧ (8 ≤ off ∧ off ≤ a) ∧ p' = p := by
  cases p with
  | framed a n =>
      simp only [advance, Option.ite_none_right_eq_some, Option.some.injEq] at h
      exact ⟨a, n, rfl, h.1, h.2.symm⟩
  | _ => cases h

/-- Locals are allocated once, right behind the set-up of the frame. -/
theorem advance_subRsp {m : ℕ} (h : advance p (.subRsp m) = some p') :
    p = .framed 0 0 ∧ p' = .framed m 0 := by
  cases p with
  | framed a n =>
      cases a with
      | zero =>
          cases n with
          | zero => exact ⟨rfl, (Option.some.inj h).symm⟩
          | succ n => cases h
      | succ a => cases h
  | _ => cases h

/-- Locals are freed with any number of operands left on the stack. -/
theorem advance_addRsp {m : ℕ} (h : advance p (.addRsp m) = some p') :
    ∃ a n, p = .framed a n ∧ p' = .freed := by
  cases p with
  | framed a n => exact ⟨a, n, rfl, (Option.some.inj h).symm⟩
  | _ => cases h

/-- Calls are made from inside a frame, and what is called is asked to give it back
as it was. -/
theorem advance_callLabel {l : Label} (h : advance p (.callLabel l) = some p') :
    ∃ a n, p = .framed a n ∧ p' = p := by
  cases p with
  | framed a n => exact ⟨a, n, rfl, (Option.some.inj h).symm⟩
  | _ => cases h

theorem advance_callReg (h : advance p (.callReg r) = some p') :
    ∃ a n, p = .framed a n ∧ p' = p := by
  cases p with
  | framed a n => exact ⟨a, n, rfl, (Option.some.inj h).symm⟩
  | _ => cases h

/-- Writing a general register is in place inside the frame only. -/
theorem writes_eq_some (h : writes p r = some p') :
    ∃ a n, p = .framed a n ∧ r.general = true ∧ p' = p := by
  cases p with
  | framed a n =>
      simp only [writes, Option.ite_none_right_eq_some, Option.some.injEq] at h
      exact ⟨a, n, rfl, h.1, h.2.symm⟩
  | _ => cases h

end Inversion

/-! ## What a phase means -/

/-- The state of an activation in a phase.  Addresses are compared as natural
numbers, so that `s.sp + 8 = f.top` also says that the push did not wrap around.
`framed a h` fixes the distance of `rsp` from the return address: the saved `rbp`,
`a` bytes of locals and `h` operands lie between them. -/
def InPhase (f : Frame) : Phase → State → Prop
  | .entry, s => s.mem.load f.top = f.ret ∧ s.sp = f.top ∧ s.regs .rbp = f.rbp
  | .popped, s => s.mem.load f.top = f.ret ∧ s.sp = f.top ∧ s.regs .rbp = f.rbp
  | .saved, s => s.mem.load f.top = f.ret ∧ s.mem.load (f.top - 8) = f.rbp ∧ s.sp + 8 = f.top
  | .reset, s => s.mem.load f.top = f.ret ∧ s.mem.load (f.top - 8) = f.rbp ∧ s.sp + 8 = f.top
  | .framed a h, s => s.mem.load f.top = f.ret ∧ s.mem.load (f.top - 8) = f.rbp ∧
      s.bp + 8 = f.top ∧ s.sp + (8 * h + a + 8) = f.top
  | .freed, s => s.mem.load f.top = f.ret ∧ s.mem.load (f.top - 8) = f.rbp ∧ s.bp + 8 = f.top

variable {f : Frame} {p p' : Phase} {s s' : State} {i : Instr}

/-- An address fits in a register. -/
theorem Frame.top_lt (f : Frame) : f.top < 2 ^ 64 := f.rsp.isLt

theorem Reg.general_iff {r : Reg} : r.general = true ↔ r ≠ .rsp ∧ r ≠ .rbp := by
  cases r <;> decide

/-- What was and what is at or above an address.  With `Frame.top` for the address
this is all that a caller has to know of what a callee did to memory. -/
def SameAbove (a : ℕ) (s s' : State) : Prop := ∀ x, a ≤ x → s'.mem x = s.mem x

/-- An instruction that writes no memory changes nothing above any address. -/
theorem sameAbove_of_mem {a : ℕ} (h : s'.mem = s.mem) : SameAbove a s s' := fun x _ => by rw [h]

/-- A store below an address. -/
theorem sameAbove_store {a b : ℕ} {v : Word} (h : s'.mem = s.mem.store b v) (hb : b + 8 ≤ a) :
    SameAbove a s s' := fun x hx => by
  rw [h]
  exact Mem.store_of_ge (by omega)

/-- Writing a general register changes no phase. -/
theorem InPhase.set {a n : ℕ} {r : Reg} {v : Word} (h : InPhase f (.framed a n) s)
    (hr : r.general = true) : InPhase f (.framed a n) (s.set r v) := by
  obtain ⟨hsp, hbp⟩ := Reg.general_iff.mp hr
  simpa only [InPhase, State.set_mem, State.set_sp s v hsp.symm, State.set_bp s v hbp.symm] using h

/-- And a general register tells nothing about the phase: it can be written back. -/
theorem InPhase.of_set {a n : ℕ} {r : Reg} {v : Word} (h : InPhase f (.framed a n) (s.set r v))
    (hr : r.general = true) : InPhase f (.framed a n) s := by
  obtain ⟨hsp, hbp⟩ := Reg.general_iff.mp hr
  simpa only [InPhase, State.set_mem, State.set_sp s v hsp.symm, State.set_bp s v hbp.symm] using h

/-- A `push` in place writes the word below `rsp`, which lies below the return
address.  Of an operand it lies below the locals as well, and this is where the
distance in `InPhase` is used. -/
theorem inPhase_push {r : Reg} (hp : advance p (.push r) = some p') (h : InPhase f p s)
    (hi : s.push (s.regs r) = some s') : InPhase f p' s' ∧ SameAbove f.top s s' := by
  obtain ⟨hroom, hsp, hmem, hregs⟩ := State.push_spec hi
  rcases advance_push hp with ⟨rfl, rfl, rfl⟩ | ⟨a, n, rfl, -, rfl⟩
  · obtain ⟨hret, htop, hrbp⟩ := h
    refine ⟨⟨?_, ?_, by omega⟩, sameAbove_store hmem (by omega)⟩
    · rw [hmem, Mem.load_store_of_disjoint (.inl (by omega)), hret]
    · rw [hmem, htop, Mem.load_store_self, hrbp]
  · obtain ⟨hret, hrbp, hbp, htop⟩ := h
    have hbp' : s'.bp = s.bp := by rw [State.bp, State.bp, hregs _ (by decide)]
    refine ⟨⟨?_, ?_, by omega, by omega⟩, sameAbove_store hmem (by omega)⟩
    · rw [hmem, Mem.load_store_of_disjoint (.inl (by omega)), hret]
    · rw [hmem, Mem.load_store_of_disjoint (.inl (by omega)), hrbp]

/-- A `pop` in place takes back what was pushed in this activation.  When it is
`rbp` that is popped, the word taken is the one that was saved on entry. -/
theorem inPhase_pop {r : Reg} {v : Word} (hp : advance p (.pop r) = some p') (h : InPhase f p s)
    (hi : s.pop = some (v, s')) : InPhase f p' (s'.set r v) ∧ SameAbove f.top s (s'.set r v) := by
  have htop := f.top_lt
  obtain ⟨hle, rfl, rfl⟩ := State.pop_spec hi
  refine ⟨?_, sameAbove_of_mem rfl⟩
  rcases advance_pop hp with ⟨hq, rfl, rfl⟩ | ⟨a, n, rfl, hr, rfl⟩
  · obtain ⟨hret, hrbp, hsp⟩ : s.mem.load f.top = f.ret ∧ s.mem.load (f.top - 8) = f.rbp ∧
        s.sp + 8 = f.top := by
      clear hp
      rcases hq with rfl | rfl <;> exact h
    refine ⟨hret, ?_, ?_⟩
    · rw [State.set_sp _ _ (by decide)]
      exact (s.sp_set_add (n := 8) (by omega)).trans hsp
    · rw [State.set_regs_self, ← hrbp, ← hsp, Nat.add_sub_cancel]
  · obtain ⟨hret, hrbp, hbp, hsp⟩ := h
    refine InPhase.set ⟨hret, hrbp, ?_, ?_⟩ hr
    · rw [State.set_bp _ _ (by decide)]
      exact hbp
    · have := s.sp_set_add (n := 8) (by omega)
      change (s.set .rsp (s.regs .rsp + 8)).sp + _ = _
      rw [show s.regs .rsp + 8 = s.regs .rsp + BitVec.ofNat 64 8 from rfl, this]
      omega

/-- A move in place: the frame is set up from `rsp`, or `rsp` is reset from `rbp`,
or neither is touched. -/
theorem inPhase_mov {dst src : Reg} (hp : advance p (.mov dst src) = some p')
    (h : InPhase f p s) : InPhase f p' (s.set dst (s.regs src)) := by
  rcases advance_mov hp with ⟨rfl, rfl⟩ | ⟨rfl, rfl, rfl, rfl⟩ | ⟨hq, rfl, rfl, rfl⟩ |
    ⟨a, n, rfl, ⟨hr, -⟩, rfl⟩
  · have hself : s.set dst (s.regs dst) = s := by
      rw [State.set, Function.update_eq_self]
    rwa [hself]
  · obtain ⟨hret, hrbp, hsp⟩ := h
    refine ⟨hret, hrbp, ?_, ?_⟩
    · rw [State.bp, State.set_regs_self]
      exact hsp
    · rw [State.set_sp _ _ (by decide)]
      omega
  · have h : s.mem.load f.top = f.ret ∧ s.mem.load (f.top - 8) = f.rbp ∧ s.bp + 8 = f.top := by
      clear hp
      rcases hq with rfl | ⟨a, n, rfl⟩
      · exact h
      · exact ⟨h.1, h.2.1, h.2.2.1⟩
    refine ⟨h.1, h.2.1, ?_⟩
    rw [State.sp, State.set_regs_self]
    exact h.2.2
  · exact h.set hr

/-- **One instruction of an activation.**  If it is in place, the state after it is
one of the phase it leads to, and memory at and above the return address is as it
was.  Calls and `ret` are not executed by `exec`, so that this is about an
activation's own instructions. -/
theorem inPhase_exec (hp : advance p i = some p') (h : InPhase f p s) (hi : exec i s = some s') :
    InPhase f p' s' ∧ SameAbove f.top s s' := by
  have htop := f.top_lt
  have hset : ∀ {r : Reg} {v : Word}, writes p r = some p' → s' = s.set r v →
      InPhase f p' s' ∧ SameAbove f.top s s' := by
    rintro r v hw rfl
    obtain ⟨a, n, rfl, hr, rfl⟩ := writes_eq_some hw
    exact ⟨h.set hr, sameAbove_of_mem rfl⟩
  cases i with
  | nop =>
      cases hp
      cases hi
      exact ⟨h, sameAbove_of_mem rfl⟩
  | push r => exact inPhase_push hp h hi
  | pop r =>
      obtain ⟨⟨v, s₁⟩, hpop, rfl⟩ := Option.map_eq_some_iff.mp hi
      exact inPhase_pop hp h hpop
  | mov dst src =>
      cases hi
      exact ⟨inPhase_mov hp h, sameAbove_of_mem rfl⟩
  | movImm r v =>
      cases hi
      exact hset hp rfl
  | add dst src =>
      cases hi
      exact hset hp rfl
  | sub dst src =>
      cases hi
      exact hset hp rfl
  | load r off =>
      obtain ⟨a, n, rfl, ⟨hr, -⟩, rfl⟩ := advance_load hp
      obtain ⟨v, -, rfl⟩ := Option.map_eq_some_iff.mp hi
      exact ⟨h.set hr, sameAbove_of_mem rfl⟩
  | store off r =>
      obtain ⟨a, n, rfl, ⟨h8, hoff⟩, rfl⟩ := advance_store hp
      obtain ⟨hret, hrbp, hbp, hsp⟩ := h
      rw [exec_store r (by omega) (by omega)] at hi
      cases hi
      refine ⟨⟨?_, ?_, hbp, hsp⟩, sameAbove_store rfl (by omega)⟩
      · exact (Mem.load_store_of_disjoint (.inl (by omega))).trans hret
      · exact (Mem.load_store_of_disjoint (.inl (by omega))).trans hrbp
  | subRsp n =>
      obtain ⟨rfl, rfl⟩ := advance_subRsp hp
      obtain ⟨hret, hrbp, hbp, hsp⟩ := h
      simp only [exec, Option.ite_none_right_eq_some, Option.some.injEq] at hi
      obtain ⟨hroom, rfl⟩ := hi
      refine ⟨⟨hret, hrbp, ?_, ?_⟩, sameAbove_of_mem rfl⟩
      · rw [State.set_bp _ _ (by decide)]
        exact hbp
      · rw [s.sp_set_sub hroom]
        omega
  | addRsp n =>
      obtain ⟨a, m, rfl, rfl⟩ := advance_addRsp hp
      cases hi
      obtain ⟨hret, hrbp, hbp, -⟩ := h
      refine ⟨⟨hret, hrbp, ?_⟩, sameAbove_of_mem rfl⟩
      rw [State.set_bp _ _ (by decide)]
      exact hbp
  | movLabel r l => cases hi
  | callLabel l => cases hi
  | callReg r => cases hi
  | _ => cases hp

end ParaOS.X86
