import Mathlib.Logic.Relation
import ParaOS.X86.Frame

/-!
# Programs with calls and returns

A program is an instruction list with addresses for its instructions and places
for its labels.  `call` pushes the address of the next instruction and goes to
the label, `ret` pops an address and goes to the instruction there, whatever was
pushed at that place: nothing but memory says where it goes.  Code that is not
part of the program is entered by `call` through a register and is a relation
between the state it is entered in and the state it returns in (`env`).

Next to the machine state a configuration has the frames of the activations that
have not returned, which no step reads.  They are there to say what should
happen: at a `ret` the address popped and `rbp` are those of the call
(`Intact`).  `intact_of_reach` shows that they are, for programs whose labels
stand before code that keeps to the frame discipline of `accepts`.

### The three design decisions

**Returns are not believed.**  `Step.ret` takes whatever word it finds at the top of
the stack and goes to the instruction with that address.  Had the step popped a
frame and gone where that says, control flow would be intact by definition.  The
frames are a ghost beside the machine, and `Intact` compares the two.

**Code outside is a relation.**  An imported function, or the kernel, is entered
with its return address on the stack and comes back in some state, or does not come
back at all.  What it may do is a hypothesis of the theorems (`WellBehaved`), and
not of the machine.

**A return out of the program is not a step.**  The outermost activation was called
from somewhere else; its `ret` has a configuration in front of it, at which `Intact`
can be asked, but none behind it.

### What is load-bearing

`WellBehaved.mem` says that outside code leaves the stack of its callers alone, up
to `top`.  Without it an import could write a return address of its own choice, and
nothing would hold of any `ret` afterwards.  It may do as it likes below `rsp`, and
above the end of the stack.

`Program.Separate` says that different instructions have different addresses.  It is
true of every assembled program and used for one thing: the address a call pushed is
the address of one place.

`Program.Disciplined` asks of the labels that are called, and of no other code, that
they stand before code that keeps to its frame.
-/

namespace ParaOS.X86

open Machine

/-! ## The machine

The program does not change while it runs, and its instructions are found by index.
Addresses come in only where an instruction makes one, which is `call`, or uses one,
which is `ret`. -/

/-- A loaded program. -/
structure Program where
  code : List Instr
  /-- the index of the instruction a label stands before -/
  target : Label → Option ℕ
  /-- the address of the instruction at an index -/
  address : ℕ → Word
  /-- the word at a label -/
  word : Label → Word

/-- The instruction at an address.  Data in front of an instruction may have the
same address, as a place without bytes does, and is passed over. -/
def Program.indexAt (P : Program) (w : Word) : Option ℕ :=
  (List.range P.code.length).find? fun k =>
    (P.code[k]?.any fun i => !isData i) && P.address k == w

/-- Different instructions have different addresses.  Data is left out of this, for
a label's place has none of its own. -/
def Program.Separate (P : Program) : Prop :=
  ∀ (j k : ℕ) (i i' : Instr), P.code[j]? = some i → P.code[k]? = some i' → isData i = false →
    isData i' = false → P.address j = P.address k → j = k

/-- A configuration: the index of the next instruction, the machine state, and the
frames of active calls from the innermost outwards.  No step reads the frames; they
are the record that `Intact` compares with. -/
structure Cfg where
  pc : ℕ
  state : State
  frames : List Frame

/-- Code outside the program, by the address it is entered at: the state on entry,
with the return address pushed, and the state after its return.  Being a relation it
may be anything from a fixed function to a call that never returns. -/
abbrev Env := Word → State → State → Prop

/-- One step.  `prim` is any instruction that `exec` has a meaning for; the others
are those that name a label or transfer control.  The return of the outermost call
leaves the program, and there is no step for it. -/
inductive Step (P : Program) (env : Env) : Cfg → Cfg → Prop where
  | prim {pc : ℕ} {s s' : State} {fs : List Frame} {i : Instr} :
      P.code[pc]? = some i → exec i s = some s' → Step P env ⟨pc, s, fs⟩ ⟨pc + 1, s', fs⟩
  | word {pc : ℕ} {s : State} {fs : List Frame} {r : Reg} {l : Label} :
      P.code[pc]? = some (.movLabel r l) →
      Step P env ⟨pc, s, fs⟩ ⟨pc + 1, s.set r (P.word l), fs⟩
  | call {pc k : ℕ} {s s' : State} {fs : List Frame} {l : Label} :
      P.code[pc]? = some (.callLabel l) → P.target l = some k →
      s.push (P.address (pc + 1)) = some s' →
      Step P env ⟨pc, s, fs⟩ ⟨k, s', ⟨P.address (pc + 1), s.regs .rbp, s'.regs .rsp⟩ :: fs⟩
  | outside {pc : ℕ} {s s₁ s₂ : State} {fs : List Frame} {r : Reg} :
      P.code[pc]? = some (.callReg r) → s.push (P.address (pc + 1)) = some s₁ →
      env (s.regs r) s₁ s₂ → Step P env ⟨pc, s, fs⟩ ⟨pc + 1, s₂, fs⟩
  | ret {pc k : ℕ} {s s' : State} {f g : Frame} {fs : List Frame} {w : Word} :
      P.code[pc]? = some .ret → s.pop = some (w, s') → P.indexAt w = some k →
      Step P env ⟨pc, s, f :: g :: fs⟩ ⟨k, s', g :: fs⟩

/-- Configurations that come up in a run, of any length and from any configuration.
-/
def Reach (P : Program) (env : Env) : Cfg → Cfg → Prop := Relation.ReflTransGen (Step P env)

/-- A call from outside: the caller has pushed its return address. -/
def Cfg.call (pc : ℕ) (s : State) : Cfg :=
  ⟨pc, s, [⟨s.mem.load s.sp, s.regs .rbp, s.regs .rsp⟩]⟩

/-- If the next instruction is `ret`, it goes to the instruction after the call
that entered the activation, with `rbp` as it was on entry and `rsp` eight above
its value then. -/
def Intact (P : Program) (c : Cfg) : Prop :=
  P.code[c.pc]? = some .ret → ∀ w s', c.state.pop = some (w, s') →
    ∃ f fs, c.frames = f :: fs ∧ w = f.ret ∧ s'.regs .rbp = f.rbp ∧ s'.regs .rsp = f.rsp + 8

/-- Outside code returns to its caller with `rbp` and `rsp` restored, and leaves
alone what is on the stack, which ends at `top`.  This is the part of the calling
convention that compiled code relies on; the other registers are free. -/
structure WellBehaved (env : Env) (top : ℕ) : Prop where
  rsp : ∀ a s s', env a s s' → s'.regs .rsp = s.regs .rsp + 8
  rbp : ∀ a s s', env a s s' → s'.regs .rbp = s.regs .rbp
  mem : ∀ a s s' x, env a s s' → s.sp ≤ x → x < top → s'.mem x = s.mem x

/-- Every label that is called stands before code that keeps to its frame. -/
def Program.Disciplined (P : Program) : Prop :=
  ∀ (pc k : ℕ) (l : Label), P.code[pc]? = some (.callLabel l) → P.target l = some k →
    accepts .entry (P.code.drop k) = true

/-! ## Addresses -/

variable {P : Program} {env : Env}

/-- Where addresses are separate, the address of an instruction leads back to it. -/
theorem Program.Separate.indexAt (h : P.Separate) {k : ℕ} {i : Instr} (hi : P.code[k]? = some i)
    (hdata : isData i = false) : P.indexAt (P.address k) = some k := by
  obtain ⟨hlt, -⟩ := List.getElem?_eq_some_iff.mp hi
  rw [Program.indexAt]
  cases hfind : (List.range P.code.length).find? fun k' =>
      (P.code[k']?.any fun i => !isData i) && P.address k' == P.address k with
  | none =>
      have := List.find?_eq_none.mp hfind k (List.mem_range.mpr hlt)
      simp [hi, hdata] at this
  | some j =>
      have hj := List.find?_some hfind
      simp only [Bool.and_eq_true, Option.any_eq_true, Bool.not_eq_true', beq_iff_eq] at hj
      obtain ⟨⟨i', hi', hdata'⟩, haddr⟩ := hj
      rw [h j k i' i hi' hi hdata' hdata haddr]

/-- Accepted code starts with an instruction. -/
theorem exists_of_accepts {p : Phase} {k : ℕ} (h : accepts p (P.code.drop k) = true) :
    ∃ i, P.code[k]? = some i ∧ P.code.drop k = i :: P.code.drop (k + 1) ∧ isData i = false := by
  cases hdrop : P.code.drop k with
  | nil =>
      rw [hdrop] at h
      cases h
  | cons i is =>
      have hi : P.code[k]? = some i := by
        rw [← List.head?_drop, hdrop, List.head?_cons]
      have his : is = P.code.drop (k + 1) := by
        rw [← List.tail_drop, hdrop, List.tail_cons]
      refine ⟨i, hi, by rw [his], ?_⟩
      rw [hdrop] at h
      cases i with
      | dq v => cases p <;> cases h
      | zeroBytes => cases p <;> cases h
      | _ => rfl

/-! ## The invariant

A run is in many activations at once, of which one is executing.  For that one there
is a phase; each of the others is where its call left it, behind the call and inside
its frame, and all of this is read off a memory that the innermost activation writes
to.  What makes it an invariant is that it writes below them only. -/

/-- The callers of an activation, suspended: each of them goes on behind its call
with the stack as it left it.  The last two equations tie the frames together: the
callee was entered with the caller's `rbp`, and its return address lies right below
the caller's operands. -/
def Suspended (P : Program) (m : Mem) : Frame → List Frame → Prop
  | _, [] => True
  | f, g :: fs =>
      (∃ k a n, f.ret = P.address k ∧ accepts (.framed a n) (P.code.drop k) = true ∧
        m.load g.top = g.ret ∧ m.load (g.top - 8) = g.rbp ∧ f.rbp.toNat + 8 = g.top ∧
        f.top + 8 + (8 * n + a + 8) = g.top) ∧ Suspended P m g fs

/-- The invariant of a run: the innermost activation is in some phase, the others
are suspended, and all of them are on the stack.  Everything the theorem needs at a
`ret` is here, and nothing about operands or locals. -/
structure Running (P : Program) (top : ℕ) (c : Cfg) (f : Frame) (fs : List Frame) (p : Phase) :
    Prop where
  frames : c.frames = f :: fs
  accepts : accepts p (P.code.drop c.pc) = true
  inPhase : InPhase f p c.state
  suspended : Suspended P c.state.mem f fs
  below : ∀ g ∈ f :: fs, g.top + 8 ≤ top

/-- Callers do not notice what happens below them: their own words and the frame
words above are read at or above the top of the innermost frame, and nothing else
is. -/
theorem Suspended.congr {m m' : Mem} {f : Frame} {fs : List Frame} {top : ℕ}
    (h : Suspended P m f fs) (hbelow : ∀ g ∈ fs, g.top + 8 ≤ top)
    (heq : ∀ x, f.top ≤ x → x < top → m' x = m x) : Suspended P m' f fs := by
  induction fs generalizing f with
  | nil => trivial
  | cons g fs ih =>
      obtain ⟨⟨k, a, n, hret, hacc, hload, hsaved, hrbp, htop⟩, hrest⟩ := h
      rw [List.forall_mem_cons] at hbelow
      refine ⟨⟨k, a, n, hret, hacc, ?_, ?_, hrbp, htop⟩, ?_⟩
      · rw [← hload]
        exact Mem.load_congr fun x hx hx' => heq x (by omega) (by omega)
      · rw [← hsaved]
        exact Mem.load_congr fun x hx hx' => heq x (by omega) (by omega)
      · exact ih hrest hbelow.2 fun x hx hx' => heq x (by omega) hx'

variable {top : ℕ} {c c' : Cfg} {f : Frame} {fs : List Frame} {p : Phase}

/-- The callers' frames lie on the stack. -/
theorem Running.below_tail (h : Running P top c f fs p) : ∀ g ∈ fs, g.top + 8 ≤ top :=
  fun g hg => h.below g (List.mem_cons_of_mem _ hg)

/-- The code behind an instruction in place is in place in the phase it leads to. -/
theorem Running.accepts_next {p' : Phase} {i : Instr} (h : Running P top c f fs p)
    (hi : P.code[c.pc]? = some i) (hp : advance p i = some p') :
    X86.accepts p' (P.code.drop (c.pc + 1)) = true := by
  obtain ⟨j, hj, hdrop, -⟩ := exists_of_accepts h.accepts
  rw [hi] at hj
  cases hj
  have hacc := h.accepts
  rwa [hdrop, accepts_of_advance hp] at hacc

/-- An instruction of the innermost activation.  It changes that activation's phase,
and memory below its return address, and so nothing that a suspended activation has.
-/
theorem Running.advance {p' : Phase} {i : Instr} {s' : State} (h : Running P top c f fs p)
    (hi : P.code[c.pc]? = some i) (hp : advance p i = some p')
    (hs : InPhase f p' s' ∧ SameAbove f.top c.state s') :
    Running P top ⟨c.pc + 1, s', c.frames⟩ f fs p' :=
  ⟨h.frames, h.accepts_next hi hp, hs.1,
    h.suspended.congr h.below_tail fun x hx _ => hs.2 x hx, h.below⟩

/-- What is next is in place, or a `ret` in place. -/
theorem Running.exists_advance {i : Instr} (h : Running P top c f fs p)
    (hi : P.code[c.pc]? = some i) :
    (i = .ret ∧ p.returns = true) ∨ ∃ p', X86.advance p i = some p' := by
  obtain ⟨j, hj, hdrop, -⟩ := exists_of_accepts h.accepts
  rw [hi] at hj
  cases hj
  have hacc := h.accepts
  rw [hdrop] at hacc
  by_cases hret : i = .ret
  · subst hret
    exact .inl ⟨rfl, hacc⟩
  · obtain ⟨p', hp', -⟩ := (accepts_cons hret).mp hacc
    exact .inr ⟨p', hp'⟩

/-- Where `ret` is in place, the return address is on top of the stack and `rbp` is
as it was on entry. -/
theorem inPhase_returns {s : State} (hp : p.returns = true) (h : InPhase f p s) :
    s.mem.load f.top = f.ret ∧ s.sp = f.top ∧ s.regs .rbp = f.rbp := by
  cases p with
  | entry => exact h
  | popped => exact h
  | _ => cases hp

/-- A call enters its callee. -/
theorem inPhase_entry {s s' : State} {w : Word} (hs : s.push w = some s') :
    InPhase ⟨w, s.regs .rbp, s'.regs .rsp⟩ .entry s' := by
  obtain ⟨-, hsp, hmem, hregs⟩ := State.push_spec hs
  refine ⟨?_, rfl, hregs _ (by decide)⟩
  rw [hmem]
  change (Mem.store _ _ _).load s'.sp = _
  rw [hsp, Mem.load_store_self]

/-- A call suspends the caller behind it.  The caller was inside its frame, as a
call is in place there only, and what it pushes is the address of the instruction it
is going to go on with. -/
theorem Running.call {l : Label} {k : ℕ} {s' : State} (hP : P.Disciplined)
    (h : Running P top c f fs p) (hi : P.code[c.pc]? = some (.callLabel l))
    (hk : P.target l = some k) (hs : c.state.push (P.address (c.pc + 1)) = some s') :
    Running P top ⟨k, s', ⟨P.address (c.pc + 1), c.state.regs .rbp, s'.regs .rsp⟩ :: c.frames⟩
      ⟨P.address (c.pc + 1), c.state.regs .rbp, s'.regs .rsp⟩ (f :: fs) .entry := by
  rcases h.exists_advance hi with ⟨hret, -⟩ | ⟨p', hp'⟩
  · cases hret
  · obtain ⟨a, n, rfl, rfl⟩ := advance_callLabel hp'
    obtain ⟨hroom, hsp, hmem, hregs⟩ := State.push_spec hs
    obtain ⟨hret, hrbp, hbp, htop⟩ := h.inPhase
    have hacc := h.accepts_next hi hp'
    have habove : SameAbove c.state.sp c.state s' := sameAbove_store hmem (by omega)
    have hle := h.below f List.mem_cons_self
    refine ⟨by rw [h.frames], hP _ _ _ hi hk, inPhase_entry hs,
      ⟨⟨c.pc + 1, a, n, rfl, hacc, ?_, ?_, hbp, ?_⟩, ?_⟩, ?_⟩
    · rw [← hret]
      exact Mem.load_congr fun x hx _ => habove x (by omega)
    · rw [← hrbp]
      exact Mem.load_congr fun x hx _ => habove x (by omega)
    · change s'.sp + 8 + _ = _
      omega
    · exact h.suspended.congr h.below_tail fun x hx _ => habove x (by omega)
    · refine List.forall_mem_cons.mpr ⟨?_, h.below⟩
      change s'.sp + 8 ≤ top
      omega

/-- A call that has returned: the pointers are as before it, and so is the stack.
It is stated without regard to who was called, and used for outside code and for
activations of the program alike. -/
structure Kept (top : ℕ) (s s' : State) : Prop where
  rsp : s'.regs .rsp = s.regs .rsp
  rbp : s'.regs .rbp = s.regs .rbp
  mem : ∀ x, s.sp ≤ x → x < top → s'.mem x = s.mem x

/-- What a call leaves behind, from its callee: the return address is popped. -/
theorem Kept.of_call {s s₁ s₂ : State} {w : Word} (hs : s.push w = some s₁)
    (hrsp : s₂.regs .rsp = s₁.regs .rsp + 8) (hrbp : s₂.regs .rbp = s₁.regs .rbp)
    (hmem : ∀ x, s₁.sp + 8 ≤ x → x < top → s₂.mem x = s₁.mem x) : Kept top s s₂ := by
  obtain ⟨hroom, hsp, hstore, hregs⟩ := State.push_spec hs
  have hlt := s.sp_lt
  refine ⟨?_, by rw [hrbp, hregs _ (by decide)], fun x hx hx' => ?_⟩
  · apply BitVec.eq_of_toNat_eq
    rw [hrsp]
    have := s₁.sp_set_add (n := 8) (by omega)
    simp only [State.sp, State.set_regs_self] at this hsp hroom
    rw [show s₁.regs .rsp + 8 = s₁.regs .rsp + BitVec.ofNat 64 8 from rfl, this, hsp]
    omega
  · rw [hmem x (by omega) hx', hstore, Mem.store_of_ge (by omega)]

/-- Outside code comes back to its caller. -/
theorem WellBehaved.kept {a w : Word} {s s₁ s₂ : State} (henv : WellBehaved env top)
    (hs : s.push w = some s₁) (hout : env a s₁ s₂) : Kept top s s₂ :=
  .of_call hs (henv.rsp _ _ _ hout) (henv.rbp _ _ _ hout) fun x hx hx' =>
    henv.mem _ _ _ x hout (by omega) hx'

/-- The stack pointer, as an address. -/
theorem Kept.sp {s s' : State} (h : Kept top s s') : s'.sp = s.sp := by
  rw [State.sp, State.sp, h.rsp]

/-- The frame pointer, as an address. -/
theorem Kept.bp {s s' : State} (h : Kept top s s') : s'.bp = s.bp := by
  rw [State.bp, State.bp, h.rbp]

/-- An activation goes on where it was before a call. -/
theorem Kept.inPhase {s s' : State} {a n : ℕ} (h : Kept top s s') (hle : f.top + 8 ≤ top)
    (hin : InPhase f (.framed a n) s) : InPhase f (.framed a n) s' := by
  obtain ⟨hret, hrbp, hbp, htop⟩ := hin
  refine ⟨?_, ?_, by rw [h.bp, hbp], by rw [h.sp, htop]⟩
  · rw [← hret]
    exact Mem.load_congr fun x hx hx' => h.mem x (by omega) (by omega)
  · rw [← hrbp]
    exact Mem.load_congr fun x hx hx' => h.mem x (by omega) (by omega)

/-- Outside code comes back into the same activation, which goes on in the phase it
was in. -/
theorem Running.outside {r : Reg} {s₁ s₂ : State} (henv : WellBehaved env top)
    (h : Running P top c f fs p) (hi : P.code[c.pc]? = some (.callReg r))
    (hs : c.state.push (P.address (c.pc + 1)) = some s₁)
    (hout : env (c.state.regs r) s₁ s₂) : Running P top ⟨c.pc + 1, s₂, c.frames⟩ f fs p := by
  rcases h.exists_advance hi with ⟨hret, -⟩ | ⟨p', hp'⟩
  · cases hret
  · obtain ⟨a, n, rfl, rfl⟩ := advance_callReg hp'
    have hkept := henv.kept hs hout
    have htop := h.inPhase.2.2.2
    exact ⟨h.frames, h.accepts_next hi hp', hkept.inPhase (h.below f List.mem_cons_self) h.inPhase,
      h.suspended.congr h.below_tail fun x hx hx' => hkept.mem x (by omega) hx', h.below⟩

/-- A return goes on with the caller.  The address popped is that of the instruction
behind the call, and since addresses are separate, it is there that the program goes
on. -/
theorem Running.ret {g : Frame} {k : ℕ} {w : Word} {s' : State} (hP : P.Separate)
    (h : Running P top c f (g :: fs) p) (hp : p.returns = true)
    (hs : c.state.pop = some (w, s')) (hk : P.indexAt w = some k) :
    ∃ a n, Running P top ⟨k, s', g :: fs⟩ g fs (.framed a n) := by
  obtain ⟨hret, hsp, hrbp⟩ := inPhase_returns hp h.inPhase
  obtain ⟨⟨k', a, n, hk', hacc, hload, hsaved, hbp, htop⟩, hrest⟩ := h.suspended
  have hlt := g.top_lt
  obtain ⟨-, rfl, rfl⟩ := State.pop_spec hs
  obtain ⟨i, hi, -, hdata⟩ := exists_of_accepts hacc
  have hkk : k = k' := by
    rw [hsp, hret, hk', hP.indexAt hi hdata] at hk
    exact (Option.some.inj hk).symm
  subst hkk
  refine ⟨a, n, rfl, hacc, ⟨hload, hsaved, ?_, ?_⟩, hrest, h.below_tail⟩
  · rw [State.set_bp _ _ (by decide), State.bp, hrbp]
    exact hbp
  · have := c.state.sp_set_add (n := 8) (by omega)
    change (c.state.set .rsp (c.state.regs .rsp + BitVec.ofNat 64 8)).sp + _ = _
    rw [this, hsp]
    exact htop

/-- **The invariant is kept by every step.**  One case for each kind of step; calls
and returns are the two that change which activation is innermost. -/
theorem Running.step (hP : P.Disciplined) (hsep : P.Separate) (henv : WellBehaved env top)
    (h : Running P top c f fs p) (hstep : Step P env c c') :
    ∃ f' fs' p', Running P top c' f' fs' p' := by
  cases hstep with
  | @prim pc s s' _ i hi hs =>
      rcases h.exists_advance hi with ⟨rfl, -⟩ | ⟨p', hp'⟩
      · cases hs
      · exact ⟨f, fs, p', h.advance hi hp' (inPhase_exec hp' h.inPhase hs)⟩
  | @word pc s _ r l hi =>
      rcases h.exists_advance hi with ⟨hret, -⟩ | ⟨p', hp'⟩
      · cases hret
      · obtain ⟨a, n, rfl, hr, rfl⟩ := writes_eq_some hp'
        exact ⟨f, fs, _, h.advance hi hp' ⟨h.inPhase.set hr, sameAbove_of_mem rfl⟩⟩
  | @call pc k s s' _ l hi hk hs => exact ⟨_, _, _, h.call hP hi hk hs⟩
  | @outside pc s s₁ s₂ _ r hi hs hout => exact ⟨f, fs, p, h.outside henv hi hs hout⟩
  | @ret pc k s s' f₁ g gs w hi hs hk =>
      rcases h.exists_advance hi with ⟨-, hp⟩ | ⟨p', hp'⟩
      · cases h.frames
        obtain ⟨a, n, h'⟩ := h.ret hsep hp hs hk
        exact ⟨g, gs, _, h'⟩
      · rw [advance_ret] at hp'
        cases hp'

/-- And it is what is asked for: `ret` is in place only where the words of the call
are on top of the stack. -/
theorem Running.intact (h : Running P top c f fs p) : Intact P c := by
  intro hi w s' hs
  refine ⟨f, fs, h.frames, ?_⟩
  rcases h.exists_advance hi with ⟨-, hp⟩ | ⟨p', hp'⟩
  · obtain ⟨hret, hsp, hrbp⟩ := inPhase_returns hp h.inPhase
    obtain ⟨-, rfl, rfl⟩ := State.pop_spec hs
    refine ⟨by rw [hsp, hret], ?_, ?_⟩
    · rw [State.set_regs_of_ne _ _ (by decide), hrbp]
    · rw [State.set_regs_self, BitVec.eq_of_toNat_eq hsp]
  · rw [advance_ret] at hp'
    cases hp'

/-- **The invariant holds in every run** of code that keeps to its frame, called
with the stack ending at `top`.  The induction is over the run, of whatever length,
and the number of active calls is not bounded. -/
theorem running_of_reach (hP : P.Disciplined) (hsep : P.Separate) (henv : WellBehaved env top)
    {k : ℕ} {s : State} (hk : accepts .entry (P.code.drop k) = true) (htop : s.sp + 8 ≤ top)
    (h : Reach P env (.call k s) c) : ∃ f fs p, Running P top c f fs p := by
  have hstart : Running P top (.call k s) ⟨s.mem.load s.sp, s.regs .rbp, s.regs .rsp⟩ [] .entry :=
    ⟨rfl, hk, ⟨rfl, rfl, rfl⟩, trivial, List.forall_mem_cons.mpr ⟨htop, by simp⟩⟩
  induction h with
  | refl => exact ⟨_, _, _, hstart⟩
  | tail _ hstep ih =>
      obtain ⟨f, fs, p, h⟩ := ih
      exact h.step hP hsep henv hstep

/-- **Control flow is intact in every run**: in a program whose called labels
stand before code that keeps to its frame, every `ret` that comes up in a run of
such code goes back to its call, with `rbp` and `rsp` as they should be. -/
theorem intact_of_reach (hP : P.Disciplined) (hsep : P.Separate) (henv : WellBehaved env top)
    {k : ℕ} {s : State} (hk : accepts .entry (P.code.drop k) = true) (htop : s.sp + 8 ≤ top)
    (h : Reach P env (.call k s) c) : Intact P c := by
  obtain ⟨f, fs, p, h⟩ := running_of_reach hP hsep henv hk htop h
  exact h.intact

end ParaOS.X86
