import ParaOS.Parawasm.Instructions

/-!
# The operand stack on the machine stack

The code `handle_instruction` emits keeps the WebAssembly operand stack on the
machine stack, top at `rsp`, and local `i` in the word at `rbp - locals[i]`
(`Represents`).  The question is whether running the code of a sequence of operators
keeps up with the sequence.

It does not for `i64.sub`: the emitted code pops the top of the stack into `rax` and
the operand below it into `rbx`, and computes `rax - rbx`, which is the difference
the other way round.  `emittedStep` is what the code does; the code simulates that
exactly (`sim_emittedStep`), and the two readings of a sequence agree at every point
exactly when each subtraction it comes to has operands `a`, `b` with `a - b = b - a`
(`operands_simulated_iff`).

### What is load-bearing

Slots lie beyond the operands and are apart (`SlotsAbove`).  Both are properties of
the table that `compile` makes, for some functions and not for others
(`ParaOS.Parawasm.Slots`); here they are assumed, and what is left is about operators
alone.

The depth of the stack is the same in both readings of an operator
(`emittedStep_of_step`).  This is what makes the condition necessary and not only
sufficient: two WebAssembly states with the same depth that one machine state
represents are equal (`Represents.unique`), so a difference that comes out the wrong
way round cannot be hidden behind another one.

Prefixes, and not only the whole sequence.  After a wrong difference a later
operator may drop it again, and the code would have kept up at the end; what is asked
is that it keeps up at every point.
-/

namespace ParaOS.Parawasm

open Machine X86 Wasm

/-! ## Representation

A machine state may represent many WebAssembly states, of different depths.  `Sim`
fixes the depth. -/

/-- A machine state represents a WebAssembly state: the operands are the words
from `rsp` upwards, and each local is the word in its slot. -/
structure Represents (locals : List ℕ) (s : X86.State) (w : Wasm.State) : Prop where
  stack : s.mem.WordsAt s.sp w.stack
  length : w.locals.length = locals.length
  slots : ∀ (i off : ℕ) (v : Word), locals[i]? = some off → w.locals[i]? = some v →
    s.mem.load (s.slot off) = v

/-- The slots of the locals are pairwise disjoint and lie in the frame, at or
above `base`, where the operand stack ends. -/
structure SlotsAbove (locals : List ℕ) (base bp : ℕ) : Prop where
  below : base ≤ bp
  inFrame : ∀ off ∈ locals, off ≤ bp ∧ base ≤ bp - off ∧ bp - off + 8 ≤ 2 ^ 64
  disjoint : locals.Pairwise fun a b => a + 8 ≤ b ∨ b + 8 ≤ a

/-- Representation together with the layout that keeps it: the operands fill the
words between `rsp` and `base`, the slots are beyond. -/
structure Sim (locals : List ℕ) (base : ℕ) (s : X86.State) (w : Wasm.State) : Prop where
  rep : Represents locals s w
  top : s.sp + 8 * w.stack.length = base
  frame : SlotsAbove locals base s.bp

variable {locals : List ℕ} {base : ℕ} {s s' : X86.State} {st ls : List Word} {v : Word}

/-- Two different entries of a disjoint table are eight bytes apart. -/
theorem SlotsAbove.apart {bp i j a b : ℕ} (h : SlotsAbove locals base bp)
    (hi : locals[i]? = some a) (hj : locals[j]? = some b) (hij : i ≠ j) :
    a + 8 ≤ b ∨ b + 8 ≤ a := by
  obtain ⟨hi', rfl⟩ := List.getElem?_eq_some_iff.mp hi
  obtain ⟨hj', rfl⟩ := List.getElem?_eq_some_iff.mp hj
  rcases Nat.lt_or_gt_of_ne hij with hlt | hgt
  · exact List.pairwise_iff_getElem.mp h.disjoint i j hi' hj' hlt
  · exact (List.pairwise_iff_getElem.mp h.disjoint j i hj' hi' hgt).symm

/-- The operands end at an address. -/
theorem Sim.base_lt {w : Wasm.State} (h : Sim locals base s w) : base < 2 ^ 64 :=
  lt_of_le_of_lt h.frame.below s.bp_lt

/-- Every local has a slot. -/
theorem Sim.slot_of_local {w : Wasm.State} (h : Sim locals base s w) {i : ℕ}
    (hv : w.locals[i]? = some v) : locals[i]? = some (locals[i]?.getD 0) := by
  have hlt : i < locals.length := by
    rw [← h.rep.length]
    exact (List.getElem?_eq_some_iff.mp hv).1
  rw [List.getElem?_eq_getElem hlt, Option.getD_some]

/-! ## What single instructions do to the representation

Five lemmas, for the instructions that touch the stack or a slot.  Others do not
change what is represented. -/

/-- The representation reads memory, `rsp` and `rbp` only. -/
theorem Sim.set {w : Wasm.State} (h : Sim locals base s w) {r : Reg} (hsp : Reg.rsp ≠ r)
    (hbp : Reg.rbp ≠ r) (v : Word) : Sim locals base (s.set r v) w where
  rep :=
    { stack := by simpa [hsp] using h.rep.stack
      length := h.rep.length
      slots := fun i off v hi hv => by
        simpa [State.slot, hbp] using h.rep.slots i off v hi hv }
  top := by simpa [hsp] using h.top
  frame := by simpa [hbp] using h.frame

/-- A push is a push. -/
theorem Sim.push (h : Sim locals base s ⟨st, ls⟩) (r : Reg)
    (hroom : 8 * (st.length + 1) ≤ base) :
    ∃ s', exec (.push r) s = some s' ∧ Sim locals base s' ⟨s.regs r :: st, ls⟩ := by
  have htop := h.top
  simp only at htop
  obtain ⟨s', hexec, hsp, hmem, hregs⟩ := exec_push (s := s) r (by omega)
  have hbp : s'.bp = s.bp := by rw [State.bp, State.bp, hregs _ (by decide)]
  have hslot : ∀ off, s'.slot off = s.slot off := fun off => by
    rw [State.slot, State.slot, hregs _ (by decide)]
  refine ⟨s', hexec, ⟨⟨⟨?_, ?_⟩, h.rep.length, ?_⟩, ?_, by rw [hbp]; exact h.frame⟩⟩
  · rw [hmem, hsp, Mem.load_store_self]
  · rw [hmem, hsp, show s.sp - 8 + 8 = s.sp by omega]
    exact h.rep.stack.store (.inl (by omega))
  · intro i off v hi hv
    rw [hslot, hmem, Mem.load_store_of_disjoint, h.rep.slots i off v hi hv]
    obtain ⟨hle, hbase, -⟩ := h.frame.inFrame off (List.mem_of_getElem? hi)
    rw [State.slot_eq hle]
    omega
  · simp only [List.length_cons]
    omega

/-- Without room there is no push. -/
theorem Sim.push_eq_none {w : Wasm.State} (h : Sim locals base s w)
    (hroom : ¬ 8 * (w.stack.length + 1) ≤ base) (r : Reg) : exec (.push r) s = none := by
  have htop := h.top
  exact if_neg (by omega)

/-- A pop is a pop. -/
theorem Sim.pop (h : Sim locals base s ⟨v :: st, ls⟩) {r : Reg} (hsp : r ≠ .rsp)
    (hbp : r ≠ .rbp) :
    ∃ s', exec (.pop r) s = some s' ∧ Sim locals base s' ⟨st, ls⟩ ∧ s'.regs r = v ∧
      ∀ q, q ≠ Reg.rsp → q ≠ r → s'.regs q = s.regs q := by
  have htop := h.top
  simp only [List.length_cons] at htop
  have hlt := h.base_lt
  obtain ⟨s', hexec, hsp', hmem, hr, hregs⟩ := exec_pop (s := s) hsp (by omega)
  have hrbp : s'.regs .rbp = s.regs .rbp := hregs _ (by decide) hbp.symm
  refine ⟨s', hexec, ⟨⟨?_, h.rep.length, ?_⟩, ?_, ?_⟩, by rw [hr, h.rep.stack.1], hregs⟩
  · rw [hmem, hsp']
    exact h.rep.stack.2
  · intro i off v hi hv
    rw [hmem, State.slot, hrbp]
    exact h.rep.slots i off v hi hv
  · simp only
    omega
  · rw [State.bp, hrbp]
    exact h.frame

/-- A load from a slot gives the local. -/
theorem Sim.load {w : Wasm.State} (h : Sim locals base s w) {i off : ℕ} (hi : locals[i]? = some off)
    (hv : w.locals[i]? = some v) : exec (.load .rax off) s = some (s.set .rax v) := by
  obtain ⟨hle, -, hend⟩ := h.frame.inFrame off (List.mem_of_getElem? hi)
  rw [exec_load _ hle hend, ← State.slot_eq hle, h.rep.slots i off v hi hv]

/-- A store to a slot sets the local, and no other. -/
theorem Sim.store (h : Sim locals base s ⟨st, ls⟩) {i off : ℕ} (r : Reg)
    (hi : locals[i]? = some off) :
    ∃ s', exec (.store off r) s = some s' ∧
      Sim locals base s' ⟨st, ls.set i (s.regs r)⟩ := by
  obtain ⟨hle, hbase, hend⟩ := h.frame.inFrame off (List.mem_of_getElem? hi)
  have htop := h.top
  simp only at htop
  refine ⟨_, exec_store r hle hend, ⟨⟨?_, ?_, ?_⟩, htop, h.frame⟩⟩
  · exact h.rep.stack.store (.inr (by simp only [State.sp] at *; omega))
  · simpa using h.rep.length
  · intro j off' v hj hv
    have hle' := (h.frame.inFrame off' (List.mem_of_getElem? hj)).1
    have hslot : s.slot off' = s.bp - off' := State.slot_eq hle'
    change (s.mem.store (s.bp - off) (s.regs r)).load (s.slot off') = v
    by_cases hij : i = j
    · subst hij
      rw [hi] at hj
      cases hj
      rw [hslot, Mem.load_store_self]
      have hlt : i < ls.length := by
        have := h.rep.length
        simp only at this
        rw [this]
        exact (List.getElem?_eq_some_iff.mp hi).1
      simpa [hlt] using hv
    · rw [List.getElem?_set_ne hij] at hv
      rw [Mem.load_store_of_disjoint, h.rep.slots j off' v hj hv]
      have := h.frame.apart hi hj hij
      omega

/-! ## What the emitted code does

The simulation is exact: it is a step for each operator, and where WebAssembly has
no step nothing is said. -/

/-- The operator as the emitted code has it: `i64.sub` subtracts the operand
below the top from the top. -/
def emittedStep : Operator → Wasm.State → Option Wasm.State
  | .i64Sub, ⟨b :: a :: st, ls⟩ => some ⟨(b - a) :: st, ls⟩
  | op, w => step op w

/-- No other operator is read differently. -/
theorem emittedStep_of_ne {op : Operator} (h : op ≠ .i64Sub) (w : Wasm.State) :
    emittedStep op w = step op w := by
  cases op <;> first | rfl | exact absurd rfl h

/-- The code of a binary operator: top into `rax`, the operand below into `rbx`,
`rax` back. -/
theorem sim_binary {a b r : Word} {i : Instr}
    (hexec : ∀ t : X86.State, t.regs .rax = b → t.regs .rbx = a → exec i t = some (t.set .rax r))
    (h : Sim locals base s ⟨b :: a :: st, ls⟩) (hroom : 8 * (st.length + 1) ≤ base) :
    ∃ s', execList [.pop .rax, .pop .rbx, i, .push .rax] s = some s' ∧
      Sim locals base s' ⟨r :: st, ls⟩ := by
  obtain ⟨s₁, h₁, hsim₁, hrax, -⟩ := h.pop (r := .rax) (by decide) (by decide)
  obtain ⟨s₂, h₂, hsim₂, hrbx, hregs⟩ := hsim₁.pop (r := .rbx) (by decide) (by decide)
  have hi := hexec s₂ (by rw [hregs _ (by decide) (by decide), hrax]) hrbx
  obtain ⟨s₄, h₄, hsim₄⟩ :=
    (hsim₂.set (r := .rax) (by decide) (by decide) r).push .rax hroom
  rw [State.set_regs_self] at hsim₄
  exact ⟨s₄, by simp [execList_cons, h₁, h₂, hi, h₄], hsim₄⟩

/-- **The emitted code simulates `emittedStep`**, wherever the stack has room for
the result. -/
theorem sim_emittedStep (ctx : Context) {op : Operator} {w w' : Wasm.State}
    (h : Sim locals base s w) (hstep : emittedStep op w = some w')
    (hroom : 8 * w'.stack.length ≤ base) :
    ∃ code s', handleInstruction ctx locals op = .ok code ∧ execList code s = some s' ∧
      Sim locals base s' w' := by
  obtain ⟨st, ls⟩ := w
  cases op with
  | i64Const value =>
      cases hstep
      obtain ⟨s', hpush, hsim⟩ :=
        (h.set (r := .rax) (by decide) (by decide) value).push .rax hroom
      rw [State.set_regs_self] at hsim
      exact ⟨_, s', rfl,
        by rw [execList_cons, exec, Option.bind_some, execList_singleton, hpush], hsim⟩
  | i64Add =>
      cases st with
      | nil => cases hstep
      | cons b st =>
          cases st with
          | nil => cases hstep
          | cons a st =>
              cases hstep
              obtain ⟨s', hexec, hsim⟩ := sim_binary (r := a + b) (i := .add .rax .rbx)
                (fun t hb ha => by rw [exec, hb, ha, BitVec.add_comm]) h hroom
              exact ⟨_, s', rfl, hexec, hsim⟩
  | i64Sub =>
      cases st with
      | nil => cases hstep
      | cons b st =>
          cases st with
          | nil => cases hstep
          | cons a st =>
              cases hstep
              obtain ⟨s', hexec, hsim⟩ := sim_binary (r := b - a) (i := .sub .rax .rbx)
                (fun t hb ha => by rw [exec, hb, ha]) h hroom
              exact ⟨_, s', rfl, hexec, hsim⟩
  | localGet i =>
      obtain ⟨v, hv, rfl⟩ := Option.map_eq_some_iff.mp hstep
      have hi := h.slot_of_local hv
      obtain ⟨s', hpush, hsim⟩ :=
        (h.set (r := .rax) (by decide) (by decide) v).push .rax hroom
      rw [State.set_regs_self] at hsim
      exact ⟨_, s', by rw [handleInstruction, hi], by
        rw [execList_cons, h.load hi hv, Option.bind_some, execList_singleton, hpush], hsim⟩
  | localSet i =>
      cases st with
      | nil => cases hstep
      | cons v st =>
          obtain ⟨hlt, hstep⟩ := Option.ite_none_right_eq_some.mp hstep
          cases hstep
          have hi := List.getElem?_eq_getElem (by rw [← h.rep.length]; exact hlt)
          obtain ⟨s₁, h₁, hsim₁, hrax, -⟩ := h.pop (r := .rax) (by decide) (by decide)
          obtain ⟨s₂, h₂, hsim₂⟩ := hsim₁.store .rax hi
          rw [hrax] at hsim₂
          exact ⟨_, s₂, by rw [handleInstruction, hi], by simp [execList_cons, h₁, h₂], hsim₂⟩
  | nop =>
      cases hstep
      exact ⟨_, s, rfl, rfl, h⟩
  | «end» =>
      cases hstep
      exact ⟨_, s, rfl, rfl, h⟩
  | i32Add => cases hstep
  | i32Sub => cases hstep
  | call f => cases hstep
  | unimplemented c => cases hstep

/-- Where the stack has no room for the result, the code does not get through. -/
theorem not_exec_of_full {ctx : Context} {op : Operator} {w w' : Wasm.State} {code : List Instr}
    (h : Sim locals base s w) (hstep : step op w = some w')
    (hcode : handleInstruction ctx locals op = .ok code)
    (hroom : ¬ 8 * w'.stack.length ≤ base) : execList code s = none := by
  have hfit : 8 * w.stack.length ≤ base := by
    have := h.top
    omega
  obtain ⟨st, ls⟩ := w
  cases op with
  | i64Const value =>
      cases hstep
      cases hcode
      have hpush := (h.set (r := .rax) (by decide) (by decide) value).push_eq_none hroom .rax
      rw [execList_cons, exec, Option.bind_some, execList_singleton, hpush]
  | localGet i =>
      obtain ⟨v, hv, rfl⟩ := Option.map_eq_some_iff.mp hstep
      have hi := h.slot_of_local hv
      rw [handleInstruction, hi] at hcode
      cases hcode
      have hpush := (h.set (r := .rax) (by decide) (by decide) v).push_eq_none hroom .rax
      rw [execList_cons, h.load hi hv, Option.bind_some, execList_singleton, hpush]
  | i64Add =>
      cases st with
      | nil => cases hstep
      | cons b st =>
          cases st with
          | nil => cases hstep
          | cons a st =>
              cases hstep
              simp only [List.length_cons] at hfit hroom
              omega
  | i64Sub =>
      cases st with
      | nil => cases hstep
      | cons b st =>
          cases st with
          | nil => cases hstep
          | cons a st =>
              cases hstep
              simp only [List.length_cons] at hfit hroom
              omega
  | localSet i =>
      cases st with
      | nil => cases hstep
      | cons v st =>
          obtain ⟨hlt, hstep⟩ := Option.ite_none_right_eq_some.mp hstep
          cases hstep
          simp only [List.length_cons] at hfit hroom
          omega
  | nop =>
      cases hstep
      exact absurd hfit hroom
  | «end» =>
      cases hstep
      exact absurd hfit hroom
  | i32Add => cases hstep
  | i32Sub => cases hstep
  | call f => cases hstep
  | unimplemented c => cases hstep

/-! ## Sequences

Both sides of the equivalence are about all prefixes.  They are taken apart by one
lemma (`forall_prefix_cons`), so that the proof is an induction over operators on
both sides at once. -/

/-- The code keeps up with the operators: after each prefix of them that
WebAssembly can execute from `w`, its code has run from `s` to a state that
represents the outcome. -/
def KeepsUp (ctx : Context) (locals : List ℕ) (ops : List Operator) (s : X86.State)
    (w : Wasm.State) : Prop :=
  ∀ pre w', pre <+: ops → steps pre w = some w' →
    ∃ code s', handleInstructions ctx locals pre = .ok code ∧ execList code s = some s' ∧
      Represents locals s' w'

/-- The two operands on top, if there are two, have the same difference both ways. -/
def operandsAlike : List Word → Bool
  | b :: a :: _ => a - b == b - a
  | _ => true

/-- The operator is not a subtraction, or one with the same difference both ways. -/
def DifferencesAlike (op : Operator) (w : Wasm.State) : Prop :=
  op = .i64Sub → operandsAlike w.stack

/-- Every subtraction that is come to has the same difference both ways. -/
def SubtractsAlike (ops : List Operator) (w : Wasm.State) : Prop :=
  ∀ pre w', pre <+: ops → steps pre w = some w' →
    ∀ op, pre ++ [op] <+: ops → DifferencesAlike op w'

/-- The operands have room between address `0` and `base` all along. -/
def Fits (ops : List Operator) (w : Wasm.State) (base : ℕ) : Prop :=
  ∀ pre w', pre <+: ops → steps pre w = some w' → 8 * w'.stack.length ≤ base

variable {ctx : Context} {op : Operator} {ops : List Operator} {w : Wasm.State}

/-- What is said of every prefix WebAssembly can execute, one operator at a time. -/
theorem forall_prefix_cons {Q : List Operator → Wasm.State → Prop} :
    (∀ pre w', pre <+: op :: ops → steps pre w = some w' → Q pre w') ↔
      Q [] w ∧ ∀ w₁, step op w = some w₁ →
        ∀ pre w', pre <+: ops → steps pre w₁ = some w' → Q (op :: pre) w' := by
  constructor
  · intro h
    refine ⟨h [] w List.nil_prefix rfl, fun w₁ hstep pre w' hpre hw' => ?_⟩
    exact h (op :: pre) w' (List.cons_prefix_cons.mpr ⟨rfl, hpre⟩) (by simp [hstep, hw'])
  · rintro ⟨hnil, h⟩ pre w' hpre hw'
    cases pre with
    | nil =>
        cases hw'
        exact hnil
    | cons op' pre =>
        obtain ⟨rfl, htail⟩ := List.cons_prefix_cons.mp hpre
        obtain ⟨w₁, hstep, hsteps⟩ := Option.bind_eq_some_iff.mp hw'
        exact h w₁ hstep pre w' htail hsteps

/-- Of no operators there is one prefix. -/
theorem forall_prefix_nil {Q : List Operator → Wasm.State → Prop} :
    (∀ pre w', pre <+: [] → steps pre w = some w' → Q pre w') ↔ Q [] w := by
  constructor
  · intro h
    exact h [] w List.nil_prefix rfl
  · intro h pre w' hpre hw'
    cases List.prefix_nil.mp hpre
    cases hw'
    exact h

/-- Keeping up with no operators. -/
theorem keepsUp_nil : KeepsUp ctx locals [] s w ↔ Represents locals s w := by
  rw [KeepsUp, forall_prefix_nil]
  simp [handleInstructions]

/-- What keeps up represents where it starts. -/
theorem KeepsUp.represents (h : KeepsUp ctx locals ops s w) : Represents locals s w :=
  keepsUp_nil.mp fun pre w' hpre => h pre w' (hpre.trans List.nil_prefix)

/-- Keeping up with a sequence, one operator at a time. -/
theorem keepsUp_cons : KeepsUp ctx locals (op :: ops) s w ↔ Represents locals s w ∧
    ∀ w₁, step op w = some w₁ → ∃ code s₁, handleInstruction ctx locals op = .ok code ∧
      execList code s = some s₁ ∧ KeepsUp ctx locals ops s₁ w₁ := by
  rw [KeepsUp, forall_prefix_cons]
  refine and_congr (by simp [handleInstructions]) (forall₂_congr fun w₁ hstep => ?_)
  constructor
  · intro h
    obtain ⟨code, s₁, hcode, hs₁, -⟩ := h [] w₁ List.nil_prefix rfl
    obtain ⟨c, r, hc, hr, rfl⟩ := handleInstructions_cons.mp hcode
    cases hr
    rw [List.append_nil] at hs₁
    refine ⟨c, s₁, hc, hs₁, fun pre w' hpre hw' => ?_⟩
    obtain ⟨code', s', hcode', hexec, hrep⟩ := h pre w' hpre hw'
    obtain ⟨c', r, hc', hr, rfl⟩ := handleInstructions_cons.mp hcode'
    rw [hc] at hc'
    cases hc'
    rw [execList_append, hs₁] at hexec
    exact ⟨r, s', hr, hexec, hrep⟩
  · rintro ⟨c, s₁, hc, hs₁, hkeep⟩ pre w' hpre hw'
    obtain ⟨r, s', hr, hexec, hrep⟩ := hkeep pre w' hpre hw'
    refine ⟨c ++ r, s', handleInstructions_cons.mpr ⟨c, r, hc, hr, rfl⟩, ?_, hrep⟩
    rw [execList_append, hs₁]
    exact hexec

/-- Subtractions, one operator at a time, -/
theorem subtractsAlike_cons : SubtractsAlike (op :: ops) w ↔
    DifferencesAlike op w ∧ ∀ w₁, step op w = some w₁ → SubtractsAlike ops w₁ := by
  rw [SubtractsAlike, forall_prefix_cons]
  refine and_congr ?_ (forall₂_congr fun w₁ hstep => ?_)
  · simp [List.cons_prefix_cons]
  · simp [SubtractsAlike, List.cons_prefix_cons]

/-- and room, one operator at a time. -/
theorem fits_cons : Fits (op :: ops) w base ↔
    8 * w.stack.length ≤ base ∧ ∀ w₁, step op w = some w₁ → Fits ops w₁ base :=
  forall_prefix_cons

/-- At the end there is what is on the stack. -/
theorem fits_nil : Fits [] w base ↔ 8 * w.stack.length ≤ base := forall_prefix_nil

/-- No operators subtract nothing. -/
theorem subtractsAlike_nil : SubtractsAlike [] w := by
  rw [SubtractsAlike, forall_prefix_nil]
  simp

/-- What is required after an operator, as far as it can be executed. -/
def decidableAfter {p : Wasm.State → Prop} (o : Option Wasm.State)
    (d : ∀ w, Decidable (p w)) : Decidable (∀ w₁, o = some w₁ → p w₁) :=
  match o with
  | none => .isTrue fun _ h => nomatch h
  | some w => decidable_of_iff (p w) (by simp)

instance decidableFits : ∀ (ops : List Operator) (w : Wasm.State), Decidable (Fits ops w base)
  | [], _ => decidable_of_iff _ fits_nil.symm
  | op :: ops, w =>
      have := decidableAfter (step op w) (decidableFits ops)
      decidable_of_iff _ fits_cons.symm

instance : DecidablePred (DifferencesAlike op) := fun w =>
  inferInstanceAs (Decidable (op = .i64Sub → operandsAlike w.stack))

instance decidableSubtractsAlike : ∀ (ops : List Operator) (w : Wasm.State),
    Decidable (SubtractsAlike ops w)
  | [], _ => .isTrue subtractsAlike_nil
  | op :: ops, w =>
      have := decidableAfter (step op w) (decidableSubtractsAlike ops)
      decidable_of_iff _ subtractsAlike_cons.symm

/-- The two readings of an operator lead to equally deep stacks, and to the same
state exactly when a subtraction has the same difference both ways. -/
theorem emittedStep_of_step {w₁ : Wasm.State} (hstep : step op w = some w₁) :
    ∃ e, emittedStep op w = some e ∧ e.stack.length = w₁.stack.length ∧
      (e = w₁ ↔ DifferencesAlike op w) := by
  by_cases hop : op = .i64Sub
  · subst hop
    obtain ⟨st, ls⟩ := w
    match st, hstep with
    | b :: a :: st, hstep =>
        cases hstep
        refine ⟨_, rfl, rfl, ?_⟩
        have hiff : DifferencesAlike .i64Sub ⟨b :: a :: st, ls⟩ ↔ a - b = b - a := by
          simp [DifferencesAlike, operandsAlike]
        rw [hiff, Wasm.State.mk.injEq, List.cons.injEq]
        simp [eq_comm]
  · exact ⟨w₁, by rw [emittedStep_of_ne hop, hstep], rfl, iff_of_true rfl fun h => absurd h hop⟩

/-- An operator WebAssembly cannot execute subtracts nothing. -/
theorem differencesAlike_of_stuck (hstep : step op w = none) : DifferencesAlike op w := by
  rintro rfl
  obtain ⟨st, ls⟩ := w
  match st, hstep with
  | [], _ => rfl
  | [_], _ => rfl

/-- The machine state and the depth of the stack determine what is represented. -/
theorem Represents.unique {w₁ w₂ : Wasm.State} (h₁ : Represents locals s w₁)
    (h₂ : Represents locals s w₂) (hlen : w₁.stack.length = w₂.stack.length) : w₁ = w₂ := by
  obtain ⟨st₁, ls₁⟩ := w₁
  obtain ⟨st₂, ls₂⟩ := w₂
  have hst : st₁ = st₂ := Mem.wordsAt_unique h₁.stack h₂.stack hlen
  have hls : ls₁ = ls₂ := by
    refine List.ext_getElem (h₁.length.trans h₂.length.symm) fun i hi₁ hi₂ => ?_
    have hi : i < locals.length := lt_of_lt_of_eq hi₁ h₁.length
    rw [← h₁.slots i _ _ (List.getElem?_eq_getElem hi) (List.getElem?_eq_getElem hi₁),
      ← h₂.slots i _ _ (List.getElem?_eq_getElem hi) (List.getElem?_eq_getElem hi₂)]
  rw [hst, hls]

/-- **The code keeps up exactly where it has room and no subtraction matters.**
By induction on the operators; the depth of the stack is the same in both
readings of an operator, so the first subtraction with two different differences
is seen in the machine state right after it. -/
theorem Sim.keepsUp_iff (h : Sim locals base s w) :
    KeepsUp ctx locals ops s w ↔ Fits ops w base ∧ SubtractsAlike ops w := by
  induction ops generalizing s w with
  | nil =>
      have hfit : 8 * w.stack.length ≤ base := by
        have := h.top
        omega
      simp [keepsUp_nil, fits_nil, subtractsAlike_nil, h.rep, hfit]
  | cons op ops ih =>
      rw [keepsUp_cons, fits_cons, subtractsAlike_cons]
      constructor
      · rintro ⟨-, hrun⟩
        have hnext : ∀ w₁, step op w = some w₁ →
            DifferencesAlike op w ∧ Fits ops w₁ base ∧ SubtractsAlike ops w₁ := by
          intro w₁ hstep
          obtain ⟨code, s₁, hcode, hexec, hkeep⟩ := hrun w₁ hstep
          obtain ⟨e, he, hlen, hiff⟩ := emittedStep_of_step hstep
          have hroom : 8 * w₁.stack.length ≤ base := by
            by_contra hfull
            rw [not_exec_of_full h hstep hcode hfull] at hexec
            cases hexec
          obtain ⟨code', s', hcode', hexec', hsim⟩ :=
            sim_emittedStep ctx h he (hlen ▸ hroom)
          rw [hcode] at hcode'
          cases hcode'
          rw [hexec] at hexec'
          cases hexec'
          have heq : e = w₁ := hsim.rep.unique hkeep.represents hlen
          subst heq
          exact ⟨hiff.mp rfl, (ih hsim).mp hkeep⟩
        refine ⟨⟨by have := h.top; omega, fun w₁ hstep => (hnext w₁ hstep).2.1⟩, ?_,
          fun w₁ hstep => (hnext w₁ hstep).2.2⟩
        cases hstep : step op w with
        | none => exact differencesAlike_of_stuck hstep
        | some w₁ => exact (hnext w₁ hstep).1
      · rintro ⟨⟨-, hfits⟩, hsub, hsubs⟩
        refine ⟨h.rep, fun w₁ hstep => ?_⟩
        obtain ⟨e, he, -, hiff⟩ := emittedStep_of_step hstep
        have heq : e = w₁ := hiff.mpr hsub
        subst heq
        obtain ⟨code, s₁, hcode, hexec, hsim⟩ :=
          sim_emittedStep ctx h he (hfits e hstep [] e List.nil_prefix rfl)
        exact ⟨code, s₁, hcode, hexec, (ih hsim).mpr ⟨hfits e hstep, hsubs e hstep⟩⟩

/-- **When the emitted code keeps up.**  From a machine state that represents a
WebAssembly state, with the slots of the locals beyond the operands, the code of
every prefix of a sequence of operators leads to a representation of where the
prefix leads exactly when the operands always fit below the frame and every
`i64.sub` come to has operands `a`, `b` with `a - b = b - a`.

The hypotheses say where a run starts: the machine represents the state, and the
slots are above the operands.  They hold behind the prologue.  Prefixes that
WebAssembly cannot execute, for want of operands, are not asked about on either
side; in what a validator lets through there are none. -/
theorem operands_simulated_iff {ctx : Context} {locals : List ℕ} {ops : List Operator}
    {s : X86.State} {w : Wasm.State} (hrep : Represents locals s w)
    (hslots : SlotsAbove locals (s.sp + 8 * w.stack.length) s.bp) :
    KeepsUp ctx locals ops s w ↔
      Fits ops w (s.sp + 8 * w.stack.length) ∧ SubtractsAlike ops w :=
  Sim.keepsUp_iff ⟨hrep, rfl, hslots⟩

/-- No functions. -/
def emptyContext : Context := ⟨∅, ∅, ∅, ∅⟩

/-- A frame of two locals, and a subtraction of equal operands. -/
theorem operands_simulated_iff_instance :
    KeepsUp emptyContext [8, 16] [.i64Const 5, .localSet 1, .localGet 1, .i64Const 5, .i64Sub]
      (X86.State.ofStack 64 80 []) ⟨[], [0, 0]⟩ := by
  have hrep : Represents [8, 16] (X86.State.ofStack 64 80 []) ⟨[], [0, 0]⟩ := by
    refine ⟨trivial, rfl, fun i off v hi hv => ?_⟩
    match i, hi, hv with
    | 0, hi, hv =>
        cases hi
        cases hv
        decide
    | 1, hi, hv =>
        cases hi
        cases hv
        decide
  exact (operands_simulated_iff hrep ⟨by decide, by decide, by decide⟩).mpr
    ⟨by decide, by decide⟩

/-- The code does not keep up, with room to spare: `3 - 1` comes out as `1 - 3`. -/
theorem operands_not_simulated : ¬ ∀ (ctx : Context) (locals : List ℕ) (ops : List Operator)
    (s : X86.State) (w w' : Wasm.State), Represents locals s w →
    SlotsAbove locals (s.sp + 8 * w.stack.length) s.bp →
    Fits ops w (s.sp + 8 * w.stack.length) → steps ops w = some w' →
    ∃ code s', handleInstructions ctx locals ops = .ok code ∧ execList code s = some s' ∧
      Represents locals s' w' := by
  intro h
  obtain ⟨code, s', hcode, hexec, hrep⟩ := h emptyContext [] [.i64Const 3, .i64Const 1, .i64Sub]
    (X86.State.ofStack 64 64 []) ⟨[], []⟩ ⟨[2], []⟩ ⟨trivial, rfl, by simp⟩
    ⟨by decide, by simp, by simp⟩ (by decide) rfl
  cases hcode
  cases hexec
  exact absurd hrep.stack.1 (by decide)

end ParaOS.Parawasm
