import Mathlib.Data.Set.Defs
import ParaOS.X86.Instr

/-!
# States that are alike

Code that pushes and pops leaves words behind below the stack pointer, and two
pieces of code that do the same thing may leave different ones.  `Like D s s'`
says that the registers are the same and that the bytes of `D` at and above the
stack pointer are: what an instruction that reads only there makes of two such
states is alike again.

The set `D` is what makes this usable inside a frame.  With all addresses for `D`
the states would have to agree on return addresses, which differ between a program
and its optimised form; with those below the frame's top they need not.
-/

namespace ParaOS.X86

open Machine

/-- The same registers, and the same bytes of `D` at and above the stack pointer.
What is below the stack pointer is garbage, in either state. -/
structure Like (D : Set ℕ) (s s' : State) : Prop where
  regs : s'.regs = s.regs
  mem : ∀ x ∈ D, s.sp ≤ x → s'.mem x = s.mem x

/-- The bytes of a word are in a set.  A word is compared if all eight of them are.
-/
def WordIn (D : Set ℕ) (a : ℕ) : Prop := ∀ x, a ≤ x → x < a + 8 → x ∈ D

variable {D : Set ℕ} {s s' t : State} {v : Word} {r a b : Reg}

/-- A state is like itself. -/
theorem Like.refl (D : Set ℕ) (s : State) : Like D s s := ⟨rfl, fun _ _ _ => rfl⟩

/-- The stack pointer is one of the registers. -/
theorem Like.sp (h : Like D s s') : s'.sp = s.sp := by
  rw [State.sp, State.sp, h.regs]

/-- And so is the frame pointer. -/
theorem Like.bp (h : Like D s s') : s'.bp = s.bp := by
  rw [State.bp, State.bp, h.regs]

theorem Like.trans {s'' : State} (h : Like D s s') (h' : Like D s' s'') : Like D s s'' :=
  ⟨h'.regs.trans h.regs, fun x hx hle => by
    rw [h'.mem x hx (by rwa [h.sp]), h.mem x hx hle]⟩

/-- A word that is read from both. -/
theorem Like.load (h : Like D s s') {x : ℕ} (hx : WordIn D x) (hle : s.sp ≤ x) :
    s'.mem.load x = s.mem.load x :=
  Mem.load_congr fun y hy hy' => h.mem y (hx y hy hy') (by omega)

/-- A register other than the stack pointer is written in both. -/
theorem Like.set (h : Like D s s') (v : Word) (hr : r ≠ .rsp) :
    Like D (s.set r v) (s'.set r v) := by
  refine ⟨?_, fun x hx hle => ?_⟩
  · rw [State.set, State.set, h.regs]
  · rw [State.set_sp _ _ hr.symm] at hle
    exact h.mem x hx hle

/-- A word is written at the same place in both. -/
theorem Like.store (h : Like D s s') (v : Word) (x : ℕ) :
    Like D { s with mem := s.mem.store x v } { s' with mem := s'.mem.store x v } := by
  refine ⟨h.regs, fun y hy hle => ?_⟩
  exact Mem.store_congr fun _ => h.mem y hy hle

/-- A push that one of them has room for the other has room for too, and what is
pushed is the same in both, so that the set need not have it in it. -/
theorem Like.push (h : Like D s s') (hs : s.push v = some t) :
    ∃ t', s'.push v = some t' ∧ Like D t t' := by
  obtain ⟨hroom, hsp, hmem, hregs⟩ := State.push_spec hs
  have hs' : s'.push v = some { regs := Function.update s'.regs .rsp (s'.regs .rsp - 8)
                                mem := s'.mem.store (s'.sp - 8) v } :=
    State.push_eq (by rw [h.sp]; exact hroom)
  refine ⟨_, hs', ?_, fun x hx hle => ?_⟩
  · rw [State.push_eq hroom] at hs
    cases hs
    rw [h.regs]
  · rw [hmem]
    change s'.mem.store (s'.sp - 8) v x = s.mem.store (s.sp - 8) v x
    rw [h.sp]
    exact Mem.store_congr fun hne => h.mem x hx (by omega)

/-- A pop takes the same word from both, if its bytes are among those compared.
What it leaves below the new stack pointer is not looked at any more. -/
theorem Like.pop (h : Like D s s') (hD : WordIn D s.sp) (htop : s.sp + 8 < 2 ^ 64)
    (hs : s.pop = some (v, t)) : ∃ t', s'.pop = some (v, t') ∧ Like D t t' := by
  obtain ⟨-, rfl, rfl⟩ := State.pop_spec hs
  have hpop : s'.pop = some (s'.mem.load s'.sp, s'.set .rsp (s'.regs .rsp + 8)) :=
    State.pop_eq (by rw [h.sp]; omega)
  rw [h.sp, h.load hD le_rfl] at hpop
  refine ⟨_, hpop, ?_, fun x hx hle => ?_⟩
  · rw [State.set, State.set, h.regs]
  · rw [show s.regs .rsp + 8 = s.regs .rsp + BitVec.ofNat 64 8 from rfl, s.sp_set_add htop] at hle
    exact h.mem x hx (by omega)

/-- What is pushed is popped. -/
theorem State.push_pop (hs : s.push v = some t) :
    t.pop = some (v, { s with mem := s.mem.store (s.sp - 8) v }) := by
  obtain ⟨hroom, hsp, hmem, -⟩ := State.push_spec hs
  have hlt := s.sp_lt
  rw [State.pop_eq (by omega), hsp, hmem, Mem.load_store_self]
  rw [State.push_eq hroom] at hs
  cases hs
  simp only [State.set, Function.update_self, BitVec.sub_add_cancel, Function.update_idem,
    Function.update_eq_self]

/-- **A push and a pop are a move.**  This is the rule of the optimiser: the states
differ in the word that the push left behind, which lies below the stack pointer
after the pop. -/
theorem Like.push_pop (h : Like D s s') (hb : b ≠ .rsp) {s₁ : State}
    (hpush : exec (.push a) s = some s₁) (hpop : exec (.pop b) s₁ = some t) :
    Like D t (s'.set b (s'.regs a)) := by
  obtain ⟨hroom, -⟩ := State.push_spec hpush
  have ht : t = ({ s with mem := s.mem.store (s.sp - 8) (s.regs a) } : State).set b (s.regs a) := by
    rw [exec, State.push_pop hpush] at hpop
    exact (Option.some.inj hpop).symm
  have hlike : Like D { s with mem := s.mem.store (s.sp - 8) (s.regs a) } s' := by
    refine ⟨h.regs, fun x hx hle => ?_⟩
    change s.sp ≤ x at hle
    change s'.mem x = s.mem.store (s.sp - 8) (s.regs a) x
    rw [Mem.store_of_ge (by omega)]
    exact h.mem x hx hle
  rw [ht, h.regs]
  exact hlike.set _ hb

end ParaOS.X86
