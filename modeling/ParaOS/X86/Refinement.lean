import Mathlib.Data.Set.Insert
import ParaOS.X86.Evaluation
import ParaOS.X86.Likeness

/-!
# One program in the place of another

Two programs that differ in straight-line code and in where their code is can
still return alike.  `Simulates` compares two stretches of straight-line code in
an activation: from states with the same registers and the same stack below the
return address (`Alike`), the second runs wherever the first does, to such states
again.  `Faithful` puts such stretches together around the same calls, up to the
`ret`.

`Eval.refine` and `Eval.reflect` are the main results.  If every label that is
called stands before faithful code in both programs, what the first program
returns the second returns, with the same registers and the same memory; and what
the second returns the first returns as well, unless it has run out of room on the
stack, of which it may need more.  Return addresses are the exception: they lie at
the same places in both programs and are different words, so outside code must not
look at them (`Env.Indifferent`).

### The three design decisions

**Stretches, not instructions.**  The optimiser replaces a push and a pop by a move
and takes pairs of moves out, so there is no instruction of the second program for
each one of the first.  What there is, is a stretch between two calls in each, and
the two have the same effect on everything that is read later.

**What is compared is what is read.**  `Alike` compares registers, and memory from
the stack pointer up to the return address; `Same` compares memory above, with the
words left out that are return addresses.  Below the stack pointer the two programs
leave different garbage, and an allocation brings it into the frame: this is why
allocation is treated on its own (`simulates_alloc`), with the stores that overwrite
it.

**Two directions.**  Optimised code needs no more of the stack than the code it came
from, so what the first program returns the second does (`Eval.refine`).  The other
way round the first may stop for want of room (`Eval.reflect`), and this is the only
difference there is.

### What is load-bearing

`Env.Indifferent` is about outside code that could look at its caller's return
addresses.  These are different words in the two programs, and an import that
returned one of them in `rax` would be a counterexample.  `W` is the set of words
that may stand in such places; nothing else about memory is restricted.
-/

namespace ParaOS.X86

open Machine

/-! ## Straight-line code

The two states of a simulation are those of one activation in one phase.  That the
phase is the same is asked of the first program only; of the second it follows, as
its registers are the same. -/

/-- The lowest byte an activation still reads in a phase.  Where `rsp` is about to
be reset its value says nothing about that, and the saved `rbp` is the lowest. -/
def Phase.floor (f : Frame) (s : State) : Phase → ℕ
  | .freed => f.top - 8
  | _ => s.sp

/-- The same registers, and the same stack below the return address.  The return
address itself is left out. -/
structure Alike (f : Frame) (p : Phase) (s s' : State) : Prop where
  regs : s'.regs = s.regs
  mem : ∀ x, p.floor f s ≤ x → x < f.top → s'.mem x = s.mem x

variable {P P' : Program} {f : Frame} {p q p' : Phase} {s s' t t' : State} {i : Instr}
  {is js is' js' : List Instr}

/-- Outside that one phase this is `Like`, for the bytes below the return address.
-/
theorem Alike.like (h : Alike f p s s') (hp : p ≠ .freed) : Like {x | x < f.top} s s' := by
  refine ⟨h.regs, fun x hx hle => h.mem x ?_ hx⟩
  cases p with
  | freed => exact absurd rfl hp
  | _ => exact hle

/-- And the other way round. -/
theorem Like.alike (h : Like {x | x < f.top} s s') (hp : p ≠ .freed) : Alike f p s s' := by
  refine ⟨h.regs, fun x hle hx => h.mem x hx ?_⟩
  cases p with
  | freed => exact absurd rfl hp
  | _ => exact hle

/-- A general register is written with the same word. -/
theorem Alike.set {r : Reg} {v v' : Word} (hw : writes p r = some p') (h : Alike f p s s')
    (hv : v' = v) : Alike f p' (s.set r v) (s'.set r v') := by
  obtain ⟨a, n, rfl, hr, rfl⟩ := writes_eq_some hw
  subst hv
  exact ((h.like (by simp)).set v' (Reg.general_iff.mp hr).1).alike (by simp)

/-- A push of both writes the same word at the same place. -/
theorem Alike.push {r : Reg} (hp : advance p (.push r) = some p') (hin : InPhase f p s)
    (h : Alike f p s s') (hs : exec (.push r) s = some t) :
    ∃ t', exec (.push r) s' = some t' ∧ Alike f p' t t' ∧ SameAbove f.top s' t' := by
  obtain ⟨hne, hne', hle⟩ : p ≠ .freed ∧ p' ≠ .freed ∧ s.sp ≤ f.top := by
    rcases advance_push hp with ⟨rfl, -, rfl⟩ | ⟨a, n, rfl, -, rfl⟩
    · exact ⟨by simp, by simp, Nat.le_of_eq hin.2.1⟩
    · have := hin.2.2.2
      exact ⟨by simp, by simp, by omega⟩
  have hlike := h.like hne
  obtain ⟨t', ht', hlike'⟩ := hlike.push hs
  rw [← h.regs] at ht'
  obtain ⟨hroom, -, hmem, -⟩ := State.push_spec ht'
  refine ⟨t', ht', hlike'.alike hne', sameAbove_store hmem ?_⟩
  have := hlike.sp
  omega

/-- A pop of both takes the same word, which lies below the return address. -/
theorem Alike.pop {r : Reg} (hp : advance p (.pop r) = some p') (hin : InPhase f p s)
    (h : Alike f p s s') (hs : exec (.pop r) s = some t) :
    ∃ t', exec (.pop r) s' = some t' ∧ Alike f p' t t' ∧ SameAbove f.top s' t' := by
  have htop := f.top_lt
  obtain ⟨hne, hne', hr, hle⟩ : p ≠ .freed ∧ p' ≠ .freed ∧ r ≠ .rsp ∧ s.sp + 8 ≤ f.top := by
    rcases advance_pop hp with ⟨hq, rfl, rfl⟩ | ⟨a, n, rfl, hr, rfl⟩
    · clear hp
      rcases hq with rfl | rfl
      · exact ⟨by simp, by simp, by decide, Nat.le_of_eq hin.2.2⟩
      · exact ⟨by simp, by simp, by decide, Nat.le_of_eq hin.2.2⟩
    · have := hin.2.2.2
      exact ⟨by simp, by simp, (Reg.general_iff.mp hr).1, by omega⟩
  obtain ⟨⟨v, s₁⟩, hpop, rfl⟩ := Option.map_eq_some_iff.mp hs
  obtain ⟨s₁', hpop', hlike⟩ := (h.like hne).pop
    (fun x _ hx => show x < f.top by omega) (by omega) hpop
  refine ⟨s₁'.set r v, by rw [exec, hpop']; rfl, (hlike.set v hr).alike hne', ?_⟩
  obtain ⟨-, -, rfl⟩ := State.pop_spec hpop'
  exact sameAbove_of_mem rfl

/-- A pop behind a push of the second program is a move there. -/
theorem Alike.pop_of_push {a b : Reg} {u : State} (hp : advance p (.pop b) = some p')
    (hin : InPhase f p s) (h : Alike f p s s') (hs : exec (.pop b) s = some t)
    (hu : u.push (u.regs a) = some s') :
    Alike f p' t (u.set b (u.regs a)) ∧ SameAbove f.top s' u := by
  obtain ⟨t', ht', halike, -⟩ := h.pop hp hin hs
  obtain ⟨hroom, hsp, hmem, -⟩ := State.push_spec hu
  rw [exec, State.push_pop hu] at ht'
  cases ht'
  have hsp' : s'.sp = s.sp := by rw [State.sp, State.sp, h.regs]
  obtain ⟨hb, hle, hne⟩ : b ≠ .rsp ∧ s.sp + 8 ≤ f.top ∧ p' ≠ .freed := by
    rcases advance_pop hp with ⟨hq, rfl, rfl⟩ | ⟨m, n, rfl, hr, rfl⟩
    · clear hp
      rcases hq with rfl | rfl
      · exact ⟨by decide, Nat.le_of_eq hin.2.2, by simp⟩
      · exact ⟨by decide, Nat.le_of_eq hin.2.2, by simp⟩
    · have := hin.2.2.2
      exact ⟨(Reg.general_iff.mp hr).1, by omega, by simp⟩
  have hsame : ∀ x, u.sp ≤ x → u.mem x = u.mem.store (u.sp - 8) (u.regs a) x := fun x hx =>
    (Mem.store_of_ge (by omega)).symm
  have hlike := halike.like hne
  have hspt : u.sp = t.sp := by
    rw [← hlike.sp, State.set_sp _ _ hb.symm]
    rfl
  refine ⟨Like.alike ⟨hlike.regs, fun x hx hle => ?_⟩ hne, fun x hx => ?_⟩
  · rw [← hlike.mem x hx hle]
    exact hsame x (by omega)
  · rw [hmem]
    exact hsame x (by omega)

/-- Moves keep likeness, those between the pointers included: `rbp` is one of the
registers. -/
theorem Alike.mov {dst src : Reg} (hp : advance p (.mov dst src) = some p')
    (hin : InPhase f p s) (h : Alike f p s s') :
    Alike f p' (s.set dst (s.regs src)) (s'.set dst (s'.regs src)) := by
  rcases advance_mov hp with ⟨rfl, rfl⟩ | ⟨rfl, rfl, rfl, rfl⟩ | ⟨hq, rfl, rfl, rfl⟩ |
    ⟨a, n, rfl, ⟨hr, -⟩, rfl⟩
  · rw [State.set, State.set, Function.update_eq_self, Function.update_eq_self]
    exact h
  · rw [h.regs]
    exact ((h.like (by simp)).set _ (by decide)).alike (by simp)
  · -- the stack is as it was from the saved `rbp` on
    refine ⟨by rw [State.set, State.set, h.regs], fun x hle hx => h.mem x ?_ hx⟩
    change (State.set s .rsp (s.regs .rbp)).sp ≤ x at hle
    rw [State.sp, State.set_regs_self] at hle
    clear hp
    rcases hq with rfl | ⟨a, n, rfl⟩
    · have hbp : (s.regs .rbp).toNat + 8 = f.top := hin.2.2
      change f.top - 8 ≤ x
      omega
    · have hbp : (s.regs .rbp).toNat + 8 = f.top := hin.2.2.1
      have := hin.2.2.2
      change s.sp ≤ x
      omega
  · rw [h.regs]
    exact ((h.like (by simp)).set _ (Reg.general_iff.mp hr).1).alike (by simp)

/-- **One instruction in two states that are alike.**  An allocation is left out:
what it brings onto the stack need not be the same. -/
theorem Alike.perform (hword : P'.word = P.word) (hp : advance p i = some p')
    (hi : ∀ n, i ≠ .subRsp n) (hin : InPhase f p s) (h : Alike f p s s')
    (hs : P.perform i s = some t) :
    ∃ t', P'.perform i s' = some t' ∧ Alike f p' t t' ∧ SameAbove f.top s' t' := by
  have htop := f.top_lt
  cases i with
  | nop =>
      cases hp
      cases hs
      exact ⟨s', rfl, h, sameAbove_of_mem rfl⟩
  | push r => exact h.push hp hin hs
  | pop r => exact h.pop hp hin hs
  | mov dst src =>
      cases hs
      exact ⟨_, rfl, h.mov hp hin, sameAbove_of_mem rfl⟩
  | movImm r v =>
      cases hs
      exact ⟨_, rfl, h.set hp rfl, sameAbove_of_mem rfl⟩
  | movLabel r l =>
      cases hs
      exact ⟨_, rfl, h.set hp (by rw [hword]), sameAbove_of_mem rfl⟩
  | add dst src =>
      cases hs
      exact ⟨_, rfl, h.set hp (by rw [h.regs]), sameAbove_of_mem rfl⟩
  | sub dst src =>
      cases hs
      exact ⟨_, rfl, h.set hp (by rw [h.regs]), sameAbove_of_mem rfl⟩
  | addRsp n =>
      obtain ⟨a, m, rfl, rfl⟩ := advance_addRsp hp
      cases hs
      refine ⟨_, rfl, ⟨by rw [State.set, State.set, h.regs], fun x hle hx => h.mem x ?_ hx⟩,
        sameAbove_of_mem rfl⟩
      have := hin.2.2.2
      change f.top - 8 ≤ x at hle
      change s.sp ≤ x
      omega
  | load r off =>
      obtain ⟨a, n, rfl, ⟨hr, hoff⟩, rfl⟩ := advance_load hp
      have hlike := h.like (by simp)
      obtain ⟨-, -, hbp, hsp⟩ := hin
      have hs : exec (.load r off) s = some t := hs
      rw [exec_load r (by omega) (by omega)] at hs
      cases hs
      have hload : s'.mem.load (s'.bp - off) = s.mem.load (s.bp - off) := by
        rw [hlike.bp]
        exact hlike.load (fun x _ hx => show x < f.top by omega) (by omega)
      refine ⟨_, exec_load r (by rw [hlike.bp]; omega) (by rw [hlike.bp]; omega), ?_,
        sameAbove_of_mem rfl⟩
      rw [hload]
      exact (hlike.set _ (Reg.general_iff.mp hr).1).alike (by simp)
  | store off r =>
      obtain ⟨a, n, rfl, ⟨h8, hoff⟩, rfl⟩ := advance_store hp
      have hlike := h.like (by simp)
      obtain ⟨-, -, hbp, hsp⟩ := hin
      have hs : exec (.store off r) s = some t := hs
      rw [exec_store r (by omega) (by omega)] at hs
      cases hs
      refine ⟨_, exec_store r (by rw [hlike.bp]; omega) (by rw [hlike.bp]; omega), ?_,
        sameAbove_store rfl (by rw [hlike.bp]; omega)⟩
      rw [hlike.bp, congrFun h.regs r]
      exact (hlike.store _ _).alike (by simp)
  | subRsp n => exact absurd rfl (hi n)
  | callLabel l => cases hs
  | callReg r => cases hs
  | _ => cases hp

/-- From states of an activation that are alike, the second list of instructions of
the second program runs wherever the first one of the first program does, to states
that are alike, and leaves alone what is above the frame.  The lists need not have
anything to do with each other beyond that. -/
structure Simulates (P P' : Program) (p q : Phase) (is js : List Instr) : Prop where
  advances : advances p is = some q
  plain : ∀ i ∈ is, plain i = true
  plain' : ∀ i ∈ js, X86.plain i = true
  run : ∀ f s s' t, InPhase f p s → Alike f p s s' → P.run is s = some t →
    ∃ t', P'.run js s' = some t' ∧ Alike f q t t' ∧ SameAbove f.top s' t'

/-- What is the same above an address after each of two steps is the same after
both. -/
theorem SameAbove.trans {a : ℕ} {s₁ : State} (h : SameAbove a s s₁) (h' : SameAbove a s₁ t) :
    SameAbove a s t := fun x hx => (h' x hx).trans (h x hx)

/-- Simulations of two stretches, one after the other. -/
theorem Simulates.append (h : Simulates P P' p q is js) (h' : Simulates P P' q p' is' js') :
    Simulates P P' p p' (is ++ is') (js ++ js') where
  advances := advances_append h.advances h'.advances
  plain := by
    intro i hi
    exact (List.mem_append.mp hi).elim (h.plain i) (h'.plain i)
  plain' := by
    intro i hi
    exact (List.mem_append.mp hi).elim (h.plain' i) (h'.plain' i)
  run f s s' t hin hs ht := by
    rw [Program.run_append, Option.bind_eq_some_iff] at ht
    obtain ⟨s₁, hs₁, ht⟩ := ht
    obtain ⟨s₁', hs₁', halike, habove⟩ := h.run f s s' s₁ hin hs hs₁
    obtain ⟨t', ht', halike', habove'⟩ :=
      h'.run f s₁ s₁' t (inPhase_run h.advances hin hs₁).1 halike ht
    exact ⟨t', by rw [Program.run_append, hs₁', Option.bind_some, ht'], halike',
      habove.trans habove'⟩

/-- Code without allocations in the place of itself. -/
theorem simulates_self (hword : P'.word = P.word) (hp : X86.advances p is = some q)
    (hplain : ∀ i ∈ is, plain i = true) (hi : ∀ n, .subRsp n ∉ is) : Simulates P P' p q is is := by
  refine ⟨hp, hplain, hplain, ?_⟩
  intro f s s' t hin h ht
  induction is generalizing p s s' with
  | nil =>
      cases hp
      cases ht
      exact ⟨s', rfl, h, sameAbove_of_mem rfl⟩
  | cons i is ih =>
      rw [X86.advances, Option.bind_eq_some_iff] at hp
      obtain ⟨p₁, hp₁, hp⟩ := hp
      rw [Program.run_cons, Option.bind_eq_some_iff] at ht
      obtain ⟨s₁, hs₁, ht⟩ := ht
      rw [List.forall_mem_cons] at hplain
      have hi₁ : ∀ n, i ≠ .subRsp n := by
        rintro n rfl
        exact hi n List.mem_cons_self
      obtain ⟨s₁', hs₁', halike, habove⟩ := h.perform hword hp₁ hi₁ hin hs₁
      obtain ⟨t', ht', halike', habove'⟩ := ih hp hplain.2
        (fun n hn => hi n (List.mem_cons_of_mem _ hn)) s₁ s₁' (inPhase_perform hp₁ hin hs₁).1 halike
        ht
      exact ⟨t', by rw [Program.run_cons, hs₁', Option.bind_some, ht'], halike',
        habove.trans habove'⟩

/-! ### Allocation

`sub rsp, n` brings `n` bytes into the frame that are whatever was left below the
stack, and that need not be the same in both programs.  If every one of them is
stored before it is read, they are the same afterwards. -/

/-- A word is written at the same place in both, where they may have been
different. -/
theorem Like.store_union {D : Set ℕ} (h : Like D s s') (v : Word) (a : ℕ) :
    Like (D ∪ {x | a ≤ x ∧ x < a + 8}) { s with mem := s.mem.store a v }
      { s' with mem := s'.mem.store a v } := by
  refine ⟨h.regs, fun x hx hle => Mem.store_congr fun hne => h.mem x ?_ hle⟩
  exact hx.resolve_right hne

/-- The slots at some offsets below an address. -/
def slotsBelow (b : ℕ) (offs : List ℕ) : Set ℕ := {x | ∃ off ∈ offs, b ≤ x + off ∧ x + off < b + 8}

/-- Slots that are stored are the same from then on. -/
theorem Like.stores (P' : Program) {D : Set ℕ} {offs : List ℕ} {rs : List Reg}
    (hlen : offs.length ≤ rs.length) (hoffs : ∀ off ∈ offs, 8 ≤ off ∧ off ≤ s.bp) (h : Like D s s')
    (hs : P.run (List.zipWith .store offs rs) s = some t) :
    ∃ t', P'.run (List.zipWith .store offs rs) s' = some t' ∧
      Like (D ∪ slotsBelow s.bp offs) t t' ∧ SameAbove s.bp s' t' := by
  induction offs generalizing rs D s s' with
  | nil =>
      cases hs
      refine ⟨s', rfl, ⟨h.regs, fun x hx => h.mem x (hx.resolve_right ?_)⟩, sameAbove_of_mem rfl⟩
      rintro ⟨off, hoff, -⟩
      cases hoff
  | cons off offs ih =>
      cases rs with
      | nil => cases hlen
      | cons r rs =>
          rw [List.forall_mem_cons] at hoffs
          have hlt := s.bp_lt
          rw [List.zipWith_cons_cons] at hs ⊢
          rw [Program.run_cons, Program.perform, exec_store r hoffs.1.2 (by omega),
            Option.bind_some] at hs
          · have hstore : exec (.store off r) s' = some _ :=
              exec_store r (by rw [h.bp]; exact hoffs.1.2) (by rw [h.bp]; omega)
            rw [h.bp, congrFun h.regs r] at hstore
            obtain ⟨t', ht', hlike, habove⟩ := ih
              (s := { s with mem := s.mem.store (s.bp - off) (s.regs r) })
              (Nat.le_of_succ_le_succ hlen) hoffs.2 (h.store_union (s.regs r) (s.bp - off)) hs
            refine ⟨t', ?_, ⟨hlike.regs, fun x hx => hlike.mem x ?_⟩, ?_⟩
            · rw [Program.run_cons, Program.perform, hstore, Option.bind_some, ht']
              rintro l₁ l₂ ⟨⟩
            · rcases hx with hx | ⟨off', hoff', hx, hx'⟩
              · exact .inl (.inl hx)
              · rcases List.mem_cons.mp hoff' with rfl | hoff'
                · have := hoffs.1.2
                  exact .inl (.inr ⟨by omega, by omega⟩)
                · exact .inr ⟨off', hoff', hx, hx'⟩
            · exact (sameAbove_store rfl (by omega)).trans habove
          · rintro l₁ l₂ ⟨⟩

/-- Allocated space all of whose slots are stored at once: each byte of it lies in
one of the slots (`hcover`).  This is the prologue of a function without declared
locals. -/
theorem simulates_alloc {a : ℕ} {offs : List ℕ} {rs : List Reg} (hlen : offs.length ≤ rs.length)
    (hoffs : ∀ off ∈ offs, 8 ≤ off ∧ off ≤ a)
    (hcover : ∀ d, 0 < d → d ≤ a → ∃ off ∈ offs, d ≤ off ∧ off < d + 8)
    (hp : X86.advances (.framed a 0) (List.zipWith .store offs rs) = some (.framed a 0)) :
    Simulates P P' (.framed 0 0) (.framed a 0) (.subRsp a :: List.zipWith .store offs rs)
      (.subRsp a :: List.zipWith .store offs rs) := by
  have hplain : ∀ i ∈ Instr.subRsp a :: List.zipWith .store offs rs, plain i = true := by
    refine List.forall_mem_cons.mpr ⟨rfl, fun i hi => ?_⟩
    rw [← List.map_uncurry_zip_eq_zipWith, List.mem_map] at hi
    obtain ⟨x, -, rfl⟩ := hi
    rfl
  have hadvances : X86.advances (.framed 0 0) (.subRsp a :: List.zipWith .store offs rs) =
      some (.framed a 0) := hp
  refine ⟨hadvances, hplain, hplain, ?_⟩
  intro f s s' t hin h ht
  have hlike := h.like (by simp)
  have hspt : t.sp + (8 * 0 + a + 8) = f.top := (inPhase_run hadvances hin ht).1.2.2.2
  obtain ⟨-, -, hbp, hsp⟩ := hin
  rw [Program.run_cons, Option.bind_eq_some_iff] at ht
  obtain ⟨u, hu, ht⟩ := ht
  have hu : exec (.subRsp a) s = some u := hu
  simp only [exec, Option.ite_none_right_eq_some, Option.some.injEq] at hu
  obtain ⟨hroom, rfl⟩ := hu
  have hroom' : a ≤ s'.sp := by rwa [hlike.sp]
  -- below the old `rsp` nothing is known to be the same
  have halloc : Like {x | s.sp ≤ x ∧ x < f.top} (s.set .rsp (s.regs .rsp - BitVec.ofNat 64 a))
      (s'.set .rsp (s'.regs .rsp - BitVec.ofNat 64 a)) := by
    refine ⟨by rw [State.set, State.set, h.regs], fun x hx _ => hlike.mem x hx.2 hx.1⟩
  have hbp' : (s.set .rsp (s.regs .rsp - BitVec.ofNat 64 a)).bp = s.bp :=
    State.set_bp _ _ (by decide)
  obtain ⟨t', ht', hlike', habove⟩ := halloc.stores P' hlen
    (fun off hoff => ⟨(hoffs off hoff).1, by rw [hbp']; have := (hoffs off hoff).2; omega⟩) ht
  refine ⟨t', ?_, ⟨hlike'.regs, fun x hx hx' => hlike'.mem x ?_ hx⟩, fun x hx => ?_⟩
  · rw [Program.run_cons, show P'.perform (.subRsp a) s' = some _ from if_pos hroom',
      Option.bind_some, ht']
  · by_cases hle : s.sp ≤ x
    · exact .inl ⟨hle, hx'⟩
    · change t.sp ≤ x at hx
      obtain ⟨off, hoff, hle', hlt'⟩ := hcover (s.bp - x) (by omega) (by omega)
      exact .inr ⟨off, hoff, by rw [hbp']; omega, by rw [hbp']; omega⟩
  · rw [habove x (by rw [hbp']; omega)]
    rfl

/-! ## Code with calls -/

/-- Stretches of straight-line code in the place of others, around the same calls
and up to the `ret`.  The calls are of the same labels; that these lead to faithful
code too is for `Refines`. -/
inductive Faithful (P P' : Program) : Phase → List Instr → List Instr → Prop where
  | ret {p q : Phase} {is js rest rest' : List Instr} : Simulates P P' p q is js →
      Faithful P P' p (is ++ .ret :: rest) (js ++ .ret :: rest')
  | call {p : Phase} {a n : ℕ} {is js rest rest' : List Instr} (i : Instr) : plain i = false →
      i ≠ .ret → Simulates P P' p (.framed a n) is js →
      Faithful P P' (.framed a n) rest rest' →
      Faithful P P' p (is ++ i :: rest) (js ++ i :: rest')

/-- A simulation in front of faithful code. -/
theorem Faithful.append (h : Simulates P P' p q is js) (h' : Faithful P P' q is' js') :
    Faithful P P' p (is ++ is') (js ++ js') := by
  cases h' with
  | ret hsim =>
      rw [← List.append_assoc, ← List.append_assoc]
      exact .ret (h.append hsim)
  | call i hi hne hsim hrest =>
      rw [← List.append_assoc, ← List.append_assoc]
      exact .call i hi hne (h.append hsim) hrest

section Inversion

variable {rest code : List Instr}

/-- What faithful code comes to first, by what stands in the first program. -/
theorem Faithful.of_ret (h : Faithful P P' p (is ++ .ret :: rest) code)
    (his : ∀ i ∈ is, plain i = true) : ∃ q js rest', code = js ++ .ret :: rest' ∧
      Simulates P P' p q is js := by
  generalize hc : is ++ .ret :: rest = code₁ at h
  cases h with
  | ret hsim =>
      obtain ⟨rfl, -, -⟩ := segment_unique hc his hsim.plain rfl rfl
      exact ⟨_, _, _, rfl, hsim⟩
  | call i hi hne hsim hrest =>
      obtain ⟨-, rfl, -⟩ := segment_unique hc his hsim.plain rfl hi
      exact absurd rfl hne

/-- At a call of the first program the second makes the same call, with faithful
code behind it. -/
theorem Faithful.of_call (h : Faithful P P' p (is ++ i :: rest) code)
    (his : ∀ i ∈ is, plain i = true) (hi : plain i = false) (hne : i ≠ .ret) :
    ∃ a n js rest', code = js ++ i :: rest' ∧ Simulates P P' p (.framed a n) is js ∧
      Faithful P P' (.framed a n) rest rest' := by
  generalize hc : is ++ i :: rest = code₁ at h
  cases h with
  | ret hsim =>
      obtain ⟨-, rfl, -⟩ := segment_unique hc his hsim.plain hi rfl
      exact absurd rfl hne
  | call j hj _ hsim hrest =>
      obtain ⟨rfl, rfl, rfl⟩ := segment_unique hc his hsim.plain hi hj
      exact ⟨_, _, _, _, rfl, hsim, hrest⟩

/-- What faithful code comes to first, by what stands in the second program. -/
theorem Faithful.to_ret (h : Faithful P P' p code (js ++ .ret :: rest))
    (hjs : ∀ i ∈ js, plain i = true) : ∃ q is rest', code = is ++ .ret :: rest' ∧
      Simulates P P' p q is js := by
  generalize hc : js ++ .ret :: rest = code₁ at h
  cases h with
  | ret hsim =>
      obtain ⟨rfl, -, -⟩ := segment_unique hc hjs hsim.plain' rfl rfl
      exact ⟨_, _, _, rfl, hsim⟩
  | call i hi hne hsim hrest =>
      obtain ⟨-, rfl, -⟩ := segment_unique hc hjs hsim.plain' rfl hi
      exact absurd rfl hne

/-- The same from the second program's call. -/
theorem Faithful.to_call (h : Faithful P P' p code (js ++ i :: rest))
    (hjs : ∀ i ∈ js, plain i = true) (hi : plain i = false) (hne : i ≠ .ret) :
    ∃ a n is rest', code = is ++ i :: rest' ∧ Simulates P P' p (.framed a n) is js ∧
      Faithful P P' (.framed a n) rest' rest := by
  generalize hc : js ++ i :: rest = code₁ at h
  cases h with
  | ret hsim =>
      obtain ⟨-, rfl, -⟩ := segment_unique hc hjs hsim.plain' hi rfl
      exact absurd rfl hne
  | call j hj _ hsim hrest =>
      obtain ⟨rfl, rfl, rfl⟩ := segment_unique hc hjs hsim.plain' hi hj
      exact ⟨_, _, _, _, rfl, hsim, hrest⟩

end Inversion

/-! ## What calls see of each other

Above an activation lie the frames of its callers, with return addresses in them.
`B` is the set of places where these are, and it grows by one for each call that is
active. -/

/-- A byte of one of the words at some addresses.  The words lie eight bytes apart
or more, and this is not needed. -/
def InSlot (B : Set ℕ) (x : ℕ) : Prop := ∃ b ∈ B, b ≤ x ∧ x < b + 8

/-- The same registers, and the same memory from an address on, apart from the
words at some addresses. -/
structure Same (B : Set ℕ) (a : ℕ) (s s' : State) : Prop where
  regs : s'.regs = s.regs
  mem : ∀ x, a ≤ x → ¬ InSlot B x → s'.mem x = s.mem x

/-- Being the same is symmetric. -/
theorem Same.symm {B : Set ℕ} {a : ℕ} (h : Same B a s s') : Same B a s' s :=
  ⟨h.regs.symm, fun x hx hB => (h.mem x hx hB).symm⟩

/-- Outside code that depends on registers and on memory at and above `rsp`, and not
on the words of `W` that are return addresses: in two states that are the same but
for such words it returns alike.  What it leaves behind is again the same but for
these words. -/
def Env.Indifferent (env : Env) (W : Set Word) : Prop :=
  ∀ (a : Word) (B : Set ℕ) (s s' t : State),
    (∀ b ∈ B, s.sp ≤ b ∧ s.mem.load b ∈ W ∧ s'.mem.load b ∈ W) → Same B s.sp s s' →
    env a s t → ∃ t', env a s' t' ∧ Same B s.sp t t'

/-- Two activations at corresponding points of two programs, with return addresses
at the addresses `B` above them.  This is the invariant of `Eval.carry`. -/
structure Matched (W : Set Word) (top : ℕ) (B : Set ℕ) (f : Frame) (p : Phase) (s s' : State) :
    Prop where
  inPhase : InPhase f p s
  alike : Alike f p s s'
  above : ∀ x, f.top ≤ x → ¬ InSlot B x → s'.mem x = s.mem x
  slots : ∀ b ∈ B, f.top ≤ b ∧ b + 8 ≤ top
  words : ∀ b ∈ B, s.mem.load b ∈ W ∧ s'.mem.load b ∈ W
  below : f.top + 8 ≤ top

variable {W : Set Word} {top a n : ℕ} {B : Set ℕ} {w w' : Word} {env : Env} {s₁ s₁' : State}

/-- A stretch of straight-line code. -/
theorem Matched.run (h : Simulates P P' p q is js) (hm : Matched W top B f p s s')
    (hs : P.run is s = some t) : ∃ t', P'.run js s' = some t' ∧ Matched W top B f q t t' := by
  obtain ⟨t', ht', halike, habove'⟩ := h.run f s s' t hm.inPhase hm.alike hs
  obtain ⟨hin, habove⟩ := inPhase_run h.advances hm.inPhase hs
  refine ⟨t', ht', hin, halike, fun x hx hB => ?_, hm.slots, fun b hb => ?_, hm.below⟩
  · rw [habove x hx, habove' x hx, hm.above x hx hB]
  · have hle := (hm.slots b hb).1
    have hload : t.mem.load b = s.mem.load b :=
      Mem.load_congr fun x hx _ => habove x (by omega)
    have hload' : t'.mem.load b = s'.mem.load b :=
      Mem.load_congr fun x hx _ => habove' x (by omega)
    rw [hload, hload']
    exact hm.words b hb

/-- Where one of them has room for a return address the other has, whatever the
words are. -/
theorem Matched.push (hm : Matched W top B f (.framed a n) s s') (hs : s.push w = some s₁)
    (w' : Word) : ∃ s₁', s'.push w' = some s₁' := by
  obtain ⟨hroom, -⟩ := State.push_spec hs
  rw [State.sp, ← hm.alike.regs] at hroom
  exact ⟨_, State.push_eq hroom⟩

/-- The callees of two calls. -/
theorem Matched.entered (hm : Matched W top B f (.framed a n) s s') (hw : w ∈ W) (hw' : w' ∈ W)
    (hs : s.push w = some s₁) (hs' : s'.push w' = some s₁') :
    Matched W top (insert s₁.sp B) ⟨w, s.regs .rbp, s₁.regs .rsp⟩ .entry s₁ s₁' := by
  obtain ⟨hroom, hsp, hmem, -⟩ := State.push_spec hs
  obtain ⟨hroom', hsp', hmem', -⟩ := State.push_spec hs'
  have hle := hm.inPhase.2.2.2
  have hbelow := hm.below
  have hsame : s'.sp = s.sp := by rw [State.sp, State.sp, hm.alike.regs]
  have hregs : s₁'.regs = s₁.regs := by
    rw [State.push_eq hroom] at hs
    rw [State.push_eq hroom'] at hs'
    cases hs
    cases hs'
    rw [hm.alike.regs]
  have htop : (Frame.mk w (s.regs .rbp) (s₁.regs .rsp)).top = s₁.sp := rfl
  refine ⟨inPhase_entry hs, ⟨hregs, fun x hx hx' => ?_⟩, fun x hx hB => ?_, ?_, ?_, ?_⟩
  · change s₁.sp ≤ x at hx
    rw [htop] at hx'
    omega
  · rw [htop] at hx
    have hge : s.sp ≤ x := by
      by_contra hlt
      exact hB ⟨s₁.sp, Set.mem_insert _ _, by omega, by omega⟩
    rw [hmem, hmem', Mem.store_of_ge (by omega), Mem.store_of_ge (by omega)]
    rcases Nat.lt_or_ge x f.top with hlt | hge'
    · exact hm.alike.mem x hge hlt
    · refine hm.above x hge' ?_
      rintro ⟨b, hb, hx⟩
      exact hB ⟨b, Set.mem_insert_of_mem _ hb, hx⟩
  · rintro b (rfl | hb)
    · exact ⟨Nat.le_refl _, by omega⟩
    · have := hm.slots b hb
      rw [htop]
      exact ⟨by omega, by omega⟩
  · rintro b (rfl | hb)
    · rw [hmem, hmem', hsame, hsp, Mem.load_store_self, Mem.load_store_self]
      exact ⟨hw, hw'⟩
    · have := hm.slots b hb
      rw [hmem, hmem', Mem.load_store_of_disjoint (.inl (by omega)),
        Mem.load_store_of_disjoint (.inl (by omega))]
      exact hm.words b hb
  · rw [htop]
    omega

/-- What outside code can tell of two calls. -/
theorem Matched.same (hm : Matched W top B f .entry s s') : Same B s.sp s s' := by
  have htop : s.sp = f.top := hm.inPhase.2.1
  exact ⟨hm.alike.regs, fun x hx => hm.above x (by omega)⟩

/-- The words that differ are return addresses. -/
theorem Matched.slotWords (hm : Matched W top B f .entry s s') :
    ∀ b ∈ B, s.sp ≤ b ∧ s.mem.load b ∈ W ∧ s'.mem.load b ∈ W := by
  have htop : s.sp = f.top := hm.inPhase.2.1
  intro b hb
  exact ⟨htop ▸ (hm.slots b hb).1, hm.words b hb⟩

/-- Behind two calls that have returned alike. -/
theorem Matched.called (hm : Matched W top B f (.framed a n) s s') (hs : s.push w = some s₁)
    (hk : Kept top s t) (hk' : Kept top s' t') (h : Same (insert s₁.sp B) s₁.sp t t') :
    Matched W top B f (.framed a n) t t' := by
  obtain ⟨hroom, hsp, -⟩ := State.push_spec hs
  have hle := hm.inPhase.2.2.2
  have hsame : s'.sp = s.sp := by rw [State.sp, State.sp, hm.alike.regs]
  have hmem : ∀ x, s.sp ≤ x → ¬ InSlot B x → t'.mem x = t.mem x := by
    intro x hx hB
    refine h.mem x (by omega) ?_
    rintro ⟨b, rfl | hb, hxb⟩
    · omega
    · exact hB ⟨b, hb, hxb⟩
  refine ⟨hk.inPhase hm.below hm.inPhase, ⟨h.regs, fun x hx hx' => hmem x ?_ ?_⟩,
    fun x hx => hmem x (by omega), hm.slots, fun b hb => ?_, hm.below⟩
  · change t.sp ≤ x at hx
    rwa [hk.sp] at hx
  · rintro ⟨b, hb, hxb⟩
    have := hm.slots b hb
    omega
  · have hb' := hm.slots b hb
    have hload : t.mem.load b = s.mem.load b :=
      Mem.load_congr fun x hx _ => hk.mem x (by omega) (by omega)
    have hload' : t'.mem.load b = s'.mem.load b :=
      Mem.load_congr fun x hx _ => hk'.mem x (by omega) (by omega)
    rw [hload, hload']
    exact hm.words b hb

/-- If the first activation can return so can the second, and above the frame the
two are the same. -/
theorem Matched.returned (hm : Matched W top B f p s s') (hpop : s.pop = some (w, t)) :
    ∃ w' t', s'.pop = some (w', t') ∧ Same B f.top t t' := by
  obtain ⟨hle, -, rfl⟩ := State.pop_spec hpop
  have hregs := hm.alike.regs
  refine ⟨_, _, State.pop_eq (by rw [State.sp, hregs]; exact hle), ?_, fun x hx hB => ?_⟩
  · rw [State.set, State.set, hregs]
  · exact hm.above x hx hB

/-- The same from the second activation. -/
theorem Matched.returned_back (hm : Matched W top B f p s s') (hpop' : s'.pop = some (w', t')) :
    ∃ w t, s.pop = some (w, t) ∧ Same B f.top t t' := by
  obtain ⟨hle, -, -⟩ := State.pop_spec hpop'
  have hpop := State.pop_eq (s := s) (by rw [State.sp, ← hm.alike.regs]; exact hle)
  obtain ⟨w₁, t₁, hpop₁, hsame⟩ := hm.returned hpop
  cases hpop'.symm.trans hpop₁
  exact ⟨_, _, hpop, hsame⟩

/-! ## Programs -/

/-- Every label that is called stands before faithful code, and the words at labels
are the same. -/
structure Refines (P P' : Program) : Prop where
  word : P'.word = P.word
  targets : ∀ (pc : ℕ) (l : Label), P.code[pc]? = some (.callLabel l) → ∃ k k',
    P.target l = some k ∧ P'.target l = some k' ∧
      Faithful P P' .entry (P.code.drop k) (P'.code.drop k')

/-- What two programs and the code around them need to return alike.  Both keep to
their frames; for the second this is not a consequence of `refines`, which is about
calls that return only. -/
structure Setting (P P' : Program) (env : Env) (top : ℕ) (W : Set Word) : Prop where
  refines : Refines P P'
  disciplined : P.Disciplined
  disciplined' : P'.Disciplined
  wellBehaved : WellBehaved env top
  indifferent : env.Indifferent W
  address : ∀ k, P.address k ∈ W
  address' : ∀ k, P'.address k ∈ W

variable {pc pc' k k' : ℕ} {s₂ s₂' s₃ s₃' : State}

/-- A call that is evaluated, from the caller's side. -/
theorem Eval.kept (hP : P.Disciplined) (henv : WellBehaved env top) {l : Label}
    (hcall : P.code[pc]? = some (.callLabel l)) (hk : P.target l = some k)
    (hpush : s.push w = some s₁) (htop : s₁.sp + 8 ≤ top) (h : Eval P env k s₁ (some t)) :
    Kept top s t :=
  Restored.kept hpush (h.restored hP henv (hP _ _ _ hcall hk) (inPhase_entry hpush) htop)

/-- What outside code returns in one environment it returns in another as well, in
states that are the same but for words of `W` on the stack, which ends at `top`.
With one environment this is what `Env.Indifferent` says; with two it is what is
needed of programs that are outside code for each other. -/
def Env.Carries (env env' : Env) (W : Set Word) (top : ℕ) : Prop :=
  ∀ (a : Word) (B : Set ℕ) (s s' t : State), s.sp + 8 ≤ top →
    (∀ b ∈ B, s.sp ≤ b ∧ b + 8 ≤ top ∧ s.mem.load b ∈ W ∧ s'.mem.load b ∈ W) → Same B s.sp s s' →
    env a s t → ∃ t', env' a s' t' ∧ Same B s.sp t t'

/-- Outside code that is indifferent carries over to itself. -/
theorem Env.Indifferent.carries (h : env.Indifferent W) (top : ℕ) : env.Carries env W top :=
  fun a B s s' t _ hB hsame ht =>
    h a B s s' t (fun b hb => ⟨(hB b hb).1, (hB b hb).2.2⟩) hsame ht

/-- What two programs need to return alike, each with its own outside code. -/
structure Carried (P P' : Program) (env env' : Env) (top : ℕ) (W : Set Word) : Prop where
  refines : Refines P P'
  disciplined : P.Disciplined
  disciplined' : P'.Disciplined
  wellBehaved : WellBehaved env top
  wellBehaved' : WellBehaved env' top
  carries : env.Carries env' W top
  address : ∀ k, P.address k ∈ W
  address' : ∀ k, P'.address k ∈ W

/-- One environment for both programs. -/
theorem Setting.carried (h : Setting P P' env top W) : Carried P P' env env top W :=
  ⟨h.refines, h.disciplined, h.disciplined', h.wellBehaved, h.wellBehaved,
    h.indifferent.carries top, h.address, h.address'⟩

/-- **What the first program returns, the second returns**, if the same can be said
of the code around them.  By induction on the evaluation of the first; the matched
state of the second is built along it. -/
theorem Eval.carry {env' : Env} (hset : Carried P P' env env' top W) (h : Eval P env pc s (some t))
    (hf : Faithful P P' p (P.code.drop pc) (P'.code.drop pc'))
    (hm : Matched W top B f p s s') :
    ∃ t', Eval P' env' pc' s' (some t') ∧ Same B f.top t t' := by
  generalize ho : some t = o at h
  induction h generalizing p f B s' t pc' with
  | @ret pc s s₁ t₁ seg rest w hcode hrun hpop =>
      cases ho
      obtain ⟨q, js, rest', hcode', hsim⟩ := (hcode ▸ hf).of_ret (plain_of_run hrun)
      obtain ⟨s₁', hrun', hm₁⟩ := hm.run hsim hrun
      obtain ⟨w', t', hpop', hsame⟩ := hm₁.returned hpop
      exact ⟨t', .ret hcode' hrun' hpop', hsame⟩
  | stop => cases ho
  | @call pc k s s₁ s₂ s₃ seg rest l o hcode hrun hk hpush hcallee _ ihcallee ihrest =>
      obtain ⟨a, n, js, rest', hcode', hsim, hf⟩ :=
        (hcode ▸ hf).of_call (plain_of_run hrun) rfl (by simp)
      obtain ⟨hcall, hrest⟩ := drop_of_split hcode
      obtain ⟨hcall', hrest'⟩ := drop_of_split hcode'
      rw [← hrest, ← hrest'] at hf
      obtain ⟨s₁', hrun', hm₁⟩ := hm.run hsim hrun
      obtain ⟨k₁, k', hk₁, hk', hfcallee⟩ := hset.refines.targets _ l hcall
      cases hk.symm.trans hk₁
      obtain ⟨s₂', hpush'⟩ := hm₁.push hpush (P'.address (pc' + js.length + 1))
      have hm₂ := hm₁.entered (hset.address _) (hset.address' _) hpush hpush'
      -- the callees return alike, and then the callers go on
      obtain ⟨s₃', hcallee', hsame⟩ := ihcallee hfcallee hm₂ rfl
      have hkept := hcallee.kept hset.disciplined hset.wellBehaved hcall hk hpush hm₂.below
      have hsp : s₂'.sp = s₂.sp := by rw [State.sp, State.sp, hm₂.alike.regs]
      have hkept' := hcallee'.kept hset.disciplined' hset.wellBehaved' hcall' hk' hpush'
        (by rw [hsp]; exact hm₂.below)
      obtain ⟨t', ht', hsame'⟩ := ihrest hf (hm₁.called hpush hkept hkept' hsame) ho
      exact ⟨t', .call hcode' hrun' hk' hpush' hcallee' ht', hsame'⟩
  | callStop => cases ho
  | @outside pc s s₁ s₂ s₃ seg rest r o hcode hrun hpush hout _ ihrest =>
      obtain ⟨a, n, js, rest', hcode', hsim, hf⟩ :=
        (hcode ▸ hf).of_call (plain_of_run hrun) rfl (by simp)
      obtain ⟨-, hrest⟩ := drop_of_split hcode
      obtain ⟨-, hrest'⟩ := drop_of_split hcode'
      rw [← hrest, ← hrest'] at hf
      obtain ⟨s₁', hrun', hm₁⟩ := hm.run hsim hrun
      obtain ⟨s₂', hpush'⟩ := hm₁.push hpush (P'.address (pc' + js.length + 1))
      have hm₂ := hm₁.entered (hset.address _) (hset.address' _) hpush hpush'
      obtain ⟨s₃', hout', hsame⟩ := hset.carries _ _ _ _ _ hm₂.below
        (fun b hb => ⟨(hm₂.slots b hb).1, (hm₂.slots b hb).2, hm₂.words b hb⟩) hm₂.same hout
      rw [← hm₁.alike.regs] at hout'
      obtain ⟨t', ht', hsame'⟩ := ihrest hf (hm₁.called hpush (hset.wellBehaved.kept hpush hout)
        (hset.wellBehaved'.kept hpush' hout') hsame) ho
      exact ⟨t', .outside hcode' hrun' hpush' hout' ht', hsame'⟩

/-- **What the first program returns, the second returns**, in the same environment.
-/
theorem Eval.refine (hset : Setting P P' env top W) (h : Eval P env pc s (some t))
    (hf : Faithful P P' p (P.code.drop pc) (P'.code.drop pc'))
    (hm : Matched W top B f p s s') :
    ∃ t', Eval P' env pc' s' (some t') ∧ Same B f.top t t' :=
  h.carry hset.carried hf hm

/-- Straight-line code of the first program runs, or there is no room for it. -/
theorem Matched.run_or_stop {rest : List Instr} (h : Simulates P P' p q is js)
    (hm : Matched W top B f p s s') (hcode : P.code.drop pc = is ++ rest)
    (hs' : P'.run js s' = some t') :
    (∃ t, P.run is s = some t ∧ Matched W top B f q t t') ∨ Eval P env pc s none := by
  cases hs : P.run is s with
  | some t =>
      obtain ⟨u, hu, hmatched⟩ := hm.run h hs
      cases hs'.symm.trans hu
      exact .inl ⟨t, rfl, hmatched⟩
  | none =>
      obtain ⟨pre, i, post, s₁, rfl, hpre, hroom⟩ :=
        room_of_run h.advances hm.inPhase h.plain hs
      rw [List.append_assoc, List.cons_append] at hcode
      exact .inr (.stop hcode hpre hroom)

/-- The first program can make a call that the second one makes. -/
theorem Matched.push_back (hm : Matched W top B f (.framed a n) s s')
    (hs' : s'.push w' = some s₁') (w : Word) : ∃ s₁, s.push w = some s₁ := by
  obtain ⟨hroom, -⟩ := State.push_spec hs'
  rw [State.sp, hm.alike.regs] at hroom
  exact ⟨_, State.push_eq hroom⟩

/-- **What the second program returns, the first returns**, unless it runs out of
room on the stack.  Here the evaluation of the second is given, and at each stretch
the first either gets through it or stops. -/
theorem Eval.reflect (hset : Setting P P' env top W) (h : Eval P' env pc' s' (some t'))
    (hf : Faithful P P' p (P.code.drop pc) (P'.code.drop pc'))
    (hm : Matched W top B f p s s') :
    (∃ t, Eval P env pc s (some t) ∧ Same B f.top t t') ∨ Eval P env pc s none := by
  generalize ho : some t' = o at h
  induction h generalizing p f B s t' pc with
  | @ret pc' s' s₁' t₁ seg rest w hcode' hrun' hpop' =>
      cases ho
      obtain ⟨q, is, rest', hcode, hsim⟩ := (hcode' ▸ hf).to_ret (plain_of_run hrun')
      rcases hm.run_or_stop hsim hcode hrun' with ⟨s₁, hrun, hm₁⟩ | hstop
      · obtain ⟨w', t, hpop, hsame⟩ := hm₁.returned_back hpop'
        exact .inl ⟨t, .ret hcode hrun hpop, hsame⟩
      · exact .inr hstop
  | stop => cases ho
  | @call pc' k' s' s₁' s₂' s₃' seg rest l o hcode' hrun' hk' hpush' hcallee' _ ihcallee ihrest =>
      obtain ⟨a, n, is, rest', hcode, hsim, hf⟩ :=
        (hcode' ▸ hf).to_call (plain_of_run hrun') rfl (by simp)
      obtain ⟨hcall, hrest⟩ := drop_of_split hcode
      obtain ⟨hcall', hrest'⟩ := drop_of_split hcode'
      rw [← hrest, ← hrest'] at hf
      rcases hm.run_or_stop hsim hcode hrun' with ⟨s₁, hrun, hm₁⟩ | hstop
      · obtain ⟨k, k₁, hk, hk₁, hfcallee⟩ := hset.refines.targets _ l hcall
        cases hk'.symm.trans hk₁
        obtain ⟨s₂, hpush⟩ := hm₁.push_back hpush' (P.address (pc + is.length + 1))
        have hm₂ := hm₁.entered (hset.address _) (hset.address' _) hpush hpush'
        rcases ihcallee hfcallee hm₂ rfl with ⟨s₃, hcallee, hsame⟩ | hstop
        · have hkept := hcallee.kept hset.disciplined hset.wellBehaved hcall hk hpush hm₂.below
          have hsp : s₂'.sp = s₂.sp := by rw [State.sp, State.sp, hm₂.alike.regs]
          have hkept' := hcallee'.kept hset.disciplined' hset.wellBehaved hcall' hk' hpush'
            (by rw [hsp]; exact hm₂.below)
          rcases ihrest hf (hm₁.called hpush hkept hkept' hsame) ho with ⟨t, ht, hsame'⟩ | hstop
          · exact .inl ⟨t, .call hcode hrun hk hpush hcallee ht, hsame'⟩
          · exact .inr (.call hcode hrun hk hpush hcallee hstop)
        · exact .inr (.callStop hcode hrun hk hpush hstop)
      · exact .inr hstop
  | callStop => cases ho
  | @outside pc' s' s₁' s₂' s₃' seg rest r o hcode' hrun' hpush' hout' _ ihrest =>
      obtain ⟨a, n, is, rest', hcode, hsim, hf⟩ :=
        (hcode' ▸ hf).to_call (plain_of_run hrun') rfl (by simp)
      obtain ⟨-, hrest⟩ := drop_of_split hcode
      obtain ⟨-, hrest'⟩ := drop_of_split hcode'
      rw [← hrest, ← hrest'] at hf
      rcases hm.run_or_stop hsim hcode hrun' with ⟨s₁, hrun, hm₁⟩ | hstop
      · obtain ⟨s₂, hpush⟩ := hm₁.push_back hpush' (P.address (pc + is.length + 1))
        have hm₂ := hm₁.entered (hset.address _) (hset.address' _) hpush hpush'
        have hsp : s₂'.sp = s₂.sp := by rw [State.sp, State.sp, hm₂.alike.regs]
        obtain ⟨s₃, hout, hsame⟩ := hset.indifferent _ _ _ _ _
          (fun b hb => ⟨hsp ▸ (hm₂.slotWords b hb).1, (hm₂.words b hb).symm⟩)
          (hsp ▸ hm₂.same.symm) hout'
        rw [hm₁.alike.regs] at hout
        rw [hsp] at hsame
        rcases ihrest hf (hm₁.called hpush (hset.wellBehaved.kept hpush hout)
          (hset.wellBehaved.kept hpush' hout') hsame.symm) ho with ⟨t, ht, hsame'⟩ | hstop
        · exact .inl ⟨t, .outside hcode hrun hpush hout ht, hsame'⟩
        · exact .inr (.outside hcode hrun hpush hout hstop)
      · exact .inr hstop

/-- **Calls in the two programs return alike**, up to the room the first of them may
be short of.  Both are called in one and the same state, so that there are no return
addresses to leave out yet. -/
theorem returns_refine (hset : Setting P P' env top W) (hsep : P.Separate) (hsep' : P'.Separate)
    (hk : accepts .entry (P.code.drop k) = true) (hk' : accepts .entry (P'.code.drop k') = true)
    (hf : Faithful P P' .entry (P.code.drop k) (P'.code.drop k')) (htop : s.sp + 8 ≤ top) :
    (∀ u, Returns P env k s u → ∃ u', Returns P' env k' s u' ∧ Same ∅ s.sp u u') ∧
      ∀ u', Returns P' env k' s u' →
        (∃ u, Returns P env k s u ∧ Same ∅ s.sp u u') ∨ RunsOut P env k s := by
  have hm : Matched W top ∅ ⟨s.mem.load s.sp, s.regs .rbp, s.regs .rsp⟩ .entry s s := by
    refine ⟨⟨rfl, rfl, rfl⟩, ⟨rfl, fun _ _ _ => rfl⟩, fun _ _ _ => rfl, ?_, ?_, htop⟩
    · intro b hb
      cases hb
    · intro b hb
      cases hb
  refine ⟨fun u hu => ?_, fun u' hu' => ?_⟩
  · have heval := hu.eval hset.disciplined hsep hset.wellBehaved hk htop
    obtain ⟨u', hu', hsame⟩ := heval.refine hset hf hm
    exact ⟨u', (returns_iff_eval hset.disciplined' hsep' hset.wellBehaved hk' htop).mpr hu', hsame⟩
  · have heval := hu'.eval hset.disciplined' hsep' hset.wellBehaved hk' htop
    rcases heval.reflect hset hf hm with ⟨u, hu, hsame⟩ | hstop
    · exact .inl
        ⟨u, (returns_iff_eval hset.disciplined hsep hset.wellBehaved hk htop).mpr hu, hsame⟩
    · exact .inr (hstop.runsOut hset.disciplined hsep hset.wellBehaved hk htop)

end ParaOS.X86
