import ParaOS.Parawasm.Optimizer

/-!
# Normal forms of the optimiser

`optimize` stops when a pass returns the list it was given.  A pass is greedy and
goes on behind what it has just rewritten, so this is not by itself the absence
of places where a rule applies; it is, since every rule shortens the list
(`pass_eq_self_iff`).  On such a list the loop takes the third way everywhere and
touches no label (`optimizeFrom_of_normal`), which is why a second run of
`optimize` returns what it is given, labels included.

No hypothesis is needed for any of this.  The lists may be anything, compiled or
not, and labels may stand anywhere; a label between the two instructions of a pair
goes somewhere in the first run, and in the second it stays there.
-/

namespace ParaOS.Parawasm

open Machine X86

/-- A list with no place where a rule applies. -/
structure Normal (is : List Instr) : Prop where
  pushPop : ∀ (k : ℕ) (a b : Reg), is[k]? = some (.push a) → is[k + 1]? ≠ some (.pop b)
  swap : ∀ (k : ℕ) (a b : Reg), is[k]? = some (.mov a b) → is[k + 1]? ≠ some (.mov b a)
  self : ∀ a : Reg, .mov a a ∉ is

/-- Opposite moves are gone, -/
theorem pairRule_swap (a b : Reg) : pairRule (.mov a b) (.mov b a) = some [] := by
  simp [pairRule]

/-- and so is a move of a register to itself. -/
theorem selfMove_self (a : Reg) : selfMove (.mov a a) = true := by
  simp [selfMove]

/-- In an empty list no rule applies, -/
theorem normal_nil : Normal [] := ⟨by simp, by simp, by simp⟩

/-- and in a list of one instruction only the rule on one. -/
theorem normal_singleton {i : Instr} (h : selfMove i = false) : Normal [i] := by
  refine ⟨fun k a b _ hnext => by simp at hnext, fun k a b _ hnext => by simp at hnext, ?_⟩
  intro a ha
  rw [List.mem_singleton] at ha
  rw [← ha, selfMove_self] at h
  cases h

/-- Whether a list is normal is seen at its head and in its tail. -/
theorem normal_cons_iff {i j : Instr} {is : List Instr} :
    Normal (i :: j :: is) ↔ pairRule i j = none ∧ selfMove i = false ∧ Normal (j :: is) := by
  constructor
  · intro h
    refine ⟨?_, ?_, fun k a b hk => ?_, fun k a b hk => ?_, fun a ha => ?_⟩
    · cases hrule : pairRule i j with
      | none => rfl
      | some new =>
          rcases pairRule_eq_some hrule with ⟨a, b, rfl, rfl, -⟩ | ⟨a, b, rfl, rfl, -⟩
          · exact absurd rfl (h.pushPop 0 a b rfl)
          · exact absurd rfl (h.swap 0 a b rfl)
    · cases hself : selfMove i with
      | false => rfl
      | true =>
          obtain ⟨a, rfl⟩ := selfMove_eq_true hself
          exact absurd List.mem_cons_self (h.self a)
    · exact h.pushPop (k + 1) a b hk
    · exact h.swap (k + 1) a b hk
    · exact h.self a (List.mem_cons_of_mem _ ha)
  · rintro ⟨hrule, hself, h⟩
    refine ⟨fun k a b hk hnext => ?_, fun k a b hk hnext => ?_, fun a ha => ?_⟩
    · cases k with
      | zero =>
          cases hk
          cases hnext
          cases hrule
      | succ k => exact h.pushPop k a b hk hnext
    · cases k with
      | zero =>
          cases hk
          cases hnext
          rw [pairRule_swap] at hrule
          cases hrule
      | succ k => exact h.swap k a b hk hnext
    · rcases List.mem_cons.mp ha with rfl | ha
      · rw [selfMove_self] at hself
        cases hself
      · exact h.self a ha

/-- A pass does not lengthen a list. -/
theorem length_pass_le (is : List Instr) : (pass is).length ≤ is.length := by
  rcases (rewrites_pass is).eq_or_length_lt with h | h
  · rw [h]
  · exact h.le

/-- **A list is left alone by a pass exactly when it is normal.** -/
theorem pass_eq_self_iff {is : List Instr} : pass is = is ↔ Normal is := by
  induction is using pass.induct with
  | case1 => exact ⟨fun _ => normal_nil, fun _ => rfl⟩
  | case2 i hself =>
      obtain ⟨a, rfl⟩ := selfMove_eq_true hself
      rw [pass, if_pos hself]
      exact ⟨fun h => (List.cons_ne_nil _ _ h.symm).elim,
        fun h => absurd List.mem_cons_self (h.self a)⟩
  | case3 i hself =>
      rw [pass, if_neg hself]
      exact ⟨fun _ => normal_singleton (by simpa using hself), fun _ => rfl⟩
  | case4 i j rest new hnew ih =>
      simp only [pass, hnew]
      constructor
      · intro h
        have hlen := congrArg List.length h
        have hshort := pairRule_length hnew
        have hrest := length_pass_le rest
        simp only [List.length_append, List.length_cons] at hlen
        omega
      · intro h
        rw [(normal_cons_iff.mp h).1] at hnew
        cases hnew
  | case5 i j rest hnew hself ih =>
      simp only [pass, hnew, if_pos hself]
      constructor
      · intro h
        have hlen := congrArg List.length h
        have hrest := length_pass_le (j :: rest)
        simp only [List.length_cons] at hlen hrest
        omega
      · intro h
        rw [(normal_cons_iff.mp h).2.1] at hself
        cases hself
  | case6 i j rest hnew hself ih =>
      simp only [pass, hnew, if_neg hself, List.cons.injEq, true_and, normal_cons_iff]
      rw [ih]
      exact ⟨fun h => ⟨by simpa using hself, h⟩, fun h => h.2⟩

/-- On a normal list the loop of a pass changes neither instructions nor labels. -/
theorem optimizeFrom_of_normal {is : List Instr} {headIdx : ℕ} {labels : List Mark}
    (h : Normal is) : optimizeFrom is headIdx labels = (is, labels) := by
  induction is, headIdx, labels using optimizeFrom.induct with
  | case1 headIdx labels => rfl
  | case2 i headIdx labels hself =>
      obtain ⟨a, rfl⟩ := selfMove_eq_true hself
      exact absurd List.mem_cons_self (h.self a)
  | case3 i headIdx labels hself => rw [optimizeFrom, if_neg hself]
  | case4 i j rest headIdx labels new hnew ih =>
      rw [(normal_cons_iff.mp h).1] at hnew
      cases hnew
  | case5 i j rest headIdx labels hnew hself ih =>
      rw [(normal_cons_iff.mp h).2.1] at hself
      cases hself
  | case6 i j rest headIdx labels hnew hself ih =>
      simp only [optimizeFrom, hnew, if_neg hself, ih (normal_cons_iff.mp h).2.2]

/-- So a pass returns what it was given, -/
theorem optimizeLoop_of_normal {is : List Instr} (h : Normal is) (labels : List (ℕ × Label)) :
    optimizeLoop is labels = (is, labels) := by
  rw [optimizeLoop, optimizeFrom_of_normal h]
  dsimp only
  rw [List.map_map]
  exact congrArg (Prod.mk is) (List.map_id labels)

/-- and so does the optimiser. -/
theorem optimize_of_normal {is : List Instr} (h : Normal is) (labels : List (ℕ × Label)) :
    optimize is labels = (is, labels) := by
  have hwithin : optimizeWithin (is.length + 1) is labels = some (is, labels) := by
    rw [optimizeWithin]
    simp only [optimizeLoop_of_normal h, if_true]
  simp only [optimize, hwithin, Option.get_some]

/-- **`optimize` reaches a normal form**: for every instruction list and every label
list it is done within one more pass than there are instructions, no rule applies to
what it returns, and it changes neither that list nor any label when it is run on it
again.

Every pass that changes anything makes the list shorter, so the number of passes is
bounded by its length.  Nothing is asked of the list or of the labels; they need not
be those that `compile` records. -/
theorem optimize_normal_form (is : List Instr) (labels : List (ℕ × Label)) :
    optimizeWithin (is.length + 1) is labels = some (optimize is labels) ∧
      Normal (optimize is labels).1 ∧
      ∀ labels', optimize (optimize is labels).1 labels' = ((optimize is labels).1, labels') := by
  have hnormal : Normal (optimize is labels).1 := pass_eq_self_iff.mp (optimize_spec is labels).1
  exact ⟨(Option.some_get _).symm, hnormal, optimize_of_normal hnormal⟩

end ParaOS.Parawasm
