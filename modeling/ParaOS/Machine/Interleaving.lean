import Mathlib.Algebra.BigOperators.Group.Finset.Basic
import Mathlib.Algebra.Order.BigOperators.Group.Finset
import Mathlib.Data.Fintype.BigOperators

/-!
# Processes that take turns

A family of processes, each with a state of its own, and a state they share.  A
step is a step of one of them; which one is anybody's choice, so a run is any
interleaving of the processes' own steps.

`Reach ok` are the configurations that come up in runs all of whose steps are
`ok`, which is a condition on the configuration before the step and on the
process that takes it.  `Reach.invariant` is the induction over a run.  What a
step does to a sum over all processes is `sum_own`: only one summand changes.

A run ends if every step does some of what its process has to do (`exists_stuck`).

### The two design decisions

**Steps are atomic.**  What one process does between two steps of another is a
single change of its own state and the shared one.  How fine the steps are is for
the model that uses this: where a program writes a string in a loop, its model has
one step for each port write, and an interleaving may put another process's writes
between any two.

**No fairness.**  A run may neglect a process for as long as it likes.  Safety does
not need more, and for termination there is a measure in place of a scheduler: if
every step of every process does some of what is left to do, then no interleaving is
longer than that, and where it cannot be continued is where everybody is done or
waits (`Stuck`).  So "every run ends" is about all schedules, fair or not.

### What is load-bearing

The measure is a sum over the processes, so there are finitely many of them.  Each
step lowers the summand of the process that takes it and leaves the others as they
are; that is why a measure of the process's own state is enough, and nothing has to
be shown about how processes disturb each other.
-/

namespace ParaOS.Machine

/-- What one process does: its own state and the shared one, before and after.  It
is a relation, since a process may have several things it could do next, or, when it
waits, none. -/
abbrev Processes (ι σ τ : Type) := ι → σ → τ → σ → τ → Prop

/-- The states of all processes and the shared state. -/
structure Config (ι σ τ : Type) where
  own : ι → σ
  shared : τ

/-- **In a sum over all processes one summand changes** when one value does.  Both
old and new value are on the left and on the right, so that there is no subtraction
and any commutative monoid will do. -/
theorem sum_update {ι σ M : Type} [DecidableEq ι] [Fintype ι] [AddCommMonoid M] (p : ι → σ) (i : ι)
    (x : σ) (f : σ → M) :
    ∑ j, f (Function.update p i x j) + f (p i) = ∑ j, f (p j) + f x := by
  have hrest : ∑ j ∈ Finset.univ.erase i, f (Function.update p i x j) =
      ∑ j ∈ Finset.univ.erase i, f (p j) :=
    Finset.sum_congr rfl fun j hj => by rw [Function.update_of_ne (Finset.ne_of_mem_erase hj)]
  have hold := Finset.sum_erase_add Finset.univ (fun j => f (p j)) (Finset.mem_univ i)
  have hnew :=
    Finset.sum_erase_add Finset.univ (fun j => f (Function.update p i x j)) (Finset.mem_univ i)
  rw [← hold, ← hnew, hrest, Function.update_self]
  exact add_right_comm _ _ _

/-- **If a sum is one at most, only one summand counts.**  This is how mutual
exclusion follows from counting the processes that are inside. -/
theorem eq_of_sum_le_one {ι : Type} [DecidableEq ι] [Fintype ι] {f : ι → ℕ} {i j : ι}
    (h : ∑ k, f k ≤ 1) (hi : 0 < f i) (hj : 0 < f j) : i = j := by
  by_contra hne
  have hpair : ∑ k ∈ {i, j}, f k ≤ ∑ k, f k :=
    Finset.sum_le_sum_of_subset (Finset.subset_univ _)
  rw [Finset.sum_pair hne] at hpair
  omega

namespace Processes

variable {ι σ τ : Type} [DecidableEq ι] {P : Processes ι σ τ} {ok : Config ι σ τ → ι → Prop}
  {c₀ c c' : Config ι σ τ} {i : ι}

/-- A step of process `i`: its own state and the shared one change, and no other
process notices anything but the shared state. -/
def Step (P : Processes ι σ τ) (i : ι) (c c' : Config ι σ τ) : Prop :=
  ∃ s t, P i (c.own i) c.shared s t ∧ c' = ⟨Function.update c.own i s, t⟩

/-- Configurations that come up in a run of steps that are `ok`.  With `fun _ _ =>
True` for `ok` these are all runs; otherwise it is a condition on the run, stated
before each of its steps. -/
inductive Reach (P : Processes ι σ τ) (ok : Config ι σ τ → ι → Prop) (c₀ : Config ι σ τ) :
    Config ι σ τ → Prop where
  | refl : Reach P ok c₀ c₀
  | step {c c' : Config ι σ τ} {i : ι} :
      Reach P ok c₀ c → ok c i → P.Step i c c' → Reach P ok c₀ c'

/-- **What every step keeps holds in a whole run.**  The induction over a run is
made here, once; a safety theorem is an invariant, its initial case, and one lemma
for a step. -/
theorem Reach.invariant {Inv : Config ι σ τ → Prop} (h : Reach P ok c₀ c) (hinit : Inv c₀)
    (hstep : ∀ c c' i, Inv c → ok c i → P.Step i c c' → Inv c') : Inv c := by
  induction h with
  | refl => exact hinit
  | step _ hok hs ih => exact hstep _ _ _ ih hok hs

/-- The process that takes a step moves to its new state. -/
theorem Step.own_self (h : P.Step i c c') : P i (c.own i) c.shared (c'.own i) c'.shared := by
  obtain ⟨s, t, hst, rfl⟩ := h
  simpa using hst

/-- The others stay where they are. -/
theorem Step.own_of_ne (h : P.Step i c c') {j : ι} (hj : j ≠ i) : c'.own j = c.own j := by
  obtain ⟨s, t, -, rfl⟩ := h
  exact Function.update_of_ne hj _ _

/-- A property of all processes is kept if the one that moves has it afterwards.
The property is of a process's own state; one that looks at the shared state as well
has to be shown for the others too. -/
theorem Step.forall_own {p : ι → σ → Prop} (h : P.Step i c c') (hp : ∀ j, p j (c.own j))
    (hi : p i (c'.own i)) (j : ι) : p j (c'.own j) := by
  by_cases hj : j = i
  · subst hj
    exact hi
  · rw [h.own_of_ne hj]
    exact hp j

/-- **In a sum over all processes one summand changes.** -/
theorem Step.sum_own [Fintype ι] {M : Type} [AddCommMonoid M] (h : P.Step i c c') (f : σ → M) :
    ∑ j, f (c'.own j) + f (c.own i) = ∑ j, f (c.own j) + f (c'.own i) := by
  have hrest : ∑ j ∈ Finset.univ.erase i, f (c'.own j) =
      ∑ j ∈ Finset.univ.erase i, f (c.own j) :=
    Finset.sum_congr rfl fun j hj => by rw [h.own_of_ne (Finset.ne_of_mem_erase hj)]
  have hold := Finset.sum_erase_add Finset.univ (fun j => f (c.own j)) (Finset.mem_univ i)
  have hnew := Finset.sum_erase_add Finset.univ (fun j => f (c'.own j)) (Finset.mem_univ i)
  rw [← hold, ← hnew, hrest]
  exact add_right_comm _ _ _

/-! ## Runs that end -/

/-- Runs of so many steps. -/
inductive Steps (P : Processes ι σ τ) (c₀ : Config ι σ τ) : ℕ → Config ι σ τ → Prop where
  | refl : Steps P c₀ 0 c₀
  | step {n : ℕ} {c c' : Config ι σ τ} {i : ι} :
      Steps P c₀ n c → P.Step i c c' → Steps P c₀ (n + 1) c'

/-- The number of steps forgotten. -/
theorem Steps.reach {n : ℕ} (h : Steps P c₀ n c) : Reach P (fun _ _ => True) c₀ c := by
  induction h with
  | refl => exact .refl
  | step _ hs ih => exact ih.step trivial hs

/-- Every run has some number of steps, whatever condition its steps meet. -/
theorem Reach.exists_steps (h : Reach P ok c₀ c) : ∃ n, Steps P c₀ n c := by
  induction h with
  | refl => exact ⟨0, .refl⟩
  | step _ _ hs ih =>
      obtain ⟨n, hn⟩ := ih
      exact ⟨n + 1, hn.step hs⟩

/-- One run after another. -/
theorem Steps.trans {n n' : ℕ} (h : Steps P c₀ n c) (h' : Steps P c n' c') :
    Steps P c₀ (n + n') c' := by
  induction h' with
  | refl => exact h
  | step _ hs ih => exact ih.step hs

/-- Nothing can be done any more: every process is done, or waits for something that
nobody is going to do. -/
def Stuck (P : Processes ι σ τ) (c : Config ι σ τ) : Prop := ∀ i c', ¬ P.Step i c c'

/-- In a stuck configuration the steps a process could take are refuted one by one.
-/
theorem Stuck.not_step (h : P.Stuck c) {s : σ} {t : τ} : ¬ P i (c.own i) c.shared s t :=
  fun hst => h i _ ⟨s, t, hst, rfl⟩

section

variable [Fintype ι] {μ : ι → σ → ℕ}

/-- A step that lowers its own process's measure lowers the sum. -/
theorem Step.sum_lt (hμ : ∀ i s t s' t', P i s t s' t' → μ i s' < μ i s) (h : P.Step i c c') :
    ∑ j, μ j (c'.own j) < ∑ j, μ j (c.own j) := by
  have hi : μ i (c'.own i) < μ i (c.own i) := hμ _ _ _ _ _ h.own_self
  refine Finset.sum_lt_sum (fun j _ => ?_) ⟨i, Finset.mem_univ i, hi⟩
  by_cases hj : j = i
  · subst hj
    exact hi.le
  · rw [h.own_of_ne hj]

/-- **A run is no longer than what the processes have to do**, if each step does some of
it. -/
theorem Steps.add_sum_le (hμ : ∀ i s t s' t', P i s t s' t' → μ i s' < μ i s) {n : ℕ}
    (h : Steps P c₀ n c) : n + ∑ j, μ j (c.own j) ≤ ∑ j, μ j (c₀.own j) := by
  induction h with
  | refl => exact (Nat.zero_add _).le
  | step _ hs ih =>
      have := hs.sum_lt hμ
      omega

/-- **Then every run ends**: there is a longest one, and it cannot be continued. -/
theorem exists_stuck (hμ : ∀ i s t s' t', P i s t s' t' → μ i s' < μ i s)
    (c₀ : Config ι σ τ) : ∃ n c, Steps P c₀ n c ∧ P.Stuck c := by
  generalize hm : ∑ j, μ j (c₀.own j) = m
  induction m using Nat.strong_induction_on generalizing c₀ with
  | _ m ih =>
      by_cases hstuck : P.Stuck c₀
      · exact ⟨0, c₀, .refl, hstuck⟩
      · simp only [Stuck, not_forall, not_not] at hstuck
        obtain ⟨i, c', hs⟩ := hstuck
        obtain ⟨n, c, hn, hc⟩ := ih _ (hm ▸ hs.sum_lt hμ) c' rfl
        exact ⟨1 + n, c, (Steps.refl.step hs).trans hn, hc⟩

end

/-! ## Schedules

A particular run is a list of the processes that take turns.  With processes that
are functions it can be computed, which is how the runs that come up in examples are
checked. -/

/-- Processes that have at most one thing to do next. -/
def ofFun (f : ι → σ → τ → Option (σ × τ)) : Processes ι σ τ :=
  fun i s t s' t' => f i s t = some (s', t')

/-- Run a schedule, as long as every step is `ok` and possible. -/
def run (f : ι → σ → τ → Option (σ × τ)) (ok : Config ι σ τ → ι → Prop)
    [∀ c i, Decidable (ok c i)] : List ι → Config ι σ τ → Option (Config ι σ τ)
  | [], c => some c
  | i :: is, c =>
      if ok c i then
        (f i (c.own i) c.shared).bind fun r => run f ok is ⟨Function.update c.own i r.1, r.2⟩
      else none

/-- A schedule that can be run is a run. -/
theorem reach_of_run {f : ι → σ → τ → Option (σ × τ)} [∀ c i, Decidable (ok c i)] {is : List ι}
    (hc : Reach (ofFun f) ok c₀ c) (h : run f ok is c = some c') : Reach (ofFun f) ok c₀ c' := by
  induction is generalizing c with
  | nil =>
      cases h
      exact hc
  | cons i is ih =>
      rw [run] at h
      split_ifs at h with hok
      obtain ⟨⟨s, t⟩, hst, h⟩ := Option.bind_eq_some_iff.mp h
      exact ih (hc.step hok ⟨s, t, hst, rfl⟩) h

end Processes

end ParaOS.Machine
