import Mathlib.Data.List.Infix
import ParaOS.Parawasm.Instructions

/-!
# `parawasm::x86_64::optimizer`

Three peephole rules are applied from left to right over the whole instruction
list, and the pass is repeated until it changes nothing:

* `push a; pop b` becomes `mov b, a`;
* `mov a, b; mov b, a` disappears;
* `mov a, a` disappears.

A label is an index into the list.  While a pass consumes instructions it keeps,
for every label, its index before the pass and its index so far; a rule that
shortens the list shifts the second for all labels whose first lies at or beyond
the instructions just consumed (`updateLabels`).

What the rest of the development uses of the pass is separated from labels.
`pass` is the instruction half of `optimizeLoop`, `Rewrites` forgets the greedy
order of the rules, and `removed` counts what a pass takes out before an index.
At an index whose predecessor no rule can touch (`Stops`) the list can be cut:
the pass, and with it `optimize`, works on the two halves separately
(`optimized_append`), and a label there moves to the length of the optimised
left half (`optimize_snd`).

### The two design decisions

**Labels apart.**  The program text carries labels along with the instructions, and
updates them inside the loop.  Here the two halves are separated at once
(`optimizeFrom_fst`, `optimizeFrom_snd`): what comes out as code does not depend on
the labels, and where labels go is a count of what was taken out in front of them.

**Greedy and not greedy.**  `pass` follows the program, and applies the first rule
that fits from the left.  For what the rules mean for code that is of no importance,
and `Rewrites` allows any selection of disjoint places.  For where the optimiser
ends (`ParaOS.Parawasm.NormalForm`) it is.

### What is load-bearing

`shiftIndex` computes in `isize` and converts to `usize`, so a label with too small
an index would wrap around.  `updateLabels_removed` carries the fact that no label
loses more than it has, and with it every shift is a subtraction of natural numbers.

The loop ends because a rule shortens the list or nothing changes
(`Rewrites.eq_or_length_lt`); this is what makes `optimize` a total function and its
fuel invisible.
-/

namespace ParaOS.Parawasm

open X86

/-! ## The program text

The definitions follow the source, loop by loop.  Only the fuel of `optimizeWithin`
is not there. -/

/-- `(index as isize + count) as usize` -/
def shiftIndex (index : ℕ) (count : ℤ) : ℕ :=
  if 0 ≤ (index : ℤ) + count then ((index : ℤ) + count).toNat
  else ((index : ℤ) + count + 2 ^ 64).toNat

/-- A label during a pass: its index before the pass, its index so far, and
itself. -/
abbrev Mark := ℕ × ℕ × Label

/-- `update_labels` -/
def updateLabels (labels : List Mark) (headIdx : ℕ) (count : ℤ) : List Mark :=
  labels.map fun m => if m.1 ≥ headIdx then (m.1, shiftIndex m.2.1 count, m.2.2) else m

/-- The rules on two instructions: what they are replaced by. -/
def pairRule : Instr → Instr → Option (List Instr)
  | .push a, .pop b => some [.mov b a]
  | .mov a b, .mov c d => if a = d ∧ c = b then some [] else none
  | _, _ => none

/-- The rule on one instruction: whether it disappears. -/
def selfMove : Instr → Bool
  | .mov a b => a = b
  | _ => false

/-- The loop of `optimize_loop`, from `head_idx` on: the new instructions and the
labels.  `head_idx` counts what has been consumed, not what has been put out, which
is why a label needs two indices. -/
def optimizeFrom : List Instr → ℕ → List Mark → List Instr × List Mark
  | [], _, labels => ([], labels)
  | [i], headIdx, labels =>
      if selfMove i then ([], updateLabels labels (headIdx + 1) (-1)) else ([i], labels)
  | i :: j :: rest, headIdx, labels =>
      match pairRule i j with
      | some new =>
          let out := optimizeFrom rest (headIdx + 2)
            (updateLabels labels (headIdx + 2) ((new.length : ℤ) - 2))
          (new ++ out.1, out.2)
      | none =>
          if selfMove i then
            optimizeFrom (j :: rest) (headIdx + 1) (updateLabels labels (headIdx + 1) (-1))
          else
            let out := optimizeFrom (j :: rest) (headIdx + 1) labels
            (i :: out.1, out.2)

/-- `optimize_loop` -/
def optimizeLoop (instructions : List Instr) (labels : List (ℕ × Label)) :
    List Instr × List (ℕ × Label) :=
  let out := optimizeFrom instructions 0 (labels.map fun l => (l.1, l.1, l.2))
  (out.1, out.2.map fun m => (m.2.1, m.2.2))

/-- The loop of `optimize`, at most `n` times around. -/
def optimizeWithin : ℕ → List Instr → List (ℕ × Label) →
    Option (List Instr × List (ℕ × Label))
  | 0, _, _ => none
  | n + 1, current, labels =>
      let out := optimizeLoop current labels
      if out.1 = current then some (current, out.2) else optimizeWithin n out.1 out.2

/-! ## The pass without labels

`pass` has no counter and no labels, and its equations are those of the rules. -/

/-- The instructions that come out of one pass. -/
def pass : List Instr → List Instr
  | [] => []
  | [i] => if selfMove i then [] else [i]
  | i :: j :: rest =>
      match pairRule i j with
      | some new => new ++ pass rest
      | none => if selfMove i then pass (j :: rest) else i :: pass (j :: rest)

/-- The instructions do not depend on the labels. -/
theorem optimizeFrom_fst (is : List Instr) (headIdx : ℕ) (labels : List Mark) :
    (optimizeFrom is headIdx labels).1 = pass is := by
  induction is, headIdx, labels using optimizeFrom.induct with
  | case1 headIdx labels => rfl
  | case2 i headIdx labels hself => rw [optimizeFrom, pass, if_pos hself, if_pos hself]
  | case3 i headIdx labels hself => rw [optimizeFrom, pass, if_neg hself, if_neg hself]
  | case4 i j rest headIdx labels new hnew ih => simp only [optimizeFrom, pass, hnew, ih]
  | case5 i j rest headIdx labels hnew hself ih =>
      simp only [optimizeFrom, pass, hnew, if_pos hself, ih]
  | case6 i j rest headIdx labels hnew hself ih =>
      simp only [optimizeFrom, pass, hnew, if_neg hself, ih]

/-- Nor do those of a whole pass. -/
@[simp] theorem optimizeLoop_fst (is : List Instr) (labels : List (ℕ × Label)) :
    (optimizeLoop is labels).1 = pass is :=
  optimizeFrom_fst is 0 _

/-- `js` comes from `is` by rules applied at disjoint places, in any selection.
-/
inductive Rewrites : List Instr → List Instr → Prop where
  | nil : Rewrites [] []
  | keep (i : Instr) {is js : List Instr} : Rewrites is js → Rewrites (i :: is) (i :: js)
  | pushPop (a b : Reg) {is js : List Instr} : Rewrites is js →
      Rewrites (.push a :: .pop b :: is) (.mov b a :: js)
  | swap (a b : Reg) {is js : List Instr} : Rewrites is js →
      Rewrites (.mov a b :: .mov b a :: is) js
  | self (a : Reg) {is js : List Instr} : Rewrites is js → Rewrites (.mov a a :: is) js

/-- What the two-instruction rules are. -/
theorem pairRule_eq_some {i j : Instr} {new : List Instr} (h : pairRule i j = some new) :
    (∃ a b, i = .push a ∧ j = .pop b ∧ new = [.mov b a]) ∨
      (∃ a b, i = .mov a b ∧ j = .mov b a ∧ new = []) := by
  unfold pairRule at h
  split at h
  · cases h
    exact .inl ⟨_, _, rfl, rfl, rfl⟩
  · split_ifs at h with hab
    cases h
    obtain ⟨rfl, rfl⟩ := hab
    exact .inr ⟨_, _, rfl, rfl, rfl⟩
  · cases h

/-- What the rule on one instruction is. -/
theorem selfMove_eq_true {i : Instr} (h : selfMove i = true) : ∃ a, i = .mov a a := by
  unfold selfMove at h
  split at h
  · simp only [decide_eq_true_eq] at h
    exact ⟨_, by rw [h]⟩
  · cases h

/-- The rules make moves and nothing else. -/
theorem Rewrites.mem {is js : List Instr} (h : Rewrites is js) {i : Instr} (hi : i ∈ js) :
    i ∈ is ∨ ∃ a b, i = .mov a b := by
  induction h with
  | nil => cases hi
  | keep j h ih =>
      rcases List.mem_cons.mp hi with rfl | hi
      · exact .inl List.mem_cons_self
      · exact (ih hi).imp_left (List.mem_cons_of_mem _)
  | pushPop a b h ih =>
      rcases List.mem_cons.mp hi with rfl | hi
      · exact .inr ⟨b, a, rfl⟩
      · exact (ih hi).imp_left fun hi => List.mem_cons_of_mem _ (List.mem_cons_of_mem _ hi)
  | swap a b h ih =>
      exact (ih hi).imp_left fun hi => List.mem_cons_of_mem _ (List.mem_cons_of_mem _ hi)
  | self a h ih => exact (ih hi).imp_left (List.mem_cons_of_mem _)

/-- A pass applies the rules. -/
theorem rewrites_pass (is : List Instr) : Rewrites is (pass is) := by
  induction is using pass.induct with
  | case1 => exact .nil
  | case2 i hself =>
      obtain ⟨a, rfl⟩ := selfMove_eq_true hself
      rw [pass, if_pos hself]
      exact .self a .nil
  | case3 i hself =>
      rw [pass, if_neg hself]
      exact .keep i .nil
  | case4 i j rest new hnew ih =>
      simp only [pass, hnew]
      rcases pairRule_eq_some hnew with ⟨a, b, rfl, rfl, rfl⟩ | ⟨a, b, rfl, rfl, rfl⟩
      · exact .pushPop a b ih
      · exact .swap a b ih
  | case5 i j rest hnew hself ih =>
      obtain ⟨a, rfl⟩ := selfMove_eq_true hself
      simp only [pass, hnew, if_pos hself]
      exact .self a ih
  | case6 i j rest hnew hself ih =>
      simp only [pass, hnew, if_neg hself]
      exact .keep i ih

/-- Rules shorten a list unless none is applied. -/
theorem Rewrites.eq_or_length_lt {is js : List Instr} (h : Rewrites is js) :
    js = is ∨ js.length < is.length := by
  induction h with
  | nil => exact .inl rfl
  | keep i _ ih =>
      rcases ih with rfl | hlt
      · exact .inl rfl
      · exact .inr (by simpa using hlt)
  | pushPop a b _ ih =>
      rcases ih with rfl | hlt
      · exact .inr (by simp)
      · exact .inr (by simp only [List.length_cons]; omega)
  | swap a b _ ih =>
      rcases ih with rfl | hlt
      · exact .inr (by simp only [List.length_cons]; omega)
      · exact .inr (by simp only [List.length_cons]; omega)
  | self a _ ih =>
      rcases ih with rfl | hlt
      · exact .inr (by simp)
      · exact .inr (by simp only [List.length_cons]; omega)

/-- A pass that changes something makes the list shorter. -/
theorem pass_length_lt {is : List Instr} (h : pass is ≠ is) :
    (pass is).length < is.length :=
  (rewrites_pass is).eq_or_length_lt.resolve_left h

/-- A pass for each instruction, and one more, is enough. -/
theorem optimizeWithin_isSome {n : ℕ} {is : List Instr} {labels : List (ℕ × Label)}
    (h : is.length < n) : (optimizeWithin n is labels).isSome := by
  induction n generalizing is labels with
  | zero => omega
  | succ n ih =>
      rw [optimizeWithin]
      simp only [optimizeLoop_fst]
      split_ifs with heq
      · rfl
      · exact ih (by have := pass_length_lt heq; omega)

/-- `optimize`.  Its loop has no bound in the source; the number of passes it can
take is that of the instructions. -/
def optimize (instructions : List Instr) (labels : List (ℕ × Label)) :
    List Instr × List (ℕ × Label) :=
  (optimizeWithin (instructions.length + 1) instructions labels).get
    (optimizeWithin_isSome (Nat.lt_succ_self _))

/-- The instructions `optimize` returns. -/
def optimized (is : List Instr) : List Instr := (optimize is []).1

/-! ## Passes until nothing changes

Where passes end does not depend on how many are made, so that later on they need
not be counted. -/

/-- The instructions after so many passes. -/
def passes : ℕ → List Instr → List Instr
  | 0, is => is
  | n + 1, is => passes n (pass is)

/-- A list that no pass changes stays as it is. -/
theorem passes_of_fixed {is : List Instr} (h : pass is = is) (n : ℕ) : passes n is = is := by
  induction n with
  | zero => rfl
  | succ n ih => rw [passes, h, ih]

/-- Some passes and some more. -/
theorem passes_add (m n : ℕ) (is : List Instr) : passes (m + n) is = passes n (passes m is) := by
  induction m generalizing is with
  | zero => rw [Nat.zero_add]; rfl
  | succ m ih => rw [Nat.succ_add, passes, ih, passes]

/-- The instruction half of the loop is some number of passes, and the last one
changes nothing. -/
theorem optimizeWithin_fst {n : ℕ} {is : List Instr} {labels : List (ℕ × Label)}
    {out : List Instr × List (ℕ × Label)} (h : optimizeWithin n is labels = some out) :
    pass out.1 = out.1 ∧ ∃ m, out.1 = passes m is := by
  induction n generalizing is labels with
  | zero => cases h
  | succ n ih =>
      rw [optimizeWithin] at h
      simp only [optimizeLoop_fst] at h
      split_ifs at h with heq
      · cases h
        exact ⟨heq, 0, rfl⟩
      · obtain ⟨hfix, m, hm⟩ := ih h
        exact ⟨hfix, m + 1, by rw [hm, passes]⟩

/-- Two lists of passes that both end in a list no pass changes end in the same
list. -/
theorem passes_unique {m n : ℕ} {is : List Instr} (hm : pass (passes m is) = passes m is)
    (hn : pass (passes n is) = passes n is) : passes m is = passes n is := by
  calc passes m is = passes n (passes m is) := (passes_of_fixed hm n).symm
    _ = passes (m + n) is := (passes_add m n is).symm
    _ = passes m (passes n is) := by rw [Nat.add_comm, passes_add]
    _ = passes n is := passes_of_fixed hn m

/-- `optimize` returns a list no pass changes, after some number of passes. -/
theorem optimize_spec (is : List Instr) (labels : List (ℕ × Label)) :
    pass (optimize is labels).1 = (optimize is labels).1 ∧
      ∃ m, (optimize is labels).1 = passes m is :=
  optimizeWithin_fst (Option.some_get _).symm

/-- What labels there are makes no difference to the instructions. -/
theorem optimize_fst (is : List Instr) (labels : List (ℕ × Label)) :
    (optimize is labels).1 = optimized is := by
  obtain ⟨hfix, m, hm⟩ := optimize_spec is labels
  obtain ⟨hfix', n, hn⟩ := optimize_spec is []
  rw [optimized, hm, hn]
  rw [hm] at hfix
  rw [hn] at hfix'
  exact passes_unique hfix hfix'

/-- No pass changes what comes out. -/
theorem pass_optimized (is : List Instr) : pass (optimized is) = optimized is :=
  (optimize_spec is []).1

/-- Enough passes are `optimize`. -/
theorem exists_passes_eq_optimized (is : List Instr) :
    ∃ m, ∀ n, m ≤ n → passes n is = optimized is := by
  obtain ⟨m, hm⟩ := (optimize_spec is []).2
  refine ⟨m, fun n hn => ?_⟩
  obtain ⟨d, rfl⟩ := Nat.le.dest hn
  rw [passes_add, ← hm]
  exact passes_of_fixed (pass_optimized is) d

/-- A list no pass changes is its own optimum. -/
theorem optimized_of_fixed {is : List Instr} (h : pass is = is) : optimized is = is := by
  obtain ⟨m, hm⟩ := exists_passes_eq_optimized is
  rw [← hm m le_rfl, passes_of_fixed h]

/-- A first pass by hand makes no difference. -/
theorem optimized_pass (is : List Instr) : optimized (pass is) = optimized is := by
  obtain ⟨m, hm⟩ := exists_passes_eq_optimized (pass is)
  obtain ⟨n, hn⟩ := exists_passes_eq_optimized is
  rw [← hm (max m n) (le_max_left _ _), ← hn (max m n + 1) (by omega), passes]

/-- A property that passes keep is kept by `optimize`.  This is how all that is said
of single rules gets to the optimiser as a whole. -/
theorem optimized_induction {p : List Instr → Prop} (hpass : ∀ is, p is → p (pass is))
    {is : List Instr} (h : p is) : p (optimized is) := by
  obtain ⟨m, hm⟩ := exists_passes_eq_optimized is
  rw [← hm m le_rfl]
  clear hm
  induction m generalizing is with
  | zero => exact h
  | succ m ih => exact ih (hpass is h)

/-! ## Cutting the list

Rules look at two instructions that stand next to each other.  Where one of the two
is of a kind no rule mentions, no rule applies across the place, in this pass or in
a later one. -/

/-- Instructions no rule mentions. -/
def stop : Instr → Bool
  | .push _ => false
  | .pop _ => false
  | .mov _ _ => false
  | _ => true

/-- The list is empty or ends in an instruction no rule mentions. -/
def Stops (is : List Instr) : Prop := ∀ i ∈ is.getLast?, stop i = true

/-- In front of everything the list can be cut, -/
theorem stops_nil : Stops [] := by simp [Stops]

/-- and behind an instruction no rule mentions. -/
theorem stops_concat {is : List Instr} {i : Instr} (h : stop i = true) : Stops (is ++ [i]) := by
  simp [Stops, h]

/-- The last instruction decides. -/
theorem stops_of_getLast? {is : List Instr} {i : Instr} (h : is.getLast? = some i)
    (hi : stop i = true) : Stops is := by
  intro j hj
  rw [h] at hj
  cases hj
  exact hi

/-- Two lists behind each other can be cut at their end if both can. -/
theorem Stops.append {is js : List Instr} (hi : Stops is) (hj : Stops js) :
    Stops (is ++ js) := by
  cases js with
  | nil => simpa using hi
  | cons j js =>
      simp only [Stops, List.getLast?_append_cons] at hj ⊢
      exact hj

/-- The first of several instructions does not matter, -/
theorem Stops.tail {i j : Instr} {is : List Instr} (h : Stops (i :: j :: is)) :
    Stops (j :: is) := by
  simpa [Stops, List.getLast?_cons_cons] using h

/-- nor do the first two. -/
theorem Stops.drop_two {i j : Instr} {is : List Instr} (h : Stops (i :: j :: is)) :
    Stops is := by
  cases is with
  | nil => exact stops_nil
  | cons k is => exact h.tail.tail

/-- No rule starts with such an instruction, -/
theorem pairRule_of_stop_left {i j : Instr} (h : stop i = true) : pairRule i j = none := by
  cases i <;> first | rfl | cases h

/-- none ends with one, -/
theorem pairRule_of_stop_right {i j : Instr} (h : stop j = true) : pairRule i j = none := by
  cases j <;> cases i <;> first | rfl | cases h

/-- and it is not a self-move. -/
theorem selfMove_of_stop {i : Instr} (h : stop i = true) : selfMove i = false := by
  cases i <;> first | rfl | cases h

/-- So a pass hands it on. -/
theorem pass_cons_of_stop {i : Instr} (h : stop i = true) (is : List Instr) :
    pass (i :: is) = i :: pass is := by
  cases is with
  | nil => simp [pass, selfMove_of_stop h]
  | cons j is => simp [pass, pairRule_of_stop_left h, selfMove_of_stop h]

/-- **A pass works on the two sides of a cut separately.**  The induction follows
`pass`, by one instruction or by two, and the case to look at is the last
instruction before the cut. -/
theorem pass_append {xs : List Instr} (ys : List Instr) (h : Stops xs) :
    pass (xs ++ ys) = pass xs ++ pass ys := by
  induction xs using pass.induct with
  | case1 => rfl
  | case2 i hself => simp [selfMove_of_stop (h i rfl)] at hself
  | case3 i hself =>
      rw [List.singleton_append, pass_cons_of_stop (h i rfl), pass, if_neg hself,
        List.singleton_append]
  | case4 i j rest new hnew ih =>
      simp only [List.cons_append, pass, hnew, ih h.drop_two, List.append_assoc]
  | case5 i j rest hnew hself ih =>
      have := ih h.tail
      simp only [List.cons_append] at this
      simp only [List.cons_append, pass, hnew, if_pos hself, this]
  | case6 i j rest hnew hself ih =>
      have := ih h.tail
      simp only [List.cons_append] at this
      simp only [List.cons_append, pass, hnew, if_neg hself, this]

/-- A pass keeps a last instruction that no rule mentions, whatever comes before
it. -/
theorem pass_concat_getLast? {i : Instr} (hi : stop i = true) (init : List Instr) :
    (pass (init ++ [i])).getLast? = some i := by
  induction init using pass.induct with
  | case1 => simp [pass, selfMove_of_stop hi]
  | case2 a hself => simp [pass, pairRule_of_stop_right hi, selfMove_of_stop hi, hself]
  | case3 a hself => simp [pass, pairRule_of_stop_right hi, selfMove_of_stop hi, hself]
  | case4 a b rest new hnew ih =>
      simp only [List.cons_append, pass, hnew]
      rw [List.getLast?_append, ih, Option.some_or]
  | case5 a b rest hnew hself ih =>
      rw [List.cons_append] at ih
      simp only [List.cons_append, pass, hnew, if_pos hself, ih]
  | case6 a b rest hnew hself ih =>
      rw [List.cons_append] at ih
      simp only [List.cons_append, pass, hnew, if_neg hself]
      rw [List.getLast?_cons, ih, Option.getD_some]

/-- A pass keeps the instruction before a cut. -/
theorem pass_getLast? {xs : List Instr} (h : Stops xs) :
    (pass xs).getLast? = xs.getLast? := by
  rcases List.eq_nil_or_concat xs with rfl | ⟨init, i, rfl⟩
  · rfl
  · rw [List.concat_eq_append] at h ⊢
    rw [pass_concat_getLast? (h i (by simp)), List.getLast?_concat]

/-- A pass leaves a cut where the list can be cut again. -/
theorem Stops.pass {xs : List Instr} (h : Stops xs) : Stops (Parawasm.pass xs) := by
  simpa [Stops, pass_getLast? h] using h

/-- Any number of passes works on the two sides separately. -/
theorem passes_append {xs : List Instr} (ys : List Instr) (h : Stops xs) (n : ℕ) :
    passes n (xs ++ ys) = passes n xs ++ passes n ys := by
  induction n generalizing xs ys with
  | zero => rfl
  | succ n ih => rw [passes, pass_append ys h, ih _ h.pass, passes, passes]

/-- **So does `optimize`**, however many passes the two sides need. -/
theorem optimized_append {xs : List Instr} (ys : List Instr) (h : Stops xs) :
    optimized (xs ++ ys) = optimized xs ++ optimized ys := by
  obtain ⟨k, hk⟩ := exists_passes_eq_optimized (xs ++ ys)
  obtain ⟨m, hm⟩ := exists_passes_eq_optimized xs
  obtain ⟨n, hn⟩ := exists_passes_eq_optimized ys
  rw [← hk (k + m + n) (by omega), ← hm (k + m + n) (by omega), ← hn (k + m + n) (by omega),
    passes_append ys h]

/-- The optimiser keeps the instruction before a cut. -/
theorem optimized_getLast? {xs : List Instr} (h : Stops xs) :
    (optimized xs).getLast? = xs.getLast? := by
  have := optimized_induction (p := fun ys => Stops ys ∧ ys.getLast? = xs.getLast?)
    (fun ys hys => ⟨hys.1.pass, (pass_getLast? hys.1).trans hys.2⟩) ⟨h, rfl⟩
  exact this.2

/-- Instructions no rule mentions are left alone. -/
theorem optimized_of_stops {is : List Instr} (h : ∀ i ∈ is, stop i = true) : optimized is = is := by
  induction is with
  | nil => exact optimized_of_fixed rfl
  | cons i is ih =>
      rw [List.forall_mem_cons] at h
      have hone : optimized [i] = [i] := optimized_of_fixed (by rw [pass_cons_of_stop h.1]; rfl)
      rw [← List.singleton_append, optimized_append _ (stops_of_getLast? rfl h.1), hone, ih h.2]

/-! ## Where labels go

At any index `removed` counts; at a cut the count is what the left side has become
shorter by, and it is there that labels stand. -/

/-- How many instructions a pass takes out by rules that end at or before index
`k`. -/
def removed : List Instr → ℕ → ℕ
  | [], _ => 0
  | [i], k => if selfMove i ∧ 1 ≤ k then 1 else 0
  | i :: j :: rest, k =>
      match pairRule i j with
      | some new => (if 2 ≤ k then 2 - new.length else 0) + removed rest (k - 2)
      | none =>
          if selfMove i then (if 1 ≤ k then 1 else 0) + removed (j :: rest) (k - 1)
          else removed (j :: rest) (k - 1)

/-- Nothing is removed in front of everything. -/
theorem removed_zero (is : List Instr) : removed is 0 = 0 := by
  induction is using pass.induct with
  | case1 => rfl
  | case2 i hself => simp [removed]
  | case3 i hself => simp [removed]
  | case4 i j rest new hnew ih => simp [removed, hnew, ih]
  | case5 i j rest hnew hself ih => simp [removed, hnew, hself, ih]
  | case6 i j rest hnew hself ih => simp [removed, hnew, hself, ih]

/-- A shift that stays in range is a subtraction. -/
theorem shiftIndex_neg {index n : ℕ} (h : n ≤ index) : shiftIndex index (-(n : ℤ)) = index - n := by
  rw [shiftIndex, if_pos (by omega)]
  omega

/-- One update of the labels, as long as no index runs below zero. -/
theorem updateLabels_eq (labels : List Mark) (headIdx n : ℕ)
    (h : ∀ m ∈ labels, headIdx ≤ m.1 → n ≤ m.2.1) :
    updateLabels labels headIdx (-(n : ℤ)) =
      labels.map fun m => (m.1, m.2.1 - (if headIdx ≤ m.1 then n else 0), m.2.2) := by
  refine List.map_congr_left fun m hm => ?_
  split_ifs with hle
  · rw [shiftIndex_neg (h m hm hle)]
  · rfl

/-- A rule on two instructions leaves at most one. -/
theorem pairRule_length {i j : Instr} {new : List Instr} (h : pairRule i j = some new) :
    new.length ≤ 1 := by
  rcases pairRule_eq_some h with ⟨a, b, -, -, rfl⟩ | ⟨a, b, -, -, rfl⟩ <;> simp

/-- One rule of a pass, which consumes `d` instructions and takes out `n` of them:
labels behind it lose `n`, and have enough left for the rules to come. -/
theorem updateLabels_removed {labels : List Mark} {headIdx d n : ℕ} {rest : List Instr}
    (hd : 0 < d) (h : ∀ m ∈ labels, (if d ≤ m.1 - headIdx then n else 0) +
      removed rest (m.1 - headIdx - d) ≤ m.2.1) :
    updateLabels labels (headIdx + d) (-(n : ℤ)) =
        labels.map (fun m => (m.1, m.2.1 - (if d ≤ m.1 - headIdx then n else 0), m.2.2)) ∧
      ∀ m ∈ updateLabels labels (headIdx + d) (-(n : ℤ)),
        removed rest (m.1 - (headIdx + d)) ≤ m.2.1 := by
  have hiff : ∀ m : Mark, headIdx + d ≤ m.1 ↔ d ≤ m.1 - headIdx := fun m => by omega
  have hupd := updateLabels_eq labels (headIdx + d) n fun m hm hle => by
    have := h m hm
    rw [if_pos ((hiff m).mp hle)] at this
    omega
  simp only [hiff] at hupd
  refine ⟨hupd, fun m hm => ?_⟩
  rw [hupd] at hm
  obtain ⟨m', hm', rfl⟩ := List.mem_map.mp hm
  have := h m' hm'
  simp only [show m'.1 - (headIdx + d) = m'.1 - headIdx - d by omega]
  omega

/-- The label half of a pass: every label loses what is removed before it. -/
theorem optimizeFrom_snd (is : List Instr) (headIdx : ℕ) (labels : List Mark)
    (h : ∀ m ∈ labels, removed is (m.1 - headIdx) ≤ m.2.1) :
    (optimizeFrom is headIdx labels).2 =
      labels.map fun m => (m.1, m.2.1 - removed is (m.1 - headIdx), m.2.2) := by
  induction is, headIdx, labels using optimizeFrom.induct with
  | case1 headIdx labels => simp [optimizeFrom, removed]
  | case2 i headIdx labels hself =>
      have hone : ∀ m ∈ labels, (if 1 ≤ m.1 - headIdx then 1 else 0) +
          removed [] (m.1 - headIdx - 1) ≤ m.2.1 := by
        simpa [removed, hself] using h
      rw [optimizeFrom, if_pos hself]
      rw [show (-1 : ℤ) = -((1 : ℕ) : ℤ) from rfl, (updateLabels_removed Nat.one_pos hone).1]
      simp [removed, hself]
  | case3 i headIdx labels hself => simp [optimizeFrom, hself, removed]
  | case4 i j rest headIdx labels new hnew ih =>
      have hnl := pairRule_length hnew
      simp only [removed, hnew] at h ⊢
      rw [optimizeFrom]
      simp only [hnew]
      rw [show (new.length : ℤ) - 2 = -((2 - new.length : ℕ) : ℤ) by omega] at ih ⊢
      obtain ⟨hupd, hrest⟩ := updateLabels_removed Nat.two_pos h
      rw [ih hrest, hupd, List.map_map]
      refine List.map_congr_left fun m hm => ?_
      simp only [Function.comp_apply, Nat.sub_sub]
  | case5 i j rest headIdx labels hnew hself ih =>
      simp only [removed, hnew, if_pos hself] at h ⊢
      rw [optimizeFrom]
      simp only [hnew, if_pos hself]
      rw [show (-1 : ℤ) = -((1 : ℕ) : ℤ) from rfl] at ih ⊢
      obtain ⟨hupd, hrest⟩ := updateLabels_removed Nat.one_pos h
      rw [ih hrest, hupd, List.map_map]
      refine List.map_congr_left fun m hm => ?_
      simp only [Function.comp_apply, Nat.sub_sub]
  | case6 i j rest headIdx labels hnew hself ih =>
      simp only [removed, hnew, if_neg hself] at h ⊢
      rw [optimizeFrom]
      simp only [hnew, if_neg hself]
      rw [ih fun m hm => by simpa only [Nat.sub_sub] using h m hm]
      simp only [Nat.sub_sub]

/-- What is removed before a cut is what the pass shortens the left side by. -/
theorem removed_append {xs : List Instr} (ys : List Instr) (h : Stops xs) :
    removed (xs ++ ys) xs.length + (pass xs).length = xs.length := by
  induction xs using pass.induct with
  | case1 => simp [removed_zero, pass]
  | case2 i hself => simp [selfMove_of_stop (h i rfl)] at hself
  | case3 i hself =>
      have hi : stop i = true := h i rfl
      cases ys with
      | nil => simp [removed, pass, hself]
      | cons y ys => simp [removed, pairRule_of_stop_left hi, hself, removed_zero, pass]
  | case4 i j rest new hnew ih =>
      have hnl := pairRule_length hnew
      have := ih h.drop_two
      simp only [List.cons_append, removed, pass, hnew, List.length_cons, List.length_append]
      rw [if_pos (by omega), show rest.length + 1 + 1 - 2 = rest.length by omega]
      omega
  | case5 i j rest hnew hself ih =>
      have := ih h.tail
      simp only [List.cons_append, List.length_cons] at this
      simp only [List.cons_append, removed, pass, hnew, if_pos hself, List.length_cons]
      rw [if_pos (by omega), show rest.length + 1 + 1 - 1 = rest.length + 1 by omega]
      omega
  | case6 i j rest hnew hself ih =>
      have := ih h.tail
      simp only [List.cons_append, List.length_cons] at this
      simp only [List.cons_append, removed, pass, hnew, if_neg hself, List.length_cons]
      rw [show rest.length + 1 + 1 - 1 = rest.length + 1 by omega]
      omega

/-- The list can be cut at this index. -/
def Cut (is : List Instr) (k : ℕ) : Prop := k ≤ is.length ∧ Stops (is.take k)

/-- The list can be cut between two lists of which the first can be cut at its end.
-/
theorem cut_append {xs ys : List Instr} (h : Stops xs) : Cut (xs ++ ys) xs.length :=
  ⟨by simp, by simpa using h⟩

/-- The two sides of a cut. -/
theorem Cut.split {is : List Instr} {k : ℕ} (h : Cut is k) :
    ∃ xs ys, is = xs ++ ys ∧ k = xs.length ∧ Stops xs :=
  ⟨is.take k, is.drop k, (List.take_append_drop k is).symm,
    (List.length_take_of_le h.1).symm, h.2⟩

/-- What a pass removes before a cut. -/
theorem Cut.removed {is : List Instr} {k : ℕ} (h : Cut is k) :
    Parawasm.removed is k + (Parawasm.pass (is.take k)).length = k := by
  obtain ⟨xs, ys, rfl, rfl, hstops⟩ := h.split
  rw [List.take_left]
  exact removed_append ys hstops

/-- Labels at cuts after one pass. -/
theorem optimizeLoop_snd {is : List Instr} {labels : List (ℕ × Label)}
    (h : ∀ l ∈ labels, Cut is l.1) :
    (optimizeLoop is labels).2 =
      labels.map fun l => ((pass (is.take l.1)).length, l.2) := by
  rw [optimizeLoop]
  simp only
  rw [optimizeFrom_snd, List.map_map, List.map_map]
  · refine List.map_congr_left fun l hl => ?_
    have := (h l hl).removed
    simp only [Function.comp_apply, Nat.sub_zero, Prod.mk.injEq, and_true]
    omega
  · intro m hm
    obtain ⟨l, hl, rfl⟩ := List.mem_map.mp hm
    have := (h l hl).removed
    simp only [Nat.sub_zero]
    omega

/-- A pass moves a cut to a cut. -/
theorem Cut.pass {is : List Instr} {k : ℕ} (h : Cut is k) :
    Cut (Parawasm.pass is) (Parawasm.pass (is.take k)).length ∧
      (Parawasm.pass is).take (Parawasm.pass (is.take k)).length = Parawasm.pass (is.take k) := by
  obtain ⟨xs, ys, rfl, rfl, hstops⟩ := h.split
  rw [List.take_left, pass_append ys hstops, List.take_left]
  exact ⟨cut_append hstops.pass, rfl⟩

/-- On the left side of a cut, too, nothing is left to do when nothing is left
to do at all. -/
theorem Cut.pass_take_of_fixed {is : List Instr} {k : ℕ} (h : Cut is k)
    (hfix : Parawasm.pass is = is) : Parawasm.pass (is.take k) = is.take k := by
  obtain ⟨xs, ys, rfl, rfl, hstops⟩ := h.split
  rw [List.take_left]
  rw [pass_append ys hstops] at hfix
  have hlen := congrArg List.length hfix
  rw [List.length_append, List.length_append] at hlen
  rcases (rewrites_pass xs).eq_or_length_lt with hx | hx
  · exact hx
  · rcases (rewrites_pass ys).eq_or_length_lt with hy | hy
    · rw [hy] at hlen; omega
    · omega

/-- Labels at cuts after all passes. -/
theorem optimizeWithin_snd {n : ℕ} {is : List Instr} {labels : List (ℕ × Label)}
    {out : List Instr × List (ℕ × Label)} (h : ∀ l ∈ labels, Cut is l.1)
    (hout : optimizeWithin n is labels = some out) :
    out.2 = labels.map fun l => ((optimized (is.take l.1)).length, l.2) := by
  induction n generalizing is labels with
  | zero => cases hout
  | succ n ih =>
      rw [optimizeWithin] at hout
      simp only [optimizeLoop_fst, optimizeLoop_snd h] at hout
      split_ifs at hout with heq
      · cases hout
        refine List.map_congr_left fun l hl => ?_
        have hfix := (h l hl).pass_take_of_fixed heq
        rw [hfix, optimized_of_fixed hfix]
      · rw [ih _ hout, List.map_map]
        · refine List.map_congr_left fun l hl => ?_
          simp only [Function.comp_apply, (h l hl).pass.2, optimized_pass]
        · intro m hm
          obtain ⟨l, hl, rfl⟩ := List.mem_map.mp hm
          exact (h l hl).pass.1

/-- **Where `optimize` leaves labels**: a label at a cut goes to the length of
the optimised left side. -/
theorem optimize_snd {is : List Instr} {labels : List (ℕ × Label)}
    (h : ∀ l ∈ labels, Cut is l.1) :
    (optimize is labels).2 =
      labels.map fun l => ((optimized (is.take l.1)).length, l.2) :=
  optimizeWithin_snd h (Option.some_get _).symm

end ParaOS.Parawasm
