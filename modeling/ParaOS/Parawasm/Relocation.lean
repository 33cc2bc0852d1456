import ParaOS.Parawasm.EntryPoints

/-!
# Labels through the optimiser

`optimize_snd` says where a label goes that stands at a cut of the instruction
list.  This module puts it as a statement about the two sides of the label: in the
output, what is in front of it is what `optimize` makes of the instructions that
were in front of it, and what is behind it of those that were behind it.

Indices are shifted by `isize` arithmetic that wraps around.  `ShiftsInRange`
goes through all calls of `update_labels` in all passes and asks of each that no
index is taken below zero and that none is larger than the list was to begin
with, which for the length of a `Vec` is an `isize`.

The labels `compile` records stand behind data, behind a zero-length instruction
or behind a `ret` (`placed_of_foldlM`).

### What is load-bearing

A label has to stand where the list can be cut.  Between a `push` and the `pop`
behind it a label would have no place in the output, and one between two moves might
be taken out with them; `Placed` puts the condition in terms of the instruction in
front of the label.

It is a little stronger than being at a cut.  A `mov` to a slot has the code of a
move between registers, and a label behind it is not placed, though no rule would
touch it.

That no index wraps around is not an assumption.  It follows from the same
condition, pass by pass, since what is taken out in front of a label is counted
once.
-/

namespace ParaOS.Parawasm

open X86 Wasm

/-! ## Where labels stand

The condition of the statement, and the one the proofs about the optimiser use. -/

/-- `Push_r64`, `Pop_r64` and `Mov_rm64_r64`, with a register or a slot as its
destination.  The source compares these codes before it looks at operands. -/
def ruleCode : Instr → Bool
  | .push _ => true
  | .pop _ => true
  | .mov _ _ => true
  | .store _ _ => true
  | _ => false

/-- The start of the list, or a place behind an instruction of another code than
those of the rules. -/
def Placed (is : List Instr) (k : ℕ) : Prop :=
  k ≤ is.length ∧ (k = 0 ∨ ∃ i, is[k - 1]? = some i ∧ ruleCode i = false)

/-- An instruction of another code is one no rule mentions. -/
theorem stop_of_ruleCode {i : Instr} (h : ruleCode i = false) : stop i = true := by
  cases i <;> first | rfl | cases h

/-- So the list can be cut at a label that is placed. -/
theorem Placed.cut {is : List Instr} {k : ℕ} (h : Placed is k) : Cut is k := by
  refine ⟨h.1, fun i hi => ?_⟩
  rw [List.getLast?_take] at hi
  split_ifs at hi with hk
  · cases hi
  · obtain ⟨j, hj, hcode⟩ := h.2.resolve_left hk
    rw [hj, Option.some_or] at hi
    cases hi
    exact stop_of_ruleCode hcode

/-- More code behind a label. -/
theorem Placed.append {is js : List Instr} {k : ℕ} (h : Placed is k) : Placed (is ++ js) k := by
  refine ⟨by simpa using Nat.le_add_right_of_le h.1, h.2.imp_right fun ⟨i, hi, hcode⟩ => ?_⟩
  refine ⟨i, ?_, hcode⟩
  rw [List.getElem?_append_left (List.getElem?_eq_some_iff.mp hi).1, hi]

/-- The end of a list. -/
theorem placed_length {is : List Instr} {i : Instr} (h : is.getLast? = some i)
    (hi : ruleCode i = false) : Placed is is.length :=
  ⟨le_rfl, .inr ⟨i, by rw [← h, List.getLast?_eq_getElem?], hi⟩⟩

/-! ## No index wraps around

`InRange` is about one call of `update_labels`, `PassInRange` about those of a pass,
and `ShiftsInRange` about all there are.  The first index of a mark stays what it
was before the pass; it is the second that is shifted. -/

/-- An update of the labels in which no index is beyond the bound and none is taken
below zero. -/
def InRange (bound : ℕ) (labels : List Mark) (headIdx : ℕ) (count : ℤ) : Prop :=
  ∀ m ∈ labels, m.2.1 ≤ bound ∧ (headIdx ≤ m.1 → 0 ≤ (m.2.1 : ℤ) + count)

/-- All updates of a pass, from `headIdx` on, are in range. -/
def PassInRange (bound : ℕ) : List Instr → ℕ → List Mark → Prop
  | [], _, _ => True
  | [i], headIdx, labels => selfMove i = true → InRange bound labels (headIdx + 1) (-1)
  | i :: j :: rest, headIdx, labels =>
      match pairRule i j with
      | some new =>
          InRange bound labels (headIdx + 2) ((new.length : ℤ) - 2) ∧
            PassInRange bound rest (headIdx + 2)
              (updateLabels labels (headIdx + 2) ((new.length : ℤ) - 2))
      | none =>
          if selfMove i then
            InRange bound labels (headIdx + 1) (-1) ∧
              PassInRange bound (j :: rest) (headIdx + 1)
                (updateLabels labels (headIdx + 1) (-1))
          else PassInRange bound (j :: rest) (headIdx + 1) labels

/-- All updates of the passes of `optimize` are in range; it takes at most `n`. -/
def ShiftsInRange (bound : ℕ) : ℕ → List Instr → List (ℕ × Label) → Prop
  | 0, _, _ => False
  | n + 1, current, labels =>
      PassInRange bound current 0 (labels.map fun l => (l.1, l.1, l.2)) ∧
        ((optimizeLoop current labels).1 ≠ current →
          ShiftsInRange bound n (optimizeLoop current labels).1 (optimizeLoop current labels).2)

variable {bound : ℕ}

/-- An update by a number that all labels behind have to lose. -/
theorem inRange_neg {labels : List Mark} {headIdx n : ℕ} (hbound : ∀ m ∈ labels, m.2.1 ≤ bound)
    (h : ∀ m ∈ labels, headIdx ≤ m.1 → n ≤ m.2.1) : InRange bound labels headIdx (-(n : ℤ)) := by
  intro m hm
  refine ⟨hbound m hm, fun hle => ?_⟩
  have := h m hm hle
  omega

/-- A pass in which every label has as much in front of it as is taken out there. -/
theorem passInRange (is : List Instr) (headIdx : ℕ) (labels : List Mark)
    (h : ∀ m ∈ labels, removed is (m.1 - headIdx) ≤ m.2.1) (hbound : ∀ m ∈ labels, m.2.1 ≤ bound) :
    PassInRange bound is headIdx labels := by
  -- one rule: its update, and what is asked of the labels behind it
  have hrule : ∀ {headIdx d n : ℕ} {rest : List Instr} {labels : List Mark}, 0 < d →
      (∀ m ∈ labels, (if d ≤ m.1 - headIdx then n else 0) + removed rest (m.1 - headIdx - d) ≤
        m.2.1) → (∀ m ∈ labels, m.2.1 ≤ bound) → InRange bound labels (headIdx + d) (-(n : ℤ)) ∧
        (∀ m ∈ updateLabels labels (headIdx + d) (-(n : ℤ)),
          removed rest (m.1 - (headIdx + d)) ≤ m.2.1) ∧
        ∀ m ∈ updateLabels labels (headIdx + d) (-(n : ℤ)), m.2.1 ≤ bound := by
    intro headIdx d n rest labels hd h hbound
    obtain ⟨hupd, hrest⟩ := updateLabels_removed hd h
    refine ⟨inRange_neg hbound fun m hm hle => ?_, hrest, fun m hm => ?_⟩
    · have := h m hm
      rw [if_pos (by omega)] at this
      omega
    · rw [hupd] at hm
      obtain ⟨m', hm', rfl⟩ := List.mem_map.mp hm
      exact (Nat.sub_le _ _).trans (hbound m' hm')
  induction is, headIdx, labels using optimizeFrom.induct with
  | case1 headIdx labels => trivial
  | case2 i headIdx labels hself =>
      intro _
      have hone : ∀ m ∈ labels, (if 1 ≤ m.1 - headIdx then 1 else 0) +
          removed [] (m.1 - headIdx - 1) ≤ m.2.1 := by
        simpa [removed, hself] using h
      exact (hrule Nat.one_pos hone hbound).1
  | case3 i headIdx labels hself => exact fun hself' => absurd hself' hself
  | case4 i j rest headIdx labels new hnew ih =>
      have hnl := pairRule_length hnew
      simp only [removed, hnew] at h
      simp only [PassInRange, hnew]
      rw [show (new.length : ℤ) - 2 = -((2 - new.length : ℕ) : ℤ) by omega] at ih ⊢
      obtain ⟨hin, hrest, hbound'⟩ := hrule Nat.two_pos h hbound
      exact ⟨hin, ih hrest hbound'⟩
  | case5 i j rest headIdx labels hnew hself ih =>
      simp only [removed, hnew, if_pos hself] at h
      simp only [PassInRange, hnew, if_pos hself]
      rw [show (-1 : ℤ) = -((1 : ℕ) : ℤ) from rfl] at ih ⊢
      obtain ⟨hin, hrest, hbound'⟩ := hrule Nat.one_pos h hbound
      exact ⟨hin, ih hrest hbound'⟩
  | case6 i j rest headIdx labels hnew hself ih =>
      simp only [removed, hnew, if_neg hself] at h
      simp only [PassInRange, hnew, if_neg hself]
      exact ih (fun m hm => by simpa only [Nat.sub_sub] using h m hm) hbound

/-- **No index wraps around** in any pass, if every label is at a cut. -/
theorem shiftsInRange {n : ℕ} {is : List Instr} {labels : List (ℕ × Label)}
    (h : ∀ l ∈ labels, Cut is l.1) (hbound : is.length ≤ bound) (hn : is.length < n) :
    ShiftsInRange bound n is labels := by
  induction n generalizing is labels with
  | zero => omega
  | succ n ih =>
      refine ⟨passInRange is 0 _ ?_ ?_, fun hne => ?_⟩
      · intro m hm
        obtain ⟨l, hl, rfl⟩ := List.mem_map.mp hm
        have := (h l hl).removed
        simp only [Nat.sub_zero]
        omega
      · intro m hm
        obtain ⟨l, hl, rfl⟩ := List.mem_map.mp hm
        exact (h l hl).1.trans hbound
      · rw [optimizeLoop_fst] at hne ⊢
        have hlt := pass_length_lt hne
        rw [optimizeLoop_snd h]
        refine ih (fun m hm => ?_) (by omega) (by omega)
        obtain ⟨l, hl, rfl⟩ := List.mem_map.mp hm
        exact (h l hl).pass.1

/-! ## The labels `compile` records

An invariant of the loop around the parser, kept by each of its changes.  What is
recorded next is part of it, for a label is recorded before the instruction it
stands in front of. -/

/-- Every label is placed, and one that is recorded next will be. -/
structure LabelsPlaced {V : Validator} (st : Compiling V) : Prop where
  labels : ∀ l ∈ st.labelIndices, Placed st.instructions l.1
  next : Placed st.instructions st.instructions.length

variable {V : Validator} {E : Encoder} {st st' : Compiling V}

/-- Code with a label in front of it, or without one. -/
theorem LabelsPlaced.append (h : LabelsPlaced st) {code : List Instr} {i : Instr}
    (hcode : code.getLast? = some i) (hi : ruleCode i = false)
    (hinstr : st'.instructions = st.instructions ++ code)
    (hlabels : ∀ l ∈ st'.labelIndices, l ∈ st.labelIndices ∨ l.1 = st.instructions.length) :
    LabelsPlaced st' := by
  constructor
  · intro l hl
    rw [hinstr]
    rcases hlabels l hl with hl | hl
    · exact (h.labels l hl).append
    · rw [hl]
      exact h.next.append
  · refine placed_length (i := i) ?_ hi
    rw [hinstr, List.getLast?_append, hcode, Option.some_or]

/-- **One change of the state.**  Entries that emit nothing keep it trivially; the
others end in data or in a `ret`. -/
theorem labelsPlaced_entryStep {p : Payload} (hstep : EntryStep E p st st') (h : LabelsPlaced st) :
    LabelsPlaced st' := by
  cases hstep with
  | ofValidator validator => exact ⟨h.labels, h.next⟩
  | ofMemory hst =>
      cases hst
      exact ⟨h.labels, h.next⟩
  | ofType hst =>
      rw [typeEntry.eq_def] at hst
      split at hst <;> cases hst <;> exact ⟨h.labels, h.next⟩
  | ofExport hst =>
      cases hst
      exact ⟨h.labels, h.next⟩
  | @ofImport r i _ _ hst =>
      simp only [importEntry, Outcome.bind_eq_ok] at hst
      obtain ⟨assembly, -, offset, -, hst⟩ := hst
      -- first the zero-length instruction, then the slot with its label
      have hzero : LabelsPlaced { st with
          nextLabel := st.nextLabel + 1
          bound := st.bound ++ [(st.nextLabel, st.instructions.length)]
          instructions := st.instructions ++ [.zeroBytes] } :=
        h.append (i := .zeroBytes) rfl rfl rfl fun l hl => .inl hl
      split at hst
      · cases hst
        refine hzero.append (i := .dq importPlaceholder) rfl rfl rfl fun l hl => ?_
        rcases List.mem_append.mp hl with hl | hl
        · exact .inl hl
        · exact .inr (by rw [List.mem_singleton.mp hl])
      · cases hst
        exact hzero
  | ofFunction hst =>
      cases hst
      refine h.append (i := .dq 0) rfl rfl rfl fun l hl => ?_
      rcases List.mem_append.mp hl with hl | hl
      · exact .inl hl
      · exact .inr (by rw [List.mem_singleton.mp hl])
  | ofCode hst =>
      obtain ⟨φ, validator, ty, g, code, height, -, -, -, hbody, rfl⟩ := codeEntry_eq_ok hst
      refine h.append (compileBody_getLast? hbody) rfl rfl fun l hl => ?_
      rcases List.mem_append.mp hl with hl | hl
      · exact .inl hl
      · exact .inr (by rw [List.mem_singleton.mp hl])

/-- **Every label `compile` records is placed.** -/
theorem placed_of_foldlM {ps : List Payload}
    (h : ps.foldlM (handlePayload E) Compiling.init = .ok st) :
    ∀ l ∈ st.labelIndices, Placed st.instructions l.1 := by
  have hinit : LabelsPlaced (Compiling.init : Compiling V) := by
    refine ⟨fun l hl => ?_, Nat.le_refl 0, .inl rfl⟩
    cases hl
  exact (foldlM_preserves (p := LabelsPlaced)
    (fun _ _ _ h hst => preserves_handlePayload (fun _ _ => labelsPlaced_entryStep) h hst) hinit
    h).labels

/-! ## Relocation

The output around a label, in terms of the input around it. -/

/-- Two labels at different places stay in order. -/
theorem length_optimized_lt {is : List Instr} {k k' : ℕ} (hk : Placed is k) (hk' : Placed is k')
    (hlt : k < k') : (optimized (is.take k)).length < (optimized (is.take k')).length := by
  have hsplit : is.take k' = is.take k ++ (is.take k').drop k := by
    have := List.take_append_drop k (is.take k')
    rwa [List.take_take, min_eq_left hlt.le, eq_comm] at this
  have hlast : ((is.take k').drop k).getLast? = (is.take k').getLast? := by
    rw [List.getLast?_drop, if_neg]
    rw [List.length_take_of_le hk'.1]
    omega
  have hstops : Stops ((is.take k').drop k) := by
    intro i hi
    exact hk'.cut.2 i (hlast ▸ hi)
  have hne : optimized ((is.take k').drop k) ≠ [] := by
    intro hnil
    have hlen := congrArg List.getLast? hnil
    rw [optimized_getLast? hstops, List.getLast?_nil, List.getLast?_eq_none_iff,
      List.drop_eq_nil_iff, List.length_take_of_le hk'.1] at hlen
    omega
  rw [hsplit, optimized_append _ hk.cut.2, List.length_append]
  have := List.length_pos_iff.mpr hne
  omega

/-- What becomes of labels: index `i` becomes `move i`, and the output is cut there
as the input was at `i`.  `front` and `back` say what a label names: the optimised
code behind it is that of the code that was behind it. -/
structure Relocated (is : List Instr) (labels : List (ℕ × Label)) (move : ℕ → ℕ) : Prop where
  moved : (optimize is labels).2 = labels.map fun l => (move l.1, l.2)
  inside : ∀ l ∈ labels, move l.1 ≤ (optimize is labels).1.length
  front : ∀ l ∈ labels, (optimize is labels).1.take (move l.1) = (optimize (is.take l.1) []).1
  back : ∀ l ∈ labels, (optimize is labels).1.drop (move l.1) = (optimize (is.drop l.1) []).1
  order : ∀ l ∈ labels, ∀ l' ∈ labels, l.1 < l'.1 → move l.1 < move l'.1
  inRange : ShiftsInRange is.length (is.length + 1) is labels

/-- **Labels are relocated** to where the optimised code in front of them ends, in
order and apart, without an index that wraps around, if each of them is placed; and
those that `compile` records are.

Two statements that belong together.  The first is about `optimize` and any labels
that are placed, the second about `compile`, whose labels are.  Of a label that is
not placed, one behind the end of the list say, nothing is said. -/
theorem labels_relocated :
    (∀ (is : List Instr) (labels : List (ℕ × Label)), (∀ l ∈ labels, Placed is l.1) →
      ∃ move, Relocated is labels move) ∧
    ∀ (V : Validator) (E : Encoder) (ps : List Payload) (st : Compiling V),
      ps.foldlM (handlePayload E) Compiling.init = .ok st →
        ∀ l ∈ st.labelIndices, Placed st.instructions l.1 := by
  refine ⟨fun is labels h => ?_, fun V E ps st hst => placed_of_foldlM hst⟩
  have hcut : ∀ l ∈ labels, Cut is l.1 := fun l hl => (h l hl).cut
  have hsplit : ∀ l ∈ labels,
      (optimize is labels).1 = optimized (is.take l.1) ++ optimized (is.drop l.1) := by
    intro l hl
    rw [optimize_fst, ← optimized_append _ (hcut l hl).2, List.take_append_drop]
  refine ⟨fun k => (optimized (is.take k)).length, optimize_snd hcut, fun l hl => ?_,
    fun l hl => ?_, fun l hl => ?_, fun l hl l' hl' => ?_, ?_⟩
  · rw [hsplit l hl, List.length_append]
    exact Nat.le_add_right _ _
  · rw [hsplit l hl, List.take_left]
    rfl
  · rw [hsplit l hl, List.drop_left]
    rfl
  · exact length_optimized_lt (h l hl) (h l' hl')
  · exact shiftsInRange hcut le_rfl (Nat.lt_succ_self _)

/-- A `ret`, a pair that becomes nothing, data and a `nop`, with labels in front of
all but the pair's `pop`. -/
theorem labels_relocated_instance : ∃ move,
    Relocated [.ret, .push .rax, .pop .rax, .dq 0, .nop, .ret] [(4, 1), (0, 2), (1, 3)] move := by
  refine labels_relocated.1 _ _ (List.forall_mem_cons.mpr
    ⟨?_, List.forall_mem_cons.mpr ⟨?_, List.forall_mem_singleton.mpr ?_⟩⟩)
  · exact ⟨by decide, .inr ⟨_, rfl, rfl⟩⟩
  · exact ⟨by decide, .inl rfl⟩
  · exact ⟨by decide, .inr ⟨_, rfl, rfl⟩⟩

end ParaOS.Parawasm
