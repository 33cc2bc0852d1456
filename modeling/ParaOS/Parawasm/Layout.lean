import ParaOS.Parawasm.Emission

/-!
# Where code and labels end up

After the loop the instruction list goes through the optimiser, then labels are
bound one by one, each with a zero-length instruction in front of what it names,
and the result is assembled.  Seen item by item nothing moves between items:

* every item ends in an instruction no rule touches, so the optimiser works on
  each body by itself and a label stays in front of its item
  (`optimize_items`);
* binding puts one zero-length instruction into each item that has a label, and
  records for each body the number of bytes before it (`bindFrom_items`).

`Encoder.Measured` is what is asked of the assembler: an instruction has one
length whatever is known of the labels it names, a zero-length instruction has
none and a `dq` of one element eight bytes.

### What is load-bearing

Labels are indices into the list until the very end, and the optimiser makes the
list shorter.  What keeps them in place is `stop`: a label stands behind an
instruction that no rule mentions, a `ret` or a piece of data, and so at a place
where the list can be cut.  Had the compiler put a label in the middle of a body, it
would not be clear what it names afterwards.

`Encoder.Measured` gives lengths to instructions without their labels.  For `call`
and for a `mov` from a label that holds as their displacement has four bytes
whatever it is; an encoder that chose short forms by distance would not be measured.
-/

namespace ParaOS.Parawasm

open Machine X86 Wasm

/-! ## What is asked of the assembler -/

/-- The number of bytes of a list of instructions, from the lengths of each. -/
def codeSize (len : Instr → ℕ) (is : List Instr) : ℕ := (is.map len).sum

/-- What the documentation of `iced-x86` says of lengths and offsets. -/
structure Encoder.Measured (E : Encoder) (len : Instr → ℕ) : Prop where
  bytes : ∀ is bound assembly, E.assemble is bound = .ok assembly →
    assembly.bytes.length = codeSize len is
  offsets : ∀ is bound assembly, E.assemble is bound = .ok assembly →
    ∀ k : ℕ, assembly.offsets[k]? =
      if k < is.length then some (codeSize len (is.take k)) else none
  zeroBytes : len .zeroBytes = 0
  dq : ∀ v, len (.dq v) = 8

variable {len : Instr → ℕ}

@[simp] theorem codeSize_nil : codeSize len [] = 0 := rfl

@[simp] theorem codeSize_cons (i : Instr) (is : List Instr) :
    codeSize len (i :: is) = len i + codeSize len is := by
  simp [codeSize]

@[simp] theorem codeSize_append (is js : List Instr) :
    codeSize len (is ++ js) = codeSize len is + codeSize len js := by
  simp [codeSize]

/-! ## The optimiser, item by item

An item is optimised for itself, and what comes out is an item again, with its label
at the same place within it. -/

/-- An item that ends in an instruction no rule touches. -/
def Item.Closed (it : Item) : Prop := ∃ i, it.code.getLast? = some i ∧ stop i = true

/-- What the optimiser makes of an item. -/
def Item.optimized : Item → Item
  | .body f g code => .body f g (Parawasm.optimized code)
  | it => it

/-- The code of such an item can be cut behind it, -/
theorem Item.Closed.stops {it : Item} (h : it.Closed) : Stops it.code := by
  obtain ⟨i, hi, hstop⟩ := h
  intro j hj
  rw [hi] at hj
  cases hj
  exact hstop

/-- and so can that of a list of them. -/
theorem stops_codeOf {its : List Item} (h : ∀ it ∈ its, it.Closed) : Stops (codeOf its) := by
  induction its with
  | nil => exact stops_nil
  | cons it its ih =>
      rw [List.forall_mem_cons] at h
      exact h.1.stops.append (ih h.2)

/-- Data is not optimised. -/
theorem optimized_item (it : Item) : Parawasm.optimized it.code = it.optimized.code := by
  cases it with
  | body f g code => rfl
  | _ => exact optimized_of_fixed rfl

/-- The optimiser does not work across items. -/
theorem optimized_codeOf {its : List Item} (h : ∀ it ∈ its, it.Closed) :
    optimized (codeOf its) = codeOf (its.map Item.optimized) := by
  induction its with
  | nil => exact optimized_of_fixed rfl
  | cons it its ih =>
      rw [List.forall_mem_cons] at h
      have hcons : codeOf (it :: its) = it.code ++ codeOf its := rfl
      rw [hcons, optimized_append _ h.1.stops, optimized_item, ih h.2]
      rfl

@[simp] theorem Item.mark_optimized (it : Item) : it.optimized.mark = it.mark := by
  cases it <;> rfl

/-- In front of a label there is an instruction no rule touches, or nothing, and
the optimiser leaves that many instructions in front of it. -/
theorem Item.stops_take_mark {it : Item} {m : ℕ × Label} (h : it.mark = some m) :
    m.1 ≤ it.code.length ∧ Stops (it.code.take m.1) ∧
      (Parawasm.optimized (it.code.take m.1)).length = m.1 := by
  cases it with
  | skip => cases h
  | slot i t l =>
      cases h
      exact ⟨by simp [Item.code], by simp [Item.code, Stops, stop],
        by rw [optimized_of_fixed rfl]; rfl⟩
  | reserve t l g =>
      cases h
      exact ⟨Nat.zero_le _, stops_nil, by rw [optimized_of_fixed rfl]; rfl⟩
  | body f g code =>
      cases h
      exact ⟨Nat.zero_le _, stops_nil, by rw [optimized_of_fixed rfl]; rfl⟩

/-- A label comes from an item. -/
theorem mem_marksFrom {k : ℕ} {its : List Item} {l : ℕ × Label} (h : l ∈ marksFrom k its) :
    ∃ A it B m, its = A ++ it :: B ∧ it.mark = some m ∧ l = (k + (codeOf A).length + m.1, m.2) := by
  induction its generalizing k with
  | nil => cases h
  | cons it its ih =>
      rw [marksFrom, List.mem_append] at h
      rcases h with h | h
      · cases hm : it.mark with
        | none => simp [hm] at h
        | some m =>
            simp only [hm, Option.map_some, Option.toList_some, List.mem_singleton] at h
            exact ⟨[], it, its, m, rfl, hm, by simpa using h⟩
      · obtain ⟨A, it', B, m, rfl, hm, rfl⟩ := ih h
        refine ⟨it :: A, it', B, m, rfl, hm, ?_⟩
        have hcons : codeOf (it :: A) = it.code ++ codeOf A := rfl
        rw [hcons, List.length_append]
        simp only [Prod.mk.injEq, and_true]
        omega

/-- The code in front of a label. -/
theorem take_codeOf_mark {A B : List Item} {it : Item} {m : ℕ × Label} (hm : it.mark = some m) :
    (codeOf (A ++ it :: B)).take ((codeOf A).length + m.1) = codeOf A ++ it.code.take m.1 := by
  have hsplit : codeOf (A ++ it :: B) = codeOf A ++ (it.code ++ codeOf B) := by
    rw [codeOf_append]
    rfl
  rw [hsplit, List.take_length_add_append, List.take_append_of_le_length (Item.stops_take_mark hm).1]

/-- Every label stands where the list can be cut. -/
theorem cut_mark {its : List Item} (h : ∀ it ∈ its, it.Closed) {l : ℕ × Label}
    (hl : l ∈ marksFrom 0 its) : Cut (codeOf its) l.1 := by
  obtain ⟨A, it, B, m, rfl, hm, rfl⟩ := mem_marksFrom hl
  have hA : ∀ it ∈ A, it.Closed := fun it hit => h it (List.mem_append_left _ hit)
  simp only [Nat.zero_add]
  refine ⟨?_, ?_⟩
  · have := (Item.stops_take_mark hm).1
    rw [codeOf_append, List.length_append]
    simp only [codeOf, List.flatMap_cons, List.length_append]
    omega
  · rw [take_codeOf_mark hm]
    exact (stops_codeOf hA).append (Item.stops_take_mark hm).2.1

/-- Labels after the optimiser are those of the optimised items. -/
theorem marksFrom_optimized {A its : List Item} (h : ∀ it ∈ A ++ its, it.Closed) :
    (marksFrom (codeOf A).length its).map
        (fun l => ((optimized ((codeOf (A ++ its)).take l.1)).length, l.2)) =
      marksFrom (codeOf (A.map Item.optimized)).length (its.map Item.optimized) := by
  induction its generalizing A with
  | nil => rfl
  | cons it its ih =>
      have hA : ∀ it ∈ A, it.Closed := fun it hit => h it (List.mem_append_left _ hit)
      have hrest := ih (A := A ++ [it]) (by simpa using h)
      rw [List.append_assoc, List.singleton_append, codeOf_concat, List.length_append,
        List.map_append, List.map_singleton, codeOf_concat, List.length_append] at hrest
      rw [marksFrom, List.map_append, List.map_cons, marksFrom]
      refine congrArg₂ _ ?_ ?_
      · rw [Item.mark_optimized]
        cases hm : it.mark with
        | none => rfl
        | some m =>
            simp only [Option.map_some, Option.toList_some, List.map_cons, List.map_nil,
              List.cons.injEq, Prod.mk.injEq, and_true]
            rw [take_codeOf_mark hm, optimized_append _ (stops_codeOf hA), List.length_append,
              (Item.stops_take_mark hm).2.2, optimized_codeOf hA]
      · exact hrest

/-- **What `optimize` makes of the items.** -/
theorem optimize_items {its : List Item} (h : ∀ it ∈ its, it.Closed) :
    optimize (codeOf its) (marksFrom 0 its) =
      (codeOf (its.map Item.optimized), marksFrom 0 (its.map Item.optimized)) := by
  refine Prod.ext ?_ ?_
  · rw [optimize_fst]
    exact optimized_codeOf h
  · rw [optimize_snd fun l hl => cut_mark h hl]
    exact marksFrom_optimized (A := []) h

/-! ## Binding, item by item

The second loop of `compile` goes over the instructions with the labels at hand,
looks for one at each index and assembles all that is bound so far to find its
offset. -/

/-- The instructions of an item with its label bound: a zero-length one stands in
front of what the label names. -/
def Item.boundCode (it : Item) : List Instr :=
  match it.mark with
  | none => it.code
  | some m => it.code.take m.1 ++ .zeroBytes :: it.code.drop m.1

/-- The instructions of a list of items with their labels bound. -/
def boundCodeOf (its : List Item) : List Instr := its.flatMap Item.boundCode

/-- The labels of a list of items, bound. -/
def boundFrom : ℕ → List Item → List (Label × ℕ)
  | _, [] => []
  | k, it :: its =>
      (it.mark.map fun m => (m.2, k + m.1)).toList ++ boundFrom (k + it.boundCode.length) its

/-- The functions of a list of items with the number of bytes in front of their
bodies. -/
def entriesFrom (len : Instr → ℕ) : ℕ → List Item → List (ℕ × ℕ)
  | _, [] => []
  | k, it :: its =>
      (it.bodyOf.map fun p => (p.2, k)).toList ++ entriesFrom len (k + codeSize len it.code) its

/-- Bound labels of one list behind those of another. -/
theorem boundFrom_append (k : ℕ) (A B : List Item) :
    boundFrom k (A ++ B) = boundFrom k A ++ boundFrom (k + (boundCodeOf A).length) B := by
  induction A generalizing k with
  | nil => rfl
  | cons it A ih =>
      rw [List.cons_append, boundFrom, boundFrom, ih, List.append_assoc]
      simp [boundCodeOf, Nat.add_assoc]

/-- Entry points of one list behind those of another, moved by the bytes in between.
-/
theorem entriesFrom_append (k : ℕ) (A B : List Item) :
    entriesFrom len k (A ++ B) =
      entriesFrom len k A ++ entriesFrom len (k + codeSize len (codeOf A)) B := by
  induction A generalizing k with
  | nil => rfl
  | cons it A ih =>
      rw [List.cons_append, entriesFrom, entriesFrom, ih, List.append_assoc]
      simp [codeOf, Nat.add_assoc]

/-- A bound label takes no bytes. -/
theorem codeSize_boundCode {E : Encoder} (hE : E.Measured len) (it : Item) :
    codeSize len it.boundCode = codeSize len it.code := by
  rw [Item.boundCode]
  split
  · rfl
  · rename_i m _
    rw [codeSize_append, codeSize_cons, hE.zeroBytes, Nat.zero_add, ← codeSize_append,
      List.take_append_drop]

/-- Bound labels take no bytes. -/
theorem codeSize_boundCodeOf {E : Encoder} (hE : E.Measured len) (its : List Item) :
    codeSize len (boundCodeOf its) = codeSize len (codeOf its) := by
  induction its with
  | nil => rfl
  | cons it its ih =>
      have hb : boundCodeOf (it :: its) = it.boundCode ++ boundCodeOf its := rfl
      have hc : codeOf (it :: its) = it.code ++ codeOf its := rfl
      rw [hb, hc, codeSize_append, codeSize_append, codeSize_boundCode hE, ih]

/-- What binding relies on: labels stand in front of instructions of their item,
a label is that of a function exactly if the item is its body, and every
function has one body. -/
structure Labelled (functions : List (Label × ℕ)) (its : List Item) : Prop where
  inside : ∀ it ∈ its, ∀ m, it.mark = some m → m.1 < it.code.length
  function : ∀ it ∈ its, ∀ m, it.mark = some m →
    (functions.find? fun f => f.1 == m.2) = it.bodyOf
  once : ((its.filterMap Item.bodyOf).map Prod.snd).Nodup

/-- The state of the binding loop after some items.  It is the invariant of
`bindFrom_items`, and it fixes the entry points for good: what is bound later comes
behind and does not move them. -/
structure Bound (len : Instr → ℕ) (its : List Item) (b : Binding) : Prop where
  instructions : b.instructions = boundCodeOf its
  bound : b.bound = boundFrom 0 its
  entries : ∀ f off, b.functionBodies[f]? = some off ↔ (f, off) ∈ entriesFrom len 0 its

/-- Labels of a list of items lie within its code. -/
theorem marksFrom_bounds {k : ℕ} {its : List Item} {l : ℕ × Label}
    (h : ∀ it ∈ its, ∀ m, it.mark = some m → m.1 < it.code.length) (hl : l ∈ marksFrom k its) :
    k ≤ l.1 ∧ l.1 < k + (codeOf its).length := by
  obtain ⟨A, it, B, m, rfl, hm, rfl⟩ := mem_marksFrom hl
  have := h it (by simp) m hm
  rw [codeOf_append, List.length_append]
  simp only [codeOf, List.flatMap_cons, List.length_append]
  omega

/-- The label looked up at an index is the one of the item there. -/
theorem find_mark {A B : List Item} {it : Item}
    (h : ∀ i ∈ A ++ it :: B, ∀ m, i.mark = some m → m.1 < i.code.length) {j : ℕ}
    (hj : j < it.code.length) :
    ((marksFrom 0 (A ++ it :: B)).find? fun l => l.1 == (codeOf A).length + j) =
      (it.mark.filter fun m => m.1 == j).map fun m => ((codeOf A).length + j, m.2) := by
  have hA : ((marksFrom 0 A).find? fun l => l.1 == (codeOf A).length + j) = none := by
    rw [List.find?_eq_none]
    intro l hl
    have := (marksFrom_bounds (fun i hi => h i (List.mem_append_left _ hi)) hl).2
    simp
    omega
  have hB : ((marksFrom ((codeOf A).length + it.code.length) B).find?
      fun l => l.1 == (codeOf A).length + j) = none := by
    rw [List.find?_eq_none]
    intro l hl
    have := (marksFrom_bounds (fun i hi => h i (by simp [hi])) hl).1
    simp
    omega
  rw [marksFrom_append, Nat.zero_add, marksFrom, List.find?_append, hA, Option.none_or,
    List.find?_append, hB, Option.or_none]
  cases hm : it.mark with
  | none => rfl
  | some m =>
      by_cases hmj : m.1 = j
      · simp [hmj, Option.filter]
      · simp [hmj, Option.filter]

variable {E : Encoder} {labels : List (ℕ × Label)} {functions : List (Label × ℕ)}

/-- Instructions without a label are passed on. -/
theorem bindFrom_append {xs rest : List Instr} {k : ℕ} {b : Binding}
    (h : ∀ j < xs.length, (labels.find? fun l => l.1 == k + j) = none) :
    bindFrom E labels functions (xs ++ rest) k b =
      bindFrom E labels functions rest (k + xs.length)
        { b with instructions := b.instructions ++ xs } := by
  induction xs generalizing k b with
  | nil => simp
  | cons x xs ih =>
      have h0 := h 0 (by simp)
      rw [Nat.add_zero] at h0
      have hx : bindLabel E labels functions k b = .ok b := by rw [bindLabel, h0]
      rw [List.cons_append, bindFrom, hx, Outcome.ok_bind, ih fun j hj => ?_]
      · rw [List.length_cons, show k + (xs.length + 1) = k + 1 + xs.length by omega]
        simp
      · have := h (j + 1) (by simpa using hj)
        rwa [Nat.add_comm j 1, ← Nat.add_assoc] at this

/-- Binding a label: the zero-length instruction, and the entry point if it is
the label of a function. -/
theorem bindLabel_eq_ok (hE : E.Measured len) {k : ℕ} {b b' : Binding} {l : Label}
    (hl : (labels.find? fun l => l.1 == k) = some (k, l))
    (h : bindLabel E labels functions k b = .ok b') :
    b' = ⟨b.instructions ++ [.zeroBytes], b.bound ++ [(l, b.instructions.length)],
      match functions.find? fun f => f.1 == l with
      | none => b.functionBodies
      | some f => b.functionBodies.insert f.2 (codeSize len b.instructions)⟩ := by
  rw [bindLabel, hl] at h
  cases hf : functions.find? fun f => f.1 == l with
  | none =>
      simp only [hf, Outcome.ok.injEq] at h
      exact h.symm
  | some f =>
      simp only [hf, Outcome.bind_eq_ok, Outcome.ofIced_eq_ok, Outcome.pure_eq_ok,
        Outcome.ok.injEq] at h
      obtain ⟨assembly, hasm, ip, hip, rfl⟩ := h
      have hoff := hE.offsets _ _ _ hasm b.instructions.length
      rw [if_pos (by simp), List.take_left] at hoff
      rw [labelIp, hoff] at hip
      cases hip
      rfl

/-- The label of a body stands in front of its first instruction. -/
theorem Item.mark_of_bodyOf {it : Item} {p : Label × ℕ} (h : it.bodyOf = some p) :
    it.mark = some (0, p.1) := by
  cases it with
  | body f g code =>
      cases h
      rfl
  | _ => cases h

/-- The functions that have an entry point are those that have a body. -/
theorem entriesFrom_fst (len : Instr → ℕ) (k : ℕ) (its : List Item) :
    (entriesFrom len k its).map Prod.fst = (its.filterMap Item.bodyOf).map Prod.snd := by
  induction its generalizing k with
  | nil => rfl
  | cons it its ih =>
      rw [entriesFrom, List.map_append, ih, List.filterMap_cons]
      cases it.bodyOf <;> rfl

/-- Binding one item. -/
theorem bindFrom_item (hE : E.Measured len) {A B : List Item} {it : Item} {rest : List Instr}
    {b b' : Binding} (hlab : Labelled functions (A ++ it :: B)) (hb : Bound len A b)
    (h : bindFrom E (marksFrom 0 (A ++ it :: B)) functions (it.code ++ rest) (codeOf A).length b =
      .ok b') :
    ∃ b₁, Bound len (A ++ [it]) b₁ ∧
      bindFrom E (marksFrom 0 (A ++ it :: B)) functions rest (codeOf (A ++ [it])).length b₁ =
        .ok b' := by
  have hcode : boundCodeOf (A ++ [it]) = boundCodeOf A ++ it.boundCode := by
    simp [boundCodeOf]
  have hlen : (codeOf (A ++ [it])).length = (codeOf A).length + it.code.length := by
    rw [codeOf_concat, List.length_append]
  have hbound : boundFrom 0 (A ++ [it]) = boundFrom 0 A ++
      (it.mark.map fun m => (m.2, (boundCodeOf A).length + m.1)).toList := by
    rw [boundFrom_append, Nat.zero_add]
    simp [boundFrom]
  have hentries : entriesFrom len 0 (A ++ [it]) = entriesFrom len 0 A ++
      (it.bodyOf.map fun p => (p.2, codeSize len (codeOf A))).toList := by
    rw [entriesFrom_append, Nat.zero_add]
    simp [entriesFrom]
  cases hm : it.mark with
  | none =>
      have hbody : it.bodyOf = none := by cases it <;> first | rfl | cases hm
      rw [bindFrom_append fun j hj => by rw [find_mark hlab.inside hj, hm]; rfl] at h
      refine ⟨_, ⟨?_, ?_, ?_⟩, by rw [hlen]; exact h⟩
      · rw [hcode, hb.instructions, Item.boundCode, hm]
      · simp [hbound, hm, hb.bound]
      · simp [hentries, hbody, hb.entries]
  | some m =>
      have hin := hlab.inside it (by simp) m hm
      have hfun := hlab.function it (by simp) m hm
      have hfind : ∀ j, j < it.code.length → j ≠ m.1 →
          ((marksFrom 0 (A ++ it :: B)).find? fun l => l.1 == (codeOf A).length + j) = none := by
        intro j hj hne
        rw [find_mark hlab.inside hj, hm]
        simp [Option.filter, Ne.symm hne]
      have hdrop := List.drop_eq_getElem_cons hin
      have hsplit : it.code ++ rest =
          it.code.take m.1 ++ it.code[m.1] :: (it.code.drop (m.1 + 1) ++ rest) := by
        rw [← List.cons_append, ← hdrop, ← List.append_assoc, List.take_append_drop]
      have hbc : it.boundCode =
          it.code.take m.1 ++ .zeroBytes :: it.code[m.1] :: it.code.drop (m.1 + 1) := by
        rw [← hdrop, Item.boundCode, hm]
      have hpre : (it.code.take m.1).length = m.1 := List.length_take_of_le hin.le
      -- up to the label, the label, and on from it
      rw [hsplit, bindFrom_append fun j hj => hfind j (by omega) (by omega), hpre, bindFrom,
        Outcome.bind_eq_ok] at h
      obtain ⟨b₁, hb₁, h⟩ := h
      have hb₁ := bindLabel_eq_ok hE (l := m.2)
        (by rw [find_mark hlab.inside hin, hm]; simp [Option.filter]) hb₁
      rw [hfun] at hb₁
      subst hb₁
      rw [bindFrom_append fun j hj => by
        rw [Nat.add_assoc, Nat.add_assoc]
        exact hfind _ (by rw [List.length_drop] at hj; omega) (by omega)] at h
      have hend : (codeOf A).length + m.1 + 1 + (it.code.drop (m.1 + 1)).length =
          (codeOf (A ++ [it])).length := by
        rw [hlen, List.length_drop]
        omega
      rw [hend] at h
      refine ⟨_, ⟨?_, ?_, ?_⟩, h⟩
      · simp [hcode, hbc, hb.instructions]
      · simp only [hbound, hm, hb.bound, hb.instructions, List.length_append, hpre,
          Option.map_some, Option.toList_some]
      · cases hbody : it.bodyOf with
        | none => simp [hentries, hbody, hb.entries]
        | some p =>
            have hzero : m.1 = 0 := by
              rw [Item.mark_of_bodyOf hbody] at hm
              cases hm
              rfl
            have hnew : ∀ off, (p.2, off) ∉ entriesFrom len 0 A := by
              intro off hmem
              have honce := hlab.once
              rw [List.filterMap_append, List.filterMap_cons, hbody, List.map_append,
                ← entriesFrom_fst len 0 A] at honce
              exact (List.nodup_append.mp honce).2.2 p.2 (List.mem_map.mpr ⟨_, hmem, rfl⟩) p.2
                (by simp) rfl
            have hsize : codeSize len (b.instructions ++ it.code.take m.1) =
                codeSize len (codeOf A) := by
              rw [hzero, List.take_zero, List.append_nil, hb.instructions,
                codeSize_boundCodeOf hE]
            intro f off
            simp only [hentries, hbody, hsize, Option.map_some, Option.toList_some,
              List.mem_append, List.mem_singleton, Prod.mk.injEq, Std.TreeMap.getElem?_insert,
              Nat.compare_eq_eq]
            by_cases hf : p.2 = f
            · subst hf
              simp [hnew off, eq_comm]
            · simp [hf, Ne.symm hf, hb.entries]

/-- **Binding all items**, by induction over them. -/
theorem bindFrom_items (hE : E.Measured len) {A its : List Item} {b b' : Binding}
    (hlab : Labelled functions (A ++ its)) (hb : Bound len A b)
    (h : bindFrom E (marksFrom 0 (A ++ its)) functions (codeOf its) (codeOf A).length b = .ok b') :
    Bound len (A ++ its) b' := by
  induction its generalizing A b with
  | nil =>
      cases h
      simpa using hb
  | cons it its ih =>
      have hcons : codeOf (it :: its) = it.code ++ codeOf its := rfl
      rw [hcons] at h
      obtain ⟨b₁, hb₁, h⟩ := bindFrom_item hE hlab hb h
      have hassoc : A ++ it :: its = A ++ [it] ++ its := by simp
      rw [hassoc] at hlab h ⊢
      exact ih hlab hb₁ h

end ParaOS.Parawasm
