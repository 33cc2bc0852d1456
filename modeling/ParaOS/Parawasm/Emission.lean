import Mathlib.Data.List.Forall2
import ParaOS.Parawasm.Body

/-!
# What the loop has emitted

`compile` keeps a dozen maps, counters and lists while it reads a module.  All of
them are determined by the sequence of things it has emitted so far: a slot for each
function import, a reserved word for each defined function, the code of each body.
`Item` is one of these things and `Emitted items st` says that the state `st` is the
one that belongs to `items`.

* `emitted_handlePayload`: a payload appends items of its own kind (`Logs`).
* `Reading.foldlM`: so the loop as a whole produces the items of all payloads.
* `Phases`: in a module whose sections come in order the items are first slots, then
  reserved words, then bodies, and the maps a body is compiled with are the ones the
  module ends with.

### Why items

A map like `got` is filled in one payload and read in another, long after.  To say
what is in it then one needs its whole history, and the history of one map is not
enough: a function's index is a count of all imports and declarations in front of
it.  The items are that history, written down once.  Each map is a function of them,
and a lemma about a map is a lemma about a list.

### What is load-bearing

`Ordered`.  A body is compiled with the maps as they are when it is come to, and
they are the maps of the whole module only because nothing that declares a function
comes later.  It is used in `reading_recorded` and nowhere else; everything in front
of that holds in modules in any order.

`functionTypesOf` drops the entries of the type section that are not function types,
as `compile` does not count them, while type indices in a module do.
`countedFunctions` leaves aliased functions out for the same reason.  Both are as
the source has them, and what follows from it is in `ParaOS.Parawasm.FunctionTypes`.
-/

namespace ParaOS.Parawasm

open Machine X86 Wasm

/-! ## Items

An item knows its instructions, its label and what it adds to each index space.
Nothing else about it is used, so that a new kind of section would be a new
constructor and one line in each of these functions. -/

/-- One thing the loop emits. -/
inductive Item where
  /-- an import that is not a function: a place and nothing in it -/
  | skip
  /-- the slot of a function import, and the label calls find it by -/
  | slot (i : Import) (t : ℕ) (l : Label)
  /-- the word reserved for a defined function with its label, and the label of
  its body -/
  | reserve (t : ℕ) (l g : Label)
  /-- the code of function `f` -/
  | body (f : ℕ) (g : Label) (code : List Instr)

namespace Item

/-- The instructions of an item. -/
def code : Item → List Instr
  | .skip => [.zeroBytes]
  | .slot _ _ _ => [.zeroBytes, .dq importPlaceholder]
  | .reserve _ _ _ => [.dq 0]
  | .body _ _ code => code

/-- The label inside an item, with the index of the instruction it is at. -/
def mark : Item → Option (ℕ × Label)
  | .skip => none
  | .slot _ _ l => some (1, l)
  | .reserve _ l _ => some (0, l)
  | .body _ g _ => some (0, g)

/-- The type index of the function an item declares. -/
def typeIndex : Item → Option ℕ
  | .skip => none
  | .slot _ t _ => some t
  | .reserve t _ _ => some t
  | .body _ _ _ => none

/-- How the function an item declares is called: through a slot, or at the label
of its body. -/
def target : Item → Option (Label ⊕ Label)
  | .skip => none
  | .slot _ _ l => some (.inl l)
  | .reserve _ _ g => some (.inr g)
  | .body _ _ _ => none

/-- Labels made for an item. -/
def created : Item → List Label
  | .skip => []
  | .slot _ _ l => [l]
  | .reserve _ l g => [l, g]
  | .body _ _ _ => []

/-- The label and index of the function a body belongs to. -/
def bodyOf : Item → Option (Label × ℕ)
  | .body f g _ => some (g, f)
  | _ => none

/-- What `function_body_index` counts. -/
def countsBody : Item → Bool
  | .slot _ _ _ => true
  | .body _ _ _ => true
  | _ => false

end Item

/-- The instructions of a list of items. -/
def codeOf (its : List Item) : List Instr := its.flatMap Item.code

/-- The labels of a list of items that starts at an index. -/
def marksFrom : ℕ → List Item → List (ℕ × Label)
  | _, [] => []
  | k, it :: its =>
      (it.mark.map fun m => (k + m.1, m.2)).toList ++ marksFrom (k + it.code.length) its

@[simp] theorem codeOf_nil : codeOf [] = [] := rfl

/-- Code of one list behind that of another, -/
theorem codeOf_append (its its' : List Item) : codeOf (its ++ its') = codeOf its ++ codeOf its' :=
  List.flatMap_append

/-- and its labels, moved by as many instructions. -/
theorem marksFrom_append (k : ℕ) (its its' : List Item) :
    marksFrom k (its ++ its') = marksFrom k its ++ marksFrom (k + (codeOf its).length) its' := by
  induction its generalizing k with
  | nil => rfl
  | cons it its ih =>
      rw [List.cons_append, marksFrom, marksFrom, ih, List.append_assoc]
      simp [codeOf, Nat.add_assoc]

/-- The declared functions of a list of items, by type index. -/
def declaredIndices (its : List Item) : List ℕ := its.filterMap Item.typeIndex

/-- The declared functions of a list of items, by the way they are called. -/
def targets (its : List Item) : List (Label ⊕ Label) := its.filterMap Item.target

/-- Every function that is declared can be called in one way. -/
theorem length_targets (its : List Item) : (targets its).length = (declaredIndices its).length := by
  rw [targets, declaredIndices, List.length_filterMap_eq_countP, List.length_filterMap_eq_countP]
  refine List.countP_congr fun it _ => ?_
  cases it <;> rfl

/-! ## The state that belongs to a list of items

Each field of `Compiling` that the items determine, with what it is in terms of
them.  Labels are made in increasing order, and this is all that is needed to tell
them apart. -/

variable {V : Validator} {E : Encoder}

/-- The state of `compile` after it has emitted `its`.  Fields that the items do not
determine, like the type table and the exports, are left out of it and may change
(`Emitted.update`). -/
structure Emitted (its : List Item) (st : Compiling V) : Prop where
  instructions : st.instructions = codeOf its
  labelIndices : st.labelIndices = marksFrom 0 its
  functionTypes : ∀ i : ℕ, st.functionTypes[i]? = (declaredIndices its)[i]?
  functionIndex : st.functionIndex = (declaredIndices its).length
  ils : ∀ i : ℕ, st.ils[i]? = (targets its)[i]?.bind Sum.getLeft?
  got : ∀ i : ℕ, st.got[i]? = (targets its)[i]?.bind Sum.getRight?
  bodyIndex : st.functionBodyIndex = its.countP Item.countsBody
  functionBodies : st.functionBodies = its.filterMap Item.bodyOf
  created : (its.flatMap Item.created).Pairwise (· < ·)
  fresh : ∀ l ∈ its.flatMap Item.created, l < st.nextLabel
  entryPoints : st.module.functionBodies = ∅
  heights : ∀ i, i ∈ st.module.functionStackHeights ↔ ∃ g, (g, i) ∈ st.functionBodies

/-- A map that follows a list, with an entry for the next element. -/
theorem insert_tracks {α β : Type} {m : Std.TreeMap ℕ β} {l : List α} {f : α → Option β}
    (h : ∀ i : ℕ, m[i]? = l[i]?.bind f) {x : α} {v : β} (hx : f x = some v) (i : ℕ) :
    (m.insert l.length v)[i]? = (l ++ [x])[i]?.bind f := by
  rw [Std.TreeMap.getElem?_insert]
  split_ifs with hi
  · have : l.length = i := by simpa using hi
    subst this
    simp [hx]
  · have hne : i ≠ l.length := fun heq => hi (by simp [heq])
    rw [h]
    rcases Nat.lt_or_gt_of_ne hne with hlt | hgt
    · rw [List.getElem?_append_left hlt]
    · rw [List.getElem?_eq_none (by omega), List.getElem?_eq_none (by simp; omega)]

/-- A map that follows a list, with no entry for the next element. -/
theorem skip_tracks {α β : Type} {m : Std.TreeMap ℕ β} {l : List α} {f : α → Option β}
    (h : ∀ i : ℕ, m[i]? = l[i]?.bind f) {x : α} (hx : f x = none) (i : ℕ) :
    m[i]? = (l ++ [x])[i]?.bind f := by
  rw [h]
  rcases Nat.lt_trichotomy i l.length with hlt | rfl | hgt
  · rw [List.getElem?_append_left hlt]
  · simp [hx]
  · rw [List.getElem?_eq_none (by omega), List.getElem?_eq_none (by simp; omega)]

/-- A map that follows a list as it is. -/
theorem insert_tracks_self {α : Type} {m : Std.TreeMap ℕ α} {l : List α}
    (h : ∀ i : ℕ, m[i]? = l[i]?) (x : α) (i : ℕ) : (m.insert l.length x)[i]? = (l ++ [x])[i]? := by
  have := insert_tracks (f := some) (fun i => by simpa using h i) (x := x) rfl i
  simpa using this

/-- At the beginning nothing has been emitted. -/
theorem emitted_init : Emitted [] (Compiling.init (V := V)) where
  instructions := rfl
  labelIndices := rfl
  functionTypes := fun i => by simp [Compiling.init, declaredIndices]
  functionIndex := rfl
  ils := fun i => by simp [Compiling.init, targets]
  got := fun i => by simp [Compiling.init, targets]
  bodyIndex := rfl
  functionBodies := rfl
  created := List.Pairwise.nil
  fresh := fun l hl => by simp at hl
  entryPoints := rfl
  heights := fun i => by simp [Compiling.init, Module.new]

/-! ## What each entry appends

One lemma for each kind of entry that emits something: an import, a declared
function, a body. -/

/-- An item an import turns into. -/
def Item.OfImport (i : Import) (it : Item) : Prop :=
  match i.ty with
  | .function t => ∃ l, it = .slot i t l
  | .other => it = .skip

variable {its : List Item} {st st' : Compiling V}

/-- One more item adds its label, if it has one, -/
theorem marksFrom_concat (its : List Item) (it : Item) :
    marksFrom 0 (its ++ [it]) =
      marksFrom 0 its ++ (it.mark.map fun m => ((codeOf its).length + m.1, m.2)).toList := by
  rw [marksFrom_append, Nat.zero_add]
  simp [marksFrom]

/-- its function, -/
theorem declaredIndices_concat (its : List Item) (it : Item) :
    declaredIndices (its ++ [it]) = declaredIndices its ++ it.typeIndex.toList := by
  rw [declaredIndices, List.filterMap_append]
  cases it <;> rfl

/-- the way to call it, -/
theorem targets_concat (its : List Item) (it : Item) :
    targets (its ++ [it]) = targets its ++ it.target.toList := by
  rw [targets, List.filterMap_append]
  cases it <;> rfl

/-- and its instructions. -/
theorem codeOf_concat (its : List Item) (it : Item) :
    codeOf (its ++ [it]) = codeOf its ++ it.code := by
  rw [codeOf_append]
  simp [codeOf]

/-- Labels made later are larger. -/
theorem Emitted.created_concat {it : Item} (h : Emitted its st)
    (hsorted : it.created.Pairwise (· < ·)) (hnew : ∀ l ∈ it.created, st.nextLabel ≤ l) :
    ((its ++ [it]).flatMap Item.created).Pairwise (· < ·) := by
  rw [List.flatMap_append, List.pairwise_append]
  refine ⟨h.created, by simpa using hsorted, fun a ha b hb => ?_⟩
  exact lt_of_lt_of_le (h.fresh a ha) (hnew b (by simpa using hb))

/-- Labels of an item that is new are below the next one to be made. -/
theorem Emitted.fresh_concat {it : Item} {n : Label} (h : Emitted its st) (hn : st.nextLabel ≤ n)
    (hnew : ∀ l ∈ it.created, l < n) : ∀ l ∈ (its ++ [it]).flatMap Item.created, l < n := by
  intro l hl
  rw [List.flatMap_append, List.mem_append] at hl
  rcases hl with hl | hl
  · exact lt_of_lt_of_le (h.fresh l hl) hn
  · exact hnew l (by simpa using hl)

/-- An import appends a slot or a skip. -/
theorem emitted_importEntry {i : Import} (h : Emitted its st) (hst : importEntry E st i = .ok st') :
    ∃ it, Item.OfImport i it ∧ Emitted (its ++ [it]) st' ∧
      st'.functionTypedefs = st.functionTypedefs ∧
      st'.functionTypeIndex = st.functionTypeIndex := by
  simp only [importEntry, Outcome.bind_eq_ok] at hst
  obtain ⟨assembly, -, offset, -, hst⟩ := hst
  cases hty : i.ty with
  | other =>
      rw [hty] at hst
      cases hst
      refine ⟨.skip, by simp [Item.OfImport, hty], ?_, rfl, rfl⟩
      exact
        { instructions := by simp [codeOf_concat, h.instructions, Item.code]
          labelIndices := by simp [marksFrom_concat, h.labelIndices, Item.mark]
          functionTypes := fun i => by
            simp [declaredIndices_concat, Item.typeIndex, h.functionTypes]
          functionIndex := by simp [declaredIndices_concat, Item.typeIndex, h.functionIndex]
          ils := fun i => by simp [targets_concat, Item.target, h.ils]
          got := fun i => by simp [targets_concat, Item.target, h.got]
          bodyIndex := by simp [h.bodyIndex, Item.countsBody]
          functionBodies := by simp [h.functionBodies, Item.bodyOf]
          created := h.created_concat (by simp [Item.created]) (by simp [Item.created])
          fresh := h.fresh_concat (Nat.le_succ _) (by simp [Item.created])
          entryPoints := h.entryPoints
          heights := h.heights }
  | function t =>
      rw [hty] at hst
      cases hst
      refine ⟨.slot i t (st.nextLabel + 1), by simp [Item.OfImport, hty], ?_, rfl, rfl⟩
      have hlen : st.functionIndex = (targets its).length := by
        rw [h.functionIndex, length_targets]
      exact
        { instructions := by simp [codeOf_concat, h.instructions, Item.code]
          labelIndices := by simp [marksFrom_concat, h.labelIndices, h.instructions, Item.mark]
          functionTypes := fun j => by
            rw [declaredIndices_concat]
            simpa [h.functionIndex, Item.typeIndex] using insert_tracks_self h.functionTypes t j
          functionIndex := by simp [declaredIndices_concat, Item.typeIndex, h.functionIndex]
          ils := fun j => by
            rw [targets_concat]
            simpa [hlen, Item.target] using insert_tracks h.ils (x := .inl (st.nextLabel + 1)) rfl j
          got := fun j => by
            rw [targets_concat]
            exact skip_tracks h.got rfl j
          bodyIndex := by simp [h.bodyIndex, Item.countsBody]
          functionBodies := by simp [h.functionBodies, Item.bodyOf]
          created := h.created_concat (by simp [Item.created]) (by simp [Item.created])
          fresh := h.fresh_concat (Nat.le_add_right _ 2) (by simp [Item.created])
          entryPoints := h.entryPoints
          heights := h.heights }

/-- A declared function appends a reserved word. -/
theorem emitted_functionEntry {t : ℕ} (h : Emitted its st)
    (hst : functionEntry st t = .ok st') :
    ∃ it, (∃ l g, it = Item.reserve t l g) ∧ Emitted (its ++ [it]) st' ∧
      st'.functionTypedefs = st.functionTypedefs ∧
      st'.functionTypeIndex = st.functionTypeIndex := by
  cases hst
  have hlen : st.functionIndex = (targets its).length := by
    rw [h.functionIndex, length_targets]
  refine ⟨_, ⟨st.nextLabel, st.nextLabel + 1, rfl⟩, ?_, rfl, rfl⟩
  exact
    { instructions := by simp [codeOf_concat, h.instructions, Item.code]
      labelIndices := by simp [marksFrom_concat, h.labelIndices, h.instructions, Item.mark]
      functionTypes := fun j => by
        rw [declaredIndices_concat]
        simpa [h.functionIndex, Item.typeIndex] using insert_tracks_self h.functionTypes t j
      functionIndex := by simp [declaredIndices_concat, Item.typeIndex, h.functionIndex]
      ils := fun j => by
        rw [targets_concat]
        exact skip_tracks h.ils rfl j
      got := fun j => by
        rw [targets_concat]
        simpa [hlen, Item.target] using insert_tracks h.got (x := .inr (st.nextLabel + 1)) rfl j
      bodyIndex := by simp [h.bodyIndex, Item.countsBody]
      functionBodies := by simp [h.functionBodies, Item.bodyOf]
      created := h.created_concat (by simp [Item.created]) (by simp [Item.created])
      fresh := h.fresh_concat (by simp) (by simp [Item.created])
      entryPoints := h.entryPoints
      heights := h.heights }

/-- What a code section entry goes through: the validator, the lookup of its type
and its label, and its body. -/
theorem codeEntry_eq_ok {body : FunctionBody} (hst : codeEntry st body = .ok st') :
    ∃ φ validator ty g code height, V.codeSectionEntry st.validator = .ok (φ, validator) ∧
      st.functionType st.functionBodyIndex = some ty ∧ st.got[st.functionBodyIndex]? = some g ∧
      compileBody V st.toContext ty φ body = .ok (code, height) ∧
      st' = { st with
        validator := validator
        functionBodies := st.functionBodies ++ [(g, st.functionBodyIndex)]
        labelIndices := st.labelIndices ++ [(st.instructions.length, g)]
        instructions := st.instructions ++ code
        module := { st.module with
          functionStackHeights := st.module.functionStackHeights.insert st.functionBodyIndex height }
        functionBodyIndex := st.functionBodyIndex + 1 } := by
  simp only [codeEntry, Outcome.bind_eq_ok, Outcome.ofReader_eq_ok, Outcome.unwrap_eq_ok,
    Outcome.pure_eq_ok, Outcome.ok.injEq] at hst
  obtain ⟨⟨φ, validator⟩, hφ, ty, hty, g, hg, ⟨code, height⟩, hbody, rfl⟩ := hst
  exact ⟨φ, validator, ty, g, code, height, hφ, hty, hg, hbody, rfl⟩

/-- A code section entry appends the body of the next function, compiled with
the maps as they are. -/
theorem emitted_codeEntry {body : FunctionBody} (h : Emitted its st)
    (hst : codeEntry st body = .ok st') :
    ∃ g code ty φ height, Emitted (its ++ [.body st.functionBodyIndex g code]) st' ∧
      st'.toContext = st.toContext ∧ st'.functionTypeIndex = st.functionTypeIndex ∧
      st.got[st.functionBodyIndex]? = some g ∧
      st.functionType st.functionBodyIndex = some ty ∧
      compileBody V st.toContext ty φ body = .ok (code, height) ∧
      (∃ validator, V.codeSectionEntry st.validator = .ok (φ, validator)) ∧
      ∀ i : ℕ, st'.module.functionStackHeights[i]? =
        if st.functionBodyIndex = i then some height
        else st.module.functionStackHeights[i]? := by
  obtain ⟨φ, validator, ty, g, code, height, hφ, hty, hg, hbody, rfl⟩ := codeEntry_eq_ok hst
  refine ⟨g, code, ty, φ, height, ?_, rfl, rfl, hg, hty, hbody, ⟨validator, hφ⟩, fun i => ?_⟩
  swap
  · rw [Std.TreeMap.getElem?_insert]
    simp only [Nat.compare_eq_eq]
  exact
    { instructions := by simp [codeOf_concat, h.instructions, Item.code]
      labelIndices := by simp [marksFrom_concat, h.labelIndices, h.instructions, Item.mark]
      functionTypes := fun j => by
        simp [declaredIndices_concat, Item.typeIndex, h.functionTypes]
      functionIndex := by simp [declaredIndices_concat, Item.typeIndex, h.functionIndex]
      ils := fun j => by simp [targets_concat, Item.target, h.ils]
      got := fun j => by simp [targets_concat, Item.target, h.got]
      bodyIndex := by simp [h.bodyIndex, Item.countsBody]
      functionBodies := by simp [h.functionBodies, Item.bodyOf]
      created := h.created_concat (by simp [Item.created]) (by simp [Item.created])
      fresh := h.fresh_concat le_rfl (by simp [Item.created])
      entryPoints := h.entryPoints
      heights := fun j => by
        simp only [Std.TreeMap.mem_insert, h.heights, List.mem_append, List.mem_singleton,
          Prod.mk.injEq, Nat.compare_eq_eq]
        constructor
        · rintro (rfl | ⟨g', hg'⟩)
          · exact ⟨g, .inr ⟨rfl, rfl⟩⟩
          · exact ⟨g', .inl hg'⟩
        · rintro ⟨g', hg' | ⟨-, rfl⟩⟩
          · exact .inr ⟨g', hg'⟩
          · exact .inl rfl }

/-! ## What each payload appends

From entries to payloads, and from these to the loop.  `EntryStep` is every change
there is, so that a property that all of them keep needs no case analysis over
payloads. -/

/-- The items of a payload.  Type and alias sections have none: their entries are
not emitted. -/
def Logs : Payload → List Item → Prop
  | .importSection is, new => List.Forall₂ Item.OfImport is.items new
  | .functionSection fs, new => List.Forall₂ (fun t it => ∃ l g, it = .reserve t l g) fs.items new
  | .codeSectionEntry _, new => ∃ f g code, new = [.body f g code]
  | _, new => new = []

/-- The function types among the entries of the type index space; the others are
not counted. -/
def functionTypesOf (ts : List TypeDef) : List FuncType := ts.filterMap TypeDef.func?

/-- The type table of `compile`. -/
structure Typed (ts : List TypeDef) (st : Compiling V) : Prop where
  functionTypedefs : ∀ i : ℕ, st.functionTypedefs[i]? = (functionTypesOf ts)[i]?
  typeIndex : st.functionTypeIndex = (functionTypesOf ts).length

/-- The type table is unchanged where nothing is inserted into it. -/
theorem Typed.congr {ts : List TypeDef} {st st' : Compiling V} (h : Typed ts st)
    (htd : st'.functionTypedefs = st.functionTypedefs)
    (hti : st'.functionTypeIndex = st.functionTypeIndex) : Typed ts st' :=
  ⟨htd ▸ h.functionTypedefs, hti ▸ h.typeIndex⟩

/-- The state after some payloads. -/
structure Reading (ps : List Payload) (its : List Item) (st : Compiling V) : Prop where
  emitted : Emitted its st
  typed : Typed (typeSpace ps) st
  logged : ∃ news, List.Forall₂ Logs ps news ∧ its = news.flatten

/-- Entries that emit an item each. -/
theorem emitted_entries {α : Type} {entry : Compiling V → α → Outcome (Compiling V)}
    {R : α → Item → Prop}
    (hentry : ∀ its st st' a, Emitted its st → entry st a = .ok st' →
      ∃ it, R a it ∧ Emitted (its ++ [it]) st' ∧ st'.functionTypedefs = st.functionTypedefs ∧
        st'.functionTypeIndex = st.functionTypeIndex)
    {as : List α} (h : Emitted its st) (hst : as.foldlM entry st = .ok st') :
    ∃ new, List.Forall₂ R as new ∧ Emitted (its ++ new) st' ∧
      st'.functionTypedefs = st.functionTypedefs ∧
      st'.functionTypeIndex = st.functionTypeIndex := by
  induction as generalizing its st with
  | nil =>
      cases hst
      exact ⟨[], .nil, by simpa using h, rfl, rfl⟩
  | cons a as ih =>
      rw [List.foldlM_cons, Outcome.bind_eq_ok] at hst
      obtain ⟨st₁, hst₁, hst⟩ := hst
      obtain ⟨it, hit, h₁, htd, hti⟩ := hentry its st st₁ a h hst₁
      obtain ⟨new, hnew, h', htd', hti'⟩ := ih h₁ hst
      exact ⟨it :: new, .cons hit hnew, by simpa using h', htd'.trans htd, hti'.trans hti⟩

/-- Entries that keep a property. -/
theorem foldlM_preserves {α β : Type} {entry : β → α → Outcome β} {p : β → Prop}
    (hentry : ∀ b b' a, p b → entry b a = .ok b' → p b') {as : List α} {b b' : β} (h : p b)
    (hst : as.foldlM entry b = .ok b') : p b' := by
  induction as generalizing b with
  | nil =>
      cases hst
      exact h
  | cons a as ih =>
      rw [List.foldlM_cons, Outcome.bind_eq_ok] at hst
      obtain ⟨b₁, hb₁, hst⟩ := hst
      exact ih (hentry b b₁ a h hb₁) hst

/-- Entries that all return, from a property they keep. -/
theorem exists_foldlM {α β : Type} {entry : β → α → Outcome β} {p : β → Prop} {as : List α}
    (hentry : ∀ b, p b → ∀ a ∈ as, ∃ b', entry b a = .ok b' ∧ p b') {b : β} (h : p b) :
    ∃ b', as.foldlM entry b = .ok b' ∧ p b' := by
  induction as generalizing b with
  | nil => exact ⟨b, rfl, h⟩
  | cons a as ih =>
      obtain ⟨b₁, hb₁, h₁⟩ := hentry b h a List.mem_cons_self
      obtain ⟨b', hb', h'⟩ := ih (fun b hb a ha => hentry b hb a (List.mem_cons_of_mem _ ha)) h₁
      exact ⟨b', by rw [List.foldlM_cons, hb₁, Outcome.ok_bind, hb'], h'⟩

/-- What the items do not determine may change. -/
theorem Emitted.update (h : Emitted its st) (typedefs : Std.TreeMap ℕ FuncType) (n : ℕ)
    (validator : V.St) (exports : Std.TreeMap String ℕ) (memories : List MemoryType) :
    Emitted its { st with
      functionTypedefs := typedefs
      functionTypeIndex := n
      validator := validator
      module := { st.module with
        exports := exports
        memories := memories } } :=
  ⟨h.1, h.2, h.3, h.4, h.5, h.6, h.7, h.8, h.9, h.10, h.11, h.12⟩

/-- A type definition extends the type table if it is a function type. -/
theorem typed_typeEntry {ts : List TypeDef} {d : TypeDef} (h : Emitted its st) (ht : Typed ts st)
    (hst : typeEntry st d = .ok st') : Emitted its st' ∧ Typed (ts ++ [d]) st' := by
  have hcat : functionTypesOf (ts ++ [d]) = functionTypesOf ts ++ d.func?.toList := by
    rw [functionTypesOf, List.filterMap_append]
    cases d <;> rfl
  cases d with
  | func ty =>
      cases hst
      refine ⟨h.update _ _ _ _ _, fun i => ?_, by simp [hcat, TypeDef.func?, ht.typeIndex]⟩
      rw [hcat]
      simpa [ht.typeIndex, TypeDef.func?] using insert_tracks_self ht.functionTypedefs ty i
  | inst =>
      cases hst
      exact ⟨h, fun i => by simp [hcat, TypeDef.func?, ht.functionTypedefs],
        by simp [hcat, TypeDef.func?, ht.typeIndex]⟩
  | module =>
      cases hst
      exact ⟨h, fun i => by simp [hcat, TypeDef.func?, ht.functionTypedefs],
        by simp [hcat, TypeDef.func?, ht.typeIndex]⟩

/-- The entries of a type section, one after the other. -/
theorem typed_typeEntries {ts ts' : List TypeDef} (h : Emitted its st) (ht : Typed ts st)
    (hst : ts'.foldlM typeEntry st = .ok st') : Emitted its st' ∧ Typed (ts ++ ts') st' := by
  induction ts' generalizing ts st with
  | nil =>
      cases hst
      exact ⟨h, by simpa using ht⟩
  | cons d ts' ih =>
      rw [List.foldlM_cons, Outcome.bind_eq_ok] at hst
      obtain ⟨st₁, hst₁, hst⟩ := hst
      obtain ⟨h₁, ht₁⟩ := typed_typeEntry h ht hst₁
      simpa using ih h₁ ht₁ hst

/-- A section that has been read has been validated, and all its entries handled. -/
theorem readSection_eq_ok {α : Type} {p : Payload} {r : Reader α}
    {entry : Compiling V → α → Outcome (Compiling V)} (hst : readSection st p r entry = .ok st') :
    ∃ validator, r.items.foldlM entry { st with validator := validator } = .ok st' := by
  simp only [readSection, validate, Outcome.bind_eq_ok, Outcome.ofReader_eq_ok,
    Outcome.pure_eq_ok, Outcome.ok.injEq] at hst
  obtain ⟨_, ⟨validator, -, rfl⟩, _, hfold, _, -, rfl⟩ := hst
  exact ⟨validator, hfold⟩

/-- The validator's share changes the validator's state and nothing else. -/
theorem validate_eq_ok {p : Payload} (hst : validate st p = .ok st') :
    ∃ validator, st' = { st with validator := validator } := by
  simp only [validate, Outcome.bind_eq_ok, Outcome.ofReader_eq_ok, Outcome.pure_eq_ok,
    Outcome.ok.injEq] at hst
  obtain ⟨validator, -, rfl⟩ := hst
  exact ⟨validator, rfl⟩

/-- One change of the state while a payload is handled: the validator has been
told of it, or one of its entries has been read. -/
inductive EntryStep (E : Encoder) : Payload → Compiling V → Compiling V → Prop where
  | ofValidator {p : Payload} {st : Compiling V} (validator : V.St) :
      EntryStep E p st { st with validator := validator }
  | ofMemory {r : Reader MemoryType} {m : MemoryType} {st st' : Compiling V} :
      memoryEntry st m = .ok st' → EntryStep E (.memorySection r) st st'
  | ofType {r : Reader TypeDef} {d : TypeDef} {st st' : Compiling V} :
      typeEntry st d = .ok st' → EntryStep E (.typeSection r) st st'
  | ofImport {r : Reader Import} {i : Import} {st st' : Compiling V} :
      importEntry E st i = .ok st' → EntryStep E (.importSection r) st st'
  | ofFunction {r : Reader ℕ} {t : ℕ} {st st' : Compiling V} :
      functionEntry st t = .ok st' → EntryStep E (.functionSection r) st st'
  | ofExport {r : Reader Export} {e : Export} {st st' : Compiling V} :
      exportEntry st e = .ok st' → EntryStep E (.exportSection r) st st'
  | ofCode {body : FunctionBody} {st st' : Compiling V} :
      codeEntry st body = .ok st' → EntryStep E (.codeSectionEntry body) st st'

/-- What every change of the state keeps is kept by a payload. -/
theorem preserves_handlePayload {I : Compiling V → Prop} {p : Payload}
    (hI : ∀ st st', EntryStep E p st st' → I st → I st') (h : I st)
    (hst : handlePayload E st p = .ok st') : I st' := by
  have hread : ∀ {α : Type} {r : Reader α} {entry : Compiling V → α → Outcome (Compiling V)},
      (∀ st st' a, entry st a = .ok st' → EntryStep E p st st') →
      readSection st p r entry = .ok st' → I st' := by
    intro α r entry hentry hread
    obtain ⟨validator, hfold⟩ := readSection_eq_ok hread
    exact foldlM_preserves (fun s s' a hs hs' => hI _ _ (hentry s s' a hs') hs)
      (hI _ _ (.ofValidator validator) h) hfold
  cases p with
  | memorySection r => exact hread (fun _ _ _ => .ofMemory) hst
  | typeSection r => exact hread (fun _ _ _ => .ofType) hst
  | importSection r => exact hread (fun _ _ _ => .ofImport) hst
  | functionSection r => exact hread (fun _ _ _ => .ofFunction) hst
  | exportSection r => exact hread (fun _ _ _ => .ofExport) hst
  | codeSectionEntry body => exact hI _ _ (.ofCode hst) h
  | customSection bytes =>
      cases hst
      exact h
  | _ =>
      obtain ⟨validator, rfl⟩ := validate_eq_ok hst
      exact hI _ _ (.ofValidator validator) h

/-- A part of the state that no entry of a payload changes is not changed by the
payload. -/
theorem keeps_handlePayload {β : Type} {π : Compiling V → β} {p : Payload}
    (hπ : ∀ st st', EntryStep E p st st' → π st' = π st) (hst : handlePayload E st p = .ok st') :
    π st' = π st :=
  preserves_handlePayload (I := fun s => π s = π st) (fun s s' hs h => (hπ s s' hs).trans h) rfl
    hst

/-- **What a payload does to the state.** -/
theorem emitted_handlePayload {p : Payload} {ts : List TypeDef} (h : Emitted its st)
    (ht : Typed ts st) (hst : handlePayload E st p = .ok st') :
    ∃ new, Logs p new ∧ Emitted (its ++ new) st' ∧ Typed (ts ++ p.typeDefs) st' := by
  have hsame : ∀ validator, Emitted its { st with validator := validator } ∧
      Typed ts { st with validator := validator } := fun validator =>
    ⟨h.update _ _ _ _ _, ht.congr rfl rfl⟩
  cases p with
  | typeSection r =>
      obtain ⟨validator, hfold⟩ := readSection_eq_ok hst
      obtain ⟨h', ht'⟩ := typed_typeEntries (hsame validator).1 (hsame validator).2 hfold
      exact ⟨[], rfl, by simpa using h', ht'⟩
  | importSection r =>
      obtain ⟨validator, hfold⟩ := readSection_eq_ok hst
      obtain ⟨new, hnew, h', htd, hti⟩ := emitted_entries (R := Item.OfImport)
        (fun its st st' i h hst => emitted_importEntry h hst) (hsame validator).1 hfold
      exact ⟨new, hnew, h', by simpa [Payload.typeDefs] using (hsame validator).2.congr htd hti⟩
  | functionSection r =>
      obtain ⟨validator, hfold⟩ := readSection_eq_ok hst
      obtain ⟨new, hnew, h', htd, hti⟩ :=
        emitted_entries (R := fun t it => ∃ l g, it = .reserve t l g)
          (fun its st st' t h hst => emitted_functionEntry h hst) (hsame validator).1 hfold
      exact ⟨new, hnew, h', by simpa [Payload.typeDefs] using (hsame validator).2.congr htd hti⟩
  | memorySection r =>
      obtain ⟨validator, hfold⟩ := readSection_eq_ok hst
      obtain ⟨h', ht'⟩ := foldlM_preserves (p := fun st => Emitted its st ∧ Typed ts st)
        (fun st st' m hp hm => by cases hm; exact ⟨hp.1.update _ _ _ _ _, hp.2.congr rfl rfl⟩)
        (hsame validator) hfold
      exact ⟨[], rfl, by simpa using h', by simpa [Payload.typeDefs] using ht'⟩
  | exportSection r =>
      obtain ⟨validator, hfold⟩ := readSection_eq_ok hst
      obtain ⟨h', ht'⟩ := foldlM_preserves (p := fun st => Emitted its st ∧ Typed ts st)
        (fun st st' e hp he => by cases he; exact ⟨hp.1.update _ _ _ _ _, hp.2.congr rfl rfl⟩)
        (hsame validator) hfold
      exact ⟨[], rfl, by simpa using h', by simpa [Payload.typeDefs] using ht'⟩
  | codeSectionEntry body =>
      obtain ⟨g, code, -, -, -, h', hctx, hti, -⟩ := emitted_codeEntry h hst
      refine ⟨_, ⟨_, g, code, rfl⟩, h', ?_⟩
      simpa [Payload.typeDefs] using ht.congr (congrArg Context.functionTypedefs hctx) hti
  | customSection bytes =>
      cases hst
      exact ⟨[], rfl, by simpa using h, by simpa [Payload.typeDefs] using ht⟩
  | _ =>
      obtain ⟨validator, rfl⟩ := validate_eq_ok hst
      exact ⟨[], rfl, by simpa [Payload.typeDefs] using hsame validator⟩

/-- One payload more. -/
theorem Reading.step {ps : List Payload} {p : Payload} {new : List Item} (h : Reading ps its st)
    (hnew : Logs p new) (hst : Emitted (its ++ new) st')
    (ht : Typed (typeSpace ps ++ p.typeDefs) st') : Reading (ps ++ [p]) (its ++ new) st' := by
  obtain ⟨news, hnews, rfl⟩ := h.logged
  refine ⟨hst, ?_, news ++ [new], List.rel_append hnews (.cons hnew .nil), by simp⟩
  rw [typeSpace, List.flatMap_append, List.flatMap_singleton]
  exact ht

/-- **What the loop does to the state**, payload by payload. -/
theorem Reading.foldlM {ps ps' : List Payload} (h : Reading ps its st)
    (hst : ps'.foldlM (handlePayload E) st = .ok st') :
    ∃ news, List.Forall₂ Logs ps' news ∧ Reading (ps ++ ps') (its ++ news.flatten) st' := by
  induction ps' generalizing ps its st with
  | nil =>
      cases hst
      exact ⟨[], .nil, by simpa using h⟩
  | cons p ps' ih =>
      rw [List.foldlM_cons, Outcome.bind_eq_ok] at hst
      obtain ⟨st₁, hst₁, hst⟩ := hst
      obtain ⟨new, hnew, h₁, ht₁⟩ := emitted_handlePayload h.emitted h.typed hst₁
      obtain ⟨news, hnews, h'⟩ := ih (h.step hnew h₁ ht₁) hst
      exact ⟨new :: news, .cons hnew hnews, by simpa using h'⟩

/-- Nothing read and nothing emitted. -/
theorem reading_init : Reading [] [] (Compiling.init (V := V)) :=
  ⟨emitted_init, ⟨fun i => by simp [Compiling.init, functionTypesOf, typeSpace], rfl⟩, [], .nil, rfl⟩

/-- Whatever payloads the loop has been through, there are items for them. -/
theorem reading_of_foldlM {ps : List Payload}
    (hst : ps.foldlM (handlePayload E) Compiling.init = .ok st) : ∃ its, Reading ps its st := by
  obtain ⟨news, -, h⟩ := reading_init.foldlM hst
  exact ⟨_, by simpa using h⟩

/-! ## Items and index spaces -/

/-- The functions `compile` counts: imported and defined ones, by type index. -/
def countedFunctions (ps : List Payload) : List ℕ :=
  ps.flatMap fun p => p.functionImports ++ p.definedFunctions

/-- Functions of one list of items and of another. -/
theorem declaredIndices_append (its its' : List Item) :
    declaredIndices (its ++ its') = declaredIndices its ++ declaredIndices its' :=
  List.filterMap_append

/-- The functions of an import section are its function imports, -/
theorem declaredIndices_imports {is : List Import} {new : List Item}
    (h : List.Forall₂ Item.OfImport is new) :
    declaredIndices new = is.filterMap fun i => i.ty.function? := by
  induction h with
  | nil => rfl
  | @cons i it is new hit _ ih =>
      rw [← List.singleton_append, declaredIndices_append, ih, List.filterMap_cons]
      rw [Item.OfImport] at hit
      cases hty : i.ty with
      | function t =>
          rw [hty] at hit
          obtain ⟨l, rfl⟩ := hit
          rfl
      | other =>
          rw [hty] at hit
          subst hit
          rfl

/-- those of a function section all its entries, -/
theorem declaredIndices_reserves {ts : List ℕ} {new : List Item}
    (h : List.Forall₂ (fun t it => ∃ l g, it = Item.reserve t l g) ts new) :
    declaredIndices new = ts := by
  induction h with
  | nil => rfl
  | cons hit _ ih =>
      obtain ⟨l, g, rfl⟩ := hit
      rw [← List.singleton_append, declaredIndices_append, ih]
      rfl

/-- and those of a payload both of these. -/
theorem declaredIndices_logs {p : Payload} {new : List Item} (h : Logs p new) :
    declaredIndices new = p.functionImports ++ p.definedFunctions := by
  cases p with
  | importSection r =>
      simpa [Payload.functionImports, Payload.definedFunctions] using declaredIndices_imports h
  | functionSection r =>
      simpa [Payload.functionImports, Payload.definedFunctions] using declaredIndices_reserves h
  | codeSectionEntry body =>
      obtain ⟨f, g, code, rfl⟩ := h
      rfl
  | _ =>
      cases h
      rfl

/-- The functions of the items are the functions of the payloads. -/
theorem Reading.declaredIndices {ps : List Payload} (h : Reading ps its st) :
    declaredIndices its = countedFunctions ps := by
  obtain ⟨news, hnews, rfl⟩ := h.logged
  clear h
  induction hnews with
  | nil => rfl
  | cons hnew _ ih =>
      rw [List.flatten_cons, declaredIndices_append, ih, declaredIndices_logs hnew,
        countedFunctions, countedFunctions, List.flatMap_cons]

theorem Item.OfImport.countsBody {i : Import} {it : Item} (h : Item.OfImport i it) :
    it.countsBody = i.ty.function?.isSome := by
  rw [Item.OfImport] at h
  cases hty : i.ty with
  | function t =>
      rw [hty] at h
      obtain ⟨l, rfl⟩ := h
      rfl
  | other =>
      rw [hty] at h
      subst h
      rfl

/-- Counting through a relation between lists. -/
theorem countP_forall₂ {α : Type} {R : α → Item → Prop} {p : Item → Bool} {q : α → Bool}
    (hR : ∀ a it, R a it → p it = q a) {as : List α} {new : List Item}
    (h : List.Forall₂ R as new) : new.countP p = as.countP q := by
  induction h with
  | nil => rfl
  | cons hit _ ih => rw [List.countP_cons, List.countP_cons, ih, hR _ _ hit]

/-- What `function_body_index` counts of a payload. -/
theorem countsBody_logs {p : Payload} {new : List Item} (h : Logs p new) :
    new.countP Item.countsBody = p.functionImports.length + p.bodies.length := by
  cases p with
  | importSection r =>
      have hsome : ∀ i it, Item.OfImport i it → it.countsBody = i.ty.function?.isSome :=
        fun _ _ hit => hit.countsBody
      rw [countP_forall₂ hsome h, Payload.functionImports, List.length_filterMap_eq_countP]
      rfl
  | functionSection r =>
      have hnone : ∀ t it, (∃ l g, it = Item.reserve t l g) → it.countsBody = false := by
        rintro t _ ⟨l, g, rfl⟩
        rfl
      rw [countP_forall₂ hnone h]
      simp [Payload.functionImports, Payload.bodies]
  | codeSectionEntry body =>
      obtain ⟨f, g, code, rfl⟩ := h
      rfl
  | _ =>
      cases h
      rfl

/-- The body the next code section entry belongs to. -/
theorem Reading.bodyIndex {ps : List Payload} (h : Reading ps its st) :
    st.functionBodyIndex = (functionImports ps).length + (bodies ps).length := by
  rw [h.emitted.bodyIndex]
  obtain ⟨news, hnews, rfl⟩ := h.logged
  clear h
  induction hnews with
  | nil => rfl
  | cons hnew _ ih =>
      rw [List.flatten_cons, List.countP_append, ih, countsBody_logs hnew, functionImports,
        functionImports, bodies, bodies, List.flatMap_cons, List.flatMap_cons, List.length_append,
        List.length_append]
      omega

/-! ## Sections in order -/

/-- The rank of the section an item comes from. -/
def Item.rank : Item → ℕ
  | .skip => 1
  | .slot _ _ _ => 1
  | .reserve _ _ _ => 2
  | .body _ _ _ => 11

theorem Item.OfImport.rank {i : Import} {it : Item} (h : Item.OfImport i it) : it.rank = 1 := by
  rw [Item.OfImport] at h
  cases hty : i.ty with
  | function t =>
      rw [hty] at h
      obtain ⟨l, rfl⟩ := h
      rfl
  | other =>
      rw [hty] at h
      subst h
      rfl

/-- A relation between two lists, seen from an element of the second. -/
theorem exists_of_forall₂ {α β : Type} {R : α → β → Prop} {as : List α} {bs : List β}
    (h : List.Forall₂ R as bs) {b : β} (hb : b ∈ bs) : ∃ a ∈ as, R a b := by
  induction h with
  | nil => cases hb
  | @cons a b' as bs hab _ ih =>
      rcases List.mem_cons.mp hb with rfl | hb
      · exact ⟨a, List.mem_cons_self, hab⟩
      · obtain ⟨a', ha', hab'⟩ := ih hb
        exact ⟨a', List.mem_cons_of_mem _ ha', hab'⟩

theorem rank_logs {p : Payload} {new : List Item} (h : Logs p new) :
    ∀ it ∈ new, p.order = some it.rank := by
  intro it hit
  cases p with
  | importSection r =>
      obtain ⟨i, -, hi⟩ := exists_of_forall₂ h hit
      rw [hi.rank]
      rfl
  | functionSection r =>
      obtain ⟨t, -, l, g, rfl⟩ := exists_of_forall₂ h hit
      rfl
  | codeSectionEntry body =>
      obtain ⟨f, g, code, rfl⟩ := h
      cases List.mem_singleton.mp hit
      rfl
  | _ =>
      cases h
      cases hit

/-- In a module in order the items come in order. -/
theorem pairwise_rank {ps : List Payload} {news : List (List Item)}
    (hnews : List.Forall₂ Logs ps news) (hord : Ordered ps) :
    news.flatten.Pairwise fun a b => a.rank ≤ b.rank := by
  induction hnews with
  | nil => exact List.Pairwise.nil
  | @cons p new ps news hnew hnews ih =>
      rw [List.flatten_cons, List.pairwise_append]
      refine ⟨List.pairwise_iff_forall_sublist.mpr fun {a b} hab => ?_, ih hord.tail, ?_⟩
      · have ha := rank_logs hnew a (hab.subset (by simp))
        have hb := rank_logs hnew b (hab.subset (by simp))
        rw [ha] at hb
        exact (Option.some.inj hb).le
      · intro a ha b hb
        obtain ⟨new', hnew', hb'⟩ := List.mem_flatten.mp hb
        obtain ⟨q, hq, hlog⟩ := exists_of_forall₂ hnews hnew'
        have hord' : Ordered ([] ++ p :: ps) := hord
        exact hord'.le_of_mem (rank_logs hnew a ha) hq (rank_logs hlog b hb')

/-- The items of a module in order: imports, then reserved words, then bodies. -/
structure Phases (its imports reserves bodies : List Item) : Prop where
  split : its = imports ++ reserves ++ bodies
  imports : ∀ it ∈ imports, it.rank = 1
  reserves : ∀ it ∈ reserves, it.rank = 2
  bodies : ∀ it ∈ bodies, it.rank = 11

theorem exists_phases {its : List Item} (h : its.Pairwise fun a b => a.rank ≤ b.rank) :
    ∃ imports reserves bodies, Phases its imports reserves bodies := by
  induction its with
  | nil => exact ⟨[], [], [], rfl, by simp, by simp, by simp⟩
  | cons it its ih =>
      rw [List.pairwise_cons] at h
      obtain ⟨A, B, C, rfl, hA, hB, hC⟩ := ih h.2
      -- what comes before the item's own phase is empty
      have hnil : ∀ (ys : List Item) (r : ℕ), (∀ y ∈ ys, y.rank = r) → ys ⊆ A ++ B ++ C →
          r < it.rank → ys = [] := by
        intro ys r hr hsub hlt
        refine List.eq_nil_iff_forall_not_mem.mpr fun y hy => ?_
        have := h.1 y (hsub hy)
        rw [hr y hy] at this
        omega
      have himport : it.rank = 1 → ∃ imports reserves bodies,
          Phases (it :: (A ++ B ++ C)) imports reserves bodies := fun hrank =>
        ⟨it :: A, B, C, rfl, by simpa [hrank] using hA, hB, hC⟩
      cases it with
      | skip => exact himport rfl
      | slot i t l => exact himport rfl
      | reserve t l g =>
          obtain rfl := hnil A 1 hA (by simp) (by simp [Item.rank])
          exact ⟨[], .reserve t l g :: B, C, rfl, by simp, by simpa [Item.rank] using hB, hC⟩
      | body f g code =>
          obtain rfl := hnil A 1 hA (by simp) (by simp [Item.rank])
          obtain rfl := hnil B 2 hB (by simp) (by simp [Item.rank])
          exact ⟨[], [], .body f g code :: C, rfl, by simp, by simp, by simpa [Item.rank] using hC⟩

theorem Reading.pairwise_rank {ps : List Payload} (h : Reading ps its st) (hord : Ordered ps) :
    its.Pairwise fun a b => a.rank ≤ b.rank := by
  obtain ⟨news, hnews, rfl⟩ := h.logged
  exact Parawasm.pairwise_rank hnews hord

theorem Reading.exists_phases {ps : List Payload} (h : Reading ps its st) (hord : Ordered ps) :
    ∃ imports reserves bodies, Phases its imports reserves bodies :=
  Parawasm.exists_phases (h.pairwise_rank hord)

/-! ## Bodies and the maps they are compiled with -/

/-- The function, the label and the code of a body. -/
def Item.body? : Item → Option (ℕ × Label × List Instr)
  | .body f g code => some (f, g, code)
  | _ => none

/-- Every body so far is that of the function with its number, and was compiled
with these maps. -/
def CompiledWith (V : Validator) (ps : List Payload) (its : List Item) (ctx : Context) : Prop :=
  ∀ k f g code, (its.filterMap Item.body?)[k]? = some (f, g, code) →
    f = (functionImports ps).length + k ∧ ctx.got[f]? = some g ∧
      ∃ body ty φ height, (bodies ps)[k]? = some body ∧ ctx.functionType f = some ty ∧
        compileBody V ctx ty φ body = .ok (code, height)

/-- Only bodies have code. -/
theorem body?_eq_nil {its : List Item} (h : ∀ it ∈ its, it.rank ≠ 11) :
    its.filterMap Item.body? = [] := by
  rw [List.filterMap_eq_nil_iff]
  intro it hit
  cases it with
  | body f g code => exact absurd rfl (h _ hit)
  | _ => rfl

/-- A payload has as many bodies as its items. -/
theorem bodies_logs {p : Payload} {new : List Item} (h : Logs p new) :
    (new.filterMap Item.body?).length = p.bodies.length := by
  have hnil : p.order ≠ some 11 → p.bodies = [] →
      (new.filterMap Item.body?).length = p.bodies.length := fun hp hb => by
    rw [hb, body?_eq_nil fun it hit hrank => hp (by rw [rank_logs h it hit, hrank])]
    rfl
  cases p with
  | importSection r => exact hnil (by simp [Payload.order]) rfl
  | functionSection r => exact hnil (by simp [Payload.order]) rfl
  | codeSectionEntry body =>
      obtain ⟨f, g, code, rfl⟩ := h
      rfl
  | _ =>
      cases h
      rfl

/-- So has the module so far. -/
theorem Reading.length_bodies {ps : List Payload} (h : Reading ps its st) :
    (its.filterMap Item.body?).length = (bodies ps).length := by
  obtain ⟨news, hnews, rfl⟩ := h.logged
  clear h
  induction hnews with
  | nil => rfl
  | cons hnew _ ih =>
      rw [List.flatten_cons, List.filterMap_append, List.length_append, ih, bodies_logs hnew,
        bodies, bodies, List.flatMap_cons, List.length_append]

/-- There is a slot for every function import. -/
theorem Reading.length_slots {ps : List Payload} {A B C : List Item} (h : Reading ps its st)
    (hphases : Phases its A B C) : (targets A).length = (functionImports ps).length := by
  obtain ⟨hsplit, hA, hB, hC⟩ := hphases
  have hcount := h.bodyIndex
  rw [h.emitted.bodyIndex, ← h.length_bodies, hsplit, List.countP_append, List.countP_append,
    List.filterMap_append, List.filterMap_append] at hcount
  have hnobody : ∀ D : List Item, (∀ it ∈ D, it.rank ≤ 2) → D.filterMap Item.body? = [] :=
    fun D hD => body?_eq_nil fun it hit heq => absurd (heq ▸ hD it hit) (by decide)
  have hreserves : B.countP Item.countsBody = 0 := by
    refine List.countP_eq_zero.mpr fun it hit => ?_
    have := hB it hit
    cases it with
    | reserve t l g => simp [Item.countsBody]
    | _ => cases this
  have hbodies : C.countP Item.countsBody = (C.filterMap Item.body?).length := by
    rw [List.length_filterMap_eq_countP]
    refine List.countP_congr fun it hit => ?_
    have := hC it hit
    cases it with
    | body f g code => rfl
    | _ => cases this
  have hslots : A.countP Item.countsBody = (targets A).length := by
    rw [targets, List.length_filterMap_eq_countP]
    refine List.countP_congr fun it hit => ?_
    have := hA it hit
    cases it with
    | skip => rfl
    | slot i t l => rfl
    | reserve t l g => cases this
    | body f g code => cases this
  rw [hnobody A fun it hit => by rw [hA it hit]; decide,
    hnobody B fun it hit => by rw [hB it hit], hreserves, hbodies, hslots, List.nil_append,
    List.nil_append] at hcount
  omega

/-- Declared functions have labels for their bodies. -/
theorem Reading.exists_got {ps : List Payload} (h : Reading ps its st) (hord : Ordered ps) {f : ℕ}
    (hle : (functionImports ps).length ≤ f) (hlt : f < (countedFunctions ps).length) :
    ∃ g, st.got[f]? = some g := by
  obtain ⟨A, B, C, hphases⟩ := h.exists_phases hord
  have hlen := h.length_slots hphases
  have hlt' : f < (targets its).length := by rwa [length_targets, h.declaredIndices]
  have htargets : targets its = targets A ++ targets (B ++ C) := by
    rw [hphases.split, List.append_assoc, targets, List.filterMap_append]
    rfl
  have hget : (targets its)[f]? = (targets (B ++ C))[f - (targets A).length]? := by
    rw [htargets, List.getElem?_append_right (by omega)]
  rw [h.emitted.got, hget]
  rw [List.getElem?_eq_getElem hlt'] at hget
  obtain ⟨it, hit, htarget⟩ := List.mem_filterMap.mp (List.mem_of_getElem? hget.symm)
  rw [← hget, Option.bind_some]
  rcases List.mem_append.mp hit with hit | hit
  · have hrank := hphases.reserves it hit
    cases it with
    | reserve t l g =>
        rw [← Option.some.inj htarget]
        exact ⟨g, rfl⟩
    | _ => cases hrank
  · have hrank := hphases.bodies it hit
    cases it with
    | body f' g code => cases htarget
    | _ => cases hrank

/-- After a function section nothing is imported. -/
theorem functionImports_eq_nil {p : Payload} (h : ∀ k, p.order = some k → 2 ≤ k) :
    p.functionImports = [] := by
  cases p with
  | importSection r => exact absurd (h 1 rfl) (by decide)
  | _ => rfl

/-- In a module in order the imported functions come first. -/
theorem countedFunctions_of_ordered {ps : List Payload} (h : Ordered ps) :
    countedFunctions ps = functionImports ps ++ definedFunctions ps := by
  induction ps with
  | nil => rfl
  | cons p ps ih =>
      have hnil : p.definedFunctions = [] ∨ functionImports ps = [] := by
        cases p with
        | functionSection r =>
            right
            have hord : Ordered ([] ++ .functionSection r :: ps) := h
            rw [functionImports, List.flatMap_eq_nil_iff]
            exact fun q hq => functionImports_eq_nil fun k hk => hord.le_of_mem rfl hq hk
        | _ => exact .inl rfl
      have himports : functionImports (p :: ps) = p.functionImports ++ functionImports ps := rfl
      have hdefined : definedFunctions (p :: ps) = p.definedFunctions ++ definedFunctions ps := rfl
      rw [himports, hdefined, countedFunctions, List.flatMap_cons, ← countedFunctions, ih h.tail]
      rcases hnil with hnil | hnil <;> simp [hnil]

/-- Only type, import and function sections change the maps. -/
theorem toContext_handlePayload {p : Payload} (hst : handlePayload E st p = .ok st')
    (hp : ∀ k, p.order = some k → 2 < k) : st'.toContext = st.toContext := by
  refine keeps_handlePayload (π := Compiling.toContext) (fun st st' h => ?_) hst
  cases h with
  | ofType _ => exact absurd (hp 1 rfl) (by decide)
  | ofImport _ => exact absurd (hp 1 rfl) (by decide)
  | ofFunction _ => exact absurd (hp 2 rfl) (by decide)
  | ofCode h =>
      obtain ⟨φ, validator, ty, g, code, height, -, -, -, -, rfl⟩ := codeEntry_eq_ok h
      rfl
  | ofMemory h => cases h; rfl
  | ofExport h => cases h; rfl
  | ofValidator => rfl

/-- Only bodies record a stack height. -/
theorem heights_handlePayload {p : Payload} (hst : handlePayload E st p = .ok st')
    (hp : ∀ body, p ≠ .codeSectionEntry body) :
    st'.module.functionStackHeights = st.module.functionStackHeights := by
  refine keeps_handlePayload (π := fun st => st.module.functionStackHeights)
    (fun st st' h => ?_) hst
  cases h with
  | @ofType r d st st' h => cases d <;> cases h <;> rfl
  | @ofImport r i st st' h =>
      simp only [importEntry, Outcome.bind_eq_ok] at h
      obtain ⟨_, -, _, -, h⟩ := h
      split at h <;> cases h <;> rfl
  | ofFunction h => cases h; rfl
  | ofCode h => exact absurd rfl (hp _)
  | ofMemory h => cases h; rfl
  | ofExport h => cases h; rfl
  | ofValidator => rfl

/-- A section that may declare something comes before all bodies. -/
theorem bodies_eq_nil_of_declaring {ps : List Payload} {p : Payload} (hord : Ordered (ps ++ [p]))
    (hp : ¬ ∀ k, p.order = some k → 2 < k) : bodies (ps ++ [p]) = [] := by
  obtain ⟨k, hk, hle⟩ : ∃ k, p.order = some k ∧ k ≤ 2 := by simpa using hp
  rw [bodies, List.flatMap_eq_nil_iff]
  intro q hq
  cases q with
  | codeSectionEntry b =>
      rcases List.mem_append.mp hq with hq | hq
      · obtain ⟨pre, post, rfl⟩ := List.append_of_mem hq
        rw [List.append_assoc, List.cons_append] at hord
        have := hord.le_of_mem rfl (List.mem_append_right post List.mem_cons_self) hk
        omega
      · cases List.mem_singleton.mp hq
        cases hk
        omega
  | _ => rfl

/-- The function validator that body `k` is given: the one the validator has
after the payloads before it. -/
def Opens (E : Encoder) (ps : List Payload) (k : ℕ) (body : FunctionBody) (φ : V.FuncSt) : Prop :=
  ∃ (pre post : List Payload) (st : Compiling V) (validator : V.St),
    ps = pre ++ .codeSectionEntry body :: post ∧ (bodies pre).length = k ∧
      pre.foldlM (handlePayload E) Compiling.init = .ok st ∧
      V.codeSectionEntry st.validator = .ok (φ, validator)

/-- Payloads that come later do not change what a body was given. -/
theorem Opens.append {ps : List Payload} {k : ℕ} {body : FunctionBody} {φ : V.FuncSt}
    (h : Opens E ps k body φ) (ps' : List Payload) : Opens E (ps ++ ps') k body φ := by
  obtain ⟨pre, post, st, validator, rfl, hk, hst, hφ⟩ := h
  exact ⟨pre, post ++ ps', st, validator, by simp, hk, hst, hφ⟩

/-- Every body so far was compiled with the maps of the state, which has its
stack height. -/
def Recorded (E : Encoder) (ps : List Payload) (its : List Item) (st : Compiling V) : Prop :=
  ∀ k f g code, (its.filterMap Item.body?)[k]? = some (f, g, code) →
    f = (functionImports ps).length + k ∧ st.got[f]? = some g ∧
      ∃ body ty φ height, (bodies ps)[k]? = some body ∧ st.functionType f = some ty ∧
        compileBody V st.toContext ty φ body = .ok (code, height) ∧
        st.module.functionStackHeights[f]? = some height ∧ Opens E ps k body φ

/-- Stack heights left out, this is what `CompiledWith` says. -/
theorem Recorded.compiledWith {ps : List Payload} (h : Recorded E ps its st) :
    CompiledWith V ps its st.toContext := by
  intro k f g code hk
  obtain ⟨hf, hg, body, ty, φ, height, hbody, hty, hcode, -⟩ := h k f g code hk
  exact ⟨hf, hg, body, ty, φ, height, hbody, hty, hcode⟩

theorem Recorded.concat {ps : List Payload} {body : FunctionBody} {g : Label}
    {code : List Instr} {ty : FuncType} {φ : V.FuncSt} {height f : ℕ}
    (h : Recorded E ps its st) (hlen : (its.filterMap Item.body?).length = (bodies ps).length)
    (hf : f = (functionImports ps).length + (bodies ps).length)
    (hctx : st'.toContext = st.toContext) (hg : st.got[f]? = some g)
    (hty : st.functionType f = some ty)
    (hcode : compileBody V st.toContext ty φ body = .ok (code, height))
    (hheights : ∀ i : ℕ, st'.module.functionStackHeights[i]? =
      if f = i then some height else st.module.functionStackHeights[i]?)
    (hopens : Opens E (ps ++ [.codeSectionEntry body]) (bodies ps).length body φ) :
    Recorded E (ps ++ [.codeSectionEntry body]) (its ++ [.body f g code]) st' := by
  have himports : functionImports (ps ++ [.codeSectionEntry body]) = functionImports ps := by
    rw [functionImports, List.flatMap_append, List.flatMap_singleton]
    exact List.append_nil _
  have hbodies : bodies (ps ++ [.codeSectionEntry body]) = bodies ps ++ [body] := by
    rw [bodies, List.flatMap_append, List.flatMap_singleton]
    rfl
  intro k f' g' code' hk
  rw [himports, hbodies, hctx]
  rw [List.filterMap_append] at hk
  rcases Nat.lt_or_ge k (its.filterMap Item.body?).length with hlt | hge
  · rw [List.getElem?_append_left hlt] at hk
    obtain ⟨hf', hgot, b, ty', φ', height', hb, hty', hcode', hheight', hopens'⟩ :=
      h k f' g' code' hk
    refine ⟨hf', hgot, b, ty', φ', height', ?_, hty', hcode', ?_, hopens'.append _⟩
    · rwa [List.getElem?_append_left (by omega)]
    · rwa [hheights, if_neg (by omega)]
  · rw [List.getElem?_append_right hge] at hk
    obtain ⟨hzero, hk⟩ := List.getElem?_eq_some_iff.mp hk
    have hlast : k = (bodies ps).length := by
      simp [Item.body?] at hzero
      omega
    subst hlast
    simp only [hlen, Nat.sub_self] at hk
    cases hk
    exact ⟨hf, hg, body, ty, φ, height, by simp, hty, hcode, by rw [hheights, if_pos rfl], hopens⟩

/-- **Bodies are compiled with the maps the module ends with**, and their stack
heights are recorded.  The step that needs an argument is a payload that changes
the maps; in a module in order there is no body before it. -/
theorem reading_recorded {ps : List Payload} (hord : Ordered ps)
    (hst : ps.foldlM (handlePayload E) Compiling.init = .ok st) :
    ∃ its, Reading ps its st ∧ Recorded E ps its st := by
  induction ps using List.reverseRecOn generalizing st with
  | nil =>
      cases hst
      exact ⟨[], reading_init, fun k f g code h => by simp at h⟩
  | append_singleton ps p ih =>
      rw [List.foldlM_append, Outcome.bind_eq_ok] at hst
      obtain ⟨st₁, hst₁, hst⟩ := hst
      simp only [List.foldlM_cons, List.foldlM_nil, bind_pure] at hst
      obtain ⟨its, hread, hrecorded⟩ := ih hord.left hst₁
      by_cases hcode : ∃ body, p = .codeSectionEntry body
      · obtain ⟨body, rfl⟩ := hcode
        obtain ⟨g, code, ty, φ, height, h', hctx, hti, hg, hty, hbody, ⟨validator, hφ⟩, hheights⟩ :=
          emitted_codeEntry hread.emitted hst
        have htyped : Typed (typeSpace ps ++ (Payload.codeSectionEntry body).typeDefs) st := by
          simpa [Payload.typeDefs] using
            hread.typed.congr (congrArg Context.functionTypedefs hctx) hti
        exact ⟨_, hread.step ⟨_, g, code, rfl⟩ h' htyped,
          hrecorded.concat hread.length_bodies hread.bodyIndex hctx hg hty hbody hheights
            ⟨ps, [], st₁, validator, rfl, rfl, hst₁, hφ⟩⟩
      · obtain ⟨new, hnew, h₁, ht₁⟩ := emitted_handlePayload hread.emitted hread.typed hst
        have hread' := hread.step hnew h₁ ht₁
        refine ⟨_, hread', ?_⟩
        by_cases hp : ∀ k, p.order = some k → 2 < k
        · have hnone : p.bodies = [] := by
            cases p with
            | codeSectionEntry body => exact absurd ⟨body, rfl⟩ hcode
            | _ => rfl
          have himports : p.functionImports = [] :=
            functionImports_eq_nil fun k hk => (hp k hk).le
          have hnew : new.filterMap Item.body? = [] := by
            rw [← List.length_eq_zero_iff, bodies_logs hnew, hnone, List.length_nil]
          intro k f g code hk
          rw [List.filterMap_append, hnew, List.append_nil] at hk
          rw [toContext_handlePayload hst hp,
            heights_handlePayload hst fun body hbody => hcode ⟨body, hbody⟩, functionImports, bodies,
            List.flatMap_append, List.flatMap_append, List.flatMap_singleton,
            List.flatMap_singleton, hnone, himports, List.append_nil, List.append_nil]
          obtain ⟨hf, hg, body, ty, φ, height, hbody, hty, hcode, hheight, hopens⟩ :=
            hrecorded k f g code hk
          exact ⟨hf, hg, body, ty, φ, height, hbody, hty, hcode, hheight, hopens.append _⟩
        · intro k f g code hk
          have hlen := hread'.length_bodies
          rw [bodies_eq_nil_of_declaring hord hp, List.length_nil, List.length_eq_zero_iff] at hlen
          rw [hlen] at hk
          cases hk

/-- **Bodies are compiled with the maps the module ends with.** -/
theorem reading_compiledWith {ps : List Payload} (hord : Ordered ps)
    (hst : ps.foldlM (handlePayload E) Compiling.init = .ok st) :
    ∃ its, Reading ps its st ∧ CompiledWith V ps its st.toContext := by
  obtain ⟨its, hread, hrecorded⟩ := reading_recorded hord hst
  exact ⟨its, hread, hrecorded.compiledWith⟩

end ParaOS.Parawasm
