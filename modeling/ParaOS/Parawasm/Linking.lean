import ParaOS.Parawasm.EntryPoints

/-!
# Import slots and linking

While it reads imports `compile` assembles what it has so far to find out where
the next slot will be, and records that offset.  The code finds the slot by a
label that is bound much later, after optimisation.  In front of a slot there are
only slots and zero-length instructions, so both give `8 * k` for function import
`k` (`imports_recorded`, `Assembled.resolve_slot`).

`link_import` overwrites eight bytes at a recorded offset.  On the bytes this is
`patch`, and all that is needed of it is which byte it leaves where
(`getElem?_patch`).

### What is load-bearing

`recorded` of `Slots` says that the offset of a slot is eight times the number of
its *function* import, whatever else is imported in between.  An import of a memory
leaves a zero-length instruction behind and no entry in the map.

The offset is recorded at a time when the list is not optimised and no labels but
those of slots are bound.  It is still right at the end because everything in front
of a slot is data: the optimiser does not touch it, and what binding adds has no
length.

`link_import` checks no bound; it would panic on a slot that reaches beyond the
binary.  `inside` excludes that, once and for all states of a module that is being
linked.
-/

namespace ParaOS.Parawasm

open Machine X86 Wasm

/-! ## Overwriting bytes

A patch keeps the length and changes a range of bytes.  Two patches either overlap
or commute. -/

/-- Overwrite the bytes from an offset on. -/
def patch (bytes : List UInt8) (off : ℕ) (new : List UInt8) : List UInt8 :=
  bytes.take off ++ new ++ bytes.drop (off + new.length)

variable {bytes new new' : List UInt8} {off off' : ℕ}

/-- A patch that lies inside the bytes does not change their number. -/
theorem length_patch (h : off + new.length ≤ bytes.length) :
    (patch bytes off new).length = bytes.length := by
  rw [patch, List.length_append, List.length_append, List.length_take_of_le (by omega),
    List.length_drop]
  omega

/-- What is where after a patch. -/
theorem getElem?_patch (h : off + new.length ≤ bytes.length) (p : ℕ) :
    (patch bytes off new)[p]? =
      if off ≤ p ∧ p < off + new.length then new[p - off]? else bytes[p]? := by
  have htake : (bytes.take off).length = off := List.length_take_of_le (by omega)
  rw [patch, List.append_assoc, List.getElem?_append, htake]
  split_ifs with hp hin hin
  · omega
  · exact List.getElem?_take_of_lt hp
  · exact List.getElem?_append_left (by omega)
  · rw [List.getElem?_append_right (by omega), List.getElem?_drop]
    congr 1
    omega

/-- Patches that do not overlap commute. -/
theorem patch_comm (h : off + new.length ≤ bytes.length) (h' : off' + new'.length ≤ bytes.length)
    (hdisj : off + new.length ≤ off' ∨ off' + new'.length ≤ off) :
    patch (patch bytes off new) off' new' = patch (patch bytes off' new') off new := by
  refine List.ext_getElem? fun p => ?_
  rw [getElem?_patch (by rwa [length_patch h]), getElem?_patch h,
    getElem?_patch (by rwa [length_patch h']), getElem?_patch h']
  split_ifs
  · omega
  · rfl
  · rfl
  · rfl

/-! ## Slots

What is recorded stays as it is while a module is linked, since `link_import`
changes bytes only.  So the facts here hold of every state of it. -/

/-- The slots of function imports: their offsets are recorded in order, and they
lie inside the binary. -/
structure Slots (imports : List Import) (asm : AssembledModule) : Prop where
  recorded : ∀ k : ℕ, asm.module.imports[k]? =
    imports[k]?.map fun i => (i.module, i.field, 8 * k)
  inside : 8 * imports.length ≤ asm.assembled.length

variable {imports : List Import} {asm : AssembledModule}

/-- A word has eight bytes. -/
@[simp] theorem length_leBytes (v : Word) : (leBytes v).length = 8 := by
  simp [leBytes]

/-- What is linked is an import with these two names. -/
theorem Slots.findImport_eq_some (h : Slots imports asm) {module : String} {name : Option String}
    {off : ℕ} (hfind : findImport asm.module module name = some off) :
    ∃ (k : ℕ) (i : Import), imports[k]? = some i ∧ i.module = module ∧ i.field = name ∧
      off = 8 * k := by
  obtain ⟨⟨k, module', field, off'⟩, hmem, hentry⟩ := List.exists_of_findSome?_eq_some hfind
  have hget := Std.TreeMap.mem_toList_iff_getElem?_eq_some.mp hmem
  rw [h.recorded, Option.map_eq_some_iff] at hget
  obtain ⟨i, hi, hnames⟩ := hget
  cases hnames
  refine ⟨k, i, hi, ?_⟩
  rw [Option.ite_none_right_eq_some, Bool.and_eq_true, beq_iff_eq] at hentry
  obtain ⟨⟨hmodule, hfield⟩, hoff⟩ := hentry
  refine ⟨hmodule, ?_, (Option.some.inj hoff).symm⟩
  split at hfield
  · rename_i n n' hn
    rw [beq_iff_eq.mp hfield]
    exact hn
  · cases hfield

/-- A slot lies inside the binary. -/
theorem Slots.slot_le (h : Slots imports asm) {k : ℕ} {i : Import} (hi : imports[k]? = some i) :
    8 * k + 8 ≤ asm.assembled.length := by
  obtain ⟨hlt, -⟩ := List.getElem?_eq_some_iff.mp hi
  have := h.inside
  omega

/-- **Linking overwrites one slot**, or nothing. -/
theorem Slots.linkImport (h : Slots imports asm) (module : String) (name : Option String)
    (addr : Word) :
    asm.linkImport module name addr = .ok { asm with
      assembled := match findImport asm.module module name with
        | some off => patch asm.assembled off (leBytes addr)
        | none => asm.assembled } := by
  rw [AssembledModule.linkImport]
  cases hfind : findImport asm.module module name with
  | none => rfl
  | some off =>
      obtain ⟨k, i, hi, -, -, rfl⟩ := h.findImport_eq_some hfind
      simp only [if_pos (h.slot_le hi), patch, length_leBytes]

/-- A call of `link_import`. -/
structure LinkCall where
  module : String
  name : Option String
  addr : Word

/-- `link_import` with the arguments of a call. -/
def AssembledModule.link (asm : AssembledModule) (c : LinkCall) : Outcome AssembledModule :=
  asm.linkImport c.module c.name c.addr

/-- The state of a module while it is being linked: everything outside the slots
is as it was. -/
structure Linked (imports : List Import) (asm asm' : AssembledModule) : Prop where
  module : asm'.module = asm.module
  length : asm'.assembled.length = asm.assembled.length
  outside : ∀ p : ℕ, (∀ k < imports.length, p < 8 * k ∨ 8 * k + 8 ≤ p) →
    asm'.assembled[p]? = asm.assembled[p]?

variable {asm' : AssembledModule}

/-- Linking keeps the slots. -/
theorem Slots.of_linked (h : Slots imports asm) (hl : Linked imports asm asm') :
    Slots imports asm' :=
  ⟨hl.module ▸ h.recorded, hl.length ▸ h.inside⟩

/-- A call succeeds and keeps to the slots. -/
theorem Slots.link (h : Slots imports asm) (hl : Linked imports asm asm') (c : LinkCall) :
    ∃ asm'', asm'.link c = .ok asm'' ∧ Linked imports asm asm'' := by
  have h' := h.of_linked hl
  refine ⟨_, h'.linkImport _ _ _, ?_⟩
  cases hfind : findImport asm'.module c.module c.name with
  | none => exact ⟨hl.module, hl.length, hl.outside⟩
  | some off =>
      obtain ⟨k, i, hi, -, -, rfl⟩ := h'.findImport_eq_some hfind
      have hle : 8 * k + (leBytes c.addr).length ≤ asm'.assembled.length := by
        simpa using h'.slot_le hi
      refine ⟨hl.module, (length_patch hle).trans hl.length, fun p hp => ?_⟩
      have hk := hp k (List.getElem?_eq_some_iff.mp hi).1
      rw [← hl.outside p hp]
      dsimp only
      rw [getElem?_patch hle, if_neg (by rw [length_leBytes]; omega)]

/-- Any sequence of calls succeeds and keeps to the slots, by induction over it. -/
theorem Slots.links (h : Slots imports asm) (hl : Linked imports asm asm')
    (calls : List LinkCall) :
    ∃ asm'', calls.foldlM AssembledModule.link asm' = .ok asm'' ∧ Linked imports asm asm'' := by
  induction calls generalizing asm' with
  | nil => exact ⟨asm', rfl, hl⟩
  | cons c calls ih =>
      obtain ⟨asm₁, hc, hl₁⟩ := h.link hl c
      obtain ⟨asm₂, hcalls, hl₂⟩ := ih hl₁
      exact ⟨asm₂, by rw [List.foldlM_cons, hc, Outcome.ok_bind, hcalls], hl₂⟩

/-- Calls with different names find different slots, so they commute. -/
theorem Slots.link_comm (h : Slots imports asm) (c c' : LinkCall)
    (hne : (c.module, c.name) ≠ (c'.module, c'.name)) :
    (asm.link c >>= fun a => a.link c') = (asm.link c' >>= fun a => a.link c) := by
  have hboth : ∀ c c' : LinkCall, (asm.link c >>= fun a => a.link c') = .ok { asm with
      assembled :=
        let once := match findImport asm.module c.module c.name with
          | some off => patch asm.assembled off (leBytes c.addr)
          | none => asm.assembled
        match findImport asm.module c'.module c'.name with
        | some off => patch once off (leBytes c'.addr)
        | none => once } := by
    intro c c'
    obtain ⟨asm₁, hc, hl⟩ := h.link ⟨rfl, rfl, fun _ _ => rfl⟩ c
    have hc' := (h.of_linked hl).linkImport c'.module c'.name c'.addr
    rw [AssembledModule.link, h.linkImport] at hc
    cases hc
    rw [AssembledModule.link, h.linkImport, Outcome.ok_bind]
    exact hc'
  rw [hboth c c', hboth c' c]
  cases hfind : findImport asm.module c.module c.name with
  | none => cases findImport asm.module c'.module c'.name <;> rfl
  | some off =>
      cases hfind' : findImport asm.module c'.module c'.name with
      | none => rfl
      | some off' =>
          obtain ⟨k, i, hi, hmodule, hname, rfl⟩ := h.findImport_eq_some hfind
          obtain ⟨k', i', hi', hmodule', hname', rfl⟩ := h.findImport_eq_some hfind'
          have hk : k ≠ k' := by
            rintro rfl
            rw [hi] at hi'
            cases hi'
            exact hne (by rw [← hmodule, ← hname, hmodule', hname'])
          have hle : 8 * k + (leBytes c.addr).length ≤ asm.assembled.length := by
            simpa using h.slot_le hi
          have hle' : 8 * k' + (leBytes c'.addr).length ≤ asm.assembled.length := by
            simpa using h.slot_le hi'
          simp only [patch_comm hle hle' (by simp only [length_leBytes]; omega)]

/-! ## What is recorded

The map of imports while sections are read.  It follows the list of function
imports, as `Emitted` does for the other maps, but its values are offsets and come
from the assembler. -/

/-- The function imports of a payload. -/
def importedFunctionsOf : Payload → List Import
  | .importSection r => r.items.filter fun i => i.ty.function?.isSome
  | _ => []

/-- The function imports of a module, in order. -/
def importedFunctions (ps : List Payload) : List Import := ps.flatMap importedFunctionsOf

variable {V : Validator} {E : Encoder} {len : Instr → ℕ} {st st' : Compiling V} {its : List Item}
  {ps : List Payload}

/-- The function imports are those among the imports, -/
theorem importedFunctions_eq_filter (ps : List Payload) :
    importedFunctions ps = (Wasm.imports ps).filter fun i => i.ty.function?.isSome := by
  rw [importedFunctions, Wasm.imports, List.filter_flatMap]
  congr 1
  funext p
  cases p <;> rfl

/-- as many as there are type indices of them. -/
theorem length_importedFunctions (ps : List Payload) :
    (importedFunctions ps).length = (functionImports ps).length := by
  rw [importedFunctions, functionImports, List.length_flatMap, List.length_flatMap]
  congr 1
  refine List.map_congr_left fun p _ => ?_
  cases p with
  | importSection r =>
      simp only [importedFunctionsOf, Payload.functionImports, List.length_filterMap_eq_countP,
        List.countP_eq_length_filter]
  | _ => rfl

/-- The state while imports are read: nothing but slots so far. -/
structure Header (len : Instr → ℕ) (imports : List Import) (st : Compiling V) : Prop where
  size : codeSize len st.instructions = 8 * imports.length
  index : st.functionIndex = imports.length
  recorded : ∀ k : ℕ, st.module.imports[k]? =
    imports[k]?.map fun i => (i.module, i.field, 8 * k)

/-- One import: the offset recorded for a function is that of its slot. -/
theorem Header.importEntry (hE : E.Measured len) {i : Import} (h : Header len imports st)
    (hst : importEntry E st i = .ok st') :
    Header len (imports ++ [i].filter fun i => i.ty.function?.isSome) st' := by
  simp only [Parawasm.importEntry, Outcome.bind_eq_ok, Outcome.ofIced_eq_ok] at hst
  obtain ⟨assembly, hassembly, offset, hoffset, hst⟩ := hst
  have hoff := hE.offsets _ _ _ hassembly st.instructions.length
  rw [if_pos (by simp), List.take_left, h.size] at hoff
  rw [labelIp, hoff] at hoffset
  cases hoffset
  cases hty : i.ty with
  | other =>
      rw [hty] at hst
      cases hst
      simp only [hty, ImportType.function?, List.filter_cons, List.filter_nil, Option.isSome_none,
        Bool.false_eq_true, if_false, List.append_nil]
      exact ⟨by simp [h.size, hE.zeroBytes], h.index, h.recorded⟩
  | function t =>
      rw [hty] at hst
      cases hst
      simp only [hty, ImportType.function?, List.filter_cons, List.filter_nil, Option.isSome_some,
        if_true]
      refine ⟨by simp [h.size, hE.zeroBytes, hE.dq, Nat.mul_add], by simp [h.index], fun k => ?_⟩
      rw [h.index, Std.TreeMap.getElem?_insert, h.recorded]
      split_ifs with hk
      · have : imports.length = k := by simpa using hk
        subst this
        simp
      · have hne : k ≠ imports.length := fun heq => hk (by simp [heq])
        rcases Nat.lt_or_gt_of_ne hne with hlt | hgt
        · rw [List.getElem?_append_left hlt]
        · rw [List.getElem?_eq_none (by omega), List.getElem?_eq_none (by simp; omega)]

/-- The entries of an import section, one after the other. -/
theorem Header.importEntries (hE : E.Measured len) {is : List Import} (h : Header len imports st)
    (hst : is.foldlM (Parawasm.importEntry E) st = .ok st') :
    Header len (imports ++ is.filter fun i => i.ty.function?.isSome) st' := by
  induction is generalizing imports st with
  | nil =>
      cases hst
      simpa using h
  | cons i is ih =>
      rw [List.foldlM_cons, Outcome.bind_eq_ok] at hst
      obtain ⟨st₁, hst₁, hst⟩ := hst
      have := ih (h.importEntry hE hst₁) hst
      rwa [List.append_assoc, ← List.filter_append] at this

/-- Only import sections record imports. -/
theorem imports_handlePayload {p : Payload} (hst : handlePayload E st p = .ok st')
    (hp : ∀ r, p ≠ .importSection r) : st'.module.imports = st.module.imports := by
  refine keeps_handlePayload (π := fun st => st.module.imports) (fun st st' h => ?_) hst
  cases h with
  | @ofType r d st st' h => cases d <;> cases h <;> rfl
  | ofImport h => exact absurd rfl (hp _)
  | ofFunction h => cases h; rfl
  | ofCode h =>
      obtain ⟨φ, validator, ty, g, code, height, -, -, -, -, rfl⟩ := codeEntry_eq_ok h
      rfl
  | ofMemory h => cases h; rfl
  | ofExport h => cases h; rfl
  | ofValidator => rfl

/-- In a module in order there are only declarations of imports before an import
section. -/
theorem Reading.header {r : Reader Import} (hE : E.Measured len) (h : Reading ps its st)
    (hord : Ordered (ps ++ [.importSection r]))
    (hrec : ∀ k : ℕ, st.module.imports[k]? =
      (importedFunctions ps)[k]?.map fun i => (i.module, i.field, 8 * k)) :
    Header len (importedFunctions ps) st := by
  have hnobody : ∀ it ∈ its, it.rank ≠ 11 := by
    intro it hit hrank
    have hbodies := bodies_eq_nil_of_declaring hord (by simp [Payload.order])
    rw [bodies, List.flatMap_append, List.append_eq_nil_iff, ← bodies] at hbodies
    have hlen := h.length_bodies
    rw [hbodies.1, List.length_nil, List.length_eq_zero_iff, List.filterMap_eq_nil_iff] at hlen
    cases it with
    | body f g code => cases hlen _ hit
    | _ => cases hrank
  have hdefined : definedFunctions ps = [] := by
    rw [definedFunctions, List.flatMap_eq_nil_iff]
    intro q hq
    cases q with
    | functionSection r' =>
        obtain ⟨pre, post, rfl⟩ := List.append_of_mem hq
        rw [List.append_assoc, List.cons_append] at hord
        have := hord.le_of_mem (q := .importSection r) (k := 1) rfl (by simp) rfl
        omega
    | _ => rfl
  have hcounted : (countedFunctions ps).length = (importedFunctions ps).length := by
    rw [countedFunctions_of_ordered hord.left, hdefined, List.append_nil, length_importedFunctions]
  refine ⟨?_, ?_, hrec⟩
  · rw [h.emitted.instructions, codeSize_declarations hE hnobody, h.declaredIndices, hcounted]
  · rw [h.emitted.functionIndex, h.declaredIndices, hcounted]

/-- **The offset recorded for function import `k` is `8 * k`.** -/
theorem imports_recorded (hE : E.Measured len) (hord : Ordered ps)
    (hst : ps.foldlM (handlePayload E) Compiling.init = .ok st) (k : ℕ) :
    st.module.imports[k]? =
      (importedFunctions ps)[k]?.map fun i => (i.module, i.field, 8 * k) := by
  induction ps using List.reverseRecOn generalizing st k with
  | nil =>
      cases hst
      simp [Compiling.init, Module.new, importedFunctions]
  | append_singleton ps p ih =>
      rw [List.foldlM_append, Outcome.bind_eq_ok] at hst
      obtain ⟨st₁, hst₁, hst⟩ := hst
      simp only [List.foldlM_cons, List.foldlM_nil, bind_pure] at hst
      have hrec := ih hord.left hst₁
      rw [importedFunctions, List.flatMap_append, List.flatMap_singleton, ← importedFunctions]
      by_cases himport : ∃ r, p = .importSection r
      · obtain ⟨r, rfl⟩ := himport
        obtain ⟨its, hread⟩ := reading_of_foldlM hst₁
        obtain ⟨validator, hfold⟩ := readSection_eq_ok hst
        have hheader := hread.header hE hord hrec
        have hheader' : Header len (importedFunctions ps) { st₁ with validator := validator } :=
          ⟨hheader.size, hheader.index, hheader.recorded⟩
        exact (hheader'.importEntries hE hfold).recorded k
      · have hnone : importedFunctionsOf p = [] := by
          cases p with
          | importSection r => exact absurd ⟨r, rfl⟩ himport
          | _ => rfl
        rw [imports_handlePayload hst fun r hr => himport ⟨r, hr⟩, hrec, hnone, List.append_nil]

/-! ## What calls read

A call through a slot has the label of the import in its code.  Where that label is
in the binary is known from the items in front of it. -/

/-- An element that a `filterMap` keeps, and what stands before it. -/
theorem exists_of_filterMap {α β : Type} {f : α → Option β} {l : List α} {k : ℕ} {b : β}
    (h : (l.filterMap f)[k]? = some b) :
    ∃ X a Y, l = X ++ a :: Y ∧ f a = some b ∧ (X.filterMap f).length = k := by
  induction l generalizing k with
  | nil => simp at h
  | cons a l ih =>
      cases ha : f a with
      | none =>
          rw [List.filterMap_cons, ha] at h
          obtain ⟨X, a', Y, rfl, ha', hlen⟩ := ih h
          exact ⟨a :: X, a', Y, rfl, ha', by rw [List.filterMap_cons, ha, hlen]⟩
      | some c =>
          rw [List.filterMap_cons, ha] at h
          cases k with
          | zero =>
              cases h
              exact ⟨[], a, l, rfl, ha, rfl⟩
          | succ k =>
              obtain ⟨X, a', Y, rfl, ha', hlen⟩ := ih h
              exact ⟨a :: X, a', Y, rfl, ha',
                by rw [List.filterMap_cons, ha, List.length_cons, hlen]⟩

/-- A call through a slot loads the word at the label of the import. -/
theorem movLabel_mem {ctx : Context} {locals : List ℕ} {f : ℕ} {call : List Instr} {r : Reg}
    {l : Label} (h : handleInstruction ctx locals (.call f) = .ok call)
    (hl : .movLabel r l ∈ call) : r = .r10 ∧ ctx.ils[f]? = some l := by
  rcases mem_call h hl with ⟨r, hr⟩ | hl | ⟨r, hr⟩
  · cases hr
  · rw [callCode] at hl
    split at hl
    · split at hl
      · rename_i label hils
        simp only [List.mem_cons, Instr.movLabel.injEq, reduceCtorEq, List.not_mem_nil,
          or_false] at hl
        exact ⟨hl.1, by rw [hils, hl.2]⟩
      · cases hl
    · simp at hl
  · cases hr

/-- A function with a slot, and the items before the slot. -/
theorem Reading.exists_slot (h : Reading ps its st) (hord : Ordered ps) {k : ℕ} {l : Label}
    (hl : st.ils[k]? = some l) :
    ∃ X i t Y, its = X ++ .slot i t l :: Y ∧ (Parawasm.declaredIndices X).length = k ∧
      ∀ it ∈ X, it.rank ≤ 1 := by
  rw [h.emitted.ils, Option.bind_eq_some_iff] at hl
  obtain ⟨x, hx, hxl⟩ := hl
  obtain ⟨X, it, Y, hits, htarget, hlen⟩ := exists_of_filterMap hx
  cases it with
  | slot i t l' =>
      cases htarget
      cases hxl
      have hrank := h.pairwise_rank hord
      rw [hits, List.pairwise_append] at hrank
      refine ⟨X, i, t, Y, hits, ?_, fun it hit => hrank.2.2 it hit _ List.mem_cons_self⟩
      rw [← length_targets, targets, hlen]
  | reserve t l' g =>
      cases htarget
      cases hxl
  | skip => cases htarget
  | body f g code => cases htarget

/-- Functions with a slot are imported: `function_body_index` has been increased
for each of them and for each body. -/
theorem Reading.lt_of_slot (h : Reading ps its st) (hord : Ordered ps) {k : ℕ} {l : Label}
    (hl : st.ils[k]? = some l) : k < (functionImports ps).length := by
  obtain ⟨X, i, t, Y, hits, hlen, hX⟩ := h.exists_slot hord hl
  have hcount := h.bodyIndex
  have hbodies := h.length_bodies
  have hleft : X.countP Item.countsBody = k := by
    rw [← hlen, Parawasm.declaredIndices, List.length_filterMap_eq_countP]
    refine List.countP_congr fun it hit => ?_
    have := hX it hit
    cases it with
    | reserve t l g => exact absurd (show 2 ≤ 1 from this) (by decide)
    | body f g code => exact absurd (show 11 ≤ 1 from this) (by decide)
    | _ => rfl
  have hright : (Y.filterMap Item.body?).length ≤ Y.countP Item.countsBody := by
    rw [List.length_filterMap_eq_countP]
    refine List.countP_mono_left fun it _ hit => ?_
    cases it with
    | body f g code => rfl
    | _ => cases hit
  have hnone : X.filterMap Item.body? = [] :=
    body?_eq_nil fun it hit heq => absurd (heq ▸ hX it hit) (by decide)
  rw [h.emitted.bodyIndex, hits, List.countP_append, List.countP_cons, hleft] at hcount
  rw [hits, List.filterMap_append, hnone, List.nil_append, List.filterMap_cons] at hbodies
  simp only [Item.body?] at hbodies
  simp only [Item.countsBody, if_true] at hcount
  omega

variable {b : Binding} {assembly : Assembly}

/-- **The label of function import `k` resolves to `8 * k`.** -/
theorem Assembled.resolve_slot (hE : E.Measured len) (hord : Ordered ps)
    (h : Assembled E len ps st its b assembly) {k : ℕ} {l : Label} (hl : st.ils[k]? = some l) :
    Parawasm.resolveLabel assembly b.bound l = some (8 * k) := by
  obtain ⟨X, i, t, Y, hits, hlen, hrank⟩ := h.reading.exists_slot hord hl
  have hX : ∀ it ∈ X, it.rank ≠ 11 := fun it hit heq => absurd (heq ▸ hrank it hit) (by decide)
  have hmap : its.map Item.optimized = X ++ .slot i t l :: Y.map Item.optimized := by
    rw [hits, List.map_append, map_optimized_of_declarations hX]
    rfl
  have hmark : (Item.slot i t l).mark = some (1, l) := rfl
  rw [h.resolveLabel hE hmap hmark, codeSize_declarations hE hX, hlen]
  simp [Item.code, hE.zeroBytes]

/-- The declarations are data. -/
theorem isData_of_declarations {D : List Item} (h : ∀ it ∈ D, it.rank ≠ 11) :
    ∀ i ∈ boundCodeOf D, isData i = true := by
  intro i hi
  obtain ⟨it, hit, hi⟩ := List.mem_flatMap.mp hi
  cases it with
  | skip =>
      cases List.mem_singleton.mp hi
      rfl
  | slot i' t l =>
      simp only [Item.boundCode, Item.mark, Item.code, List.take_succ_cons, List.take_zero,
        List.drop_succ_cons, List.drop_zero, List.cons_append, List.nil_append, List.mem_cons,
        List.not_mem_nil, or_false] at hi
      rcases hi with rfl | rfl | rfl <;> rfl
  | reserve t l g =>
      simp only [Item.boundCode, Item.mark, Item.code, List.take_zero, List.drop_zero,
        List.nil_append, List.mem_cons, List.not_mem_nil, or_false] at hi
      rcases hi with rfl | rfl <;> rfl
  | body f g code => exact absurd rfl (h _ hit)

/-- **Code lies behind the slots.**  So patching slots does not change an
instruction. -/
theorem Assembled.slots_le_code (hE : E.Measured len) (hord : Ordered ps)
    (h : Assembled E len ps st its b assembly) :
    8 * (countedFunctions ps).length ≤ assembly.bytes.length ∧
      ∀ (idx off : ℕ) (i : Instr), b.instructions[idx]? = some i → isData i = false →
        assembly.offsets[idx]? = some off → 8 * (countedFunctions ps).length ≤ off := by
  obtain ⟨D, hits, hD⟩ := h.reading.exists_split hord
  have hcounted : declaredIndices D = countedFunctions ps := by
    rw [← h.reading.declaredIndices, hits, declaredIndices_append, declaredIndices_ofBody,
      List.append_nil]
  obtain ⟨C, hC⟩ : ∃ C, its.map Item.optimized = D ++ C :=
    ⟨_, by rw [hits, List.map_append, map_optimized_of_declarations hD]⟩
  have hsplit : b.instructions = boundCodeOf D ++ boundCodeOf C := by
    rw [h.bound.instructions, hC, boundCodeOf, List.flatMap_append]
    rfl
  have hsize : codeSize len (boundCodeOf D) = 8 * (countedFunctions ps).length := by
    rw [codeSize_boundCodeOf hE, codeSize_declarations hE hD, hcounted]
  refine ⟨?_, fun idx off i hi hcode hoff => ?_⟩
  · rw [hE.bytes _ _ _ h.assembled, hsplit, codeSize_append, hsize]
    omega
  · have hge : (boundCodeOf D).length ≤ idx := by
      by_contra hlt
      rw [hsplit, List.getElem?_append_left (by omega)] at hi
      have := isData_of_declarations hD i (List.mem_of_getElem? hi)
      rw [hcode] at this
      cases this
    obtain ⟨j, rfl⟩ := Nat.exists_eq_add_of_le hge
    rw [hE.offsets _ _ _ h.assembled] at hoff
    split at hoff
    · cases hoff
      rw [hsplit, List.take_length_add_append, codeSize_append, hsize]
      omega
    · cases hoff

/-- What `compile` returns has slots for the function imports. -/
theorem Assembled.slots (hE : E.Measured len) (hord : Ordered ps)
    (hst : ps.foldlM (handlePayload E) Compiling.init = .ok st)
    (h : Assembled E len ps st its b assembly) :
    Slots (importedFunctions ps)
      ⟨{ st.module with functionBodies := b.functionBodies }, assembly.bytes⟩ := by
  refine ⟨imports_recorded hE hord hst, ?_⟩
  obtain ⟨hbytes, -⟩ := h.slots_le_code hE hord
  rw [countedFunctions_of_ordered hord, List.length_append, ← length_importedFunctions] at hbytes
  dsimp only
  omega

/-- **Import slots are the ones calls read, and linking touches nothing else.**  For
every module that is accepted and every sequence of calls of `link_import`; and two
calls with different names may be made in either order.

Nothing is asked about the names of imports or of what they are linked to.  The
offsets are settled while the module is read, before there is any code behind the
declarations, and it is `Measured` that keeps them what they are.  Calls of
`link_import` are any, also for names that the module does not import; such a call
changes nothing. -/
theorem import_slots_exact {V : Validator} {E : Encoder} {P : Parser} {len : Instr → ℕ}
    {n : ℕ} {module : List UInt8} {asm : AssembledModule} (hE : E.Measured len) (hV : V.Sound)
    (hP : P.Documented) (h : compileWithin E P V n module = some (.ok asm)) :
    ∃ (st : Compiling V) (b : Binding) (assembly : Assembly) (imports : List Import),
      compilePayloads E (scan P module).1 = .ok st ∧ bindLabels E st = .ok b ∧
      E.assemble b.instructions b.bound = .ok assembly ∧ asm.assembled = assembly.bytes ∧
      imports = importedFunctions (scan P module).1 ∧
      -- every body is compiled with the maps of `st`, and so is every call
      (∀ (k : ℕ) (body : FunctionBody), (bodies (scan P module).1)[k]? = some body →
        ∃ ty φ out, compileBody V st.toContext ty φ body = .ok out) ∧
      -- the recorded offsets
      (∀ k : ℕ, asm.module.imports[k]? = imports[k]?.map fun i => (i.module, i.field, 8 * k)) ∧
      -- the words calls load
      (∀ f locals call r l, handleInstruction st.toContext locals (.call f) = .ok call →
        .movLabel r l ∈ call →
        f < imports.length ∧ r = .r10 ∧ resolveLabel assembly b.bound l = some (8 * f)) ∧
      -- slots are in range, apart from each other and from code
      (∀ k < imports.length, 8 * k + 8 ≤ asm.assembled.length) ∧
      (∀ k k', k ≠ k' → 8 * k + 8 ≤ 8 * k' ∨ 8 * k' + 8 ≤ 8 * k) ∧
      (∀ (idx off : ℕ) (i : Instr), b.instructions[idx]? = some i → isData i = false →
        assembly.offsets[idx]? = some off → ∀ k < imports.length, 8 * k + 8 ≤ off) ∧
      -- linking
      ∀ calls : List LinkCall, ∃ asm', calls.foldlM AssembledModule.link asm = .ok asm' ∧
        Linked imports asm asm' ∧
        ∀ c c' : LinkCall, (c.module, c.name) ≠ (c'.module, c'.name) →
          (asm'.link c >>= fun a => a.link c') = (asm'.link c' >>= fun a => a.link c) := by
  obtain ⟨st, hst, hasm⟩ := compileWithin_eq_ok hP h
  have hord := hV.ordered _ (accepts_of_compilePayloads hst)
  generalize (scan P module).1 = ps at hst hord
  have hfold := foldlM_of_compilePayloads hst
  obtain ⟨its, b, assembly, hfinal, hb, rfl⟩ := exists_assembled hE hord hfold hasm
  obtain ⟨-, hcode⟩ := hfinal.slots_le_code hE hord
  have hslots := hfinal.slots hE hord hfold
  refine ⟨st, b, assembly, _, hst, hb, hfinal.assembled, rfl, rfl, ?_, hslots.recorded, ?_, ?_, ?_,
    ?_, ?_⟩
  · intro k body hk
    have hlt : k < (its.filterMap Item.body?).length := by
      rw [hfinal.reading.length_bodies]
      exact (List.getElem?_eq_some_iff.mp hk).1
    obtain ⟨-, -, body', ty, φ, height, hbody, -, hout⟩ :=
      hfinal.compiled k _ _ _ (List.getElem?_eq_getElem hlt)
    rw [hk] at hbody
    cases hbody
    exact ⟨ty, φ, _, hout⟩
  · intro f locals call r l hcall hl
    obtain ⟨rfl, hils⟩ := movLabel_mem hcall hl
    rw [length_importedFunctions]
    exact ⟨hfinal.reading.lt_of_slot hord hils, rfl, hfinal.resolve_slot hE hord hils⟩
  · intro k hk
    have := hslots.inside
    dsimp only at this ⊢
    omega
  · omega
  · intro idx off i hi hdata hoff k hk
    have := hcode idx off i hi hdata hoff
    rw [countedFunctions_of_ordered hord, List.length_append, ← length_importedFunctions] at this
    omega
  · intro calls
    obtain ⟨asm', hcalls, hl⟩ := hslots.links ⟨rfl, rfl, fun _ _ => rfl⟩ calls
    exact ⟨asm', hcalls, hl, (hslots.of_linked hl).link_comm⟩

/-- A module with a memory between its two function imports, whose one function
calls the second of them. -/
def importingModule : Script :=
  [(preamble, .version 1),
    ([0x01, 0x04, 0x01, 0x60, 0x00, 0x00], .typeSection ⟨[.func ⟨[], []⟩], none⟩),
    ([0x02, 0x1a, 0x03, 0x03, 0x65, 0x6e, 0x76, 0x01, 0x66, 0x00, 0x00, 0x03, 0x65, 0x6e, 0x76, 0x01,
      0x6d, 0x02, 0x00, 0x00, 0x03, 0x65, 0x6e, 0x76, 0x01, 0x67, 0x00, 0x00],
      .importSection ⟨[⟨"env", some "f", .function 0⟩, ⟨"env", some "m", .other⟩,
        ⟨"env", some "g", .function 0⟩], none⟩),
    ([0x03, 0x02, 0x01, 0x00], .functionSection ⟨[0], none⟩),
    ([0x0a, 0x06, 0x01], .codeSectionStart 1),
    ([0x04, 0x00, 0x10, 0x01, 0x0b], .codeSectionEntry ⟨⟨[], none⟩, ⟨[.call 1, .end], none⟩⟩)]

/-- Its slots, and two calls that link them. -/
theorem import_slots_exact_instance :
    ∃ (asm asm' : AssembledModule) (imports : List Import),
      compileWithin Encoder.reference (parserOf importingModule) Validator.reference 20
        (Script.bytes importingModule) = some (.ok asm) ∧
      imports.length = 2 ∧ asm.module.imports[1]? = some ("env", some "g", 8) ∧
      [⟨"env", some "f", 0x1000⟩, ⟨"env", some "g", 0x2000⟩].foldlM AssembledModule.link asm =
        .ok asm' ∧ Linked imports asm asm' := by
  obtain ⟨asm, h⟩ : ∃ asm, compileWithin Encoder.reference (parserOf importingModule)
      Validator.reference 20 (Script.bytes importingModule) = some (.ok asm) := ⟨_, rfl⟩
  obtain ⟨st, b, assembly, imports, -, -, -, -, himports, -, hrec, -, -, -, -, hlink⟩ :=
    import_slots_exact Encoder.reference_measured Validator.reference_sound
      (parserOf_documented importingModule) h
  obtain ⟨asm', hcalls, hlinked, -⟩ :=
    hlink [⟨"env", some "f", 0x1000⟩, ⟨"env", some "g", 0x2000⟩]
  have hlen : imports.length = 2 := by rw [himports]; rfl
  have hsecond : imports[1]? = some ⟨"env", some "g", .function 0⟩ := by rw [himports]; rfl
  refine ⟨asm, asm', imports, h, hlen, ?_, hcalls, hlinked⟩
  rw [hrec, hsecond]
  rfl

end ParaOS.Parawasm
