import ParaOS.Parawasm.EntryPoints

/-!
# Looking up exports

`compile` keeps the index of every export under its name, whatever the kind of
the export, and `function_entry_point` takes the index for that of a function.
The index of a memory or a global counts memories or globals, so it may happen
to be that of a defined function, and then the name of the memory has an entry
point.

Function indices themselves are counted without aliased functions, which are
part of the index space.  In a module with aliases a defined function is found
under a smaller index than its own.

`export_lookup_iff` says for which names lookup is right.

### What is load-bearing

**Names are distinct.**  The map has the last export with a name; with two of them
the standard has no module, and the validator is asked to refuse it.

**No two bodies start at the same place.**  Each has at least a `ret`, so entry
points tell functions apart, and that an index leads to the wrong function shows in
its entry point (`resolves_of_lookup`).  Without this a lookup could be right by
accident, and the condition would not be necessary.

`Resolves` is stated with three numbers of the module, `m` imported, `a` aliased and
`d` defined functions.  It says of a function export that its index means the same
counted with aliases and without, and of any other export that its index is not that
of a defined function.
-/

namespace ParaOS.Parawasm

open Machine X86 Wasm

/-! ## The map of exports

Insertion in order, so that the last export with a name stays. -/

variable {V : Validator} {E : Encoder} {len : Instr → ℕ} {st st' : Compiling V} {its : List Item}
  {ps : List Payload}

/-- The last export with a name. -/
def lastExport (es : List Export) (name : String) : Option Export :=
  (es.filter fun e => e.field == name).getLast?

/-- One export more. -/
theorem lastExport_concat (es : List Export) (e : Export) (name : String) :
    lastExport (es ++ [e]) name = if e.field = name then some e else lastExport es name := by
  rw [lastExport, List.filter_append, List.filter_singleton]
  split_ifs with h
  · simp [h]
  · rw [beq_false_of_ne h, cond_false, List.append_nil, lastExport]

/-- Exports of one section. -/
theorem exports_entries {es es' : List Export} {name : String}
    (h : st.module.exports[name]? = (lastExport es name).map Export.index)
    (hst : es'.foldlM exportEntry st = .ok st') :
    st'.module.exports[name]? = (lastExport (es ++ es') name).map Export.index := by
  induction es' generalizing es st with
  | nil =>
      cases hst
      simpa using h
  | cons e es' ih =>
      rw [List.foldlM_cons, Outcome.bind_eq_ok] at hst
      obtain ⟨st₁, hst₁, hst⟩ := hst
      rw [List.append_cons]
      refine ih ?_ hst
      cases hst₁
      rw [lastExport_concat, Std.TreeMap.getElem?_insert, h]
      simp only [Std.compare_eq_iff_eq]
      split_ifs <;> rfl

/-- Only export sections record exports. -/
theorem exports_handlePayload {p : Payload} (hst : handlePayload E st p = .ok st')
    (hp : ∀ r, p ≠ .exportSection r) : st'.module.exports = st.module.exports := by
  refine keeps_handlePayload (π := fun st => st.module.exports) (fun st st' h => ?_) hst
  cases h with
  | @ofType r d st st' h => cases d <;> cases h <;> rfl
  | @ofImport r i st st' h =>
      simp only [importEntry, Outcome.bind_eq_ok] at h
      obtain ⟨_, -, _, -, h⟩ := h
      split at h <;> cases h <;> rfl
  | ofFunction h => cases h; rfl
  | ofCode h =>
      obtain ⟨φ, validator, ty, g, code, height, -, -, -, -, rfl⟩ := codeEntry_eq_ok h
      rfl
  | ofMemory h => cases h; rfl
  | ofExport h => exact absurd rfl (hp _)
  | ofValidator => rfl

/-- **The map has the last export with each name.** -/
theorem exports_recorded (hst : ps.foldlM (handlePayload E) Compiling.init = .ok st)
    (name : String) :
    st.module.exports[name]? = (lastExport (exports ps) name).map Export.index := by
  induction ps using List.reverseRecOn generalizing st with
  | nil =>
      cases hst
      simp [Compiling.init, Module.new, exports, lastExport]
  | append_singleton ps p ih =>
      rw [List.foldlM_append, Outcome.bind_eq_ok] at hst
      obtain ⟨st₁, hst₁, hst⟩ := hst
      simp only [List.foldlM_cons, List.foldlM_nil, bind_pure] at hst
      rw [exports, List.flatMap_append, List.flatMap_singleton, ← exports]
      by_cases hexport : ∃ r, p = .exportSection r
      · obtain ⟨r, rfl⟩ := hexport
        obtain ⟨validator, hfold⟩ := readSection_eq_ok hst
        have hprev := ih hst₁
        exact @exports_entries V { st₁ with validator := validator } _ _ _ _ hprev hfold
      · have hnone : p.exports = [] := by
          cases p with
          | exportSection r => exact absurd ⟨r, rfl⟩ hexport
          | _ => rfl
        rw [exports_handlePayload hst fun r hr => hexport ⟨r, hr⟩, ih hst₁, hnone, List.append_nil]

/-- If names are distinct, the last export with a name is the only one. -/
theorem lastExport_eq_some {es : List Export} (hes : (es.map Export.field).Nodup) {name : String}
    {e : Export} : lastExport es name = some e ↔ e ∈ es ∧ e.field = name := by
  induction es using List.reverseRecOn with
  | nil => simp [lastExport]
  | append_singleton es e' ih =>
      rw [List.map_append, List.nodup_append] at hes
      obtain ⟨hes, -, hdisj⟩ := hes
      rw [lastExport_concat]
      split_ifs with hname
      · constructor
        · rintro ⟨⟩
          exact ⟨by simp, hname⟩
        · rintro ⟨hmem, hname'⟩
          rcases List.mem_append.mp hmem with hmem | hmem
          · exact absurd (hname'.trans hname.symm)
              (hdisj _ (List.mem_map_of_mem hmem) _ (by simp))
          · rw [List.mem_singleton.mp hmem]
      · rw [ih hes, List.mem_append, List.mem_singleton]
        constructor
        · rintro ⟨hmem, hname'⟩
          exact ⟨.inl hmem, hname'⟩
        · rintro ⟨hmem | rfl, hname'⟩
          · exact ⟨hmem, hname'⟩
          · exact absurd hname' hname

/-! ## The functions behind an index

By index everything is right, apart from how functions are counted: entry points and
stack heights are in two maps with the same keys. -/

/-- Function `m + k` has entry `k` of two lists for its entry point and its stack
height, and no other index has any. -/
structure IndexedBy (mod : Module) (m : ℕ) (starts heights : List ℕ) : Prop where
  entryPoint : ∀ i : ℕ, mod.functionEntryPoint i = if m ≤ i then starts[i - m]? else none
  stackHeight : ∀ i : ℕ, mod.functionStackHeight i = if m ≤ i then heights[i - m]? else none

/-- A stack height is returned for functions that have an entry point. -/
theorem functionStackHeight_eq (mod : Module) (i : ℕ) :
    mod.functionStackHeight i =
      if mod.functionBodies[i]?.isSome then mod.functionStackHeights[i]? else none := by
  change (mod.functionBodies[i]?.map fun _ => i).bind _ = _
  cases mod.functionBodies[i]? with
  | none => rfl
  | some off => simp

/-- Where bodies start that are laid out from an offset on. -/
def startsOf (len : Instr → ℕ) : ℕ → List (List Instr) → List ℕ
  | _, [] => []
  | first, c :: codes => first :: startsOf len (first + codeSize len (optimized c)) codes

/-- There is one start for each body, -/
theorem length_startsOf (first : ℕ) (codes : List (List Instr)) :
    (startsOf len first codes).length = codes.length := by
  induction codes generalizing first with
  | nil => rfl
  | cons c codes ih => rw [startsOf, List.length_cons, ih, List.length_cons]

/-- behind the bodies before it. -/
theorem getElem?_startsOf {first k : ℕ} {codes : List (List Instr)} (hk : k < codes.length) :
    (startsOf len first codes)[k]? =
      some (first + ((codes.take k).map fun c => codeSize len (optimized c)).sum) := by
  induction codes generalizing first k with
  | nil => cases hk
  | cons c codes ih =>
      cases k with
      | zero => rfl
      | succ k =>
          rw [startsOf, List.getElem?_cons_succ, ih (by simpa using hk), List.take_succ_cons,
            List.map_cons, List.sum_cons, Nat.add_assoc]

/-- Bodies are not empty, so no two of them start at the same place. -/
theorem nodup_startsOf {first : ℕ} {codes : List (List Instr)}
    (h : ∀ c ∈ codes, 0 < codeSize len (optimized c)) : (startsOf len first codes).Nodup := by
  have hle : ∀ (codes : List (List Instr)) (first : ℕ), ∀ x ∈ startsOf len first codes,
      first ≤ x := by
    intro codes
    induction codes with
    | nil => simp [startsOf]
    | cons c codes ih =>
        intro first x hx
        rcases List.mem_cons.mp hx with rfl | hx
        · exact le_rfl
        · exact (Nat.le_add_right _ _).trans (ih _ x hx)
  induction codes generalizing first with
  | nil => exact List.nodup_nil
  | cons c codes ih =>
      obtain ⟨hc, hcodes⟩ := List.forall_mem_cons.mp h
      refine List.nodup_cons.mpr ⟨fun hmem => ?_, ih hcodes⟩
      have := hle _ _ _ hmem
      omega

/-! ## Names

The lookup by name in terms of lists, and what is right about it in the same terms. -/

/-- The lookup by name is the lookup by the index of the export. -/
theorem functionEntryPoint_name (mod : Module) (name : String) :
    mod.functionEntryPoint name = mod.exports[name]?.bind fun i => mod.functionEntryPoint i := by
  change (mod.exports[name]?.bind fun i => findIndex i mod).bind _ = _
  cases mod.exports[name]? <;> rfl

/-- The same of stack heights. -/
theorem functionStackHeight_name (mod : Module) (name : String) :
    mod.functionStackHeight name = mod.exports[name]?.bind fun i => mod.functionStackHeight i := by
  change (mod.exports[name]?.bind fun i => findIndex i mod).bind _ = _
  cases mod.exports[name]? <;> rfl

/-- In a module with `m` imported, `a` aliased and `d` defined functions, an
export leads to what it stands for: another kind of export has no index that is
taken for that of a defined function, and the functions that are counted without
aliases are counted right. -/
def Export.Resolves (m a d : ℕ) (e : Export) : Prop :=
  if e.kind = .function then
    a = 0 ∨ e.index < m ∨ (m + d ≤ e.index ∧ (e.index < m + a ∨ m + a + d ≤ e.index))
  else e.index < m ∨ m + d ≤ e.index

/-- An index counted from `m` on leads to what it leads to counted from `m + a`
on. -/
theorem lookup_of_resolves {m a i : ℕ} {xs : List ℕ} {function : Prop}
    (hf : function → a = 0 ∨ i < m ∨ (m + xs.length ≤ i ∧ (i < m + a ∨ m + a + xs.length ≤ i)))
    (hn : ¬ function → i < m ∨ m + xs.length ≤ i) (x : ℕ) :
    (if m ≤ i then xs[i - m]? else none) = some x ↔
      function ∧ ∃ k, i = m + a + k ∧ xs[k]? = some x := by
  constructor
  · intro hx
    split_ifs at hx with hm
    obtain ⟨hlt, -⟩ := List.getElem?_eq_some_iff.mp hx
    by_cases hfun : function
    · have := hf hfun
      exact ⟨hfun, i - m, by omega, hx⟩
    · have := hn hfun
      omega
  · rintro ⟨hfun, k, rfl, hk⟩
    obtain ⟨hlt, -⟩ := List.getElem?_eq_some_iff.mp hk
    have ha : a = 0 := by
      have := hf hfun
      omega
    subst ha
    rw [if_pos (by omega), Nat.add_zero, Nat.add_sub_cancel_left, hk]

/-- In a list without repetitions it does so only then. -/
theorem resolves_of_lookup {m a i : ℕ} {xs : List ℕ} (hxs : xs.Nodup) {function : Prop}
    (h : ∀ x, (if m ≤ i then xs[i - m]? else none) = some x ↔
      function ∧ ∃ k, i = m + a + k ∧ xs[k]? = some x) :
    (function → a = 0 ∨ i < m ∨ (m + xs.length ≤ i ∧ (i < m + a ∨ m + a + xs.length ≤ i))) ∧
      (¬ function → i < m ∨ m + xs.length ≤ i) := by
  refine ⟨fun hf => ?_, fun hf => ?_⟩
  · by_contra hne
    have hm : m ≤ i := by omega
    simp only [hm, if_true] at h
    rcases Nat.lt_or_ge i (m + xs.length) with hlt | hge
    · -- the index is that of another function, or of none
      have hget : xs[i - m]? = some xs[i - m] := List.getElem?_eq_getElem (by omega)
      obtain ⟨-, k, hk, hk'⟩ := (h _).mp hget
      obtain ⟨hk₁, hk₂⟩ := List.getElem?_eq_some_iff.mp hk'
      have := (hxs.getElem_inj_iff).mp hk₂
      omega
    · -- the function is not found
      have hget : xs[i - (m + a)]? = some xs[i - (m + a)] := List.getElem?_eq_getElem (by omega)
      have := (h _).mpr ⟨hf, i - (m + a), by omega, hget⟩
      obtain ⟨hlt, -⟩ := List.getElem?_eq_some_iff.mp this
      omega
  · by_contra hne
    have hget : xs[i - m]? = some xs[i - m] := List.getElem?_eq_getElem (by omega)
    have := (h xs[i - m]).mp (by rw [if_pos (by omega), hget])
    exact hf this.1

/-- Lookup by a name is right: what is found are the entry point and the stack
height of the function exported under that name, if that is a defined one. -/
def LooksUp (ps : List Payload) (mod : Module) (starts heights : List ℕ) (name : String) : Prop :=
  (∀ a, mod.functionEntryPoint name = some a ↔
    ∃ k, ExportsDefined ps name k ∧ starts[k]? = some a) ∧
  ∀ h, mod.functionStackHeight name = some h ↔
    ∃ k, ExportsDefined ps name k ∧ heights[k]? = some h

/-- Lookup by a name is right exactly if every export with that name resolves. -/
theorem looksUp_iff {mod : Module} {starts heights : List ℕ} (hord : Ordered ps)
    (hdistinct : DistinctExports ps)
    (hexports : ∀ name, mod.exports[name]? = (lastExport (exports ps) name).map Export.index)
    (hindexed : IndexedBy mod (functionImports ps).length starts heights)
    (hstarts : starts.length = (definedFunctions ps).length)
    (hheights : heights.length = (definedFunctions ps).length) (hnodup : starts.Nodup)
    (name : String) :
    LooksUp ps mod starts heights name ↔
      ∀ e ∈ exports ps, e.field = name →
        Export.Resolves (functionImports ps).length (functionAliases ps).length
          (definedFunctions ps).length e := by
  -- what there is to find under the name of an export
  have hspec : ∀ (e : Export) (xs : List ℕ) (x : ℕ), e ∈ exports ps → e.field = name →
      xs.length = (definedFunctions ps).length →
      ((∃ k, ExportsDefined ps name k ∧ xs[k]? = some x) ↔ e.kind = .function ∧
        ∃ k, e.index = (functionImports ps).length + (functionAliases ps).length + k ∧
          xs[k]? = some x) := by
    intro e xs x he hname hlen
    constructor
    · rintro ⟨k, ⟨e', he', hname', hkind, hdef⟩, hk⟩
      have hsame : e' = e := by
        have h := (lastExport_eq_some hdistinct).mpr ⟨he, hname⟩
        rw [(lastExport_eq_some hdistinct).mpr ⟨he', hname'⟩] at h
        exact Option.some.inj h
      subst hsame
      exact ⟨hkind, k, ((definedBy_iff hord).mp hdef).1, hk⟩
    · rintro ⟨hkind, k, hindex, hk⟩
      obtain ⟨hlt, -⟩ := List.getElem?_eq_some_iff.mp hk
      exact ⟨k, ⟨e, he, hname, hkind, (definedBy_iff hord).mpr ⟨hindex, by omega⟩⟩, hk⟩
  rw [LooksUp, functionEntryPoint_name, functionStackHeight_name, hexports]
  cases hlast : lastExport (exports ps) name with
  | none =>
      have hnone : ∀ e ∈ exports ps, e.field ≠ name := by
        intro e he hname
        rw [(lastExport_eq_some hdistinct).mpr ⟨he, hname⟩] at hlast
        cases hlast
      have hno : ∀ k, ¬ ExportsDefined ps name k :=
        fun k ⟨e, he, hname, _⟩ => hnone e he hname
      refine iff_of_true ?_ fun e he hname => absurd hname (hnone e he)
      simp [hno]
  | some e =>
      obtain ⟨he, hname⟩ := (lastExport_eq_some hdistinct).mp hlast
      have honly : ∀ e' ∈ exports ps, e'.field = name → e' = e := by
        intro e' he' hname'
        rw [(lastExport_eq_some hdistinct).mpr ⟨he', hname'⟩] at hlast
        exact Option.some.inj hlast
      simp only [Option.map_some, Option.bind_some, hindexed.entryPoint, hindexed.stackHeight,
        hspec e _ _ he hname hstarts, hspec e _ _ he hname hheights]
      constructor
      · rintro ⟨h, -⟩ e' he' hname'
        obtain rfl := honly e' he' hname'
        obtain ⟨hf, hn⟩ := resolves_of_lookup hnodup h
        rw [hstarts] at hf hn
        rw [Export.Resolves]
        split_ifs with hkind
        · exact hf hkind
        · exact hn hkind
      · intro h
        have hres := h e he hname
        rw [Export.Resolves] at hres
        constructor
        · exact lookup_of_resolves (fun hf => by rwa [if_pos hf, ← hstarts] at hres)
            (fun hf => by rwa [if_neg hf, ← hstarts] at hres)
        · exact lookup_of_resolves (fun hf => by rwa [if_pos hf, ← hheights] at hres)
            (fun hf => by rwa [if_neg hf, ← hheights] at hres)

/-! ## Modules -/

/-- The stack heights of the bodies of a module. -/
def heightsOf (st : Compiling V) (m d : ℕ) : List ℕ :=
  (List.range d).map fun k => (st.module.functionStackHeights[m + k]?).getD 0

variable {b : Binding} {assembly : Assembly}

/-- The maps of an accepted module, by index. -/
theorem Assembled.indexedBy (hE : E.Measured len) (hord : Ordered ps)
    (h : Assembled E len ps st its b assembly) (hrecorded : Recorded E ps its st)
    (hlen : (its.filterMap Item.body?).length = (definedFunctions ps).length) :
    IndexedBy { st.module with functionBodies := b.functionBodies } (functionImports ps).length
      (startsOf len (8 * ((functionImports ps).length + (definedFunctions ps).length))
        ((its.filterMap Item.body?).map fun c => c.2.2))
      (heightsOf st (functionImports ps).length (definedFunctions ps).length) := by
  have hcounted : (countedFunctions ps).length =
      (functionImports ps).length + (definedFunctions ps).length := by
    rw [countedFunctions_of_ordered hord, List.length_append]
  have hsome : ∀ i, b.functionBodies[i]?.isSome ↔ (functionImports ps).length ≤ i ∧
      i < (functionImports ps).length + (definedFunctions ps).length := by
    intro i
    rw [h.isSome_entry, h.compiled.mem_bodyOf, hlen]
  refine ⟨fun i => ?_, fun i => ?_⟩
  · by_cases hi : (b.functionBodies[i]?).isSome
    · obtain ⟨hle, hlt⟩ := (hsome i).mp hi
      obtain ⟨k, rfl⟩ := Nat.exists_eq_add_of_le hle
      have hk : k < (its.filterMap Item.body?).length := by omega
      have hget := List.getElem?_eq_getElem hk
      let asm : AssembledModule := ⟨{ st.module with functionBodies := b.functionBodies }, []⟩
      have hstart := h.startsAt hE hord (rfl : asm.module.functionBodies = _) hget
      have hf := (h.compiled k _ _ _ hget).1
      rw [hf] at hstart
      rw [hstart.entryPoint, if_pos hle, Nat.add_sub_cancel_left,
        getElem?_startsOf (by simpa using hk), ← List.map_take, List.map_map, hcounted]
      rfl
    · rw [functionEntryPoint_eq, Option.not_isSome_iff_eq_none.mp hi]
      rw [hsome] at hi
      split_ifs with hle
      · rw [List.getElem?_eq_none]
        rw [length_startsOf, List.length_map, hlen]
        omega
      · rfl
  · rw [functionStackHeight_eq]
    by_cases hi : (b.functionBodies[i]?).isSome
    · obtain ⟨hle, hlt⟩ := (hsome i).mp hi
      obtain ⟨k, rfl⟩ := Nat.exists_eq_add_of_le hle
      have hk : k < (its.filterMap Item.body?).length := by omega
      obtain ⟨hf, -, -, -, -, height, -, -, -, hheight, -⟩ :=
        hrecorded k _ _ _ (List.getElem?_eq_getElem hk)
      rw [hf] at hheight
      rw [if_pos hi, if_pos hle, Nat.add_sub_cancel_left, heightsOf, List.getElem?_map,
        List.getElem?_range (by omega)]
      simp [hheight]
    · rw [if_neg hi]
      rw [hsome] at hi
      split_ifs with hle
      · rw [heightsOf, List.getElem?_eq_none]
        rw [List.length_map, List.length_range]
        omega
      · rfl

/-- A body takes up space. -/
theorem codeSize_optimized_pos {ctx : Context} {ty : FuncType} {φ : V.FuncSt} {body : FunctionBody}
    {out : List Instr × ℕ} (hret : 0 < len .ret) (h : compileBody V ctx ty φ body = .ok out) :
    0 < codeSize len (optimized out.1) := by
  have hlast := compileBody_getLast? h
  have hstops : Stops out.1 := fun i hi => by
    rw [hlast] at hi
    cases hi
    rfl
  rw [← optimized_getLast? hstops] at hlast
  obtain ⟨init, hinit⟩ := List.getLast?_eq_some_iff.mp hlast
  rw [hinit, codeSize_append, codeSize_cons]
  omega

/-- **When export lookup is right.**  The entry point and the stack height found
under a name are those of the function exported under that name, if it is a defined
one, and nothing is found under other names, exactly if every export with that name
`Resolves`.  In a module without aliases that only exports functions all of them do.

What fails is the kind: an export of a memory or a table is recorded as one of a
function with the same index, so its name finds a function.  That names are exported
once is what the validator sees to (`hdistinct`), and nothing in `compile` would
notice.  The length of `ret` is asked to be positive so that different functions
start at different offsets. -/
theorem export_lookup_iff {V : Validator} {E : Encoder} {P : Parser} {len : Instr → ℕ}
    {n : ℕ} {module : List UInt8} {asm : AssembledModule} (hE : E.Measured len)
    (hret : 0 < len .ret) (hV : V.Sound) (hdistinct : ∀ ps, V.Accepts ps → DistinctExports ps)
    (hP : P.Documented) (hplain : ∀ p ∈ (scan P module).1, p.nests = false)
    (h : compileWithin E P V n module = some (.ok asm)) :
    ∃ (st : Compiling V) (b : Binding) (assembly : Assembly) (codes : List (List Instr))
      (starts heights : List ℕ),
      compilePayloads E (scan P module).1 = .ok st ∧ bindLabels E st = .ok b ∧
      E.assemble b.instructions b.bound = .ok assembly ∧
      codes.length = (definedFunctions (scan P module).1).length ∧
      starts.length = codes.length ∧ heights.length = codes.length ∧
      -- the entry point and the stack height of the function with body `k`
      (∀ (k : ℕ) (code : List Instr) (start height : ℕ), codes[k]? = some code →
        starts[k]? = some start → heights[k]? = some height →
        (∃ body ty φ, (bodies (scan P module).1)[k]? = some body ∧
          st.functionType ((functionImports (scan P module).1).length + k) = some ty ∧
          compileBody V st.toContext ty φ body = .ok (code, height)) ∧
        StartsAt st b assembly asm ((functionImports (scan P module).1).length + k) code start) ∧
      -- the lookup
      ∀ name : String, LooksUp (scan P module).1 asm.module starts heights name ↔
        ∀ e ∈ exports (scan P module).1, e.field = name →
          Export.Resolves (functionImports (scan P module).1).length
            (functionAliases (scan P module).1).length
            (definedFunctions (scan P module).1).length e := by
  obtain ⟨st, hst, hasm⟩ := compileWithin_eq_ok hP h
  have hvalid := hV.valid _ (accepts_of_compilePayloads hst) hplain
  have hdistinct := hdistinct _ (accepts_of_compilePayloads hst)
  generalize (scan P module).1 = ps at hst hvalid hdistinct
  have hord := hvalid.ordered
  have hfold := foldlM_of_compilePayloads hst
  obtain ⟨its, hread, hrecorded⟩ := reading_recorded hord hfold
  obtain ⟨b, assembly, hfinal, hb, rfl⟩ := hread.exists_assembled hE hrecorded.compiledWith hasm
  have hlen : (its.filterMap Item.body?).length = (definedFunctions ps).length :=
    hread.length_bodies.trans hvalid.bodyCount
  have hindexed := hfinal.indexedBy hE hord hrecorded hlen
  have hpos : ∀ c ∈ (its.filterMap Item.body?).map fun c => c.2.2,
      0 < codeSize len (optimized c) := by
    intro c hc
    obtain ⟨x, hx, rfl⟩ := List.mem_map.mp hc
    obtain ⟨k, hk⟩ := List.mem_iff_getElem?.mp hx
    obtain ⟨-, -, body, ty, φ, height, -, -, hcode, -⟩ := hrecorded k _ _ _ hk
    exact codeSize_optimized_pos hret hcode
  refine ⟨st, b, assembly, (its.filterMap Item.body?).map fun c => c.2.2,
    startsOf len (8 * ((functionImports ps).length + (definedFunctions ps).length)) _,
    heightsOf st (functionImports ps).length (definedFunctions ps).length, hst, hb,
    hfinal.assembled, by simpa using hlen, length_startsOf _ _, by simp [heightsOf, hlen], ?_, ?_⟩
  · intro k code start height hcode hstart hheight
    rw [List.getElem?_map, Option.map_eq_some_iff] at hcode
    obtain ⟨⟨f, g, code⟩, hk, rfl⟩ := hcode
    obtain ⟨rfl, -, body, ty, φ, height', hbody, hty, hout, hheight', -⟩ := hrecorded k f g code hk
    obtain ⟨hlt, -⟩ := List.getElem?_eq_some_iff.mp hk
    let asm : AssembledModule :=
      ⟨{ st.module with functionBodies := b.functionBodies }, assembly.bytes⟩
    have hstartsAt := hfinal.startsAt hE hord (rfl : asm.module.functionBodies = _) hk
    -- the two lists are those the maps are read off
    have hsame : height' = height := by
      rw [heightsOf, List.getElem?_map, List.getElem?_range (by omega), Option.map_some,
        Option.some.injEq, hheight', Option.getD_some] at hheight
      exact hheight
    subst hsame
    refine ⟨⟨body, ty, φ, hbody, hty, hout⟩, ?_⟩
    have hentry := hindexed.entryPoint ((functionImports ps).length + k)
    rw [if_pos (Nat.le_add_right _ _), Nat.add_sub_cancel_left, hstart] at hentry
    rw [hstartsAt.entryPoint, Option.some.injEq] at hentry
    rwa [← hentry]
  · exact looksUp_iff hord hdistinct (exports_recorded hfold) hindexed
      (by rw [length_startsOf, List.length_map, hlen]) (by simp [heightsOf]) (nodup_startsOf hpos)

/-- A module that exports its one function as `run` and its one memory as
`memory`.  Both have index `0`. -/
def exportingModule : Script :=
  [(preamble, .version 1),
    ([0x01, 0x04, 0x01, 0x60, 0x00, 0x00], .typeSection ⟨[.func ⟨[], []⟩], none⟩),
    ([0x03, 0x02, 0x01, 0x00], .functionSection ⟨[0], none⟩),
    ([0x05, 0x03, 0x01, 0x00, 0x01], .memorySection ⟨[⟨false, false, 1, none⟩], none⟩),
    ([0x07, 0x10, 0x02, 0x03, 0x72, 0x75, 0x6e, 0x00, 0x00, 0x06, 0x6d, 0x65, 0x6d, 0x6f, 0x72, 0x79,
      0x02, 0x00],
      .exportSection ⟨[⟨"run", .function, 0⟩, ⟨"memory", .memory, 0⟩], none⟩),
    ([0x0a, 0x04, 0x01], .codeSectionStart 1),
    ([0x02, 0x00, 0x0b], .codeSectionEntry ⟨⟨[], none⟩, ⟨[.end], none⟩⟩)]

/-- Under `run` the function is found, and nothing else. -/
theorem export_lookup_iff_instance : ∃ (asm : AssembledModule) (starts heights : List ℕ),
    compileWithin Encoder.reference (parserOf exportingModule) Validator.reference 20
      (Script.bytes exportingModule) = some (.ok asm) ∧
    LooksUp (scan (parserOf exportingModule) (Script.bytes exportingModule)).1 asm.module starts
      heights "run" ∧ asm.module.functionEntryPoint "run" = some 8 := by
  obtain ⟨asm, h, hrun⟩ : ∃ asm, compileWithin Encoder.reference (parserOf exportingModule)
      Validator.reference 20 (Script.bytes exportingModule) = some (.ok asm) ∧
      asm.module.functionEntryPoint "run" = some 8 := ⟨_, rfl, rfl⟩
  obtain ⟨st, b, assembly, codes, starts, heights, -, -, -, -, -, -, -, hlookup⟩ :=
    export_lookup_iff Encoder.reference_measured (by decide) Validator.reference_sound
      (fun _ => Validator.reference_distinctExports) (parserOf_documented exportingModule)
      (of_decide_eq_true rfl) h
  refine ⟨asm, starts, heights, h, (hlookup "run").mpr fun e he hname => ?_, hrun⟩
  have hexports : exports (scan (parserOf exportingModule) (Script.bytes exportingModule)).1 =
      [⟨"run", .function, 0⟩, ⟨"memory", .memory, 0⟩] := rfl
  rw [hexports] at he
  rcases List.mem_cons.mp he with rfl | he
  · exact .inl rfl
  · cases List.mem_singleton.mp he
    exact absurd hname (by decide)

/-- The memory has an entry point. -/
theorem export_lookup_confused : ¬ ∀ (script : Script) (n : ℕ) (asm : AssembledModule),
    (∀ p ∈ (scan (parserOf script) (Script.bytes script)).1, p.nests = false) →
    compileWithin Encoder.reference (parserOf script) Validator.reference n
      (Script.bytes script) = some (.ok asm) →
    ∀ (name : String) (a : ℕ), asm.module.functionEntryPoint name = some a →
      ∃ k, ExportsDefined (scan (parserOf script) (Script.bytes script)).1 name k := by
  intro h
  obtain ⟨asm, hasm, hmemory⟩ : ∃ asm, compileWithin Encoder.reference (parserOf exportingModule)
      Validator.reference 20 (Script.bytes exportingModule) = some (.ok asm) ∧
      asm.module.functionEntryPoint "memory" = some 8 := ⟨_, rfl, rfl⟩
  obtain ⟨k, e, he, hname, hkind, -⟩ :=
    h exportingModule 20 asm (of_decide_eq_true rfl) hasm "memory" 8 hmemory
  have hexports : exports (scan (parserOf exportingModule) (Script.bytes exportingModule)).1 =
      [⟨"run", .function, 0⟩, ⟨"memory", .memory, 0⟩] := rfl
  rw [hexports] at he
  rcases List.mem_cons.mp he with rfl | he
  · exact absurd hname (by decide)
  · cases List.mem_singleton.mp he
    cases hkind

end ParaOS.Parawasm
