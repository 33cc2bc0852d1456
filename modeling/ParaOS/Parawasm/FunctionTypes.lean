import ParaOS.Parawasm.Emission
import ParaOS.Wasm.Validation

/-!
# Which type a function is compiled with

`compile` numbers the functions it counts, imported ones first, and keeps the
type index each is declared with in `function_types`; `function_typedefs` has the
function types, numbered among themselves.  To find the type of function `f` it
looks up `function_types` *twice*, the second time at the type index the first
lookup gave, and then `function_typedefs`.

So function `f`, declared with type index `t`, is compiled with the type of
*function number* `t`, if there is one, and that one's type index is taken as an
index among function types only.  `functionType_declared_iff` says when this
comes to the same as the entry of the type index space at `t`.

### What is load-bearing

Nothing about bodies: the lookups are done with maps that are complete when code
begins, and what they come to is a matter of the declarations.  `Valid` is used for
one thing, that a declared type index stands for a function type.

Two kinds of mistake are in the lookup, and either may hide the other.  Entries of
the type section that are not function types shift the numbers of those behind them,
and the second lookup takes a type index for the number of a function.  `Coincides`
is the exact condition for both together, so it is an equation between what is found
and what is declared, and not "all types are function types and function `t` has
type `t`", which would be too much.
-/

namespace ParaOS.Parawasm

open Machine X86 Wasm

variable {V : Validator} {E : Encoder} {st : Compiling V} {its : List Item}

/-- The lookups, on the lists the maps follow.  The second is made in the same list
as the first. -/
theorem Reading.functionType {ps : List Payload} (h : Reading ps its st) (f : ℕ) :
    st.functionType f =
      ((countedFunctions ps)[f]?.bind fun i => (countedFunctions ps)[i]?).bind fun u =>
        (functionTypesOf (typeSpace ps))[u]? := by
  rw [Context.functionType, h.emitted.functionTypes]
  simp only [h.emitted.functionTypes, h.typed.functionTypedefs, h.declaredIndices]

/-- A table has an entry for every param and for every declared local. -/
theorem length_layoutLocals {params : List Ty} {groups : List (ℕ × Ty)} {t : LocalsTable}
    (h : layoutLocals params groups = .ok t) :
    t.locals.length = params.length + (declaredLocals groups).length := by
  have hparams : ∀ (params : List Ty) (t₀ t₁ : LocalsTable),
      params.foldlM exactParam t₀ = .ok t₁ →
      t₁.locals.length = t₀.locals.length + params.length := by
    intro params
    induction params with
    | nil =>
        intro t₀ t₁ h
        cases h
        rfl
    | cons p params ih =>
        intro t₀ t₁ h
        simp only [List.foldlM_cons, exactParam, Outcome.bind_eq_ok, Outcome.pure_eq_ok,
          Outcome.ok.injEq] at h
        obtain ⟨_, ⟨sz, -, rfl⟩, h⟩ := h
        rw [ih _ _ h, List.length_append, List.length_singleton, List.length_cons]
        omega
  have hcount : (declaredLocals groups).length = localCount groups := by
    simp [declaredLocals, localCount, List.length_flatMap]
  obtain ⟨h, -⟩ := layoutLocals_eq_ok.mp h
  rw [exactLayout, Outcome.bind_eq_ok] at h
  obtain ⟨t₀, ht₀, ht⟩ := h
  obtain ⟨more, extra, rfl, hmore⟩ := exactGroups_eq_ok ht
  rw [List.length_append, hmore, hparams _ _ _ ht₀, hcount, List.length_nil, Nat.zero_add]

/-! ## When it is the declared one -/

/-- The type compiled with for `f` is the entry of the type index space at `t`,
and the table of locals of a body of `f` has an entry for every param of that
type and every declared local. -/
def DeclaredTypeUsed (ctx : Context) (ps : List Payload) (f t : ℕ) : Prop :=
  ∃ ty, typeAt ps t = some ty ∧ ctx.functionType f = some ty ∧
    ∀ ty' groups table, ctx.functionType f = some ty' → layoutLocals ty'.params groups = .ok table →
      table.locals.length = ty.params.length + (declaredLocals groups).length

/-- Function number `i` has a type index that, counted among function types
only, is that of the type at `t`. -/
def Coincides (ps : List Payload) (i t : ℕ) : Prop :=
  ∃ u ty, (countedFunctions ps)[i]? = some u ∧
    (functionTypesOf (typeSpace ps))[u]? = some ty ∧ typeAt ps t = some ty

/-- What is compiled with is what is declared, by what the lookups lead to. -/
theorem Reading.declaredTypeUsed_iff {pre ps : List Payload} (h : Reading pre its st)
    (hcounted : countedFunctions pre = countedFunctions ps) (htypes : typeSpace pre = typeSpace ps)
    (f t : ℕ) :
    DeclaredTypeUsed st.toContext ps f t ↔
      ∃ i, (countedFunctions ps)[f]? = some i ∧ Coincides ps i t := by
  have hlookup := h.functionType f
  rw [hcounted, htypes] at hlookup
  constructor
  · rintro ⟨ty, hty, hused, -⟩
    rw [hlookup, Option.bind_eq_some_iff] at hused
    obtain ⟨u, hu, hty'⟩ := hused
    obtain ⟨i, hi, hu⟩ := Option.bind_eq_some_iff.mp hu
    exact ⟨i, hi, u, ty, hu, hty', hty⟩
  · rintro ⟨i, hi, u, ty, hu, hty', hty⟩
    have hused : st.functionType f = some ty := by
      rw [hlookup, hi, Option.bind_some, hu, Option.bind_some, hty']
    refine ⟨ty, hty, hused, fun ty' groups table hty'' htable => ?_⟩
    rw [hused] at hty''
    cases hty''
    exact length_layoutLocals htable

/-! ## Counting functions -/

/-- The functions that are counted are those with a type index, in order. -/
theorem filterMap_funcSpace (ps : List Payload) :
    (funcSpace ps).filterMap FuncDecl.typeIndex? = countedFunctions ps := by
  rw [funcSpace, countedFunctions, List.filterMap_flatMap]
  refine List.flatMap_congr fun p _ => ?_
  cases p with
  | importSection r =>
      simp [Payload.funcDecls, Payload.functionImports, Payload.definedFunctions,
        List.filterMap_map, Function.comp_def, FuncDecl.typeIndex?]
  | aliasSection r =>
      simp [Payload.funcDecls, Payload.functionImports, Payload.definedFunctions,
        List.filterMap_map, Function.comp_def, FuncDecl.typeIndex?]
  | functionSection r =>
      simp [Payload.funcDecls, Payload.functionImports, Payload.definedFunctions,
        List.filterMap_map, Function.comp_def, FuncDecl.typeIndex?]
  | _ => rfl

/-- **When a function is compiled with its declared type.**  In a valid module that
is read up to a body, a call of a function with type index `t` is compiled with the
entry of the type index space at `t` exactly when the type index of the function
counted with the same number leads there, and the body itself exactly when function
number `t` does.

No hypothesis is about the compiler.  The state is the one the payloads in front of
the body have left, and the module is valid as a whole.  What goes wrong is that one
index is used in two spaces: types that are no function types take up an index, and
function indices are looked up among the type indices. -/
theorem functionType_declared_iff {V : Validator} {E : Encoder} {ps pre post : List Payload}
    {body : FunctionBody} {st : Compiling V} (hvalid : Valid ps)
    (hps : ps = pre ++ .codeSectionEntry body :: post)
    (hst : pre.foldlM (handlePayload E) Compiling.init = .ok st) :
    (∀ f d t, (funcSpace ps)[f]? = some d → d.typeIndex? = some t →
      (DeclaredTypeUsed st.toContext ps f t ↔
        ∃ i, (countedFunctions ps)[f]? = some i ∧ Coincides ps i t)) ∧
    ∀ t, (definedFunctions ps)[(bodies pre).length]? = some t →
      (DeclaredTypeUsed st.toContext ps st.functionBodyIndex t ↔ Coincides ps t t) := by
  obtain ⟨its, hread⟩ := reading_of_foldlM hst
  have hord := hvalid.ordered
  have hcounts := countedFunctions_of_ordered hord
  rw [hps] at hord
  obtain ⟨htypes, hfuncs, himports, hdefined⟩ := declarations_of_ordered hord
  rw [← hps] at htypes hfuncs himports hdefined
  have hcounted : countedFunctions pre = countedFunctions ps := by
    rw [← filterMap_funcSpace, ← filterMap_funcSpace, hfuncs]
  refine ⟨fun f d t _ _ => hread.declaredTypeUsed_iff hcounted htypes.symm f t, fun t ht => ?_⟩
  rw [hread.declaredTypeUsed_iff hcounted htypes.symm]
  -- the number of a body is counted from the imports on, so it is that of its declaration
  have hindex : (countedFunctions ps)[st.functionBodyIndex]? = some t := by
    rw [hcounts, hread.bodyIndex, ← himports, List.getElem?_append_right (Nat.le_add_right _ _),
      Nat.add_sub_cancel_left, ht]
  simp [hindex]

/-- A module with one function, up to its body. -/
def oneFunction (t : ℕ) : List Payload :=
  [.version 1, .typeSection ⟨[.func ⟨[], []⟩, .func ⟨[.i64], []⟩], none⟩,
    .functionSection ⟨[t], none⟩, .codeSectionStart 1]

/-- Its body. -/
def emptyBody : FunctionBody := ⟨⟨[], none⟩, ⟨[.end], none⟩⟩

/-- No instruction is assembled before the end. -/
def noEncoder : Encoder := ⟨fun _ _ => .error ⟨"no encoder"⟩⟩

/-- It is valid with its body. -/
theorem valid_oneFunction (t : ℕ) (ht : t = 0 ∨ t = 1) :
    Valid (oneFunction t ++ [.codeSectionEntry emptyBody]) := by
  rcases ht with rfl | rfl
  · exact Validator.reference_valid ⟨_, rfl, rfl⟩
  · exact Validator.reference_valid ⟨_, rfl, rfl⟩

/-- With type index `0` for function `0` all is well. -/
theorem functionType_declared_iff_instance :
    ∃ st : Compiling Validator.reference,
      (oneFunction 0).foldlM (handlePayload noEncoder) Compiling.init = .ok st ∧
      DeclaredTypeUsed st.toContext (oneFunction 0 ++ [.codeSectionEntry emptyBody])
        st.functionBodyIndex 0 :=
  ⟨_, rfl, ((functionType_declared_iff (E := noEncoder) (valid_oneFunction 0 (.inl rfl)) rfl
    rfl).2 0 rfl).mpr ⟨0, ⟨[], []⟩, rfl, rfl, rfl⟩⟩

/-- With type index `1` the lookup comes out empty. -/
theorem functionType_not_declared : ¬ ∀ (V : Validator) (E : Encoder) (ps pre post : List Payload)
    (body : FunctionBody) (st : Compiling V), Valid ps →
    ps = pre ++ .codeSectionEntry body :: post →
    pre.foldlM (handlePayload E) Compiling.init = .ok st →
    ∀ t, (definedFunctions ps)[(bodies pre).length]? = some t →
      DeclaredTypeUsed st.toContext ps st.functionBodyIndex t := by
  intro h
  obtain ⟨ty, -, hused, -⟩ := h Validator.reference noEncoder _ (oneFunction 1) [] emptyBody _
    (valid_oneFunction 1 (.inr rfl)) rfl rfl 1 rfl
  cases hused

end ParaOS.Parawasm
