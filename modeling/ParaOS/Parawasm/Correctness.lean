import ParaOS.Parawasm.Equivalence
import ParaOS.Parawasm.Meaning

/-!
# What a compiled module computes

The functions of a module are `functionsOf` its payloads: the declared types and
the operators of the bodies, with what an activation takes of the stack.  The
program `compile` emits implements them (`Simple.implements`), so a call of any of
them returns exactly what `Calls` says.

### What is load-bearing

`Compiled` is a fragment, and each of its parts keeps out something that is compiled
but not computed.

* Nothing but `i64`.  Slots of `i32` params overlap, and `ParaOS.Parawasm.Narrow`
  has what is left of them.
* No declared locals.  They start with whatever was left below the stack, where
  WebAssembly has zero.
* At most two results.  Further ones are lost, and the operators behind the call pop
  what is not theirs.
* The types looked up are the declared ones.  Otherwise a function is compiled as
  one of another type.
* No aliases and no nested modules.  An aliased function is not counted, and indices
  mean other functions.

`Behaves` is asked of imports: what they do is a behaviour, in both directions, and
depends on nothing but their arguments and the stack they have.  An import that
looked at its caller's frame would be outside of what WebAssembly can say about it.

### What is exact

That a call returns and what it returns are one statement (`ReturnsAs`), for every
state it may be made in.  With `n` bytes below `rsp` a function returns what it
computes in `n` bytes, and nothing where it computes nothing.
-/

namespace ParaOS.Parawasm

open Machine X86 Wasm

/-! ## The functions of a module

An activation takes a word for `rbp` and one for each local, and this is the only
thing about compiled code that `functionsOf` knows. -/

/-- No function is an alias. -/
def NoAliases (ps : List Payload) : Prop := functionAliases ps = []

instance (ps : List Payload) : Decidable (NoAliases ps) :=
  inferInstanceAs (Decidable (_ = _))

/-- The functions of a module.  An activation takes a word for `rbp` and one for
each local. -/
def functionsOf (ps : List Payload) : Functions where
  type := declaredType ps
  definition f :=
    if (functionImports ps).length + (functionAliases ps).length ≤ f then
      (bodies ps)[f - ((functionImports ps).length + (functionAliases ps).length)]?.bind
        fun body => (declaredType ps f).map fun ty =>
          ⟨localCount body.locals.items, body.operators.items,
            8 + 8 * (ty.params.length + localCount body.locals.items)⟩
    else none

variable {V : Validator} {its : List Item} {ps : List Payload} {σ : Compiling V} {ctx : Context}
  {address address' : ℕ → Word} {word : Label → Word} {env : Env} {f k : ℕ} {ty : FuncType}
  {body : FunctionBody} {d : Definition}

/-- A function with a definition has a body. -/
theorem exists_body_of_definition (hal : NoAliases ps)
    (hd : (functionsOf ps).definition f = some d) :
    ∃ k body ty, f = (functionImports ps).length + k ∧ (bodies ps)[k]? = some body ∧
      declaredType ps f = some ty ∧ d = ⟨localCount body.locals.items, body.operators.items,
        8 + 8 * (ty.params.length + localCount body.locals.items)⟩ := by
  unfold functionsOf at hd
  dsimp only at hd
  rw [hal, List.length_nil, Nat.add_zero, Option.ite_none_right_eq_some] at hd
  obtain ⟨hle, hd⟩ := hd
  obtain ⟨body, hbody, hd⟩ := Option.bind_eq_some_iff.mp hd
  obtain ⟨ty, hty, rfl⟩ := Option.map_eq_some_iff.mp hd
  exact ⟨f - (functionImports ps).length, body, ty, by omega, hbody, hty, rfl⟩

/-- A body is that of a function with a definition. -/
theorem definition_of_body (hal : NoAliases ps) (hbody : (bodies ps)[k]? = some body)
    (hty : declaredType ps ((functionImports ps).length + k) = some ty) :
    (functionsOf ps).definition ((functionImports ps).length + k) =
      some ⟨localCount body.locals.items, body.operators.items,
        8 + 8 * (ty.params.length + localCount body.locals.items)⟩ := by
  unfold functionsOf
  dsimp only
  rw [hal, List.length_nil, Nat.add_zero, if_pos (Nat.le_add_right _ _), Nat.add_sub_cancel_left,
    hbody, Option.bind_some, hty]
  rfl

/-- The declared type of a body. -/
theorem declaredType_of_body (h : Valid ps) (hal : NoAliases ps)
    (hbody : (bodies ps)[k]? = some body) :
    ∃ ty, declaredType ps ((functionImports ps).length + k) = some ty := by
  obtain ⟨t, ty, ht, hty⟩ := h.exists_typeAt hbody
  obtain ⟨front, hspace, -, hlen⟩ := funcSpace_of_ordered h.ordered
  rw [hal, List.length_nil, Nat.add_zero] at hlen
  have hget : (funcSpace ps)[(functionImports ps).length + k]? = some (.defined t) := by
    rw [hspace, ← hlen, List.getElem?_append_right (Nat.le_add_right _ _),
      Nat.add_sub_cancel_left, List.getElem?_map, ht]
    rfl
  refine ⟨ty, ?_⟩
  rw [declaredType, hget]
  exact hty

/-- A function without a definition is imported. -/
theorem lt_of_definition_eq_none (h : Valid ps) (hal : NoAliases ps)
    (hty : declaredType ps f = some ty) (hd : (functionsOf ps).definition f = none) :
    f < (functionImports ps).length := by
  by_contra hlt
  have hlen := lt_of_declaredType hty
  obtain ⟨front, hspace, -, hfront⟩ := funcSpace_of_ordered h.ordered
  rw [hspace, List.length_append, List.length_map, hfront, hal, List.length_nil, ← h.bodyCount]
    at hlen
  obtain ⟨body, hbody⟩ : ∃ body, (bodies ps)[f - (functionImports ps).length]? = some body :=
    ⟨_, List.getElem?_eq_getElem (by omega)⟩
  have hf : (functionImports ps).length + (f - (functionImports ps).length) = f := by omega
  have hsome := definition_of_body hal hbody (show declaredType ps (_ + _) = some ty by
    rw [hf, hty])
  rw [hf, hd] at hsome
  cases hsome

/-- A declared type is that of a type index. -/
theorem exists_typeIndex (hord : Ordered ps) (hal : NoAliases ps)
    (hty : declaredType ps f = some ty) :
    ∃ t ∈ functionImports ps ++ definedFunctions ps, typeAt ps t = some ty := by
  have hmem : ∀ d t, d ∈ funcSpace ps → d.typeIndex? = some t →
      t ∈ functionImports ps ++ definedFunctions ps := by
    intro d t hd ht
    rw [← countedFunctions_of_ordered hord, ← filterMap_funcSpace]
    exact List.mem_filterMap.mpr ⟨d, hd, ht⟩
  rw [declaredType] at hty
  split at hty
  · exact ⟨_, hmem _ _ (List.mem_of_getElem? ‹_›) rfl, hty⟩
  · exact ⟨_, hmem _ _ (List.mem_of_getElem? ‹_›) rfl, hty⟩
  · obtain ⟨p, hp, hd⟩ := List.mem_flatMap.mp (List.mem_of_getElem? ‹_›)
    have hnil : p.functionAliases = [] := List.flatMap_eq_nil_iff.mp hal p hp
    cases p with
    | aliasSection r =>
        rw [Payload.functionAliases] at hnil
        rw [Payload.funcDecls, hnil] at hd
        cases hd
    | importSection r =>
        obtain ⟨t, -, ht⟩ := List.mem_map.mp hd
        cases ht
    | functionSection r =>
        obtain ⟨t, -, ht⟩ := List.mem_map.mp hd
        cases ht
    | _ => cases hd
  · cases hty

/-! ## The program implements them

From the payloads to the code: a definition has a body, the body was compiled with
the maps of the module, and what it was compiled to stands behind its label. -/

/-- Without declared locals the slots are those of the params. -/
theorem frameOffsets_zero (n : ℕ) : frameOffsets n 0 = paramSlots n := by
  rw [frameOffsets, List.range_zero, List.map_nil, List.append_nil]
  rfl

/-- Every function with a type can be called. -/
theorem Simple.callable (hs : Simple ps ctx) (hord : Ordered ps) (hal : NoAliases ps)
    (hty : declaredType ps f = some ty) : Callable (functionsOf ps) ctx f ty := by
  obtain ⟨t, ht, htype⟩ := exists_typeIndex hord hal hty
  obtain ⟨hp, hr⟩ := hs.integral.types t ht ty htype
  exact ⟨hty, hs.resolved.called f ty hty, hp, hr, hs.results f ty hty⟩

/-- Operands are counted through a body: in the end there are its results. -/
theorem Simple.operandDepths (hs : Simple ps ctx) (h : Valid ps)
    (hbody : (bodies ps)[k]? = some body)
    (hty : ctx.functionType ((functionImports ps).length + k) = some ty) :
    Parawasm.operandDepths ctx (paramSlots ty.params.length) 0 body.operators.items =
      some ty.returns.length := by
  obtain ⟨ty', hty', -, init, hops, htyped⟩ := hs.typed h hbody
  cases hty.symm.trans hty'
  have hoperators := hs.integral.operators body (List.mem_of_getElem? hbody)
  rw [hops] at hoperators ⊢
  have hlen : ty.returns.reverse.length = ty.returns.length := List.length_reverse
  rw [← hlen]
  exact operandDepths_of_typeOps (fun off hoff => (mem_paramSlots hoff).1)
    (fun f ty hf => ⟨hs.resolved.called f ty hf, hs.results f ty hf⟩)
    (fun op hop => hoperators op (List.mem_append_left _ hop)) htyped

/-- What a body calls has a type. -/
theorem Simple.exists_callable (hs : Simple ps ctx) (h : Valid ps) (hal : NoAliases ps)
    (hbody : (bodies ps)[k]? = some body) {g : ℕ} (hg : .call g ∈ body.operators.items) :
    ∃ ty, Callable (functionsOf ps) ctx g ty := by
  obtain ⟨ty₀, -, -, init, hops, htyped⟩ := hs.typed h hbody
  rw [hops, List.mem_append] at hg
  obtain ⟨ty, hty⟩ := exists_func_of_call htyped (hg.resolve_right (by simp))
  exact ⟨ty, hs.callable h.ordered hal hty⟩

/-- **The code of a body stands behind its label.** -/
theorem Simple.bodyAt (hs : Simple ps σ.toContext) (h : Valid ps) (hal : NoAliases ps)
    (hread : Reading ps its σ) (hcomp : CompiledWith V ps its σ.toContext)
    (address : ℕ → Word) (word : Label → Word) (hbody : (bodies ps)[k]? = some body)
    (hty : declaredType ps ((functionImports ps).length + k) = some ty) :
    ∃ g i, σ.got[(functionImports ps).length + k]? = some g ∧
      (σ.emittedProgram address word).target g = some i ∧
      BodyAt (σ.emittedProgram address word) σ.toContext (functionsOf ps) ty
        body.operators.items i := by
  obtain ⟨hk, -⟩ := List.getElem?_eq_some_iff.mp hbody
  obtain ⟨⟨f, g, code⟩, hget⟩ : ∃ x, (its.filterMap Item.body?)[k]? = some x :=
    ⟨_, List.getElem?_eq_getElem (hread.length_bodies ▸ hk)⟩
  obtain ⟨rfl, hg, body', ty', φ, height, hbody', hty', hcode⟩ := hcomp k f g code hget
  cases hbody.symm.trans hbody'
  have hused := hs.resolved.called _ ty hty
  cases hused.symm.trans hty'
  obtain ⟨i, -, rest, -, hi, -, hdrop, -⟩ :=
    hread.exists_targets hcomp address address word (mem_of_body? hget)
  have hmem := List.mem_of_getElem? hbody
  have hcall := hs.callable h.ordered hal hty
  have hp := hcall.params
  have hacc := compileBody_accepts hcode (hs.keepsFrames h k body ty hbody hused)
  obtain ⟨order, t, before, ops, after, horder, ht, hbefore, hops, hafter, hout⟩ :=
    compileBody_eq_ok hcode
  obtain rfl : code = before ++ ops ++ after := hout
  rw [List.append_assoc, List.append_assoc] at hdrop
  have hframe := eq_frame_of_layoutLocals hp (hs.integral.locals body hmem) ht
  rw [hs.noLocals body hmem, frameOffsets_zero] at hframe
  subst hframe
  have hadv : advances .entry before =
      some (.framed (8 * ty.params.length + 8 * localCount []) 0) := by
    refine advances_prologue hp horder ?_
    rw [show localCount [] = 0 from rfl, frameOffsets_zero]
    exact hbefore
  refine ⟨g, i, hg, hi, hp, ?_, body.locals.items, before, ops ++ (after ++ rest), ?_, hadv,
    hdrop, ?_⟩
  · rw [hdrop, ← List.append_assoc, ← List.append_assoc]
    exact accepts_append hacc
  · rw [entryCode, horder, Outcome.ok_bind, ht, Outcome.ok_bind, hbefore]
    rfl
  · exact ⟨fun off hoff => mem_paramSlots hoff, hcall.returns, hcall.two,
      fun g hg => hs.exists_callable h hal hbody hg, hs.operandDepths h hbody hused, ops, after,
      rest, hops, hafter, drop_add hdrop⟩

/-- What emitted code calls keeps to its frame. -/
theorem Simple.disciplined (hs : Simple ps σ.toContext) (h : Valid ps) (hread : Reading ps its σ)
    (hcomp : CompiledWith V ps its σ.toContext) (address : ℕ → Word) (word : Label → Word) :
    (σ.emittedProgram address word).Disciplined := by
  intro pc i l hl hi
  obtain ⟨f, hf⟩ := hread.got_of_callLabel hcomp (hs.keepsFrames h) hl
  obtain ⟨i', j, hi', -, hacc, -, -⟩ :=
    hs.exists_faithful h hread hcomp address address word hf
  cases hi.symm.trans hi'
  exact hacc

/-- **The emitted program implements the functions of the module.** -/
theorem Simple.implements (hs : Simple ps σ.toContext) (h : Valid ps) (hal : NoAliases ps)
    (hread : Reading ps its σ) (hcomp : CompiledWith V ps its σ.toContext)
    (address : ℕ → Word) (word : Label → Word) :
    Implements (σ.emittedProgram address word) σ.toContext (functionsOf ps) where
  defined f d hd := by
    obtain ⟨k, body, ty, rfl, hbody, hty, rfl⟩ := exists_body_of_definition hal hd
    obtain ⟨g, i, hg, hi, hat⟩ := hs.bodyAt h hal hread hcomp address word hbody hty
    have hnone := hs.noLocals body (List.mem_of_getElem? hbody)
    refine ⟨ty, g, i, hty, hg, hi, hnone, ?_, hat⟩
    rw [hnone, Nat.add_zero]
  imported f ty hty hd := by
    obtain ⟨l, hl, hgot⟩ := hread.exists_ils h.ordered (lt_of_definition_eq_none h hal hty hd)
    exact ⟨hgot, l, hl⟩

/-! ## Calls of a module

The conditions on a module, on what its imports do, and on where a function stands;
and then what each of the two programs returns. -/

/-- A module `compile` accepts, of `i64` functions with at most two results, none
of which declares locals or is an alias, and each of which is compiled with its
declared type. -/
structure Compiled (V : Validator) (E : Encoder) (ps : List Payload) (σ : Compiling V) : Prop where
  sound : V.Sound
  flat : ∀ p ∈ ps, p.nests = false
  compiled : compilePayloads E ps = .ok σ
  simple : Simple ps σ.toContext
  noAliases : NoAliases ps

/-- The imports of a module do what is said of them. -/
def Behaves (ps : List Payload) (ctx : Context) (word : Label → Word) (env : Env) (top : ℕ)
    (I : ℕ → Behaviour) : Prop :=
  ThroughSlots word ctx (functionsOf ps) fun a ty f =>
    Obeys env top a ty (I f) ∧ Provides env top a ty (I f)

/-- A function has a type, and its code stands at an index of a program. -/
structure StandsAt (ps : List Payload) (ctx : Context) (P : Program) (f : ℕ) (ty : FuncType)
    (i : ℕ) : Prop where
  type : declaredType ps f = some ty
  label : ∃ g, ctx.got[f]? = some g ∧ P.target g = some i

/-- A function has one type and stands at one place. -/
theorem StandsAt.unique {P : Program} {ty ty' : FuncType} {i i' : ℕ} (h : StandsAt ps ctx P f ty i)
    (h' : StandsAt ps ctx P f ty' i') : ty = ty' ∧ i = i' := by
  obtain ⟨g, hg, hi⟩ := h.label
  obtain ⟨g', hg', hi'⟩ := h'.label
  cases hg.symm.trans hg'
  exact ⟨Option.some.inj (h.type.symm.trans h'.type), Option.some.inj (hi.symm.trans hi')⟩

/-- A call of the code at an index does what is said of the function.  The two sides
are compared for all states with the return address below the end of the stack, and
for all lists of results. -/
def ReturnsAs (P : Program) (env : Env) (top pc : ℕ) (ty : FuncType) (B : Behaviour) : Prop :=
  ∀ (s : X86.State) (results : List Word), s.sp + 8 ≤ top →
    ((∃ t, Returns P env pc s t ∧ resultsOf t ty.returns.length = results) ↔
      B s.sp (argumentsOf s ty.params.length) results)

variable {E : Encoder} {I : ℕ → Behaviour} {top : ℕ}

/-- What was let through by a sound validator is valid. -/
theorem Compiled.valid (h : Compiled V E ps σ) : Valid ps :=
  h.sound.valid _ (accepts_of_compilePayloads h.compiled) h.flat

/-- The items of such a module. -/
theorem Compiled.exists_items (h : Compiled V E ps σ) :
    ∃ its, Reading ps its σ ∧ CompiledWith V ps its σ.toContext :=
  reading_compiledWith h.valid.ordered (foldlM_of_compilePayloads h.compiled)

/-- The label of a function stands before its code and before optimised code in its
place. -/
theorem Compiled.exists_faithful (h : Compiled V E ps σ) (address address' : ℕ → Word)
    (word : Label → Word) {g : Label} (hg : σ.got[f]? = some g) :
    ∃ i j, (σ.emittedProgram address word).target g = some i ∧
      (σ.program address' word).target g = some j ∧
      accepts .entry ((σ.emittedProgram address word).code.drop i) = true ∧
      accepts .entry ((σ.program address' word).code.drop j) = true ∧
      Faithful (σ.emittedProgram address word) (σ.program address' word) .entry
        ((σ.emittedProgram address word).code.drop i) ((σ.program address' word).code.drop j) := by
  obtain ⟨its, hread, hcomp⟩ := h.exists_items
  exact h.simple.exists_faithful h.valid hread hcomp address address' word hg

/-- Both programs keep to their frames. -/
theorem Compiled.disciplined (h : Compiled V E ps σ) (address : ℕ → Word) (word : Label → Word) :
    (σ.emittedProgram address word).Disciplined ∧ (σ.program address word).Disciplined := by
  obtain ⟨its, hread, hcomp⟩ := h.exists_items
  exact ⟨h.simple.disciplined h.valid hread hcomp address word,
    hread.disciplined hcomp (h.simple.keepsFrames h.valid)⟩

/-- The emitted program implements the functions. -/
theorem Compiled.implements (h : Compiled V E ps σ) (address : ℕ → Word) (word : Label → Word) :
    Implements (σ.emittedProgram address word) σ.toContext (functionsOf ps) := by
  obtain ⟨its, hread, hcomp⟩ := h.exists_items
  exact h.simple.implements h.valid h.noAliases hread hcomp address word

/-- The two programs can be compared, if outside code does not look at return
addresses of either. -/
theorem Compiled.setting (h : Compiled V E ps σ) (henv : WellBehaved env top)
    (hind : env.Indifferent (Set.range address ∪ Set.range address')) (word : Label → Word) :
    Setting (σ.emittedProgram address word) (σ.program address' word) env top
      (Set.range address ∪ Set.range address') := by
  obtain ⟨its, hread, hcomp⟩ := h.exists_items
  exact h.simple.setting h.valid hread hcomp henv hind

/-- The body of a function in emitted code. -/
theorem Compiled.exists_bodyAt (h : Compiled V E ps σ) (address : ℕ → Word) (word : Label → Word)
    (hbody : (bodies ps)[k]? = some body) :
    ∃ ty i, StandsAt ps σ.toContext (σ.emittedProgram address word)
        ((functionImports ps).length + k) ty i ∧
      BodyAt (σ.emittedProgram address word) σ.toContext (functionsOf ps) ty
        body.operators.items i := by
  obtain ⟨its, hread, hcomp⟩ := h.exists_items
  obtain ⟨ty, hty⟩ := declaredType_of_body h.valid h.noAliases hbody
  obtain ⟨g, i, hg, hi, hat⟩ :=
    h.simple.bodyAt h.valid h.noAliases hread hcomp address word hbody hty
  exact ⟨ty, i, ⟨hty, g, hg, hi⟩, hat⟩

/-- What the emitted code of a body returns. -/
theorem Compiled.returnsAs (h : Compiled V E ps σ)
    (hsep : (σ.emittedProgram address word).Separate) (henv : WellBehaved env top)
    (htop : top ≤ 2 ^ 64) (hI : Behaves ps σ.toContext word env top I)
    (hbody : (bodies ps)[k]? = some body) :
    ∃ ty i, ty.params.length ≤ 6 ∧
      StandsAt ps σ.toContext (σ.emittedProgram address word)
        ((functionImports ps).length + k) ty i ∧
      ReturnsAs (σ.emittedProgram address word) env top i ty
        (Calls (functionsOf ps) convention I ((functionImports ps).length + k)) := by
  obtain ⟨ty, i, hstands, hat⟩ := h.exists_bodyAt address word hbody
  have hP := h.implements address word
  have hdisc := (h.disciplined address word).1
  refine ⟨ty, i, hat.length_params, hstands, fun s results hle => ?_⟩
  obtain ⟨g, hg, hi⟩ := hstands.label
  rw [← calls_iff_eval hP hdisc henv htop (fun f ty l hf hd hl => (hI f ty l hf hd hl).2)
    (fun f ty l hf hd hl => (hI f ty l hf hd hl).1) hstands.type
    (h.simple.callable h.valid.ordered h.noAliases hstands.type).two
    (definition_of_body h.noAliases hbody hstands.type) hg hi hle]
  exact exists_congr fun t =>
    and_congr_left fun _ => returns_iff_eval hdisc hsep henv hat.accepts hle

/-- A state on entry to a function is like itself. -/
theorem matched_entry {s : X86.State} (W : Set Word) (hle : s.sp + 8 ≤ top) :
    Matched W top ∅ ⟨s.mem.load s.sp, s.regs .rbp, s.regs .rsp⟩ .entry s s := by
  refine ⟨⟨rfl, rfl, rfl⟩, ⟨rfl, fun _ _ _ => rfl⟩, fun _ _ _ => rfl, ?_, ?_, hle⟩
  · intro b hb
    cases hb
  · intro b hb
    cases hb

/-- What the optimised code of a body returns, beside the emitted code. -/
theorem Compiled.refines (h : Compiled V E ps σ)
    (hsep : (σ.emittedProgram address word).Separate)
    (hsep' : (σ.program address' word).Separate) (henv : WellBehaved env top)
    (hind : env.Indifferent (Set.range address ∪ Set.range address')) {ty : FuncType} {i : ℕ}
    (hi : StandsAt ps σ.toContext (σ.emittedProgram address word) f ty i) :
    ∃ j, StandsAt ps σ.toContext (σ.program address' word) f ty j ∧
      ∀ s : X86.State, s.sp + 8 ≤ top →
        (∀ t, Returns (σ.emittedProgram address word) env i s t →
          ∃ t', Returns (σ.program address' word) env j s t' ∧ t'.regs = t.regs) ∧
        ∀ t', Returns (σ.program address' word) env j s t' →
          (∃ t, Returns (σ.emittedProgram address word) env i s t ∧ t'.regs = t.regs) ∨
            Eval (σ.emittedProgram address word) env i s none := by
  obtain ⟨g, hg, hi'⟩ := hi.label
  obtain ⟨i', j, hi'', hj, hacc, hacc', hfaith⟩ := h.exists_faithful address address' word hg
  cases hi'.symm.trans hi''
  have hset := h.setting henv hind word
  refine ⟨j, ⟨hi.type, g, hg, hj⟩, fun s hle => ⟨fun t ht => ?_, fun t' ht' => ?_⟩⟩
  · obtain ⟨t', ht', hsame⟩ :=
      (returns_refine hset hsep hsep' hacc hacc' hfaith hle).1 t ht
    exact ⟨t', ht', hsame.regs⟩
  · have heval := ht'.eval hset.disciplined' hsep' henv hacc' hle
    refine (heval.reflect hset hfaith (matched_entry _ hle)).imp_left ?_
    rintro ⟨t, ht, hsame⟩
    exact ⟨t, (returns_iff_eval hset.disciplined hsep henv hacc hle).mpr ht, hsame.regs⟩

/-- Emitted code that comes to nothing has no room on the stack. -/
theorem Compiled.runsOut (h : Compiled V E ps σ)
    (hsep : (σ.emittedProgram address word).Separate) (henv : WellBehaved env top) {i : ℕ}
    (hi : StandsAt ps σ.toContext (σ.emittedProgram address word) f ty i) {s : X86.State}
    (hle : s.sp + 8 ≤ top) (heval : Eval (σ.emittedProgram address word) env i s none) :
    RunsOut (σ.emittedProgram address word) env i s := by
  obtain ⟨g, hg, hi'⟩ := hi.label
  obtain ⟨i', j, hi'', -, hacc, -, -⟩ := h.exists_faithful address address word hg
  cases hi'.symm.trans hi''
  exact heval.runsOut (h.disciplined address word).1 hsep henv hacc hle

/-- Results are read off registers. -/
theorem resultsOf_congr {t t' : X86.State} (h : t'.regs = t.regs) (n : ℕ) :
    resultsOf t' n = resultsOf t n := by
  rw [resultsOf, resultsOf, h]

/-! ## A module that asks for its import

One module and one import, used by the examples of several results: it hands its
argument to the import, which adds one. -/

/-- What `increments` computes. -/
def incremented (_ : ℕ) (args results : List Word) : Prop :=
  ∃ v, args = [v] ∧ results = [v + 1]

/-- It is compiled, and all conditions are met. -/
theorem askingModule_compiled : Compiled Validator.reference Encoder.reference
    (Script.payloads askingModule) (Script.compiling askingModule) where
  sound := Validator.reference_sound
  flat := of_decide_eq_true rfl
  compiled := rfl
  simple := ⟨⟨of_decide_eq_true rfl, of_decide_eq_true rfl, of_decide_eq_true rfl⟩,
    of_decide_eq_true rfl, of_decide_eq_true rfl, by decide +kernel⟩
  noAliases := of_decide_eq_true rfl

/-- Instructions are counted for their addresses, so these are separate. -/
theorem askingModule_separate :
    ((Script.compiling askingModule).emittedProgram (BitVec.ofNat 64) fun _ => 0).Separate ∧
      ((Script.compiling askingModule).program (BitVec.ofNat 64) fun _ => 0).Separate := by
  rw [askingModule_emittedProgram, askingModule_program]
  exact ⟨separate_ofNat (by decide), separate_ofNat (by decide)⟩

/-- All its functions have one type. -/
theorem askingModule_type {f : ℕ} {ty : FuncType}
    (hty : declaredType (Script.payloads askingModule) f = some ty) : ty = ⟨[.i64], [.i64]⟩ := by
  have hlt : f < 2 := lt_of_declaredType hty
  obtain rfl | rfl : f = 0 ∨ f = 1 := by omega
  · exact (Option.some.inj hty).symm
  · exact (Option.some.inj hty).symm

/-- The import does what is said of it, -/
theorem provides_increments (top f : ℕ) (a : Word) : Provides increments top a ⟨[.i64], [.i64]⟩
    (bounded (fun _ => some 0) incremented f) := by
  rintro s n results _ ⟨-, v, hv, rfl⟩ -
  exact ⟨_, rfl, congrArg (fun args => args.map (· + 1)) hv⟩

/-- and nothing else. -/
theorem askingModule_behaves : Behaves (Script.payloads askingModule)
    (Script.compiling askingModule).toContext (fun _ => 0) increments (2 ^ 32)
    (bounded (fun _ => some 0) incremented) := by
  intro f ty l hty _ _
  obtain rfl := askingModule_type hty
  refine ⟨?_, provides_increments _ _ _⟩
  rintro s _ _ rfl
  exact ⟨⟨0, rfl, Nat.zero_le _⟩, _, rfl, rfl⟩

/-- It returns something for every argument. -/
theorem askingModule_total :
    Total (functionsOf (Script.payloads askingModule)) (fun _ => some 0) incremented := by
  intro f ty args hty _ hargs _
  obtain rfl := askingModule_type hty
  obtain ⟨v, rfl⟩ := List.length_eq_one_iff.mp hargs
  exact ⟨_, ⟨v, rfl, rfl⟩, rfl⟩

/-- Where the function of `askingModule` stands. -/
theorem askingModule_standsAt {P : Program} {ty : FuncType} {j : ℕ}
    (h : StandsAt (Script.payloads askingModule) (Script.compiling askingModule).toContext P 1 ty
      j) :
    ty = ⟨[.i64], [.i64]⟩ ∧ P.target 4 = some j := by
  obtain ⟨g, hg, hj⟩ := h.label
  have hg' : (Script.compiling askingModule).got[1]? = some 4 := by decide +kernel
  cases hg.symm.trans hg'
  exact ⟨askingModule_type h.type, hj⟩

/-- What it computes from `5`. -/
theorem askingModule_runs {c : Convention} {n m : ℕ} {I : ℕ → Behaviour} (hn : 8 + m ≤ n)
    (hc : c.arguments [5] = [5]) (hI : I 0 m [5] [6]) :
    Runs (functionsOf (Script.payloads askingModule)) c I n [.localGet 0, .call 0, .end]
      ⟨[], c.arguments [5] ++ List.replicate 0 0⟩ ⟨[6], [5]⟩ := by
  have hle : 8 ≤ n := Nat.le_trans (Nat.le_add_right 8 m) hn
  have hty : (functionsOf (Script.payloads askingModule)).type 0 = some ⟨[.i64], [.i64]⟩ := rfl
  have hcall : Runs (functionsOf (Script.payloads askingModule)) c I n [.call 0, .end]
      ⟨[5].reverse ++ [], [5]⟩ ⟨[6], [5]⟩ :=
    .outside hty rfl rfl hn hI rfl hle (.op rfl hle .nil)
  rw [hc]
  exact .op rfl hle hcall

/-! ## What compiled functions compute -/

/-- **What compiled functions compute.**  Called in any state, with the stack ending
at `top`, a function returns as emitted exactly the results that it computes, by the
convention of emitted code, from the words in the argument registers and in as many
bytes as are below `rsp`.  As optimised it returns them too, and nothing else unless
the emitted code has no room on the stack.

A call that computes nothing in the bytes it has does not return, whether it runs
out of stack or goes on without end.  The convention of emitted code is that of the
compiler, in which a call takes its arguments in the other order and a subtraction
its operands; where these make no difference, it is the one of WebAssembly
(`ParaOS.Parawasm.Standard`). -/
theorem compiled_calls_return (h : Compiled V E ps σ)
    (hsep : (σ.emittedProgram address word).Separate)
    (hsep' : (σ.program address' word).Separate) (henv : WellBehaved env top)
    (hind : env.Indifferent (Set.range address ∪ Set.range address')) (htop : top ≤ 2 ^ 64)
    (hI : Behaves ps σ.toContext word env top I) (hk : k < (bodies ps).length) :
    ∃ ty i j,
      StandsAt ps σ.toContext (σ.emittedProgram address word)
        ((functionImports ps).length + k) ty i ∧
      StandsAt ps σ.toContext (σ.program address' word) ((functionImports ps).length + k) ty j ∧
      ReturnsAs (σ.emittedProgram address word) env top i ty
        (Calls (functionsOf ps) convention I ((functionImports ps).length + k)) ∧
      ∀ s : X86.State, s.sp + 8 ≤ top →
        (∀ results, Calls (functionsOf ps) convention I ((functionImports ps).length + k) s.sp
          (argumentsOf s ty.params.length) results →
          ∃ t, Returns (σ.program address' word) env j s t ∧
            resultsOf t ty.returns.length = results) ∧
        ∀ t, Returns (σ.program address' word) env j s t →
          Calls (functionsOf ps) convention I ((functionImports ps).length + k) s.sp
            (argumentsOf s ty.params.length) (resultsOf t ty.returns.length) ∨
          RunsOut (σ.emittedProgram address word) env i s := by
  obtain ⟨ty, i, -, hi, hreturns⟩ :=
    h.returnsAs hsep henv htop hI (List.getElem?_eq_getElem hk)
  obtain ⟨j, hj, hrefines⟩ := h.refines hsep hsep' henv hind hi
  refine ⟨ty, i, j, hi, hj, hreturns, fun s hle => ⟨fun results hcalls => ?_, fun t' ht' => ?_⟩⟩
  · obtain ⟨t, ht, rfl⟩ := (hreturns s results hle).mpr hcalls
    obtain ⟨t', ht', hregs⟩ := (hrefines s hle).1 t ht
    exact ⟨t', ht', resultsOf_congr hregs _⟩
  · refine ((hrefines s hle).2 t' ht').imp ?_ (h.runsOut hsep henv hi hle)
    rintro ⟨t, ht, hregs⟩
    exact (hreturns s _ hle).mp ⟨t, ht, (resultsOf_congr hregs _).symm⟩

/-- Called with `5`, the function of `askingModule` returns what it computes. -/
theorem compiled_calls_return_instance : ∃ t,
    Returns askingProgram increments 3 ((State.ofStack 64 100 [0]).set .rdi 5) t ∧
      resultsOf t 1 = [6] := by
  obtain ⟨ty, i, j, -, hj, -, hcalls⟩ := compiled_calls_return askingModule_compiled
    askingModule_separate.1 askingModule_separate.2 (wellBehaved_increments _)
    (indifferent_increments _) (by decide) askingModule_behaves (k := 0) (by decide)
  rw [askingModule_program] at hj hcalls
  obtain ⟨rfl, htarget⟩ := askingModule_standsAt hj
  cases htarget
  refine (hcalls _ (by decide)).1 [6] ⟨_, _, 8, _, rfl, rfl, rfl, by decide,
    askingModule_runs (m := 0) (Nat.le_refl 8) rfl ⟨⟨0, rfl, Nat.le_refl 0⟩, 5, rfl, rfl⟩, rfl, rfl⟩

end ParaOS.Parawasm
