import ParaOS.Wasm.Reader

/-!
# A reference validator

`Validator` is the interface of a crate outside this repository, and the results
about `compile` ask of it that it is `Sound`.  `reference` is a validator for the
operators with a typing rule: it remembers the payloads it has been told of,
with the contents of bodies left out, types each body against them as its
operators come in, and checks at the end that every declared function has a type,
every defined function a body, every export a name of its own and every import a pair of
names of its own.

`reference_sound` holds because a body is typed against the payloads before it,
and these have all the declarations of a module in order.

### What it is for

No theorem about `compile` is about this validator.  It shows that what is asked of
one can be met: `Sound`, `KeepsOrder`, `CountsOperands` and the two conditions on
names are satisfied together, by a validator that accepts the modules the examples
of this development are about.  A result with one of them as a hypothesis is
therefore not empty.

It is stricter than it would have to be at one place and looser at another.  It
refuses operators without a typing rule, as none of the results is about a body with
one; and it does not look into tables, memories and nested modules at all, since no
result asks anything of these.
-/

namespace ParaOS.Wasm

/-! ## The validator -/

/-- The state of a body's validation: the payloads in front of it, its function's
type, its locals and the types of the operands, and whether the closing `end` has
come. -/
structure BodyCheck where
  seen : List Payload
  ty : FuncType
  locals : List Ty
  stack : List Ty
  ended : Bool

instance (ps : List Payload) : Decidable (Ordered ps) :=
  inferInstanceAs (Decidable (List.Pairwise _ _))

/-- What is remembered of a payload: nothing of a custom section, and of a body
only that there is one. -/
def Payload.outline : Payload → List Payload
  | .codeSectionEntry _ => [.codeSectionEntry ⟨⟨[], none⟩, ⟨[], none⟩⟩]
  | .customSection _ => []
  | p => [p]

namespace Validator

/-- Any rejection. -/
def reject {α : Type} (message : String) : Except BinaryReaderError α := .error ⟨message, 0⟩

/-- One operator of a body. -/
def checkOp (φ : BodyCheck) (op : Operator) : Except BinaryReaderError BodyCheck :=
  if φ.ended then reject "operators remaining after end of function"
  else if op = .end then
    if φ.stack = φ.ty.returns.reverse then .ok { φ with ended := true }
    else reject "type mismatch at end of function"
  else
    match typeOp ⟨declaredType φ.seen, φ.locals⟩ φ.stack op with
    | some stack => .ok { φ with stack := stack }
    | none => reject "type mismatch"

/-- Whether every declared function has a function type and every defined one a
body, no name is exported twice and nothing imported twice. -/
def complete (ps : List Payload) : Bool :=
  (funcSpace ps).all (fun d => d.typeIndex?.all fun t => (typeAt ps t).isSome) &&
    (bodies ps).length == (definedFunctions ps).length && decide (DistinctExports ps) &&
    decide (DistinctImports ps)

/-- A payload that is a whole section. -/
def checkPayload (σ : List Payload) (p : Payload) : Except BinaryReaderError (List Payload) :=
  if Ordered (σ ++ [p]) then .ok (σ ++ [p]) else reject "section out of order"

/-- The start of a body. -/
def checkEntry (σ : List Payload) : Except BinaryReaderError (BodyCheck × List Payload) :=
  let σ' := σ ++ [.codeSectionEntry ⟨⟨[], none⟩, ⟨[], none⟩⟩]
  if Ordered σ' then
    match (definedFunctions σ)[(bodies σ).length]?.bind (typeAt σ) with
    | some ty => .ok (⟨σ, ty, ty.params, [], false⟩, σ')
    | none => reject "code section entry exceeds number of functions"
  else reject "section out of order"

/-- A group of declared locals.  The limit is on params and declared locals
together, and a group that goes beyond it is refused as a whole. -/
def checkLocals (φ : BodyCheck) (n : ℕ) (ty : Ty) : Except BinaryReaderError BodyCheck :=
  if φ.locals.length + n ≤ maxFunctionLocals then
    .ok { φ with locals := φ.locals ++ List.replicate n ty }
  else reject "too many locals: locals exceed maximum"

/-- A group that is let through is within the limit, and its locals come behind the
others. -/
theorem checkLocals_eq_ok {φ φ' : BodyCheck} {n : ℕ} {ty : Ty} (h : checkLocals φ n ty = .ok φ') :
    φ.locals.length + n ≤ maxFunctionLocals ∧
      φ' = { φ with locals := φ.locals ++ List.replicate n ty } := by
  rw [checkLocals] at h
  split_ifs at h with hle
  · cases h
    exact ⟨hle, rfl⟩
  · cases h

/-- The end of a body. -/
def checkFinish (φ : BodyCheck) : Except BinaryReaderError Unit :=
  if φ.ended then .ok () else reject "function body must end with end opcode"

/-- The end of the module. -/
def checkEnd (σ : List Payload) : Except BinaryReaderError Unit :=
  if complete σ then .ok () else reject "module is incomplete"

/-- The reference validator. -/
def reference : Validator where
  overflowChecks := true
  St := List Payload
  FuncSt := BodyCheck
  new := []
  payload := checkPayload
  codeSectionEntry := checkEntry
  defineLocals := checkLocals
  declared φ := φ.locals.length
  limit φ n ty φ' h := by
    obtain ⟨hle, rfl⟩ := checkLocals_eq_ok h
    simpa using hle
  op := checkOp
  operandStackHeight φ := φ.stack.length
  finish := checkFinish
  endModule := checkEnd

/-- The calls for a body. -/
def checkBody (σ : List Payload) (b : FunctionBody) : Except BinaryReaderError (List Payload) := do
  let (φ, σ') ← checkEntry σ
  let φ ← b.locals.items.foldlM (fun φ g => checkLocals φ g.1 g.2) φ
  let φ ← b.operators.items.foldlM checkOp φ
  checkFinish φ
  return σ'

/-- The calls for a payload. -/
def checkFeed (σ : List Payload) : Payload → Except BinaryReaderError (List Payload)
  | .codeSectionEntry b => checkBody σ b
  | .customSection _ => .ok σ
  | p => checkPayload σ p

/-- The calls made for a payload, in the form in which they are reasoned about here.
-/
theorem feed_reference : reference.feed = checkFeed := by
  funext σ p
  cases p <;> rfl

/-! ## Soundness

What is remembered of a module is its outline, in which bodies have no contents.  It
has the same index spaces, so that typing against it is typing against the module
itself. -/

/-- What is read off a list of payloads one by one can be read off the outline, if
that is so for each payload. -/
theorem outline_flatMap {α : Type} {f : Payload → List α} (ps : List Payload)
    (hf : ∀ p : Payload, p.outline.flatMap f = f p) :
    (ps.flatMap Payload.outline).flatMap f = ps.flatMap f := by
  rw [List.flatMap_assoc]
  exact List.flatMap_congr fun p _ => hf p

/-- An outline has the index spaces and the order of the whole. -/
theorem outline_spaces (ps : List Payload) :
    typeSpace (ps.flatMap Payload.outline) = typeSpace ps ∧
      funcSpace (ps.flatMap Payload.outline) = funcSpace ps ∧
      definedFunctions (ps.flatMap Payload.outline) = definedFunctions ps ∧
      (bodies (ps.flatMap Payload.outline)).length = (bodies ps).length ∧
      exports (ps.flatMap Payload.outline) = exports ps ∧
      imports (ps.flatMap Payload.outline) = imports ps ∧
      (Ordered (ps.flatMap Payload.outline) ↔ Ordered ps) := by
  refine ⟨outline_flatMap ps fun p => ?_, outline_flatMap ps fun p => ?_,
    outline_flatMap ps fun p => ?_, ?_, outline_flatMap ps fun p => ?_,
    outline_flatMap ps fun p => ?_, ?_⟩
  · cases p <;> simp [Payload.outline, Payload.typeDefs]
  · cases p <;> simp [Payload.outline, Payload.funcDecls]
  · cases p <;> simp [Payload.outline, Payload.definedFunctions]
  · have := outline_flatMap (f := fun p => p.bodies.map fun _ => ()) ps fun p => by
      cases p <;> simp [Payload.outline, Payload.bodies]
    simpa [bodies, List.length_flatMap] using congrArg List.length this
  · cases p <;> simp [Payload.outline, Payload.exports]
  · cases p <;> simp [Payload.outline, Payload.imports]
  · have := outline_flatMap (f := fun p => p.order.toList) ps fun p => by
      cases p <;> simp [Payload.outline, Payload.order]
    rw [Ordered, Ordered, List.filterMap_eq_flatMap_toList, this, List.filterMap_eq_flatMap_toList]

/-- A computation that succeeds is one step that succeeds and another one after it.
-/
theorem except_bind_eq_ok {ε α β : Type} {x : Except ε α} {f : α → Except ε β} {b : β} :
    (x >>= f) = .ok b ↔ ∃ a, x = .ok a ∧ f a = .ok b := by
  cases x with
  | ok a => simp [bind, Except.bind]
  | error e => simp [bind, Except.bind]

/-- Declared locals come behind the params. -/
theorem checkLocals_foldlM {φ φ' : BodyCheck} {groups : List (ℕ × Ty)}
    (h : groups.foldlM (fun φ g => checkLocals φ g.1 g.2) φ = .ok φ') :
    φ' = { φ with locals := φ.locals ++ declaredLocals groups } := by
  induction groups generalizing φ with
  | nil =>
      cases h
      simp [declaredLocals]
  | cons g groups ih =>
      rw [List.foldlM_cons, except_bind_eq_ok] at h
      obtain ⟨φ₁, hφ₁, h⟩ := h
      obtain ⟨-, rfl⟩ := checkLocals_eq_ok hφ₁
      rw [ih h]
      simp [declaredLocals]

/-- Operators that are let through are well typed. -/
theorem checkOp_foldlM {φ φ' : BodyCheck} {ops : List Operator}
    (h : ops.foldlM checkOp φ = .ok φ') (hφ : φ.ended = false) (hφ' : φ'.ended = true) :
    ∃ init, ops = init ++ [.end] ∧
      typeOps ⟨declaredType φ.seen, φ.locals⟩ φ.stack init = some φ.ty.returns.reverse := by
  induction ops generalizing φ with
  | nil =>
      cases h
      rw [hφ] at hφ'
      cases hφ'
  | cons op ops ih =>
      rw [List.foldlM_cons, except_bind_eq_ok] at h
      obtain ⟨φ₁, hop, hops⟩ := h
      rw [checkOp, hφ, if_neg Bool.false_ne_true] at hop
      split_ifs at hop with hend hstack
      · cases hop
        cases ops with
        | nil => exact ⟨[], by rw [hend]; rfl, by rw [typeOps, hstack]⟩
        | cons op' ops =>
            rw [List.foldlM_cons, except_bind_eq_ok] at hops
            obtain ⟨φ₂, hop', -⟩ := hops
            cases hop'
      · cases hop
      · split at hop
        · rename_i stack htype
          cases hop
          obtain ⟨init, rfl, hinit⟩ := ih hops rfl
          exact ⟨op :: init, rfl, by rw [typeOps, htype]; exact hinit⟩
        · cases hop

/-- A body that is let through has a type, and is well typed. -/
theorem checkBody_eq_ok {σ σ' : List Payload} {b : FunctionBody} (h : checkBody σ b = .ok σ') :
    Ordered σ' ∧ σ' = σ ++ (Payload.codeSectionEntry b).outline ∧
      ∃ ty, (definedFunctions σ)[(bodies σ).length]?.bind (typeAt σ) = some ty ∧
        WellTyped ⟨declaredType σ, ty.params ++ declaredLocals b.locals.items⟩ ty.returns
          b.operators.items := by
  rw [checkBody, except_bind_eq_ok] at h
  obtain ⟨⟨φ, σ₁⟩, hentry, h⟩ := h
  simp only [except_bind_eq_ok] at h
  obtain ⟨φ₁, hlocals, φ₂, hops, _, hfinish, hσ⟩ := h
  obtain rfl := checkLocals_foldlM hlocals
  cases hσ
  simp only [checkEntry] at hentry
  split_ifs at hentry with hord
  · split at hentry
    · rename_i ty hty
      cases hentry
      have hended : φ₂.ended = true := by
        by_contra hne
        rw [checkFinish, if_neg hne] at hfinish
        cases hfinish
      exact ⟨hord, rfl, ty, hty, checkOp_foldlM hops rfl hended⟩
    · cases hentry
  · cases hentry

/-- What the validator remembers, in order. -/
theorem checkFeed_eq_ok {σ σ' : List Payload} {p : Payload} (hσ : Ordered σ)
    (h : checkFeed σ p = .ok σ') : Ordered σ' ∧ σ' = σ ++ p.outline := by
  have hpayload : ∀ q : Payload, checkPayload σ q = .ok σ' → Ordered σ' ∧ σ' = σ ++ [q] := by
    intro q hq
    rw [checkPayload] at hq
    split_ifs at hq with hord
    · cases hq
      exact ⟨hord, rfl⟩
    · cases hq
  cases p with
  | codeSectionEntry b =>
      obtain ⟨hord, hσ', -⟩ := checkBody_eq_ok h
      exact ⟨hord, hσ'⟩
  | customSection bytes =>
      cases h
      exact ⟨hσ, by simp [Payload.outline]⟩
  | _ => exact hpayload _ h

/-- What has been let through is in order, and remembered in outline. -/
theorem checkFeed_foldlM {σ σ' : List Payload} {ps : List Payload} (hσ : Ordered σ)
    (h : ps.foldlM checkFeed σ = .ok σ') :
    Ordered σ' ∧ σ' = σ ++ ps.flatMap Payload.outline := by
  induction ps generalizing σ with
  | nil =>
      cases h
      exact ⟨hσ, by simp⟩
  | cons p ps ih =>
      rw [List.foldlM_cons, except_bind_eq_ok] at h
      obtain ⟨σ₁, hp, hps⟩ := h
      obtain ⟨hσ₁, rfl⟩ := checkFeed_eq_ok hσ hp
      obtain ⟨hord, hσ'⟩ := ih hσ₁ hps
      exact ⟨hord, by rw [hσ']; simp⟩

/-- What is remembered when a body is come to: the type of its function, and all
declarations of the module, since these come before the code. -/
theorem declared_of_prefix {pre post σ : List Payload} {b : FunctionBody} {t : ℕ} {ty : FuncType}
    (h : pre.foldlM checkFeed [] = .ok σ) (hord : Ordered (pre ++ .codeSectionEntry b :: post))
    (ht : (definedFunctions (pre ++ .codeSectionEntry b :: post))[(bodies pre).length]? = some t)
    (hty : typeAt (pre ++ .codeSectionEntry b :: post) t = some ty) :
    (definedFunctions σ)[(bodies σ).length]?.bind (typeAt σ) = some ty ∧
      declaredType σ = declaredType (pre ++ .codeSectionEntry b :: post) := by
  obtain ⟨-, rfl⟩ := checkFeed_foldlM (σ := []) List.Pairwise.nil h
  rw [List.nil_append]
  obtain ⟨htypes, hfuncs, hdefined, hbodies, -⟩ := outline_spaces pre
  obtain ⟨hts, hfs, -, hds⟩ := declarations_of_ordered hord
  rw [hds] at ht
  rw [typeAt, hts] at hty
  refine ⟨?_, ?_⟩
  · rw [hdefined, hbodies, ht, Option.bind_some, typeAt, htypes, hty]
  · funext f
    simp only [declaredType, typeAt, htypes, hfuncs, hts, hfs]

/-- The bodies of a module that is let through are well typed. -/
theorem wellTyped_of_foldlM {ps σ : List Payload} {k t : ℕ} {b : FunctionBody} {ty : FuncType}
    (h : ps.foldlM checkFeed [] = .ok σ) (hord : Ordered ps) (hb : (bodies ps)[k]? = some b)
    (ht : (definedFunctions ps)[k]? = some t) (hty : typeAt ps t = some ty) :
    WellTyped ⟨declaredType ps, ty.params ++ declaredLocals b.locals.items⟩ ty.returns
      b.operators.items := by
  obtain ⟨pre, post, rfl, rfl⟩ := exists_of_bodies hb
  rw [List.foldlM_append, except_bind_eq_ok] at h
  obtain ⟨σ₀, hpre, hpost⟩ := h
  rw [List.foldlM_cons, except_bind_eq_ok] at hpost
  obtain ⟨σ₁, hcode, -⟩ := hpost
  obtain ⟨-, -, ty', hty', htyped⟩ := checkBody_eq_ok hcode
  obtain ⟨htype, hdecl⟩ := declared_of_prefix hpre hord ht hty
  rw [htype] at hty'
  cases hty'
  rwa [hdecl] at htyped

/-- What is checked at the end, of the whole module. -/
theorem complete_of_checkEnd {ps : List Payload}
    (hend : checkEnd (ps.flatMap Payload.outline) = .ok ()) :
    (∀ d ∈ funcSpace ps, ∀ t, d.typeIndex? = some t → ∃ ty, typeAt ps t = some ty) ∧
      (bodies ps).length = (definedFunctions ps).length ∧ DistinctExports ps ∧
      DistinctImports ps := by
  obtain ⟨htypes, hfuncs, hdefined, hbodies, hexports, himports, -⟩ := outline_spaces ps
  have hcomplete : complete (ps.flatMap Payload.outline) = true := by
    by_contra hne
    rw [checkEnd, if_neg hne] at hend
    cases hend
  rw [complete, hfuncs, hbodies, hdefined, Bool.and_eq_true, Bool.and_eq_true, Bool.and_eq_true,
    List.all_eq_true, beq_iff_eq, decide_eq_true_eq, decide_eq_true_eq, DistinctExports, hexports,
    DistinctImports, himports] at hcomplete
  obtain ⟨⟨⟨hall, hcount⟩, hexported⟩, himported⟩ := hcomplete
  refine ⟨fun d hd t ht => ?_, hcount, hexported, himported⟩
  have := hall d hd
  rw [ht, Option.all_some, typeAt, htypes] at this
  exact Option.isSome_iff_exists.mp this

/-- A module that is let through to its end is valid. -/
theorem valid_of_foldlM {ps σ : List Payload} (h : ps.foldlM checkFeed [] = .ok σ)
    (hend : checkEnd σ = .ok ()) : Valid ps := by
  obtain ⟨hord, hσ⟩ := checkFeed_foldlM (σ := []) List.Pairwise.nil h
  rw [List.nil_append] at hσ
  subst hσ
  obtain ⟨htypes, hcount, -⟩ := complete_of_checkEnd hend
  have hord := (outline_spaces ps).2.2.2.2.2.2.mp hord
  exact ⟨hord, htypes, hcount, fun k body t ty hb ht hty _ => wellTyped_of_foldlM h hord hb ht hty⟩

/-- The reference validator does not know of nested modules. -/
theorem reference_valid {ps : List Payload} (h : reference.Accepts ps) : Valid ps := by
  obtain ⟨σ, hfold, hend⟩ := h
  rw [feed_reference] at hfold
  exact valid_of_foldlM hfold hend

/-- **The reference validator is sound.**  Of modules with others inside nothing is
asked but the order. -/
theorem reference_sound : reference.Sound :=
  ⟨fun _ h => (reference_valid h).ordered, fun _ h _ => reference_valid h⟩

/-- The reference validator refuses a section out of order when it comes. -/
theorem reference_keepsOrder : reference.KeepsOrder := by
  intro ps σ h
  rw [feed_reference] at h
  obtain ⟨hord, hσ⟩ := checkFeed_foldlM (σ := []) List.Pairwise.nil h
  rw [List.nil_append] at hσ
  subst hσ
  exact (outline_spaces ps).2.2.2.2.2.2.mp hord

/-- The reference validator lets no name be exported twice, and no two names be
imported twice. -/
theorem reference_distinct {ps : List Payload} (h : reference.Accepts ps) :
    DistinctExports ps ∧ DistinctImports ps := by
  obtain ⟨σ, hfold, hend⟩ := h
  rw [feed_reference] at hfold
  obtain ⟨-, hσ⟩ := checkFeed_foldlM (σ := []) List.Pairwise.nil hfold
  rw [List.nil_append] at hσ
  subst hσ
  exact (complete_of_checkEnd hend).2.2

/-- No name is exported twice by a module it accepts, -/
theorem reference_distinctExports {ps : List Payload} (h : reference.Accepts ps) :
    DistinctExports ps := (reference_distinct h).1

/-- and no pair of names imported twice. -/
theorem reference_distinctImports {ps : List Payload} (h : reference.Accepts ps) :
    DistinctImports ps := (reference_distinct h).2

/-- The stack of types is that of the operators so far.  The closing `end` leaves it
as it is. -/
theorem checkOp_stack {φ φ' : BodyCheck} {ops : List Operator}
    (h : ops.foldlM checkOp φ = .ok φ') :
    typeOps ⟨declaredType φ.seen, φ.locals⟩ φ.stack (ops.filter (· ≠ .end)) = some φ'.stack := by
  induction ops generalizing φ with
  | nil =>
      cases h
      rfl
  | cons op ops ih =>
      rw [List.foldlM_cons, except_bind_eq_ok] at h
      obtain ⟨φ₁, hop, hops⟩ := h
      rw [checkOp] at hop
      split_ifs at hop with hended hend hstack
      · cases hop
      · cases hop
        rw [List.filter_cons_of_neg (by simp [hend])]
        exact ih (φ := { φ with ended := true }) hops
      · cases hop
      · split at hop
        · rename_i stack htype
          cases hop
          rw [List.filter_cons_of_pos (by simp [hend]), typeOps, htype]
          exact ih hops
        · cases hop

/-- The reference validator counts operands. -/
theorem reference_countsOperands : reference.CountsOperands := by
  intro ps k t b ty φ φ₁ φ₂ ops st haccepts _ henters ht hty hlocals _ hops hst
  obtain ⟨pre, post, σ, σ', rfl, rfl, hpre, hentry⟩ := henters
  rw [feed_reference] at hpre
  obtain ⟨htype, hdecl⟩ := declared_of_prefix hpre (reference_valid haccepts).ordered ht hty
  change checkEntry σ = _ at hentry
  simp only [checkEntry, htype] at hentry
  split_ifs at hentry
  · cases hentry
    obtain rfl := checkLocals_foldlM hlocals
    have hstack := checkOp_stack hops
    simp only [hdecl] at hstack
    rw [operandsAfter, hstack] at hst
    cases hst
    rfl
  · cases hentry

end Validator

end ParaOS.Wasm
