import ParaOS.Wasm.Syntax

/-!
# What WebAssembly says about a module

The two standards a compiler is held to, for the operators it has code for.

* **Validity** (`Valid`): sections come in order, every declared function names
  a function type, there is one body for each defined function, and each body is
  well typed (`WellTyped`): operators are checked against a stack of operand
  types, and the closing `end` leaves exactly the results.
* **Execution** (`step`, `steps`) of the operators that do not leave the
  function: 64-bit arithmetic is modulo `2 ^ 64`, and `i64.sub` subtracts the
  top of the stack from the operand below it.  `step32` and `steps32` are the same
  for functions that have only `i32` values.

With the module-linking proposal switched on, as `compile` has it, the type,
import, alias, instance and module sections may come in any order and
repeatedly, but all of them before the function section.  So no payload after a
body declares anything (`declarations_of_ordered`).

### What is load-bearing

`Valid` is a hypothesis of the results about `compile`, met by every module the
validator accepts (`Validator.Sound`), and so it should say no more than the
standard does.  Bodies are typed only as far as all their operators have a rule
here: of the others nothing is asked, as a body with one of them is not compiled.

`Ordered` is weaker than the order of the core standard.  With module linking the
sections that declare things may be mixed and repeated, and what is left is that
they come before code.  That is all `compile` relies on: when a body comes, the
index spaces are complete.

`DistinctExports` and `DistinctImports` are not part of `Valid`.  Where they are
needed they are named.
-/

namespace ParaOS.Wasm

open Machine

/-! ## Validity

Sections first, then the typing of operators.  Types are lists with the top of the
stack first, and a function's params and results are given in the order of the
module, so that they are reversed on the stack. -/

/-- The rank of a section in the order a module must follow; the header, custom
sections and the markers between payloads have none. -/
def Payload.order : Payload → Option ℕ
  | .typeSection _ => some 1
  | .importSection _ => some 1
  | .aliasSection _ => some 1
  | .instanceSection _ => some 1
  | .moduleSectionStart _ => some 1
  | .functionSection _ => some 2
  | .tableSection _ => some 3
  | .memorySection _ => some 4
  | .tagSection _ => some 5
  | .globalSection _ => some 6
  | .exportSection _ => some 7
  | .startSection _ => some 8
  | .elementSection _ => some 9
  | .dataCountSection _ => some 10
  | .codeSectionStart _ => some 11
  | .codeSectionEntry _ => some 11
  | .dataSection _ => some 12
  | .version _ => none
  | .customSection _ => none
  | .moduleSectionEntry => none
  | .unknownSection _ => none
  | .end => none

/-- Sections come in order. -/
def Ordered (ps : List Payload) : Prop := (ps.filterMap Payload.order).Pairwise (· ≤ ·)

/-- What an operator is typed against: the functions' types and the locals'. -/
structure TypeContext where
  func : ℕ → Option FuncType
  locals : List Ty

/-- Take the types `ts` off the operand stack, the first of them first.  There is no
polymorphic stack: none of the operators here leaves the rest of a body unreachable.
-/
def popTypes : List Ty → List Ty → Option (List Ty)
  | [], st => some st
  | t :: ts, t' :: st => if t = t' then popTypes ts st else none
  | _ :: _, [] => none

/-- The operand types after an operator, top of the stack first; `none` where the
standard has no typing. -/
def typeOp (C : TypeContext) (st : List Ty) : Operator → Option (List Ty)
  | .i64Const _ => some (.i64 :: st)
  | .i64Add => (popTypes [.i64, .i64] st).map (.i64 :: ·)
  | .i64Sub => (popTypes [.i64, .i64] st).map (.i64 :: ·)
  | .i32Add => (popTypes [.i32, .i32] st).map (.i32 :: ·)
  | .i32Sub => (popTypes [.i32, .i32] st).map (.i32 :: ·)
  | .call f => (C.func f).bind fun ty =>
      (popTypes ty.params.reverse st).map (ty.returns.reverse ++ ·)
  | .nop => some st
  | .localGet i => C.locals[i]?.map (· :: st)
  | .localSet i => C.locals[i]?.bind fun t => popTypes [t] st
  | .end => none
  | .unimplemented _ => none

/-- The operand types after a sequence of operators. -/
def typeOps (C : TypeContext) : List Ty → List Operator → Option (List Ty)
  | st, [] => some st
  | st, op :: ops => (typeOp C st op).bind fun st' => typeOps C st' ops

/-- A body is well typed: its operators up to the one closing `end` turn the
empty stack into the results, the last of them on top. -/
def WellTyped (C : TypeContext) (returns : List Ty) (ops : List Operator) : Prop :=
  ∃ init, ops = init ++ [.end] ∧ typeOps C [] init = some returns.reverse

/-- The operand types after the first operators of a body; the closing `end`
leaves the results where they are. -/
def operandsAfter (C : TypeContext) (ops : List Operator) : Option (List Ty) :=
  typeOps C [] (ops.filter (· ≠ .end))

/-- Whether `handle_instruction` has code for the operator. -/
def Operator.implemented : Operator → Bool
  | .unimplemented _ => false
  | _ => true

/-- The facts of validity a compiler may rely on.  Bodies are typed here only as
far as the operators in them have a rule above. -/
structure Valid (ps : List Payload) : Prop where
  ordered : Ordered ps
  types : ∀ d ∈ funcSpace ps, ∀ t, d.typeIndex? = some t → ∃ ty, typeAt ps t = some ty
  bodyCount : (bodies ps).length = (definedFunctions ps).length
  typed : ∀ (k : ℕ) (body : FunctionBody) (t : ℕ) (ty : FuncType), (bodies ps)[k]? = some body →
    (definedFunctions ps)[k]? = some t → typeAt ps t = some ty →
    (∀ op ∈ body.operators.items, op.implemented) →
    WellTyped ⟨declaredType ps, ty.params ++ declaredLocals body.locals.items⟩ ty.returns
      body.operators.items

/-- No name is exported twice. -/
def DistinctExports (ps : List Payload) : Prop := ((exports ps).map Export.field).Nodup

instance (ps : List Payload) : Decidable (DistinctExports ps) :=
  inferInstanceAs (Decidable (List.Nodup _))

/-- Nothing is imported twice under the same two names.  Core WebAssembly permits
that; a validator with the module linking proposal, which is the one `compile`
makes, refuses the second import. -/
def DistinctImports (ps : List Payload) : Prop :=
  ((imports ps).map fun i => (i.module, i.field)).Nodup

instance (ps : List Payload) : Decidable (DistinctImports ps) :=
  inferInstanceAs (Decidable (List.Nodup _))

/-- The function with index `f` is defined in the module, by body `k`. -/
def DefinedBy (ps : List Payload) (f k : ℕ) : Prop :=
  (∃ d, (funcSpace ps)[f]? = some d ∧ d.isDefined = true) ∧
    ((funcSpace ps).take f).countP FuncDecl.isDefined = k

/-- A function is exported under a name, and defined in the module by body `k`. -/
def ExportsDefined (ps : List Payload) (name : String) (k : ℕ) : Prop :=
  ∃ e ∈ exports ps, e.field = name ∧ e.kind = .function ∧ DefinedBy ps e.index k

/-! ### Declarations come before code -/

/-- A payload that declares nothing. -/
structure Payload.Silent (p : Payload) : Prop where
  typeDefs : p.typeDefs = []
  functionImports : p.functionImports = []
  definedFunctions : p.definedFunctions = []
  funcDecls : p.funcDecls = []

/-- Sections from the code section on declare nothing. -/
theorem Payload.silent_of_order {p : Payload} (h : ∀ k, p.order = some k → 11 ≤ k) : p.Silent := by
  cases p with
  | typeSection r => exact absurd (h 1 rfl) (by decide)
  | importSection r => exact absurd (h 1 rfl) (by decide)
  | aliasSection r => exact absurd (h 1 rfl) (by decide)
  | functionSection r => exact absurd (h 2 rfl) (by decide)
  | _ => exact ⟨rfl, rfl, rfl, rfl⟩

/-- In a module in order the ranks after a payload are no smaller than its own. -/
theorem Ordered.le_of_mem {pre post : List Payload} {p q : Payload} {r k : ℕ}
    (h : Ordered (pre ++ p :: post)) (hp : p.order = some r) (hq : q ∈ post)
    (hk : q.order = some k) : r ≤ k := by
  rw [Ordered, List.filterMap_append, List.filterMap_cons, hp] at h
  have hpost := (List.pairwise_append.mp h).2.1
  exact List.rel_of_pairwise_cons hpost (List.mem_filterMap.mpr ⟨q, hq, hk⟩)

/-- A module in order is in order from any payload on, -/
theorem Ordered.tail {p : Payload} {ps : List Payload} (h : Ordered (p :: ps)) : Ordered ps := by
  rw [Ordered, List.filterMap_cons] at h
  split at h
  · exact h
  · exact h.of_cons

/-- and up to any payload. -/
theorem Ordered.left {ps ps' : List Payload} (h : Ordered (ps ++ ps')) : Ordered ps := by
  rw [Ordered, List.filterMap_append] at h
  exact (List.pairwise_append.mp h).1

/-- What comes after a body declares nothing. -/
theorem Ordered.silent_after_code {pre post : List Payload} {b : FunctionBody}
    (h : Ordered (pre ++ .codeSectionEntry b :: post)) : ∀ p ∈ post, p.Silent :=
  fun _ hp => Payload.silent_of_order fun _ hk => h.le_of_mem rfl hp hk

/-- What a list of silent payloads contributes to the index spaces. -/
theorem flatMap_eq_nil_of_silent {α : Type} {f : Payload → List α} {ps : List Payload}
    (hf : ∀ p : Payload, p.Silent → f p = []) (h : ∀ p ∈ ps, p.Silent) : ps.flatMap f = [] := by
  rw [List.flatMap_eq_nil_iff]
  exact fun p hp => hf p (h p hp)

/-- **Declarations are complete when code begins**: every index space of the module
is that of the payloads before a body.  So it makes no difference that `compile`
looks a function up when its body comes and not at the end. -/
theorem declarations_of_ordered {pre post : List Payload} {b : FunctionBody}
    (h : Ordered (pre ++ .codeSectionEntry b :: post)) :
    typeSpace (pre ++ .codeSectionEntry b :: post) = typeSpace pre ∧
      funcSpace (pre ++ .codeSectionEntry b :: post) = funcSpace pre ∧
      functionImports (pre ++ .codeSectionEntry b :: post) = functionImports pre ∧
      definedFunctions (pre ++ .codeSectionEntry b :: post) = definedFunctions pre := by
  have hpost := h.silent_after_code
  simp only [typeSpace, funcSpace, functionImports, definedFunctions, List.flatMap_append,
    List.flatMap_cons, flatMap_eq_nil_of_silent (fun p hp => hp.typeDefs) hpost,
    flatMap_eq_nil_of_silent (fun p hp => hp.funcDecls) hpost,
    flatMap_eq_nil_of_silent (fun p hp => hp.functionImports) hpost,
    flatMap_eq_nil_of_silent (fun p hp => hp.definedFunctions) hpost]
  simp [Payload.typeDefs, Payload.funcDecls, Payload.functionImports, Payload.definedFunctions]

/-- In a module in order the defined functions come last. -/
theorem funcSpace_of_ordered {ps : List Payload} (h : Ordered ps) :
    ∃ front, funcSpace ps = front ++ (definedFunctions ps).map .defined ∧
      (∀ d ∈ front, d.isDefined = false) ∧
      front.length = (functionImports ps).length + (functionAliases ps).length := by
  induction ps with
  | nil => exact ⟨[], rfl, by simp, rfl⟩
  | cons p ps ih =>
      obtain ⟨front, hspace, hfront, hlen⟩ := ih h.tail
      have hsum : ∀ q : Payload, q.definedFunctions = [] →
          q.funcDecls.length = q.functionImports.length + q.functionAliases.length ∧
            ∀ d ∈ q.funcDecls, d.isDefined = false := by
        intro q hq
        cases q with
        | importSection r =>
            refine ⟨by simp [Payload.funcDecls, Payload.functionImports, Payload.functionAliases],
              fun d hd => ?_⟩
            obtain ⟨t, -, rfl⟩ := List.mem_map.mp hd
            rfl
        | aliasSection r =>
            refine ⟨by simp [Payload.funcDecls, Payload.functionImports, Payload.functionAliases],
              fun d hd => ?_⟩
            obtain ⟨ty, -, rfl⟩ := List.mem_map.mp hd
            rfl
        | functionSection r =>
            have hitems : r.items = [] := hq
            simp [Payload.funcDecls, Payload.functionImports, Payload.functionAliases, hitems]
        | _ => exact ⟨rfl, by simp [Payload.funcDecls]⟩
      rw [funcSpace, functionImports, functionAliases, definedFunctions, List.flatMap_cons,
        List.flatMap_cons, List.flatMap_cons, List.flatMap_cons, ← funcSpace, ← functionImports,
        ← functionAliases, ← definedFunctions, hspace]
      by_cases hp : p.definedFunctions = []
      · obtain ⟨hlen', hdecls⟩ := hsum p hp
        refine ⟨p.funcDecls ++ front, by simp [hp], ?_, ?_⟩
        · intro d hd
          exact (List.mem_append.mp hd).elim (hdecls d) (hfront d)
        · simp only [List.length_append, hlen, hlen']
          omega
      · cases p with
        | functionSection r =>
            -- behind a function section nothing is imported or aliased
            have hord : Ordered ([] ++ .functionSection r :: ps) := h
            have hlate : ∀ q ∈ ps, q.functionImports = [] ∧ q.functionAliases = [] := by
              intro q hq
              cases q with
              | importSection r' => exact absurd (hord.le_of_mem rfl hq rfl) (by decide)
              | aliasSection r' => exact absurd (hord.le_of_mem rfl hq rfl) (by decide)
              | _ => exact ⟨rfl, rfl⟩
            have himports : functionImports ps = [] :=
              List.flatMap_eq_nil_iff.mpr fun q hq => (hlate q hq).1
            have haliases : functionAliases ps = [] :=
              List.flatMap_eq_nil_iff.mpr fun q hq => (hlate q hq).2
            rw [himports, haliases] at hlen
            obtain rfl := List.length_eq_zero_iff.mp hlen
            exact ⟨[], by simp [Payload.funcDecls, Payload.definedFunctions], by simp, by
              simp [himports, haliases, Payload.functionImports, Payload.functionAliases]⟩
        | _ => exact absurd rfl hp

/-- A body is that of a defined function, and that has a type. -/
theorem Valid.exists_typeAt {ps : List Payload} (h : Valid ps) {k : ℕ} {body : FunctionBody}
    (hbody : (bodies ps)[k]? = some body) :
    ∃ t ty, (definedFunctions ps)[k]? = some t ∧ typeAt ps t = some ty := by
  obtain ⟨hk, -⟩ := List.getElem?_eq_some_iff.mp hbody
  rw [h.bodyCount] at hk
  obtain ⟨front, hspace, -⟩ := funcSpace_of_ordered h.ordered
  have hmem : .defined (definedFunctions ps)[k] ∈ funcSpace ps := by
    rw [hspace]
    exact List.mem_append_right _ (List.mem_map_of_mem (List.getElem_mem hk))
  obtain ⟨ty, hty⟩ := h.types _ hmem _ rfl
  exact ⟨_, ty, List.getElem?_eq_getElem hk, hty⟩

/-- The functions that are defined, and their bodies. -/
theorem definedBy_iff {ps : List Payload} (h : Ordered ps) {f k : ℕ} :
    DefinedBy ps f k ↔
      f = (functionImports ps).length + (functionAliases ps).length + k ∧
        k < (definedFunctions ps).length := by
  obtain ⟨front, hspace, hfront, hlen⟩ := funcSpace_of_ordered h
  have hnone : front.countP FuncDecl.isDefined = 0 :=
    List.countP_eq_zero.mpr fun d hd => by simp [hfront d hd]
  have hall : ∀ ts : List ℕ, (ts.map FuncDecl.defined).countP FuncDecl.isDefined = ts.length := by
    intro ts
    rw [List.countP_map]
    exact List.countP_eq_length.mpr fun t _ => rfl
  rw [DefinedBy, hspace, ← hlen]
  constructor
  · rintro ⟨⟨d, hd, hdefined⟩, hcount⟩
    rcases Nat.lt_or_ge f front.length with hlt | hge
    · rw [List.getElem?_append_left hlt] at hd
      rw [hfront d (List.mem_of_getElem? hd)] at hdefined
      cases hdefined
    · rw [List.getElem?_append_right hge, List.getElem?_map, Option.map_eq_some_iff] at hd
      obtain ⟨t, ht, -⟩ := hd
      obtain ⟨hlt, -⟩ := List.getElem?_eq_some_iff.mp ht
      rw [List.take_append, List.take_of_length_le hge, List.countP_append, hnone, ← List.map_take,
        hall, List.length_take] at hcount
      omega
  · rintro ⟨rfl, hk⟩
    refine ⟨⟨.defined (definedFunctions ps)[k], ?_, rfl⟩, ?_⟩
    · rw [List.getElem?_append_right (by omega), Nat.add_sub_cancel_left, List.getElem?_map,
        List.getElem?_eq_getElem hk]
      rfl
    · rw [List.take_append, List.take_of_length_le (by omega), List.countP_append, hnone,
        ← List.map_take, hall, List.length_take]
      omega

/-- The payload a body comes from. -/
theorem exists_of_bodies {ps : List Payload} {k : ℕ} {b : FunctionBody}
    (h : (bodies ps)[k]? = some b) :
    ∃ pre post, ps = pre ++ .codeSectionEntry b :: post ∧ (bodies pre).length = k := by
  induction ps generalizing k with
  | nil => cases h
  | cons p ps ih =>
      rw [bodies, List.flatMap_cons] at h
      rcases Nat.lt_or_ge k p.bodies.length with hk | hk
      · rw [List.getElem?_append_left hk] at h
        cases p with
        | codeSectionEntry b' =>
            simp only [Payload.bodies, List.length_singleton, Nat.lt_one_iff] at hk
            subst hk
            cases h
            exact ⟨[], ps, rfl, rfl⟩
        | _ => cases hk
      · rw [List.getElem?_append_right hk] at h
        obtain ⟨pre, post, rfl, hlen⟩ := ih h
        refine ⟨p :: pre, post, rfl, ?_⟩
        rw [bodies, List.flatMap_cons, List.length_append]
        change p.bodies.length + (bodies pre).length = k
        omega

/-! ## Execution -/

/-- Operand stack, top first, and locals. -/
structure State where
  stack : List Word
  locals : List Word
  deriving DecidableEq

/-- One operator; `none` where it is not valid from this state or leaves the
function. -/
def step : Operator → State → Option State
  | .i64Const v, w => some { w with stack := v :: w.stack }
  | .i64Add, ⟨b :: a :: st, ls⟩ => some ⟨(a + b) :: st, ls⟩
  | .i64Sub, ⟨b :: a :: st, ls⟩ => some ⟨(a - b) :: st, ls⟩
  | .localGet i, w => w.locals[i]?.map fun v => { w with stack := v :: w.stack }
  | .localSet i, ⟨v :: st, ls⟩ => if i < ls.length then some ⟨st, ls.set i v⟩ else none
  | .nop, w => some w
  | .end, w => some w
  | _, _ => none

/-- A sequence of operators. -/
def steps : List Operator → State → Option State
  | [], w => some w
  | op :: ops, w => (step op w).bind (steps ops)

@[simp] theorem steps_nil (w : State) : steps [] w = some w := rfl

@[simp] theorem steps_cons (op : Operator) (ops : List Operator) (w : State) :
    steps (op :: ops) w = (step op w).bind (steps ops) := rfl

theorem steps_append (ops ops' : List Operator) (w : State) :
    steps (ops ++ ops') w = (steps ops w).bind (steps ops') := by
  induction ops generalizing w with
  | nil => rfl
  | cons op ops ih =>
      rw [List.cons_append, steps_cons, steps_cons, Option.bind_assoc]
      exact congrArg (Option.bind (step op w)) (funext fun v => ih v)

/-! ### Functions on `i32` -/

/-- Operand stack, top first, and locals, where all of them are `i32`. -/
structure State32 where
  stack : List (BitVec 32)
  locals : List (BitVec 32)
  deriving DecidableEq

/-- One operator on `i32`. -/
def step32 : Operator → State32 → Option State32
  | .i32Add, ⟨b :: a :: st, ls⟩ => some ⟨(a + b) :: st, ls⟩
  | .i32Sub, ⟨b :: a :: st, ls⟩ => some ⟨(a - b) :: st, ls⟩
  | .localGet i, w => w.locals[i]?.map fun v => { w with stack := v :: w.stack }
  | .nop, w => some w
  | .end, w => some w
  | _, _ => none

/-- A sequence of operators on `i32`. -/
def steps32 : List Operator → State32 → Option State32
  | [], w => some w
  | op :: ops, w => (step32 op w).bind (steps32 ops)

@[simp] theorem steps32_nil (w : State32) : steps32 [] w = some w := rfl

@[simp] theorem steps32_cons (op : Operator) (ops : List Operator) (w : State32) :
    steps32 (op :: ops) w = (step32 op w).bind (steps32 ops) := rfl

/-- What a body with one result returns for the given arguments. -/
def result32 (ops : List Operator) (args : List (BitVec 32)) : Option (BitVec 32) :=
  (steps32 ops ⟨[], args⟩).bind fun w => w.stack.head?

end ParaOS.Wasm
