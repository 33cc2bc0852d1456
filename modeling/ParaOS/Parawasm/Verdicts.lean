import ParaOS.Parawasm.Crates
import ParaOS.Parawasm.FunctionTypes
import ParaOS.Parawasm.Slots

/-!
# What a body and the validator have to say

The loop around the parser is left by `Payload::End`, by an error or by a panic.
Here is what of a module decides between these: what its payloads say, and what
the validator has to say of them.  Nothing in the definitions refers to the code
that is emitted; that they are exact is for `ParaOS.Parawasm.Bodies` (a body)
and `ParaOS.Parawasm.LoopEnd` (a module).

Only a function body makes `compile` panic.  `BodyPanics` lists the six places
where it can, in the order they are come to; at each of them everything in front
was let through by the validator and was something there is code for.
`BodyRefused` lists the six places where a body is refused with an error instead.
The order matters.  A body whose locals the validator refuses is refused even if
it has an operator there is no code for; and what the validator would have said
of anything behind a panic makes no difference.

The `u32` arithmetic of the table of locals is one of the six.  A group of
declared locals is laid out *before* the validator is told of it, so in a build
with overflow checks a group of `2 ^ 29` locals of type `i64` panics, and without
them the sums wrap around and the validator then refuses the body.  The limit on
the number of locals (`Validator.limit`) is what keeps the groups in front of it
from overflowing: `Roomy` says that the locals still to come fit, and `Roomy.step`
is where the limit is used.

Two things are asked of code outside the repository here and used in `LoopEnd`:
the validator lets sections through in their order only (`KeepsOrder`), and the
assembler takes lists of data (`AssemblesData`), which is all that has been
emitted when an import section is read.
-/

namespace ParaOS.Parawasm

open Machine X86 Wasm

variable {V : Validator} {E : Encoder} {P : Parser} {ctx : Context} {ty : FuncType}
  {ps : List Payload} {body : FunctionBody}

/-! ## What is asked of the crates -/

/-- Data with labels in it is assembled, and every piece of it has an offset. -/
def Encoder.AssemblesData (E : Encoder) : Prop :=
  ∀ is bound, (∀ i ∈ is, isData i = true) → (∀ b ∈ bound, b.2 < is.length) →
    ∃ assembly, E.assemble is bound = .ok assembly ∧ assembly.offsets.length = is.length

/-! ## What there is code for

All of this can be read off the module.  The type `compile` finds for a function is
not always the one that the function is declared with
(`ParaOS.Parawasm.FunctionTypes`), and whether a body is compiled depends on the
type that is found; so these definitions are in terms of `typeLookedUp`. -/

/-- The bytes of params. -/
def paramBytes (params : List Ty) : ℕ := (params.map bytesOf).sum

/-- The bytes of groups of declared locals. -/
def groupBytes (groups : List (ℕ × Ty)) : ℕ := (groups.map fun g => bytesOf g.2 * g.1).sum

/-- The type `compile` looks up for function `f`, after these payloads. -/
def typeLookedUp (ps : List Payload) (f : ℕ) : Option FuncType :=
  ((countedFunctions ps)[f]?.bind fun i => (countedFunctions ps)[i]?).bind fun u =>
    (functionTypesOf (typeSpace ps))[u]?

/-- The number of the function the next body belongs to. -/
def bodyNumber (ps : List Payload) : ℕ := (functionImports ps).length + (bodies ps).length

/-- A function whose calls there is code for.  Params are moved to registers, of
which there are six, and the code for moving is there for integers.  The number of
results does not matter: those beyond the second are dropped. -/
structure Passable (ty : FuncType) : Prop where
  registers : ty.params.length ≤ 6
  params : AllIntegers ty.params
  returns : AllIntegers ty.returns

/-- The operators there is code for, in a body with `n` params and locals. -/
def HasCode (ps : List Payload) (n : ℕ) : Operator → Prop
  | .call f => ∃ ty, typeLookedUp ps f = some ty ∧ Passable ty
  | .localGet i => i < n
  | .localSet i => i < n
  | .unimplemented _ => False
  | _ => True

/-- The number of params and declared locals. -/
def localsOf (ty : FuncType) (body : FunctionBody) : ℕ :=
  ty.params.length + localCount body.locals.items

/-- A body there is code for, whatever the validator has to say of it. -/
def Supported (ps : List Payload) (body : FunctionBody) : Prop :=
  ∃ ty, typeLookedUp ps (bodyNumber ps) = some ty ∧ Passable ty ∧
    (∀ g ∈ body.locals.items, Sized g.2) ∧
    ∀ op ∈ body.operators.items, HasCode ps (localsOf ty body) op

/-! ## How far a body is read

The stages of a body, each by what has been let through when it is come to.  The
validator's state is threaded through all of them, since what it says of an operator
may depend on everything in front of it. -/

variable (V)

/-- The declared locals of a body are come to: its function has a type, the reader
has found the locals complete, and the params have registers and sizes. -/
structure Entered (ps : List Payload) (σ : V.St) (body : FunctionBody) (φ : V.FuncSt)
    (ty : FuncType) : Prop where
  entry : ∃ σ', V.codeSectionEntry σ = .ok (φ, σ')
  type : typeLookedUp ps (bodyNumber ps) = some ty
  complete : body.locals.err = none
  registers : ty.params.length ≤ 6
  params : ∀ t ∈ ty.params, Sized t

/-- Groups of declared locals that have sizes and are let through. -/
structure Declares (φ φ' : V.FuncSt) (groups : List (ℕ × Ty)) : Prop where
  accepted : groups.foldlM (fun φ g => V.defineLocals φ g.1 g.2) φ = .ok φ'
  sized : ∀ g ∈ groups, Sized g.2

/-- The operators of a body are come to. -/
structure Opened (ps : List Payload) (σ : V.St) (body : FunctionBody) (φ : V.FuncSt)
    (ty : FuncType) : Prop where
  entered : ∃ φ₀, Entered V ps σ body φ₀ ty ∧ Declares V φ₀ φ body.locals.items
  params : AllIntegers ty.params

/-- Operators that have code and are let through. -/
structure Translates (ps : List Payload) (n : ℕ) (φ φ' : V.FuncSt) (ops : List Operator) :
    Prop where
  accepted : ops.foldlM V.op φ = .ok φ'
  code : ∀ op ∈ ops, HasCode ps n op

/-- Where a body makes `compile` panic. -/
inductive BodyPanics (ps : List Payload) (σ : V.St) (body : FunctionBody) : Prop where
  /-- `unwrap` of a type that is not found -/
  | type {φ : V.FuncSt} {σ' : V.St} :
      V.codeSectionEntry σ = .ok (φ, σ') → typeLookedUp ps (bodyNumber ps) = none →
      BodyPanics ps σ body
  /-- `drain(0..n)` of six registers, or `encoding_size` of a reference -/
  | params {φ : V.FuncSt} {σ' : V.St} {ty : FuncType} :
      V.codeSectionEntry σ = .ok (φ, σ') → typeLookedUp ps (bodyNumber ps) = some ty →
      body.locals.err = none → (6 < ty.params.length ∨ ∃ t ∈ ty.params, ¬ Sized t) →
      BodyPanics ps σ body
  /-- a group of locals without a size, or of more bytes than a `u32` can count -/
  | group {φ φ' : V.FuncSt} {ty : FuncType} {pre post : List (ℕ × Ty)} {g : ℕ × Ty} :
      Entered V ps σ body φ ty → body.locals.items = pre ++ g :: post → Declares V φ φ' pre →
      (¬ Sized g.2 ∨ V.overflowChecks = true ∧
        2 ^ 32 ≤ paramBytes ty.params + groupBytes pre + bytesOf g.2 * g.1) →
      BodyPanics ps σ body
  /-- `todo!()` for a param that is no integer -/
  | store {φ φ' : V.FuncSt} {ty : FuncType} :
      Entered V ps σ body φ ty → Declares V φ φ' body.locals.items → ¬ AllIntegers ty.params →
      BodyPanics ps σ body
  /-- an operator the validator lets through and there is no code for -/
  | operator {φ φ' φ'' : V.FuncSt} {ty : FuncType} {pre post : List Operator} {op : Operator} :
      Opened V ps σ body φ ty → body.operators.items = pre ++ op :: post →
      Translates V ps (localsOf ty body) φ φ' pre → V.op φ' op = .ok φ'' →
      ¬ HasCode ps (localsOf ty body) op → BodyPanics ps σ body
  /-- `todo!()` for a result that is no integer -/
  | results {φ φ' : V.FuncSt} {ty : FuncType} :
      Opened V ps σ body φ ty → Translates V ps (localsOf ty body) φ φ' body.operators.items →
      body.operators.err = none → V.finish φ' = .ok () → ¬ AllIntegers ty.returns →
      BodyPanics ps σ body

/-- Where a body is refused with an error. -/
inductive BodyRefused (ps : List Payload) (σ : V.St) (body : FunctionBody) : Prop where
  | entry {e : BinaryReaderError} : V.codeSectionEntry σ = .error e → BodyRefused ps σ body
  /-- the reader does not get through the declared locals -/
  | locals {φ : V.FuncSt} {σ' : V.St} {ty : FuncType} {e : BinaryReaderError} :
      V.codeSectionEntry σ = .ok (φ, σ') → typeLookedUp ps (bodyNumber ps) = some ty →
      body.locals.err = some e → BodyRefused ps σ body
  | group {φ φ' : V.FuncSt} {ty : FuncType} {pre post : List (ℕ × Ty)} {g : ℕ × Ty}
      {e : BinaryReaderError} :
      Entered V ps σ body φ ty → body.locals.items = pre ++ g :: post → Declares V φ φ' pre →
      Sized g.2 → (V.overflowChecks = true →
        paramBytes ty.params + groupBytes pre + bytesOf g.2 * g.1 < 2 ^ 32) →
      V.defineLocals φ' g.1 g.2 = .error e → BodyRefused ps σ body
  | operator {φ φ' : V.FuncSt} {ty : FuncType} {pre post : List Operator} {op : Operator}
      {e : BinaryReaderError} :
      Opened V ps σ body φ ty → body.operators.items = pre ++ op :: post →
      Translates V ps (localsOf ty body) φ φ' pre → V.op φ' op = .error e →
      BodyRefused ps σ body
  /-- the reader does not get through the operators -/
  | operators {φ φ' : V.FuncSt} {ty : FuncType} {e : BinaryReaderError} :
      Opened V ps σ body φ ty → Translates V ps (localsOf ty body) φ φ' body.operators.items →
      body.operators.err = some e → BodyRefused ps σ body
  | finish {φ φ' : V.FuncSt} {ty : FuncType} {e : BinaryReaderError} :
      Opened V ps σ body φ ty → Translates V ps (localsOf ty body) φ φ' body.operators.items →
      body.operators.err = none → V.finish φ' = .error e → BodyRefused ps σ body

/-- A payload is refused with an error: by the validator or, behind it, by the
reader of its entries. -/
def Refused (ps : List Payload) (σ : V.St) : Payload → Prop
  | .codeSectionEntry body => BodyRefused V ps σ body
  | p => (∃ e, V.feed σ p = .error e) ∨ ¬ Complete p

/-- Payloads that are all let through and handled: the validator accepts them, the
readers get to their ends and there is code for the bodies. -/
def Clear (ps : List Payload) (σ : V.St) : Prop :=
  ps.foldlM V.feed V.new = .ok σ ∧ ∀ pre p post, ps = pre ++ p :: post →
    Complete p ∧ ∀ body, p = .codeSectionEntry body → Supported pre body

variable {V}

/-! ## The table of locals

Offsets and sizes are sums in `u32`.  They are exact as long as the end of what is
laid out is below `2 ^ 32`, since the end is the largest of them; and if it is not,
then with overflow checks there is a panic and without them the numbers mean
nothing.  What is laid out is therefore described by its end alone.

Params cannot overflow: there are at most six of them, of at most `16` bytes each. -/

/-- No type takes more than `16` bytes. -/
theorem bytesOf_le (t : Ty) : bytesOf t ≤ 16 := by
  cases t <;> decide

/-- So params take no more than that for each of them. -/
theorem paramBytes_le (params : List Ty) : paramBytes params ≤ 16 * params.length := by
  induction params with
  | nil => exact Nat.zero_le _
  | cons p params ih =>
      have hsum : paramBytes (p :: params) = bytesOf p + paramBytes params := rfl
      have := bytesOf_le p
      rw [hsum, List.length_cons]
      omega

/-- Params with sizes are laid out, if there are few of them. -/
theorem exists_layoutParams {c : Bool} {params : List Ty} {t : LocalsTable}
    (hroom : t.localsSize + 16 * params.length < 2 ^ 32) (h : ∀ p ∈ params, Sized p) :
    ∃ t', params.foldlM (layoutParam c) t = .ok t' ∧
      t'.localsSize = t.localsSize + paramBytes params ∧
      t'.locals.length = t.locals.length + params.length := by
  induction params generalizing t with
  | nil => exact ⟨t, rfl, rfl, rfl⟩
  | cons p params ih =>
      rw [List.forall_mem_cons] at h
      rw [List.length_cons] at hroom
      have hp := bytesOf_le p
      have hstep : layoutParam c t p =
          .ok ⟨t.locals ++ [t.localsSize + bytesOf p], t.localsSize + bytesOf p⟩ := by
        rw [layoutParam, encodingSize_of_sized h.1, Outcome.ok_bind, u32_of_lt (by omega)]
        rfl
      obtain ⟨t', ht', hsize, hlen⟩ := ih (t := ⟨_, t.localsSize + bytesOf p⟩)
        (by dsimp only; omega) h.2
      refine ⟨t', by rw [List.foldlM_cons, hstep, Outcome.ok_bind, ht'], ?_, ?_⟩
      · rw [hsize, Nat.add_assoc]
        rfl
      · rw [hlen]
        simp only [List.length_append, List.length_cons, List.length_nil]
        omega

/-- The first param without a size is a panic. -/
theorem layoutParams_panic {c : Bool} {params : List Ty} {t : LocalsTable}
    (hroom : t.localsSize + 16 * params.length < 2 ^ 32) (h : ∃ p ∈ params, ¬ Sized p) :
    params.foldlM (layoutParam c) t = .panic := by
  induction params generalizing t with
  | nil =>
      obtain ⟨p, hp, -⟩ := h
      cases hp
  | cons p params ih =>
      rw [List.length_cons] at hroom
      rw [List.foldlM_cons]
      by_cases hp : Sized p
      · have hle := bytesOf_le p
        rw [layoutParam, encodingSize_of_sized hp, Outcome.ok_bind, u32_of_lt (by omega)]
        refine ih (by dsimp only; omega) ?_
        obtain ⟨q, hq, hnot⟩ := h
        rcases List.mem_cons.mp hq with rfl | hq
        · exact absurd hp hnot
        · exact ⟨q, hq, hnot⟩
      · rw [layoutParam, encodingSize_of_not_sized hp]
        rfl

/-- The offset of a local past the end of `u32`. -/
theorem groupOffset_of_ge {size sz i : ℕ} (h : 2 ^ 32 ≤ size + sz * i) :
    groupOffset true size sz i = .panic := by
  rw [groupOffset]
  rcases Nat.lt_or_ge (sz * i) (2 ^ 32) with hlt | hge
  · rw [u32_of_lt hlt, Outcome.ok_bind, u32_of_ge h]
  · rw [u32_of_ge hge, Outcome.panic_bind]

/-- Without overflow checks every offset is some number. -/
theorem groupOffset_unchecked (size sz i : ℕ) : ∃ off, groupOffset false size sz i = .ok off := by
  have hu32 : ∀ n, ∃ m, u32 false n = .ok m := by
    intro n
    rw [u32]
    split_ifs with hlt hno
    · exact ⟨n, rfl⟩
    · cases hno
    · exact ⟨_, rfl⟩
  obtain ⟨m, hm⟩ := hu32 (sz * i)
  obtain ⟨m', hm'⟩ := hu32 (size + m)
  exact ⟨m', by rw [groupOffset, hm, Outcome.ok_bind, hm']⟩

/-- A function that goes through everywhere goes through a list. -/
theorem exists_mapM {α β : Type} {f : α → Outcome β} (h : ∀ a, ∃ b, f a = .ok b) (as : List α) :
    ∃ bs, as.mapM f = .ok bs := by
  choose g hg using h
  exact ⟨_, mapM_eq_ok fun a _ => hg a⟩

/-- One that never fails does not fail on a list. -/
theorem mapM_ne_err {α β : Type} {f : α → Outcome β} (h : ∀ a e, f a ≠ .err e) {as : List α}
    {e : Error} : as.mapM f ≠ .err e := by
  induction as with
  | nil => exact fun hno => by cases hno
  | cons a as ih =>
      rw [List.mapM_cons]
      cases hfa : f a with
      | err e' => exact absurd hfa (h a e')
      | panic => exact fun hno => by cases hno
      | ok b =>
          cases hrest : as.mapM f with
          | err e' =>
              rw [hrest] at ih
              exact fun hno => ih (by simpa using hno)
          | panic => exact fun hno => by simp at hno
          | ok bs => exact fun hno => by simp at hno

/-- **A group of locals panics** if it has no size, or with overflow checks if it
ends past the last `u32`: the end is the last of its offsets, so any other that
overflows comes with it. -/
theorem layoutGroup_panic {c : Bool} {t : LocalsTable} {g : ℕ × Ty}
    (h : ¬ Sized g.2 ∨ c = true ∧ 2 ^ 32 ≤ t.localsSize + bytesOf g.2 * g.1) :
    layoutGroup c t g = .panic := by
  rw [layoutGroup]
  by_cases hg : Sized g.2
  · obtain ⟨rfl, hge⟩ := h.resolve_left (not_not_intro hg)
    rw [encodingSize_of_sized hg, Outcome.ok_bind, groupOffset_of_ge hge]
    cases hoffs : (List.range g.1).mapM (groupOffset true t.localsSize (bytesOf g.2)) with
    | ok offs => rfl
    | panic => rfl
    | err e =>
        refine absurd hoffs (mapM_ne_err fun i e' => ?_)
        rw [groupOffset]
        cases hu : u32 true (bytesOf g.2 * i) with
        | ok m => exact u32_ne_err
        | err e'' => exact absurd hu u32_ne_err
        | panic => exact fun hno => by cases hno
  · rw [encodingSize_of_not_sized hg, Outcome.panic_bind]

/-- Otherwise it is laid out, exactly if its end is a `u32`. -/
theorem exists_layoutGroup {c : Bool} {t : LocalsTable} {g : ℕ × Ty} (hg : Sized g.2)
    (h : c = true → t.localsSize + bytesOf g.2 * g.1 < 2 ^ 32) :
    ∃ t', layoutGroup c t g = .ok t' ∧ (t.localsSize + bytesOf g.2 * g.1 < 2 ^ 32 →
      t'.localsSize = t.localsSize + bytesOf g.2 * g.1) := by
  rcases Nat.lt_or_ge (t.localsSize + bytesOf g.2 * g.1) (2 ^ 32) with hlt | hge
  · have hexact : exactGroup t g = .ok ⟨t.locals ++ (List.range g.1).map fun i =>
        t.localsSize + bytesOf g.2 * i, t.localsSize + bytesOf g.2 * g.1⟩ := by
      rw [exactGroup, encodingSize_of_sized hg, Outcome.ok_bind]
      rfl
    exact ⟨_, layoutGroup_of_exact hexact hlt c, fun _ => rfl⟩
  · -- past the last `u32`, so the build has no overflow checks
    cases c with
    | true => exact absurd (h rfl) (Nat.not_lt.mpr hge)
    | false =>
        obtain ⟨offs, hoffs⟩ := exists_mapM
          (groupOffset_unchecked t.localsSize (bytesOf g.2)) (List.range g.1)
        obtain ⟨size, hsize⟩ := groupOffset_unchecked t.localsSize (bytesOf g.2) g.1
        refine ⟨⟨t.locals ++ offs, size⟩, ?_, fun hlt => absurd hlt (Nat.not_lt.mpr hge)⟩
        rw [layoutGroup, encodingSize_of_sized hg, Outcome.ok_bind, hoffs, Outcome.ok_bind, hsize,
          Outcome.ok_bind]
        rfl

/-! ## The loop over declared locals

A group is laid out before the validator is told of it, so a group that it will
refuse may panic first.  The groups in front have been let through and their number
is bounded, which leaves them far below the end of `u32` (`Roomy`).  The group that
comes next may be of any size. -/

/-- The body of the loop over declared locals. -/
def localsStep (V : Validator) (s : V.FuncSt × LocalsTable) (g : ℕ × Ty) :
    Outcome (V.FuncSt × LocalsTable) := do
  let t ← layoutGroup V.overflowChecks s.2 g
  let φ ← Outcome.ofReader (V.defineLocals s.1 g.1 g.2)
  return (φ, t)

/-- The loop is a fold. -/
theorem compileLocals_eq_foldlM (gs : List (ℕ × Ty)) (φ : V.FuncSt) (t : LocalsTable) :
    compileLocals V φ t gs = gs.foldlM (localsStep V) (φ, t) := by
  induction gs generalizing φ t with
  | nil => rfl
  | cons g gs ih =>
      rw [compileLocals, List.foldlM_cons, localsStep]
      cases layoutGroup V.overflowChecks t g with
      | err e => rfl
      | panic => rfl
      | ok t₁ =>
          cases V.defineLocals φ g.1 g.2 with
          | error e => rfl
          | ok φ₁ => exact ih φ₁ t₁

variable {φ φ' : V.FuncSt} {t t' : LocalsTable} {gs : List (ℕ × Ty)} {g : ℕ × Ty}

/-- Room for a group that is let through, and after it. -/
theorem Roomy.step (h : Roomy t (V.declared φ)) (hφ : V.defineLocals φ g.1 g.2 = .ok φ') :
    t.localsSize + bytesOf g.2 * g.1 < 2 ^ 32 ∧
      t.localsSize + bytesOf g.2 * g.1 + 16 * (maxFunctionLocals - V.declared φ') < 2 ^ 31 := by
  obtain ⟨hdeclared, hlimit⟩ := V.limit _ _ _ _ hφ
  have hle := Nat.mul_le_mul_right g.1 (bytesOf_le g.2)
  unfold Roomy at h
  omega

/-- **Groups the loop gets through** are those that have sizes and are let through. -/
theorem localsStep_foldlM (hroom : Roomy t (V.declared φ)) :
    (∀ {s}, gs.foldlM (localsStep V) (φ, t) = .ok s → Declares V φ s.1 gs ∧
      s.2.localsSize = t.localsSize + groupBytes gs ∧ Roomy s.2 (V.declared s.1)) ∧
    (∀ {φ'}, Declares V φ φ' gs → ∃ t', gs.foldlM (localsStep V) (φ, t) = .ok (φ', t')) := by
  induction gs generalizing φ t with
  | nil =>
      refine ⟨fun h => ?_, fun h => ?_⟩
      · cases h
        exact ⟨⟨rfl, by simp⟩, rfl, hroom⟩
      · cases h.accepted
        exact ⟨t, rfl⟩
  | cons g gs ih =>
      refine ⟨fun {s} h => ?_, fun {φ'} h => ?_⟩
      · rw [List.foldlM_cons, Outcome.bind_eq_ok] at h
        obtain ⟨s₁, hs₁, h⟩ := h
        simp only [localsStep, Outcome.bind_eq_ok, Outcome.ofReader_eq_ok, Outcome.pure_eq_ok,
          Outcome.ok.injEq] at hs₁
        obtain ⟨t₁, ht₁, φ₁, hφ₁, rfl⟩ := hs₁
        obtain ⟨hlt, hroom₁⟩ := hroom.step hφ₁
        have hg : Sized g.2 := by
          by_contra hno
          rw [layoutGroup_panic (.inl hno)] at ht₁
          cases ht₁
        obtain ⟨t₁', ht₁', hsize₁⟩ := exists_layoutGroup hg (c := V.overflowChecks) fun _ => hlt
        rw [ht₁] at ht₁'
        cases ht₁'
        obtain ⟨hdecl, hsize, hroom'⟩ := (ih (φ := φ₁) (t := t₁)
          (by rw [Roomy, hsize₁ hlt]; exact hroom₁)).1 h
        refine ⟨⟨?_, List.forall_mem_cons.mpr ⟨hg, hdecl.sized⟩⟩, ?_, hroom'⟩
        · rw [List.foldlM_cons, Validator.except_bind_eq_ok]
          exact ⟨φ₁, hφ₁, hdecl.accepted⟩
        · rw [hsize, hsize₁ hlt, Nat.add_assoc]
          rfl
      · obtain ⟨hacc, hsized⟩ := h
        rw [List.forall_mem_cons] at hsized
        rw [List.foldlM_cons, Validator.except_bind_eq_ok] at hacc
        obtain ⟨φ₁, hφ₁, hacc⟩ := hacc
        obtain ⟨hlt, hroom₁⟩ := hroom.step hφ₁
        obtain ⟨t₁, ht₁, hsize₁⟩ := exists_layoutGroup hsized.1 (c := V.overflowChecks)
          fun _ => hlt
        obtain ⟨t', ht'⟩ := (ih (φ := φ₁) (t := t₁)
          (by rw [Roomy, hsize₁ hlt]; exact hroom₁)).2 ⟨hacc, hsized.2⟩
        refine ⟨t', ?_⟩
        rw [List.foldlM_cons, localsStep, ht₁, Outcome.ok_bind, hφ₁]
        exact ht'

/-- Where the loop over declared locals panics. -/
theorem compileLocals_eq_panic (hroom : Roomy t (V.declared φ)) :
    compileLocals V φ t gs = .panic ↔ ∃ pre g post φ', gs = pre ++ g :: post ∧
      Declares V φ φ' pre ∧ (¬ Sized g.2 ∨ V.overflowChecks = true ∧
        2 ^ 32 ≤ t.localsSize + groupBytes pre + bytesOf g.2 * g.1) := by
  rw [compileLocals_eq_foldlM, Outcome.foldlM_eq_of_ne_ok (by simp)]
  constructor
  · rintro ⟨pre, g, post, s, rfl, hpre, hs⟩
    obtain ⟨hdecl, hsize, -⟩ := (localsStep_foldlM hroom).1 hpre
    refine ⟨pre, g, post, s.1, rfl, hdecl, ?_⟩
    by_contra hno
    push Not at hno
    rw [← hsize] at hno
    obtain ⟨t₁, ht₁, -⟩ := exists_layoutGroup (t := s.2) hno.1 (c := V.overflowChecks) hno.2
    rw [localsStep, ht₁, Outcome.ok_bind, Outcome.bind_eq_panic] at hs
    simp at hs
  · rintro ⟨pre, g, post, φ', rfl, hdecl, hsite⟩
    obtain ⟨t', ht'⟩ := (localsStep_foldlM hroom).2 hdecl
    obtain ⟨-, hsize, -⟩ := (localsStep_foldlM hroom).1 ht'
    refine ⟨pre, g, post, (φ', t'), rfl, ht', ?_⟩
    rw [localsStep, layoutGroup_panic (by rwa [hsize]), Outcome.panic_bind]

/-- Where it is left with an error: the validator refuses the group, and that is
seen only of a group that is laid out. -/
theorem compileLocals_eq_err (hroom : Roomy t (V.declared φ)) :
    (∃ e, compileLocals V φ t gs = .err e) ↔ ∃ pre g post φ', gs = pre ++ g :: post ∧
      Declares V φ φ' pre ∧ Sized g.2 ∧ (V.overflowChecks = true →
        t.localsSize + groupBytes pre + bytesOf g.2 * g.1 < 2 ^ 32) ∧
      ∃ e, V.defineLocals φ' g.1 g.2 = .error e := by
  simp only [compileLocals_eq_foldlM]
  constructor
  · rintro ⟨e, h⟩
    obtain ⟨pre, g, post, s, rfl, hpre, hs⟩ := (Outcome.foldlM_eq_of_ne_ok (by simp)).mp h
    obtain ⟨hdecl, hsize, -⟩ := (localsStep_foldlM hroom).1 hpre
    have hsite : Sized g.2 ∧ (V.overflowChecks = true →
        s.2.localsSize + bytesOf g.2 * g.1 < 2 ^ 32) := by
      by_contra hno
      rw [localsStep, layoutGroup_panic (by by_contra hok; push Not at hok; exact hno hok)] at hs
      cases hs
    obtain ⟨t₁, ht₁, -⟩ := exists_layoutGroup hsite.1 hsite.2
    rw [localsStep, ht₁, Outcome.ok_bind] at hs
    refine ⟨pre, g, post, s.1, rfl, hdecl, hsite.1, hsize ▸ hsite.2, ?_⟩
    cases hφ : V.defineLocals s.1 g.1 g.2 with
    | ok φ₁ => simp [hφ, Outcome.ofReader] at hs
    | error e' => exact ⟨e', rfl⟩
  · rintro ⟨pre, g, post, φ', rfl, hdecl, hg, hfits, e, he⟩
    obtain ⟨t', ht'⟩ := (localsStep_foldlM hroom).2 hdecl
    obtain ⟨-, hsize, -⟩ := (localsStep_foldlM hroom).1 ht'
    obtain ⟨t₁, ht₁, -⟩ := exists_layoutGroup (t := t') hg (c := V.overflowChecks)
      (by rw [hsize]; exact hfits)
    refine ⟨.wasmReaderError e, (Outcome.foldlM_eq_of_ne_ok (by simp)).mpr
      ⟨pre, g, post, (φ', t'), rfl, ht', ?_⟩⟩
    rw [localsStep, ht₁, Outcome.ok_bind, he]
    rfl

end ParaOS.Parawasm
