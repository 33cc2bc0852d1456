import ParaOS.Parawasm.Verdicts

/-!
# What comes of a body

A body is compiled in stages: its declared locals are laid out, the params are
stored, the operators are translated one after the other, and behind them the
results are moved into registers.  Each stage can panic, end in an error or go
through, and each has a lemma that says when, in terms of the types, groups and
operators of the body and of the validator's verdicts on them.  The lemmas of the
stages come in threes, one for each outcome, since none of the three follows from
the other two: an equivalence for panics says nothing about errors.

They are put together in `compileBody_panic_iff`, `compileBody_err_iff` and
`compileBody_ok_iff`.  These start where the declared locals are come to
(`Entered`); what is in front of that needs the state of the whole compilation
and is in `ParaOS.Parawasm.LoopEnd`.

The code that is emitted does not matter to any of this, so the loop over
operators is first stripped of it (`opStep`).  Wherever the size of the locals
enters, it is small enough for `sub rsp` and `add rsp` because the validator has
let the locals through; `Roomy` carries that from the layout to the epilogue.

### What is load-bearing

Three facts about the context are asked of every result on operators, and each is
used.  `htypes` says that the types the compiler finds are those that can be read
off the payloads in front of the body; with it whether a call has code is a question
about the module and not about the state of the compilation.  `hlen` says the same
of the number of slots.  `hsize` bounds the locals by `2 ^ 31`: from there on
`i32::try_from` of their size would be a further place to panic, and it is the
validator's limit on locals that closes it.
-/

namespace ParaOS.Parawasm

open Machine X86 Wasm

variable {V : Validator} {ctx : Context} {ty : FuncType} {ps : List Payload}
  {body : FunctionBody} {φ φ' : V.FuncSt} {t t' : LocalsTable}

/-! ## The code around a body

The prologue moves the stack pointer and stores the params; the epilogue moves the
results into registers and the stack pointer back.  Neither of them looks at the
operators, and neither can end in an error.  All that decides between code and a
panic is whether the types are integers, for a float is answered with
`unimplemented!`.

A list of types that are not all integers panics at the first that is none, after
the instructions for those in front of it have been made.  The instructions are lost
with the panic, so the lemmas say nothing about them. -/

/-- A size below `2 ^ 31` fits the operand of `sub` and `add`. -/
theorem moveStack_ok (emit : ℕ → Instr) {size : ℕ} (h : size < 2 ^ 31) :
    ∃ code, moveStack emit size = .ok code := by
  rw [moveStack]
  split_ifs
  · exact ⟨_, rfl⟩
  · exact ⟨_, rfl⟩

/-- Params that are integers are stored, from whichever registers and at whichever
offsets they are given. -/
theorem storeParams_ok {params : List (Ty × ℕ)} (h : ∀ p ∈ params, p.1 = .i32 ∨ p.1 = .i64)
    (order : List Reg) (x : ℕ) : ∃ code, storeParams params order x = .ok code := by
  induction params generalizing order x with
  | nil => exact ⟨[], rfl⟩
  | cons p params ih =>
      obtain ⟨ty, off⟩ := p
      rw [List.forall_mem_cons] at h
      have hrest := ih h.2
      rcases h.1 with rfl | rfl
      · rw [storeParams]
        split
        · obtain ⟨rest, hr⟩ := hrest order.dropLast x
          exact ⟨_, by rw [hr]; rfl⟩
        · obtain ⟨rest, hr⟩ := hrest order (x + 4)
          exact ⟨_, by rw [hr]; rfl⟩
      · rw [storeParams]
        split
        · obtain ⟨rest, hr⟩ := hrest order.dropLast x
          exact ⟨_, by rw [hr]; rfl⟩
        · obtain ⟨rest, hr⟩ := hrest order (x + 8)
          exact ⟨_, by rw [hr]; rfl⟩

/-- A param that is no integer panics, after the stores of those in front of it. -/
theorem storeParams_panic {params : List (Ty × ℕ)} (h : ¬ ∀ p ∈ params, p.1 = .i32 ∨ p.1 = .i64)
    (order : List Reg) (x : ℕ) : storeParams params order x = .panic := by
  induction params generalizing order x with
  | nil => exact absurd (by simp) h
  | cons p params ih =>
      obtain ⟨ty, off⟩ := p
      rw [List.forall_mem_cons] at h
      by_cases hty : ty = .i32 ∨ ty = .i64
      · have hrest := ih fun hall => h ⟨hty, hall⟩
        rcases hty with rfl | rfl
        · rw [storeParams]
          split
          · rw [hrest]
            rfl
          · rw [hrest]
            rfl
        · rw [storeParams]
          split
          · rw [hrest]
            rfl
          · rw [hrest]
            rfl
      · cases ty with
        | i32 => exact absurd (.inl rfl) hty
        | i64 => exact absurd (.inr rfl) hty
        | _ => rfl

/-- Params are paired with their slots, and there is a slot for each, so the types
in the pairs are those of the params. -/
theorem forall_mem_zip {params : List Ty} {offs : List ℕ} (hlen : params.length ≤ offs.length) :
    (∀ p ∈ params.zip offs, p.1 = .i32 ∨ p.1 = .i64) ↔ AllIntegers params := by
  have hfst : (params.zip offs).map Prod.fst = params := List.map_fst_zip hlen
  constructor
  · intro h p hp
    rw [← hfst] at hp
    obtain ⟨q, hq, rfl⟩ := List.mem_map.mp hp
    exact h q hq
  · intro h p hp
    refine h p.1 ?_
    rw [← hfst]
    exact List.mem_map_of_mem hp

/-- The prologue has code if the params are integers and the locals are small. -/
theorem prologue_ok {params : List Ty} (hp : AllIntegers params) (order : List Reg)
    (hsize : t.localsSize < 2 ^ 31) (hlen : params.length ≤ t.locals.length) :
    ∃ before, prologue params order t = .ok before := by
  obtain ⟨alloc, halloc⟩ := moveStack_ok .subRsp hsize
  obtain ⟨stores, hstores⟩ := storeParams_ok ((forall_mem_zip hlen).mpr hp) order 8
  exact ⟨_, by rw [prologue, halloc, Outcome.ok_bind, hstores]; rfl⟩

/-- It panics if one of them is no integer.  That the locals are small is asked here
too, or it might have panicked earlier. -/
theorem prologue_panic {params : List Ty} (hp : ¬ AllIntegers params) (order : List Reg)
    (hsize : t.localsSize < 2 ^ 31) (hlen : params.length ≤ t.locals.length) :
    prologue params order t = .panic := by
  obtain ⟨alloc, halloc⟩ := moveStack_ok .subRsp hsize
  rw [prologue, halloc, Outcome.ok_bind,
    storeParams_panic (fun h => hp ((forall_mem_zip hlen).mp h))]
  rfl

/-- Results that are integers are moved, and beyond the last register they are
dropped without a word. -/
theorem moveResults_ok (emit : Reg → Instr) {returns : List Ty} (h : AllIntegers returns)
    (order : List Reg) : ∃ code, moveResults emit returns order = .ok code := by
  induction returns generalizing order with
  | nil => exact ⟨[], rfl⟩
  | cons r returns ih =>
      rw [AllIntegers, List.forall_mem_cons] at h
      rcases h.1 with rfl | rfl
      · cases order with
        | nil => exact ih h.2 []
        | cons reg order =>
            obtain ⟨rest, hrest⟩ := ih h.2 order
            exact ⟨_, by rw [moveResults, hrest]; rfl⟩
      · cases order with
        | nil => exact ih h.2 []
        | cons reg order =>
            obtain ⟨rest, hrest⟩ := ih h.2 order
            exact ⟨_, by rw [moveResults, hrest]; rfl⟩

/-- A result that is no integer panics, also when there is no register left that it
could be moved to. -/
theorem moveResults_panic {emit : Reg → Instr} {returns : List Ty} (h : ¬ AllIntegers returns)
    (order : List Reg) : moveResults emit returns order = .panic := by
  induction returns generalizing order with
  | nil => exact absurd (fun _ hr => by cases hr) h
  | cons r returns ih =>
      rw [AllIntegers, List.forall_mem_cons] at h
      by_cases hr : r = .i32 ∨ r = .i64
      · have hrest := ih fun hall => h ⟨hr, hall⟩
        rcases hr with rfl | rfl
        · cases order with
          | nil => exact hrest []
          | cons reg order => rw [moveResults, hrest]; rfl
        · cases order with
          | nil => exact hrest []
          | cons reg order => rw [moveResults, hrest]; rfl
      · cases r with
        | i32 => exact absurd (.inl rfl) hr
        | i64 => exact absurd (.inr rfl) hr
        | _ => cases order <;> rfl

/-- The epilogue has code if the results are integers and the locals are small. -/
theorem epilogue_ok {returns : List Ty} (h : AllIntegers returns) {size : ℕ}
    (hsize : size < 2 ^ 31) : ∃ after, epilogue returns size = .ok after := by
  obtain ⟨results, hresults⟩ := moveResults_ok .pop h returnOrder
  obtain ⟨free, hfree⟩ := moveStack_ok .addRsp hsize
  exact ⟨_, by rw [epilogue, hresults, Outcome.ok_bind, hfree]; rfl⟩

/-- It panics if one of the results is no integer, whatever the size of the locals.
-/
theorem epilogue_panic {returns : List Ty} (h : ¬ AllIntegers returns) (size : ℕ) :
    epilogue returns size = .panic := by
  rw [epilogue, moveResults_panic h, Outcome.panic_bind]

/-! ## Operators

Only three operators can fail to have code: a call, an access to a local, and one
that `compile` answers with `todo!`.  None of them ends in an error, so an operator
either has code or panics (`handleInstruction_fate`), and errors in the loop are the
validator's.

The loop threads the code it has made and the height of the operand stack.  Neither
decides how it ends, and `compileOps_eq_foldlM` drops them both, after which general
facts on folds of `Outcome` apply: a fold goes through exactly if all of its steps
do, and otherwise it ends as the first step that does not. -/

/-- Arguments that are integers are popped, if there are as many registers. -/
theorem popArgs_ok {params : List Ty} {order : List Reg} (h : AllIntegers params)
    (hlen : params.length ≤ order.length) : ∃ code, popArgs params order = .ok code := by
  induction params generalizing order with
  | nil => exact ⟨[], rfl⟩
  | cons p params ih =>
      rw [AllIntegers, List.forall_mem_cons] at h
      rw [List.length_cons] at hlen
      obtain ⟨reg, hreg⟩ : ∃ reg, order.getLast? = some reg := by
        rw [← Option.isSome_iff_exists, List.getLast?_isSome]
        exact List.ne_nil_of_length_pos (by omega)
      have hdrop : params.length ≤ order.dropLast.length := by
        rw [List.length_dropLast]
        omega
      obtain ⟨rest, hrest⟩ := ih h.2 hdrop
      rcases h.1 with rfl | rfl
      · exact ⟨_, by rw [popArgs, hreg]; simp only [hrest, Outcome.ok_bind]; rfl⟩
      · exact ⟨_, by rw [popArgs, hreg]; simp only [hrest, Outcome.ok_bind]; rfl⟩

/-- An argument that is no integer panics. -/
theorem popArgs_panic {params : List Ty} (h : ¬ AllIntegers params) (order : List Reg) :
    popArgs params order = .panic := by
  induction params generalizing order with
  | nil => exact absurd (fun _ hp => by cases hp) h
  | cons p params ih =>
      rw [AllIntegers, List.forall_mem_cons] at h
      by_cases hp : p = .i32 ∨ p = .i64
      · have hrest := ih fun hall => h ⟨hp, hall⟩
        rcases hp with rfl | rfl
        · rw [popArgs]
          split
          · rw [hrest]
            rfl
          · rfl
        · rw [popArgs]
          split
          · rw [hrest]
            rfl
          · rfl
      · cases p with
        | i32 => exact absurd (.inl rfl) hp
        | i64 => exact absurd (.inr rfl) hp
        | _ => rfl

/-- `drain(0..n)` of a vector of six is out of range from seven on. -/
theorem drainTo_panic {n : ℕ} (h : 6 < n) : drainTo n = .panic := if_neg (Nat.not_le.mpr h)

/-- The code of a call panics unless the type is found and its calls have code. -/
theorem handleInstruction_call (ctx : Context) (locals : List ℕ) (f : ℕ) :
    ((∃ ty, ctx.functionType f = some ty ∧ Passable ty) →
      ∃ code, handleInstruction ctx locals (.call f) = .ok code) ∧
    (¬ (∃ ty, ctx.functionType f = some ty ∧ Passable ty) →
      handleInstruction ctx locals (.call f) = .panic) := by
  constructor
  · rintro ⟨ty, hty, hregs, hparams, hreturns⟩
    obtain ⟨args, hargs⟩ := popArgs_ok hparams (length_take_integerOrder hregs).ge
    obtain ⟨results, hresults⟩ := moveResults_ok .push hreturns returnOrder
    refine ⟨args ++ callCode ctx f ++ results, ?_⟩
    rw [handleInstruction, hty, Outcome.unwrap, Outcome.ok_bind, drainTo_eq_ok.mpr ⟨hregs, rfl⟩,
      Outcome.ok_bind, hargs, Outcome.ok_bind, pushResults, hresults]
    rfl
  · intro hno
    rw [handleInstruction]
    cases hty : ctx.functionType f with
    | none => rfl
    | some ty =>
        rw [Outcome.unwrap, Outcome.ok_bind]
        by_cases hregs : ty.params.length ≤ 6
        · rw [drainTo_eq_ok.mpr ⟨hregs, rfl⟩, Outcome.ok_bind]
          by_cases hparams : AllIntegers ty.params
          · obtain ⟨args, hargs⟩ := popArgs_ok hparams (length_take_integerOrder hregs).ge
            rw [hargs, Outcome.ok_bind, pushResults, moveResults_panic fun hreturns =>
              hno ⟨ty, hty, hregs, hparams, hreturns⟩]
            rfl
          · rw [popArgs_panic hparams]
            rfl
        · rw [drainTo_panic (Nat.not_le.mp hregs)]
          rfl

/-- **An operator has code or panics.** -/
theorem handleInstruction_fate {locals : List ℕ} {n : ℕ}
    (htypes : ∀ f, ctx.functionType f = typeLookedUp ps f) (hlen : locals.length = n)
    (op : Operator) :
    (HasCode ps n op → ∃ code, handleInstruction ctx locals op = .ok code) ∧
      (¬ HasCode ps n op → handleInstruction ctx locals op = .panic) := by
  cases op with
  | call f =>
      have h := handleInstruction_call ctx locals f
      rwa [htypes] at h
  | localGet i =>
      refine ⟨fun h => ?_, fun h => ?_⟩
      · rw [handleInstruction, List.getElem?_eq_getElem (hlen ▸ h)]
        exact ⟨_, rfl⟩
      · rw [handleInstruction, List.getElem?_eq_none (by rw [hlen]; exact Nat.not_lt.mp h)]
  | localSet i =>
      refine ⟨fun h => ?_, fun h => ?_⟩
      · rw [handleInstruction, List.getElem?_eq_getElem (hlen ▸ h)]
        exact ⟨_, rfl⟩
      · rw [handleInstruction, List.getElem?_eq_none (by rw [hlen]; exact Nat.not_lt.mp h)]
  | unimplemented opcode => exact ⟨fun h => h.elim, fun _ => rfl⟩
  | _ => exact ⟨fun _ => ⟨_, rfl⟩, fun h => absurd trivial h⟩

/-- The body of the loop over operators, without the code and the height. -/
def opStep (V : Validator) (ctx : Context) (locals : List ℕ) (φ : V.FuncSt) (op : Operator) :
    Outcome V.FuncSt := do
  let φ ← Outcome.ofReader (V.op φ op)
  let _ ← handleInstruction ctx locals op
  return φ

/-- Without its code and its height the loop over operators is a fold. -/
theorem compileOps_eq_foldlM {locals : List ℕ} (ops : List Operator) (φ : V.FuncSt) (height : ℕ) :
    (do let out ← compileOps V ctx locals φ height ops; return out.1) =
      ops.foldlM (opStep V ctx locals) φ := by
  induction ops generalizing φ height with
  | nil => rfl
  | cons op ops ih =>
      rw [compileOps, List.foldlM_cons, opStep]
      cases V.op φ op with
      | error e => rfl
      | ok φ₁ =>
          cases handleInstruction ctx locals op with
          | err e => rfl
          | panic => rfl
          | ok code =>
              refine Eq.trans ?_ (ih φ₁ (max height (V.operandStackHeight φ₁)))
              simp only [Outcome.ofReader, Outcome.ok_bind, bind_assoc, pure_bind]

variable {locals : List ℕ} {n height : ℕ} {ops : List Operator}

/-- The fold goes through exactly if the validator lets all operators through and
there is code for each of them. -/
theorem opStep_foldlM (htypes : ∀ f, ctx.functionType f = typeLookedUp ps f)
    (hlen : locals.length = n) :
    ops.foldlM (opStep V ctx locals) φ = .ok φ' ↔ Translates V ps n φ φ' ops := by
  induction ops generalizing φ with
  | nil =>
      constructor
      · intro h
        cases h
        exact ⟨rfl, by simp⟩
      · intro h
        cases h.accepted
        rfl
  | cons op ops ih =>
      obtain ⟨hcode, hpanic⟩ := handleInstruction_fate htypes hlen op
      rw [List.foldlM_cons, Outcome.bind_eq_ok]
      constructor
      · rintro ⟨φ₁, hφ₁, hrest⟩
        simp only [opStep, Outcome.bind_eq_ok, Outcome.ofReader_eq_ok, Outcome.pure_eq_ok,
          Outcome.ok.injEq] at hφ₁
        obtain ⟨_, hop, code, hc, rfl⟩ := hφ₁
        obtain ⟨hacc, hall⟩ := ih.mp hrest
        refine ⟨?_, List.forall_mem_cons.mpr ⟨?_, hall⟩⟩
        · rw [List.foldlM_cons, Validator.except_bind_eq_ok]
          exact ⟨_, hop, hacc⟩
        · by_contra hno
          rw [hpanic hno] at hc
          cases hc
      · rintro ⟨hacc, hall⟩
        rw [List.forall_mem_cons] at hall
        rw [List.foldlM_cons, Validator.except_bind_eq_ok] at hacc
        obtain ⟨φ₁, hop, hacc⟩ := hacc
        obtain ⟨code, hc⟩ := hcode hall.1
        exact ⟨φ₁, by rw [opStep, hop, hc]; rfl, ih.mpr ⟨hacc, hall.2⟩⟩

/-- The loop itself does, with whatever code it makes. -/
theorem compileOps_ok_iff (htypes : ∀ f, ctx.functionType f = typeLookedUp ps f)
    (hlen : locals.length = n) :
    (∃ out, compileOps V ctx locals φ height ops = .ok out ∧ out.1 = φ') ↔
      Translates V ps n φ φ' ops := by
  rw [← opStep_foldlM htypes hlen, ← compileOps_eq_foldlM ops φ height, Outcome.bind_eq_ok]
  simp

/-- Where the loop over operators panics. -/
theorem compileOps_eq_panic (htypes : ∀ f, ctx.functionType f = typeLookedUp ps f)
    (hlen : locals.length = n) :
    compileOps V ctx locals φ height ops = .panic ↔ ∃ pre op post φ' φ'',
      ops = pre ++ op :: post ∧ Translates V ps n φ φ' pre ∧ V.op φ' op = .ok φ'' ∧
        ¬ HasCode ps n op := by
  have hfold : compileOps V ctx locals φ height ops = .panic ↔
      ops.foldlM (opStep V ctx locals) φ = .panic := by
    rw [← compileOps_eq_foldlM ops φ height, Outcome.bind_eq_panic]
    simp
  rw [hfold, Outcome.foldlM_eq_of_ne_ok (by simp)]
  constructor
  · rintro ⟨pre, op, post, φ', rfl, hpre, hop⟩
    obtain ⟨hcode, -⟩ := handleInstruction_fate htypes hlen op
    rw [opStep, Outcome.bind_eq_panic] at hop
    obtain ⟨φ'', hφ'', hop⟩ := hop.resolve_left Outcome.ofReader_ne_panic
    refine ⟨pre, op, post, φ', φ'', rfl, (opStep_foldlM htypes hlen).mp hpre,
      Outcome.ofReader_eq_ok.mp hφ'', fun hhas => ?_⟩
    obtain ⟨code, hc⟩ := hcode hhas
    rw [hc] at hop
    cases hop
  · rintro ⟨pre, op, post, φ', φ'', rfl, hpre, hφ'', hno⟩
    refine ⟨pre, op, post, φ', rfl, (opStep_foldlM htypes hlen).mpr hpre, ?_⟩
    rw [opStep, hφ'', (handleInstruction_fate htypes hlen op).2 hno]
    rfl

/-- Where it is left with an error: the validator refuses an operator. -/
theorem compileOps_eq_err (htypes : ∀ f, ctx.functionType f = typeLookedUp ps f)
    (hlen : locals.length = n) :
    (∃ e, compileOps V ctx locals φ height ops = .err e) ↔ ∃ pre op post φ',
      ops = pre ++ op :: post ∧ Translates V ps n φ φ' pre ∧ ∃ e, V.op φ' op = .error e := by
  have hfold : ∀ e, compileOps V ctx locals φ height ops = .err e ↔
      ops.foldlM (opStep V ctx locals) φ = .err e := by
    intro e
    rw [← compileOps_eq_foldlM ops φ height, Outcome.bind_eq_err]
    simp
  simp only [hfold]
  constructor
  · rintro ⟨e, h⟩
    obtain ⟨pre, op, post, φ', rfl, hpre, hop⟩ := (Outcome.foldlM_eq_of_ne_ok (by simp)).mp h
    refine ⟨pre, op, post, φ', rfl, (opStep_foldlM htypes hlen).mp hpre, ?_⟩
    cases hφ : V.op φ' op with
    | error e' => exact ⟨e', rfl⟩
    | ok φ'' =>
        obtain ⟨hcode, hpanic⟩ := handleInstruction_fate htypes hlen op
        rw [opStep, hφ] at hop
        by_cases hhas : HasCode ps n op
        · obtain ⟨code, hc⟩ := hcode hhas
          rw [hc] at hop
          cases hop
        · rw [hpanic hhas] at hop
          cases hop
  · rintro ⟨pre, op, post, φ', rfl, hpre, e, he⟩
    refine ⟨.wasmReaderError e, (Outcome.foldlM_eq_of_ne_ok (by simp)).mpr
      ⟨pre, op, post, φ', rfl, (opStep_foldlM htypes hlen).mpr hpre, ?_⟩⟩
    rw [opStep, he]
    rfl

/-! ## Bodies

What is behind the operators is cut off first (`afterOps`), then what is behind the
declared locals (`afterLocals`), and each of the two is settled for all three
outcomes before the next is put in front of it.  In both, the stages are joined by
the same three facts about sequencing: the whole panics if the first part does, or
goes through and the second does; likewise for errors; and it goes through if both
do. -/

/-- A reader that has come to its end or to an error does not panic. -/
theorem readEnd_ne_panic {α : Type} {r : Reader α} : readEnd r ≠ .panic := by
  rw [readEnd]
  split
  · exact fun h => by cases h
  · exact fun h => by cases h

/-- It lets the loop behind it go on if there was no error. -/
theorem readEnd_eq_ok {α : Type} {r : Reader α} {u : Unit} :
    readEnd r = .ok u ↔ r.err = none := by
  rw [readEnd]
  cases r.err <;> simp

/-- Otherwise the error is passed on. -/
theorem readEnd_eq_err {α : Type} {r : Reader α} : (∃ e, readEnd r = .err e) ↔ r.err ≠ none := by
  rw [readEnd]
  cases r.err <;> simp

/-- What is left of `compileBody` after the operators. -/
def afterOps (V : Validator) (ty : FuncType) (body : FunctionBody) (t : LocalsTable)
    (before : List Instr) (out : V.FuncSt × ℕ × List Instr) : Outcome (List Instr × ℕ) := do
  readEnd body.operators
  Outcome.ofReader (V.finish out.1)
  let after ← epilogue ty.returns t.localsSize
  return (before ++ out.2.2 ++ after, out.2.1)

/-- What is left of it after the declared locals. -/
def afterLocals (V : Validator) (ctx : Context) (ty : FuncType) (body : FunctionBody)
    (order : List Reg) (s : V.FuncSt × LocalsTable) : Outcome (List Instr × ℕ) := do
  let before ← prologue ty.params order s.2
  let out ← compileOps V ctx s.2.locals s.1 (V.operandStackHeight s.1) body.operators.items
  afterOps V ty body s.2 before out

/-- Behind the operators only the results can panic, and they are come to only if
the reader and the validator have nothing to say against the body. -/
theorem afterOps_panic_iff {before : List Instr} {out : V.FuncSt × ℕ × List Instr}
    (hsize : t.localsSize < 2 ^ 31) :
    afterOps V ty body t before out = .panic ↔
      body.operators.err = none ∧ V.finish out.1 = .ok () ∧ ¬ AllIntegers ty.returns := by
  simp only [afterOps, Outcome.bind_eq_panic, readEnd_ne_panic, false_or, readEnd_eq_ok,
    Outcome.ofReader_ne_panic, Outcome.ofReader_eq_ok, Outcome.pure_eq_ok, reduceCtorEq,
    and_false, exists_false, or_false]
  constructor
  · rintro ⟨_, herr, ⟨⟩, hfinish, hpanic⟩
    refine ⟨herr, hfinish, fun hints => ?_⟩
    obtain ⟨after, hafter⟩ := epilogue_ok hints hsize
    rw [hafter] at hpanic
    cases hpanic
  · rintro ⟨herr, hfinish, hno⟩
    exact ⟨(), herr, (), hfinish, epilogue_panic hno _⟩

/-- The body is compiled if all three let it through. -/
theorem afterOps_ok_iff {before : List Instr} {out : V.FuncSt × ℕ × List Instr}
    (hsize : t.localsSize < 2 ^ 31) :
    (∃ code, afterOps V ty body t before out = .ok code) ↔
      body.operators.err = none ∧ V.finish out.1 = .ok () ∧ AllIntegers ty.returns := by
  simp only [afterOps, Outcome.bind_eq_ok, readEnd_eq_ok, Outcome.ofReader_eq_ok,
    Outcome.pure_eq_ok, Outcome.ok.injEq]
  constructor
  · rintro ⟨-, _, herr, ⟨⟩, hfinish, after, hafter, -⟩
    refine ⟨herr, hfinish, ?_⟩
    by_contra hno
    rw [epilogue_panic hno] at hafter
    cases hafter
  · rintro ⟨herr, hfinish, hints⟩
    obtain ⟨after, hafter⟩ := epilogue_ok hints hsize
    exact ⟨_, (), herr, (), hfinish, after, hafter, rfl⟩

/-- It is refused if its reader has failed, or at its end by the validator. -/
theorem afterOps_err_iff {before : List Instr} {out : V.FuncSt × ℕ × List Instr}
    (hsize : t.localsSize < 2 ^ 31) :
    (∃ e, afterOps V ty body t before out = .err e) ↔ (∃ e, body.operators.err = some e) ∨
      body.operators.err = none ∧ ∃ e, V.finish out.1 = .error e := by
  rw [← Option.ne_none_iff_exists', ← readEnd_eq_err]
  simp only [afterOps, Outcome.bind_eq_err, exists_or, readEnd_eq_ok, Outcome.pure_eq_ok,
    reduceCtorEq, and_false, exists_false, or_false, Outcome.ofReader_eq_ok]
  refine or_congr_right ⟨?_, ?_⟩
  · rintro ⟨e, -, herr, hfinish | ⟨-, -, hafter⟩⟩
    · obtain ⟨e', he', -⟩ := Outcome.ofReader_eq_err.mp hfinish
      exact ⟨herr, e', he'⟩
    · by_cases hints : AllIntegers ty.returns
      · obtain ⟨after, hok⟩ := epilogue_ok hints hsize
        rw [hok] at hafter
        cases hafter
      · rw [epilogue_panic hints] at hafter
        cases hafter
  · rintro ⟨herr, e, he⟩
    exact ⟨.wasmReaderError e, (), herr, .inl (Outcome.ofReader_eq_err.mpr ⟨e, he, rfl⟩)⟩

variable {order : List Reg} {σ : V.St}

/-- Behind the declared locals there are three places to panic: a param that is no
integer, an operator without code, and a result that is no integer.  Each is come to
only if what is in front of it went through. -/
theorem afterLocals_panic_iff (htypes : ∀ f, ctx.functionType f = typeLookedUp ps f)
    (hsize : t.localsSize < 2 ^ 31) (hlen : t.locals.length = localsOf ty body) :
    afterLocals V ctx ty body order (φ, t) = .panic ↔ ¬ AllIntegers ty.params ∨
      AllIntegers ty.params ∧ ((∃ pre op post φ' φ'', body.operators.items = pre ++ op :: post ∧
        Translates V ps (localsOf ty body) φ φ' pre ∧ V.op φ' op = .ok φ'' ∧
          ¬ HasCode ps (localsOf ty body) op) ∨
        ∃ φ', Translates V ps (localsOf ty body) φ φ' body.operators.items ∧
          body.operators.err = none ∧ V.finish φ' = .ok () ∧ ¬ AllIntegers ty.returns) := by
  have hparams : ty.params.length ≤ t.locals.length := by
    rw [hlen, localsOf]
    omega
  by_cases hints : AllIntegers ty.params
  · obtain ⟨before, hbefore⟩ := prologue_ok hints order hsize hparams
    rw [afterLocals, hbefore, Outcome.ok_bind, Outcome.bind_eq_panic,
      compileOps_eq_panic htypes hlen, and_iff_right hints, or_iff_right (not_not_intro hints)]
    simp only [afterOps_panic_iff hsize]
    refine or_congr_right ⟨?_, ?_⟩
    · rintro ⟨out, hout, hrest⟩
      exact ⟨out.1, (compileOps_ok_iff htypes hlen).mp ⟨out, hout, rfl⟩, hrest⟩
    · rintro ⟨φ', htrans, hrest⟩
      obtain ⟨out, hout, rfl⟩ := (compileOps_ok_iff htypes hlen).mpr htrans
      exact ⟨out, hout, hrest⟩
  · rw [afterLocals, prologue_panic hints order hsize hparams]
    simp [hints]

/-- The rest of a body is compiled if the operators are let through and have code
and the types are integers. -/
theorem afterLocals_ok_iff (order : List Reg)
    (htypes : ∀ f, ctx.functionType f = typeLookedUp ps f)
    (hsize : t.localsSize < 2 ^ 31) (hlen : t.locals.length = localsOf ty body) :
    (∃ code, afterLocals V ctx ty body order (φ, t) = .ok code) ↔ AllIntegers ty.params ∧
      ∃ φ', Translates V ps (localsOf ty body) φ φ' body.operators.items ∧
        body.operators.err = none ∧ V.finish φ' = .ok () ∧ AllIntegers ty.returns := by
  have hparams : ty.params.length ≤ t.locals.length := by
    rw [hlen, localsOf]
    omega
  by_cases hints : AllIntegers ty.params
  · obtain ⟨before, hbefore⟩ := prologue_ok hints order hsize hparams
    rw [and_iff_right hints, afterLocals, hbefore, Outcome.ok_bind]
    simp only [Outcome.bind_eq_ok]
    constructor
    · rintro ⟨code, out, hout, hrest⟩
      exact ⟨out.1, (compileOps_ok_iff htypes hlen).mp ⟨out, hout, rfl⟩,
        (afterOps_ok_iff hsize).mp ⟨code, hrest⟩⟩
    · rintro ⟨φ', htrans, hrest⟩
      obtain ⟨out, hout, rfl⟩ := (compileOps_ok_iff htypes hlen).mpr htrans
      obtain ⟨code, hcode⟩ := (afterOps_ok_iff hsize).mpr hrest
      exact ⟨code, out, hout, hcode⟩
  · rw [afterLocals, prologue_panic hints order hsize hparams]
    simp [hints]

/-- It is refused at an operator or behind them, if the params are integers. -/
theorem afterLocals_err_iff (order : List Reg)
    (htypes : ∀ f, ctx.functionType f = typeLookedUp ps f)
    (hsize : t.localsSize < 2 ^ 31) (hlen : t.locals.length = localsOf ty body) :
    (∃ e, afterLocals V ctx ty body order (φ, t) = .err e) ↔ AllIntegers ty.params ∧
      ((∃ pre op post φ', body.operators.items = pre ++ op :: post ∧
        Translates V ps (localsOf ty body) φ φ' pre ∧ ∃ e, V.op φ' op = .error e) ∨
        ∃ φ', Translates V ps (localsOf ty body) φ φ' body.operators.items ∧
          ((∃ e, body.operators.err = some e) ∨
            body.operators.err = none ∧ ∃ e, V.finish φ' = .error e)) := by
  have hparams : ty.params.length ≤ t.locals.length := by
    rw [hlen, localsOf]
    omega
  by_cases hints : AllIntegers ty.params
  · obtain ⟨before, hbefore⟩ := prologue_ok hints order hsize hparams
    rw [and_iff_right hints, afterLocals, hbefore, Outcome.ok_bind]
    simp only [Outcome.bind_eq_err, exists_or]
    rw [compileOps_eq_err htypes hlen]
    refine or_congr_right ⟨?_, ?_⟩
    · rintro ⟨e, out, hout, hrest⟩
      exact ⟨out.1, (compileOps_ok_iff htypes hlen).mp ⟨out, hout, rfl⟩,
        (afterOps_err_iff hsize).mp ⟨e, hrest⟩⟩
    · rintro ⟨φ', htrans, hrest⟩
      obtain ⟨out, hout, rfl⟩ := (compileOps_ok_iff htypes hlen).mpr htrans
      obtain ⟨e, he⟩ := (afterOps_err_iff hsize).mpr hrest
      exact ⟨e, out, hout, he⟩
  · rw [afterLocals, prologue_panic hints order hsize hparams]
    simp [hints]

/-- A body whose declared locals are come to, up to them: the params are laid out. -/
theorem Entered.layout (h : Entered V ps σ body φ ty) : ∃ order t₀,
    drainTo ty.params.length = .ok order ∧
    ty.params.foldlM (layoutParam V.overflowChecks) ⟨[], 0⟩ = .ok t₀ ∧
    t₀.localsSize = paramBytes ty.params ∧ Roomy t₀ (V.declared φ) ∧
    ∀ ctx, compileBody V ctx ty φ body =
      compileLocals V φ t₀ body.locals.items >>= afterLocals V ctx ty body order := by
  have hregs := h.registers
  obtain ⟨t₀, ht₀, hsize, -⟩ := exists_layoutParams (c := V.overflowChecks) (t := ⟨[], 0⟩)
    (by dsimp only; omega) h.params
  have hle := paramBytes_le ty.params
  have hlimit : maxFunctionLocals = 50000 := rfl
  rw [Nat.zero_add] at hsize
  refine ⟨_, t₀, drainTo_eq_ok.mpr ⟨hregs, rfl⟩, ht₀, hsize, by unfold Roomy; omega, fun ctx => ?_⟩
  rw [compileBody, (readEnd_eq_ok (u := ())).mpr h.complete, Outcome.ok_bind,
    drainTo_eq_ok.mpr ⟨hregs, rfl⟩, Outcome.ok_bind, ht₀, Outcome.ok_bind]
  rfl

/-- The table of a body whose declared locals are let through. -/
theorem table_of_compileLocals {t₀ : LocalsTable} (horder : drainTo ty.params.length = .ok order)
    (ht₀ : ty.params.foldlM (layoutParam V.overflowChecks) ⟨[], 0⟩ = .ok t₀)
    (hroom : Roomy t₀ (V.declared φ))
    (ht : compileLocals V φ t₀ body.locals.items = .ok (φ', t)) :
    Declares V φ φ' body.locals.items ∧ t.localsSize < 2 ^ 31 ∧
      t.locals.length = localsOf ty body := by
  have hlen := length_layoutLocals (layoutLocals_of_compile horder ht₀ ht)
  rw [length_declaredLocals] at hlen
  rw [compileLocals_eq_foldlM] at ht
  obtain ⟨hdecl, -, hroom'⟩ := (localsStep_foldlM hroom).1 ht
  refine ⟨hdecl, ?_, hlen⟩
  unfold Roomy at hroom'
  dsimp only at hroom'
  omega

/-- What is come to is determined by the payloads and the validator: there is one
state and one type. -/
theorem Entered.unique {φ₁ φ₂ : V.FuncSt} {ty₁ ty₂ : FuncType} (h : Entered V ps σ body φ₁ ty₁)
    (h' : Entered V ps σ body φ₂ ty₂) : φ₁ = φ₂ ∧ ty₁ = ty₂ := by
  obtain ⟨σ₁, h₁⟩ := h.entry
  obtain ⟨σ₂, h₂⟩ := h'.entry
  rw [h₁] at h₂
  cases h₂
  exact ⟨rfl, Option.some.inj (h.type.symm.trans h'.type)⟩

/-- Groups that are all let through, and the table that is left. -/
theorem exists_compileLocals {t₀ : LocalsTable} (horder : drainTo ty.params.length = .ok order)
    (ht₀ : ty.params.foldlM (layoutParam V.overflowChecks) ⟨[], 0⟩ = .ok t₀)
    (hroom : Roomy t₀ (V.declared φ)) (h : Declares V φ φ' body.locals.items) :
    ∃ t, compileLocals V φ t₀ body.locals.items = .ok (φ', t) ∧ t.localsSize < 2 ^ 31 ∧
      t.locals.length = localsOf ty body := by
  obtain ⟨t, ht⟩ := (localsStep_foldlM hroom).2 h
  rw [← compileLocals_eq_foldlM] at ht
  exact ⟨t, ht, (table_of_compileLocals horder ht₀ hroom ht).2⟩

/-- **Where a body makes `compile` panic**, once its declared locals are come to. -/
theorem compileBody_panic_iff (htypes : ∀ f, ctx.functionType f = typeLookedUp ps f)
    (hent : Entered V ps σ body φ ty) :
    compileBody V ctx ty φ body = .panic ↔ BodyPanics V ps σ body := by
  obtain ⟨order, t₀, horder, ht₀, hsize, hroom, hbody⟩ := hent.layout
  rw [hbody, Outcome.bind_eq_panic, compileLocals_eq_panic hroom, hsize]
  constructor
  · rintro (⟨pre, g, post, φ', hitems, hdecl, hsite⟩ | ⟨⟨φ', t⟩, ht, hafter⟩)
    · exact .group hent hitems hdecl hsite
    · obtain ⟨hdecl, hlt, hlen⟩ := table_of_compileLocals horder ht₀ hroom ht
      rw [afterLocals_panic_iff htypes hlt hlen] at hafter
      rcases hafter with hstore | ⟨hints, ⟨pre, op, post, φ₁, φ₂, hitems, htrans, hop, hno⟩ |
        ⟨φ₁, htrans, herr, hfinish, hno⟩⟩
      · exact .store hent hdecl hstore
      · exact .operator ⟨⟨φ, hent, hdecl⟩, hints⟩ hitems htrans hop hno
      · exact .results ⟨⟨φ, hent, hdecl⟩, hints⟩ htrans herr hfinish hno
  · intro h
    cases h with
    | type _ hnone =>
        rw [hent.type] at hnone
        cases hnone
    | params _ hty _ hno =>
        cases hent.type.symm.trans hty
        rcases hno with hmany | ⟨t, hmem, hnot⟩
        · exact absurd hent.registers (Nat.not_le.mpr hmany)
        · exact absurd (hent.params t hmem) hnot
    | group hent' hitems hdecl hsite =>
        obtain ⟨rfl, rfl⟩ := hent.unique hent'
        exact .inl ⟨_, _, _, _, hitems, hdecl, hsite⟩
    | store hent' hdecl hno =>
        obtain ⟨rfl, rfl⟩ := hent.unique hent'
        obtain ⟨t, ht, hlt, hlen⟩ := exists_compileLocals horder ht₀ hroom hdecl
        exact .inr ⟨_, ht, (afterLocals_panic_iff htypes hlt hlen).mpr (.inl hno)⟩
    | operator hopen hitems htrans hop hno =>
        obtain ⟨⟨φ₀, hent', hdecl⟩, hints⟩ := hopen
        obtain ⟨rfl, rfl⟩ := hent.unique hent'
        obtain ⟨t, ht, hlt, hlen⟩ := exists_compileLocals horder ht₀ hroom hdecl
        exact .inr ⟨_, ht, (afterLocals_panic_iff htypes hlt hlen).mpr
          (.inr ⟨hints, .inl ⟨_, _, _, _, _, hitems, htrans, hop, hno⟩⟩)⟩
    | results hopen htrans herr hfinish hno =>
        obtain ⟨⟨φ₀, hent', hdecl⟩, hints⟩ := hopen
        obtain ⟨rfl, rfl⟩ := hent.unique hent'
        obtain ⟨t, ht, hlt, hlen⟩ := exists_compileLocals horder ht₀ hroom hdecl
        exact .inr ⟨_, ht, (afterLocals_panic_iff htypes hlt hlen).mpr
          (.inr ⟨hints, .inr ⟨_, htrans, herr, hfinish, hno⟩⟩)⟩

/-- **Where a body is refused with an error.** -/
theorem compileBody_err_iff (htypes : ∀ f, ctx.functionType f = typeLookedUp ps f)
    (hent : Entered V ps σ body φ ty) :
    (∃ e, compileBody V ctx ty φ body = .err e) ↔ BodyRefused V ps σ body := by
  obtain ⟨order, t₀, horder, ht₀, hsize, hroom, hbody⟩ := hent.layout
  simp only [hbody, Outcome.bind_eq_err, exists_or]
  rw [compileLocals_eq_err hroom, hsize]
  constructor
  · rintro (⟨pre, g, post, φ', hitems, hdecl, hg, hfits, e, he⟩ | ⟨e, ⟨φ', t⟩, ht, hafter⟩)
    · exact .group hent hitems hdecl hg hfits he
    · obtain ⟨hdecl, hlt, hlen⟩ := table_of_compileLocals horder ht₀ hroom ht
      obtain ⟨hints, ⟨pre, op, post, φ₁, hitems, htrans, e', he'⟩ |
        ⟨φ₁, htrans, ⟨e', he'⟩ | ⟨herr, e', he'⟩⟩⟩ :=
        (afterLocals_err_iff order htypes hlt hlen).mp ⟨e, hafter⟩
      · exact .operator ⟨⟨φ, hent, hdecl⟩, hints⟩ hitems htrans he'
      · exact .operators ⟨⟨φ, hent, hdecl⟩, hints⟩ htrans he'
      · exact .finish ⟨⟨φ, hent, hdecl⟩, hints⟩ htrans herr he'
  · intro h
    -- behind the declared locals the three places differ in the last argument only
    have hbehind : ∀ {φ₁ ty₁}, Opened V ps σ body φ₁ ty₁ →
        ((∃ pre op post φ', body.operators.items = pre ++ op :: post ∧
          Translates V ps (localsOf ty₁ body) φ₁ φ' pre ∧ ∃ e, V.op φ' op = .error e) ∨
          ∃ φ', Translates V ps (localsOf ty₁ body) φ₁ φ' body.operators.items ∧
            ((∃ e, body.operators.err = some e) ∨
              body.operators.err = none ∧ ∃ e, V.finish φ' = .error e)) →
        ∃ e s, compileLocals V φ t₀ body.locals.items = .ok s ∧
          afterLocals V ctx ty body order s = .err e := by
      rintro φ₁ ty₁ ⟨⟨φ₀, hent', hdecl⟩, hints⟩ hsite
      obtain ⟨rfl, rfl⟩ := hent.unique hent'
      obtain ⟨t, ht, hlt, hlen⟩ := exists_compileLocals horder ht₀ hroom hdecl
      obtain ⟨e, he⟩ := (afterLocals_err_iff order htypes hlt hlen).mpr ⟨hints, hsite⟩
      exact ⟨e, _, ht, he⟩
    cases h with
    | entry he =>
        obtain ⟨σ', hentry⟩ := hent.entry
        rw [hentry] at he
        cases he
    | locals _ _ he =>
        rw [hent.complete] at he
        cases he
    | group hent' hitems hdecl hg hfits he =>
        obtain ⟨rfl, rfl⟩ := hent.unique hent'
        exact .inl ⟨_, _, _, _, hitems, hdecl, hg, hfits, _, he⟩
    | operator hopen hitems htrans he =>
        exact .inr (hbehind hopen (.inl ⟨_, _, _, _, hitems, htrans, _, he⟩))
    | operators hopen htrans he => exact .inr (hbehind hopen (.inr ⟨_, htrans, .inl ⟨_, he⟩⟩))
    | finish hopen htrans herr he =>
        exact .inr (hbehind hopen (.inr ⟨_, htrans, .inr ⟨herr, _, he⟩⟩))

/-- **A body is compiled exactly when it is let through, complete and supported.** -/
theorem compileBody_ok_iff (htypes : ∀ f, ctx.functionType f = typeLookedUp ps f)
    (hent : Entered V ps σ body φ ty) :
    (∃ out, compileBody V ctx ty φ body = .ok out) ↔
      (∃ σ', V.body σ body = .ok σ') ∧ Complete (.codeSectionEntry body) ∧
        Supported ps body := by
  obtain ⟨order, t₀, horder, ht₀, hsize, hroom, hbody⟩ := hent.layout
  obtain ⟨σ', hentry⟩ := hent.entry
  simp only [hbody, Outcome.bind_eq_ok]
  constructor
  · rintro ⟨out, ⟨φ', t⟩, ht, hafter⟩
    obtain ⟨hdecl, hlt, hlen⟩ := table_of_compileLocals horder ht₀ hroom ht
    obtain ⟨hints, φ₁, htrans, herr, hfinish, hreturns⟩ :=
      (afterLocals_ok_iff order htypes hlt hlen).mp ⟨out, hafter⟩
    refine ⟨⟨σ', ?_⟩, ⟨hent.complete, herr⟩, ty, hent.type, ⟨hent.registers, hints, hreturns⟩,
      hdecl.sized, htrans.code⟩
    rw [Validator.body, Validator.except_bind_eq_ok]
    refine ⟨(φ, σ'), hentry, ?_⟩
    simp only [Validator.except_bind_eq_ok]
    exact ⟨φ', hdecl.accepted, φ₁, htrans.accepted, (), hfinish, rfl⟩
  · rintro ⟨⟨σ'', hσ''⟩, ⟨-, herr⟩, ty', hty', ⟨-, hints, hreturns⟩, hsized, hcode⟩
    cases hent.type.symm.trans hty'
    rw [Validator.body, hentry] at hσ''
    simp only [Validator.except_bind_eq_ok] at hσ''
    obtain ⟨_, hpair, φ', hlocals, φ₁, hops, ⟨⟩, hfinish, -⟩ := hσ''
    cases hpair
    obtain ⟨t, ht, hlt, hlen⟩ := exists_compileLocals horder ht₀ hroom ⟨hlocals, hsized⟩
    obtain ⟨out, hout⟩ := (afterLocals_ok_iff order htypes hlt hlen).mpr
      ⟨hints, φ₁, ⟨hops, hcode⟩, herr, hfinish, hreturns⟩
    exact ⟨out, _, ht, hout⟩

end ParaOS.Parawasm
