import ParaOS.Parawasm.Exports
import ParaOS.Parawasm.Integrity
import ParaOS.X86.StackDepth

/-!
# Stack heights

`compile` asks the validator for the number of operands after every operator of a
body and records the largest as the function's stack height.  What the emitted
code does with `rsp` is another account of the same thing, kept in pushes and
pops.  The two are compared here operator by operator: the depth of the code
after an operator is eight bytes for each operand the validator counts, less
eight for each result of a call that is not pushed (`surplus`: only two are).

So the depth never exceeds what the height says, and reaches it if no call has
more than two results; the optimiser only leaves depths out
(`Rewrites.along`).  Results that are not pushed are popped all the same, which
takes `rsp` up through the frame and whatever is above, in the end past the last
address (`stack_height_exceeded`).

### What is load-bearing

`CountsOperands` says what the validator's count means, for the operators checked so
far, and is documented.  The recorded height is a maximum of such counts, with the
one before the first operator included (`peak_of_compileBody`).

`TypesResolved`: the validator counts the operands of a call with its declared type,
and the emitted code moves as many words as the type looked up has.  Where the two
differ neither account says anything about the other.

The bound holds as long as `rsp` has not been taken past the last address.  The
condition is on the state before a step, and it is not idle: of four results of a
call two are pushed, the operators behind it pop more than these, and in a function
called with its return address in the last word of memory `rsp` comes to `0`, far
below any bound.  With at most two results for every function that is called, it
holds by itself (`NeverWraps`).
-/

namespace ParaOS.Parawasm

open Machine X86 Wasm

variable {V : Validator} {E : Encoder} {ctx : Context}

/-! ## The recorded height

`compile` takes a maximum over what the validator returns.  The validator's own
states are not looked at. -/

/-- The loop over operators keeps the largest height it has seen. -/
theorem compileOps_height {locals : List ℕ} {φ φ' : V.FuncSt} {height height' : ℕ}
    {ops : List Operator} {code : List Instr}
    (h : compileOps V ctx locals φ height ops = .ok (φ', height', code))
    (hφ : V.operandStackHeight φ ≤ height) :
    height ≤ height' ∧
      (∀ pre, pre <+: ops → ∃ φ₂, pre.foldlM V.op φ = .ok φ₂ ∧ V.operandStackHeight φ₂ ≤ height') ∧
      (height' = height ∨ ∃ pre φ₂, pre <+: ops ∧ pre.foldlM V.op φ = .ok φ₂ ∧
        V.operandStackHeight φ₂ = height') := by
  induction ops generalizing φ height code with
  | nil =>
      simp only [compileOps, Outcome.ok.injEq, Prod.mk.injEq] at h
      obtain ⟨-, rfl, -⟩ := h
      refine ⟨le_rfl, fun pre hpre => ?_, .inl rfl⟩
      cases List.prefix_nil.mp hpre
      exact ⟨φ, rfl, hφ⟩
  | cons op ops ih =>
      simp only [compileOps, Outcome.bind_eq_ok, Outcome.ofReader_eq_ok, Outcome.pure_eq_ok,
        Outcome.ok.injEq, Prod.mk.injEq] at h
      obtain ⟨φ₁, hop, c, -, ⟨φ₂, h₂, r⟩, hrest, rfl, rfl, -⟩ := h
      obtain ⟨hle, hmem, hmax⟩ := ih hrest (le_max_right _ _)
      have hcons : ∀ {pre : List Operator} {φ₂ : V.FuncSt}, pre.foldlM V.op φ₁ = .ok φ₂ →
          (op :: pre).foldlM V.op φ = .ok φ₂ := by
        intro pre φ₂ h
        rw [List.foldlM_cons, Validator.except_bind_eq_ok]
        exact ⟨φ₁, hop, h⟩
      refine ⟨(le_max_left _ _).trans hle, fun pre hpre => ?_, ?_⟩
      · cases pre with
        | nil => exact ⟨φ, rfl, hφ.trans ((le_max_left _ _).trans hle)⟩
        | cons op' pre =>
            obtain ⟨rfl, htail⟩ := List.cons_prefix_cons.mp hpre
            obtain ⟨φ₃, hφ₃, hle₃⟩ := hmem pre htail
            exact ⟨φ₃, hcons hφ₃, hle₃⟩
      · rcases hmax with hmax | ⟨pre, φ₃, hpre, hφ₃, hmax⟩
        · by_cases hm : V.operandStackHeight φ₁ ≤ height
          · exact .inl (hmax.trans (max_eq_left hm))
          · refine .inr ⟨[op], φ₁, List.cons_prefix_cons.mpr ⟨rfl, List.nil_prefix⟩, hcons rfl, ?_⟩
            rw [hmax, max_eq_right (by omega)]
        · exact .inr ⟨op :: pre, φ₃, List.cons_prefix_cons.mpr ⟨rfl, hpre⟩, hcons hφ₃, hmax⟩

/-- The height of a body is the largest the validator has from the first operator
to the last. -/
theorem compileBody_height {ty : FuncType} {φ : V.FuncSt} {body : FunctionBody}
    {code : List Instr} {height : ℕ} (h : compileBody V ctx ty φ body = .ok (code, height)) :
    ∃ φ₁, body.locals.items.foldlM (fun φ g => V.defineLocals φ g.1 g.2) φ = .ok φ₁ ∧
      (∀ pre, pre <+: body.operators.items →
        ∃ φ₂, pre.foldlM V.op φ₁ = .ok φ₂ ∧ V.operandStackHeight φ₂ ≤ height) ∧
      ∃ pre φ₂, pre <+: body.operators.items ∧ pre.foldlM V.op φ₁ = .ok φ₂ ∧
        V.operandStackHeight φ₂ = height := by
  simp only [compileBody, Outcome.bind_eq_ok, Outcome.pure_eq_ok, Outcome.ok.injEq] at h
  obtain ⟨-, -, order, -, t₀, -, ⟨φ₁, t⟩, hlocals, before, -, ⟨φ₂, height', code'⟩, hops, -, -, -,
    -, after, -, heq⟩ := h
  cases heq
  obtain ⟨-, hpre, hmax⟩ := compileOps_height hops le_rfl
  refine ⟨φ₁, compileLocals_validated hlocals, hpre, ?_⟩
  rcases hmax with hmax | hmax
  · exact ⟨[], φ₁, List.nil_prefix, rfl, hmax.symm⟩
  · exact hmax

/-! ## Operand types

The number of operands that a typing gives to each point of a body is what the
validator counts there. -/

/-- Types are popped one for one. -/
theorem popTypes_length {ts st st' : List Ty} (h : popTypes ts st = some st') :
    st.length = ts.length + st'.length := by
  induction ts generalizing st with
  | nil =>
      cases h
      simp
  | cons t ts ih =>
      cases st with
      | nil => cases h
      | cons t' st =>
          obtain ⟨-, h⟩ := Option.ite_none_right_eq_some.mp h
          rw [List.length_cons, List.length_cons, ih h]
          omega

variable {C : TypeContext} {st st' : List Ty}

/-- The closing `end` has no typing rule of its own. -/
theorem end_not_mem_of_typeOps {ops : List Operator} (h : typeOps C st ops = some st') :
    .end ∉ ops := by
  induction ops generalizing st with
  | nil => simp
  | cons op ops ih =>
      obtain ⟨st₁, hop, hops⟩ := Option.bind_eq_some_iff.mp h
      rw [List.mem_cons, not_or]
      refine ⟨?_, ih hops⟩
      rintro rfl
      cases hop

/-- A sequence is typed piece by piece. -/
theorem typeOps_append {ops ops' : List Operator} :
    typeOps C st (ops ++ ops') = (typeOps C st ops).bind fun st₁ => typeOps C st₁ ops' := by
  induction ops generalizing st with
  | nil => rfl
  | cons op ops ih =>
      rw [List.cons_append, typeOps, typeOps, Option.bind_assoc]
      exact congrArg (Option.bind (typeOp C st op)) (funext fun st₁ => ih)

/-- What the operators of a body without the closing `end` come to. -/
theorem operandsAfter_of_prefix {init pre : List Operator} (h : typeOps C [] init = some st')
    (hpre : pre <+: init) : ∃ st, typeOps C [] pre = some st ∧ operandsAfter C pre = some st := by
  obtain ⟨rest, rfl⟩ := hpre
  rw [typeOps_append] at h
  obtain ⟨st, hst, -⟩ := Option.bind_eq_some_iff.mp h
  refine ⟨st, hst, ?_⟩
  have hend := end_not_mem_of_typeOps hst
  rw [operandsAfter, List.filter_eq_self.mpr, hst]
  intro op hop
  rw [decide_eq_true_eq]
  rintro rfl
  exact hend hop

/-- The closing `end` changes no operands. -/
theorem operandsAfter_concat_end (C : TypeContext) (init : List Operator) :
    operandsAfter C (init ++ [.end]) = operandsAfter C init := by
  simp [operandsAfter]

/-- The largest number of operands of a well-typed sequence. -/
structure Peak (C : TypeContext) (ops : List Operator) (height : ℕ) : Prop where
  le : ∀ pre st, pre <+: ops → typeOps C [] pre = some st → st.length ≤ height
  reached : ∃ pre st, pre <+: ops ∧ typeOps C [] pre = some st ∧ st.length = height

/-- **The recorded height is the largest number of operands.** -/
theorem peak_of_compileBody {ps : List Payload} {k t : ℕ} {ty : FuncType} {φ : V.FuncSt}
    {body : FunctionBody} {code : List Instr} {height : ℕ} {ty' : FuncType} {init : List Operator}
    (hcount : V.CountsOperands) (haccepts : V.Accepts ps) (hplain : ∀ p ∈ ps, p.nests = false)
    (henters : V.Enters ps k body φ) (ht : (definedFunctions ps)[k]? = some t)
    (hty : typeAt ps t = some ty) (hops : body.operators.items = init ++ [.end])
    (htyped : typeOps ⟨declaredType ps, ty.params ++ declaredLocals body.locals.items⟩ [] init =
      some ty.returns.reverse)
    (h : compileBody V ctx ty' φ body = .ok (code, height)) :
    Peak ⟨declaredType ps, ty.params ++ declaredLocals body.locals.items⟩ init height := by
  obtain ⟨φ₁, hlocals, hle, pre, φ₂, hpre, hφ₂, hmax⟩ := compileBody_height h
  have hcount := fun {ops : List Operator} {st : List Ty} {φ₂ : V.FuncSt} =>
    hcount ps k t body ty φ φ₁ φ₂ ops st haccepts hplain henters ht hty hlocals
  refine ⟨fun pre st hpre hst => ?_, ?_⟩
  · have hpre' : pre <+: body.operators.items := hops ▸ hpre.trans (List.prefix_append _ _)
    obtain ⟨φ₂, hφ₂, hle⟩ := hle pre hpre'
    obtain ⟨st', hst', hafter⟩ := operandsAfter_of_prefix htyped hpre
    rw [hst] at hst'
    cases hst'
    rwa [hcount hpre' hφ₂ hafter] at hle
  · -- the closing `end` has as many operands as the operators before it
    obtain ⟨pre', hpre', hafter⟩ : ∃ pre', pre' <+: init ∧
        operandsAfter ⟨declaredType ps, ty.params ++ declaredLocals body.locals.items⟩ pre =
          operandsAfter ⟨declaredType ps, ty.params ++ declaredLocals body.locals.items⟩ pre' := by
      rw [hops] at hpre
      rcases List.prefix_concat_iff.mp hpre with rfl | hpre
      · exact ⟨init, List.prefix_rfl, operandsAfter_concat_end _ _⟩
      · exact ⟨pre, hpre, rfl⟩
    obtain ⟨st, hst, hst'⟩ := operandsAfter_of_prefix htyped hpre'
    rw [← hafter] at hst'
    exact ⟨pre', st, hpre', hst, by rw [← hcount hpre hφ₂ hst', hmax]⟩

/-! ## The depth of the code

For each piece of code the level it leads to and a condition on the depths in
between.  Pops come first, so what has to be known of the depths is how far up they
go. -/

variable {Q : ℤ → Prop} {d : ℤ}

/-- Pops go up a word at a time, -/
theorem passes_pops {rs : List Reg} (hrs : ∀ r ∈ rs, r.general = true)
    (hQ : ∀ x, d - 8 * rs.length ≤ x → x ≤ d → Q x) :
    Passes Q (.framed d) (rs.map .pop) (.framed (d - 8 * rs.length)) := by
  induction rs generalizing d with
  | nil => simp [Passes]
  | cons r rs ih =>
      rw [List.forall_mem_cons] at hrs
      rw [List.length_cons] at hQ ⊢
      refine ⟨hQ d (by omega) (by omega), .framed (d - 8), by simp [Level.move, hrs.1], ?_⟩
      rw [show d - 8 * ((rs.length + 1 : ℕ) : ℤ) = d - 8 - 8 * rs.length by omega]
      exact ih hrs.2 fun x hx hx' => hQ x (by omega) (by omega)

/-- and pushes down. -/
theorem passes_pushes {rs : List Reg} (hrs : ∀ r ∈ rs, r.general = true)
    (hQ : ∀ x, d ≤ x → x ≤ d + 8 * rs.length → Q x) :
    Passes Q (.framed d) (rs.map .push) (.framed (d + 8 * rs.length)) := by
  induction rs generalizing d with
  | nil => simp [Passes]
  | cons r rs ih =>
      rw [List.forall_mem_cons] at hrs
      rw [List.length_cons] at hQ ⊢
      refine ⟨hQ d (by omega) (by omega), .framed (d + 8), by simp [Level.move, hrs.1], ?_⟩
      rw [show d + 8 * ((rs.length + 1 : ℕ) : ℤ) = d + 8 + 8 * rs.length by omega]
      exact ih hrs.2 fun x hx hx' => hQ x (by omega) (by omega)

/-- A call comes back to the depth it was made at. -/
theorem passes_callCode {f : ℕ} (hQ : Q d) :
    Passes Q (.framed d) (callCode ctx f) (.framed d) := by
  rw [callCode]
  split
  · split
    · exact ⟨hQ, _, rfl, hQ, _, rfl, rfl⟩
    · exact rfl
  · exact ⟨hQ, _, rfl, rfl⟩

/-- The code of an operator on two operands. -/
theorem passes_binary {i : Instr} (hi : ∀ x, (Level.framed x).move i = some (.framed x))
    (hQ : ∀ x, d - 16 ≤ x → x ≤ d → Q x) :
    Passes Q (.framed d) [.pop .rax, .pop .rbx, i, .push .rax] (.framed (d - 8)) := by
  have h₁ : Q (d - 8) := hQ _ (by omega) (by omega)
  have h₂ : Q (d - 8 - 8) := hQ _ (by omega) (by omega)
  refine ⟨hQ d (by omega) (by omega), .framed (d - 8), rfl, h₁, .framed (d - 8 - 8), rfl, h₂,
    .framed (d - 8 - 8), hi _, h₂, .framed (d - 8 - 8 + 8), rfl, ?_⟩
  rw [Int.sub_add_cancel]
  rfl

/-- The number of results of a call that are not pushed.  Each of them makes the
code eight bytes less deep than the validator's count has it, for the rest of the
body. -/
def surplus (ctx : Context) : Operator → ℕ
  | .call f => ((ctx.functionType f).map fun ty => ty.returns.length - 2).getD 0
  | _ => 0

/-- The number of results not pushed in a sequence. -/
def surplusOf (ctx : Context) (ops : List Operator) : ℕ := (ops.map (surplus ctx)).sum

/-- The callee's results, as many as there are registers. -/
theorem length_take_returnOrder (n : ℕ) : (returnOrder.take n).length = min n 2 := by
  rw [List.length_take]
  rfl

/-- **The code of an operator** takes the depth where the operands go, less the
results that are not pushed, and on the way it pops operands and nothing else. -/
theorem passes_handleInstruction {locals : List ℕ} {op : Operator} {code : List Instr}
    (hfunc : ∀ f ty, C.func f = some ty → ctx.functionType f = some ty)
    (hop : integral op = true) (htype : typeOp C st op = some st')
    (hcode : handleInstruction ctx locals op = .ok code)
    (hQ : ∀ x, d - 8 * st.length ≤ x → x ≤ max d (d + 8 * st'.length - 8 * st.length) → Q x) :
    Passes Q (.framed d) code
      (.framed (d + 8 * st'.length - 8 * st.length - 8 * surplus ctx op)) := by
  have hd : Q d := hQ d (by omega) (by omega)
  cases op with
  | i64Const v =>
      cases hcode
      cases htype
      refine ⟨hd, .framed d, rfl, hd, .framed (d + 8), rfl, ?_⟩
      simp only [Passes, surplus, List.length_cons, Level.framed.injEq]
      omega
  | localGet i =>
      rw [handleInstruction] at hcode
      split at hcode
      · cases hcode
        obtain ⟨t, -, rfl⟩ := Option.map_eq_some_iff.mp htype
        refine ⟨hd, .framed d, rfl, hd, .framed (d + 8), rfl, ?_⟩
        simp only [Passes, surplus, List.length_cons, Level.framed.injEq]
        omega
      · cases hcode
  | localSet i =>
      rw [handleInstruction] at hcode
      split at hcode
      · cases hcode
        obtain ⟨t, -, hpop⟩ := Option.bind_eq_some_iff.mp htype
        have hlen := popTypes_length hpop
        rw [List.length_singleton] at hlen
        have h₁ : Q (d - 8) := hQ _ (by omega) (by omega)
        refine ⟨hd, .framed (d - 8), rfl, h₁, .framed (d - 8), rfl, ?_⟩
        simp only [Passes, surplus, Level.framed.injEq]
        omega
      · cases hcode
  | i64Add =>
      cases hcode
      obtain ⟨st₁, hpop, rfl⟩ := Option.map_eq_some_iff.mp htype
      have hlen := popTypes_length hpop
      simp only [List.length_cons, List.length_nil] at hlen hQ ⊢
      rw [show d + 8 * ((st₁.length + 1 : ℕ) : ℤ) - 8 * st.length - 8 * surplus ctx .i64Add =
        d - 8 by simp only [surplus]; omega]
      exact passes_binary (fun x => rfl) fun x hx hx' => hQ x (by omega) (by omega)
  | i64Sub =>
      cases hcode
      obtain ⟨st₁, hpop, rfl⟩ := Option.map_eq_some_iff.mp htype
      have hlen := popTypes_length hpop
      simp only [List.length_cons, List.length_nil] at hlen hQ ⊢
      rw [show d + 8 * ((st₁.length + 1 : ℕ) : ℤ) - 8 * st.length - 8 * surplus ctx .i64Sub =
        d - 8 by simp only [surplus]; omega]
      exact passes_binary (fun x => rfl) fun x hx hx' => hQ x (by omega) (by omega)
  | nop =>
      cases hcode
      cases htype
      refine ⟨hd, .framed d, rfl, ?_⟩
      simp only [Passes, surplus, Level.framed.injEq]
      omega
  | call f =>
      simp only [handleInstruction, Outcome.bind_eq_ok, Outcome.unwrap_eq_ok, Outcome.pure_eq_ok,
        Outcome.ok.injEq] at hcode
      obtain ⟨ty, hty, order, horder, args, hargs, results, hresults, rfl⟩ := hcode
      obtain ⟨ty', hty', hst⟩ := Option.bind_eq_some_iff.mp htype
      rw [hfunc f ty' hty'] at hty
      cases hty
      obtain ⟨st₁, hpop, rfl⟩ := Option.map_eq_some_iff.mp hst
      have hlen := popTypes_length hpop
      rw [List.length_reverse] at hlen
      obtain ⟨-, rfl⟩ := drainTo_eq_ok.mp horder
      obtain ⟨rs, rfl, hrs, hmem⟩ := popArgs_eq_ok hargs
      rw [moveResults_eq_ok hresults]
      have hsurplus : surplus ctx (.call f) = ty.returns.length - 2 := by
        simp [surplus, hfunc f ty hty']
      have htake := length_take_returnOrder ty.returns.length
      simp only [List.length_append, List.length_reverse] at hQ ⊢
      have hpops : Passes Q (.framed d) (rs.map .pop) (.framed (d - 8 * rs.length)) :=
        passes_pops (fun r hr => general_of_mem_integerOrder (List.mem_of_mem_take (hmem r hr)))
          fun x hx hx' => hQ x (by omega) (by omega)
      have hpushes : Passes Q (.framed (d - 8 * rs.length))
          ((returnOrder.take ty.returns.length).map .push)
          (.framed (d - 8 * rs.length + 8 * (returnOrder.take ty.returns.length).length)) :=
        passes_pushes (fun r hr => general_of_mem_returnOrder (List.mem_of_mem_take hr))
          fun x hx hx' => hQ x (by omega) (by omega)
      have hcall : Passes Q (.framed (d - 8 * rs.length)) (callCode ctx f)
          (.framed (d - 8 * rs.length)) := passes_callCode (hQ _ (by omega) (by omega))
      rw [show d + 8 * ((ty.returns.length + st₁.length : ℕ) : ℤ) - 8 * st.length -
        8 * surplus ctx (.call f) =
          d - 8 * rs.length + 8 * (returnOrder.take ty.returns.length).length by omega]
      exact (hpops.append hcall).append hpushes
  | «end» => cases htype
  | i32Add => cases hop
  | i32Sub => cases hop
  | unimplemented b => cases hop

/-- **The code of a sequence.**  The depth is `base` and eight bytes for each
operand, less `extra` results that are not there. -/
theorem passes_handleInstructions {locals : List ℕ} {ops : List Operator} {code : List Instr}
    {base : ℤ} {extra H : ℕ}
    (hfunc : ∀ f ty, C.func f = some ty → ctx.functionType f = some ty)
    (hops : ∀ op ∈ ops, integral op = true) (htype : typeOps C st ops = some st')
    (hcode : handleInstructions ctx locals ops = .ok code)
    (hH : ∀ pre st₁, pre <+: ops → typeOps C st pre = some st₁ → st₁.length ≤ H)
    (hd : d + 8 * extra = base + 8 * st.length)
    (hQ : ∀ x, base - 8 * (extra + surplusOf ctx ops : ℕ) ≤ x → x ≤ base + 8 * H → Q x) :
    Passes Q (.framed d) code
      (.framed (base + 8 * st'.length - 8 * (extra + surplusOf ctx ops : ℕ))) := by
  induction ops generalizing d st extra code with
  | nil =>
      cases hcode
      cases htype
      simp only [Passes, surplusOf, List.map_nil, List.sum_nil, Level.framed.injEq]
      omega
  | cons op ops ih =>
      obtain ⟨c, r, hc, hr, rfl⟩ := handleInstructions_cons.mp hcode
      obtain ⟨st₁, hop, hrest⟩ := Option.bind_eq_some_iff.mp htype
      rw [List.forall_mem_cons] at hops
      have hsum : surplusOf ctx (op :: ops) = surplus ctx op + surplusOf ctx ops := rfl
      have hst : st.length ≤ H := hH [] st List.nil_prefix rfl
      have hst₁ : st₁.length ≤ H := by
        refine hH [op] st₁ (List.cons_prefix_cons.mpr ⟨rfl, List.nil_prefix⟩) ?_
        rw [typeOps, hop]
        rfl
      rw [hsum] at hQ ⊢
      have hhead := passes_handleInstruction (d := d) (Q := Q) hfunc hops.1 hop hc
        fun x hx hx' => hQ x (by omega) (by omega)
      refine hhead.append ?_
      rw [show base + 8 * (st'.length : ℤ) - 8 * (extra + (surplus ctx op + surplusOf ctx ops) : ℕ) =
        base + 8 * st'.length - 8 * (extra + surplus ctx op + surplusOf ctx ops : ℕ) by omega]
      refine ih hops.2 hrest hr (fun pre st₂ hpre hst₂ => ?_) (by omega)
        fun x hx hx' => hQ x (by omega) hx'
      refine hH (op :: pre) st₂ (List.cons_prefix_cons.mpr ⟨rfl, hpre⟩) ?_
      rw [typeOps, hop]
      exact hst₂

/-! ## The depth of a body

From the entry, with the return address on top, to the `ret`. -/

/-- Stores leave the depth as it is. -/
theorem passes_stores (hQ : Q d) (offs : List ℕ) (rs : List Reg) :
    Passes Q (.framed d) (List.zipWith .store offs rs) (.framed d) := by
  induction offs generalizing rs with
  | nil => exact rfl
  | cons off offs ih =>
      cases rs with
      | nil => exact rfl
      | cons r rs => exact ⟨hQ, .framed d, rfl, ih rs⟩

/-- The prologue goes down by the saved `rbp` and the locals. -/
theorem passes_prologue {params : List Ty} {order : List Reg} {t : LocalsTable}
    {before : List Instr} (hp : AllI64 params) (horder : drainTo params.length = .ok order)
    (h : prologue params order t = .ok before)
    (hQ : ∀ x, 0 ≤ x → x ≤ 8 + (t.localsSize : ℤ) → Q x) :
    Passes Q (.bare 0) before (.framed (8 + (t.localsSize : ℤ))) := by
  obtain ⟨-, rfl⟩ := prologue_i64 hp horder h
  have hstart : Passes Q (.bare 0) [.push .rbp, .mov .rbp .rsp] (.framed 8) :=
    ⟨hQ 0 (by omega) (by omega), .bare 8, rfl, hQ 8 (by omega) (by omega), .framed 8, rfl, rfl⟩
  have halloc : Passes Q (.framed 8) (if t.localsSize = 0 then [] else [.subRsp t.localsSize])
      (.framed (8 + (t.localsSize : ℤ))) := by
    split_ifs with hzero
    · rw [hzero]
      exact rfl
    · exact ⟨hQ 8 (by omega) (by omega), _, rfl, rfl⟩
  have hframe : Q (8 + (t.localsSize : ℤ)) := hQ _ (by omega) (by omega)
  exact (hstart.append halloc).append (passes_stores hframe _ _)

/-- The epilogue comes back to the depth of the entry, with depths in between that
are no greater than before. -/
theorem along_epilogue {returns : List Ty} {size : ℕ} {after : List Instr} {lo hi : ℤ}
    (h : epilogue returns size = .ok after) (hzero : lo ≤ 0)
    (hlo : lo ≤ d - 8 * min returns.length 2 - size) (hhi : d ≤ hi) (height : 8 ≤ hi)
    (hQ : ∀ x, lo ≤ x → x ≤ hi → Q x) : Along Q (.framed d) after := by
  simp only [epilogue, Outcome.bind_eq_ok, Outcome.pure_eq_ok, Outcome.ok.injEq] at h
  obtain ⟨results, hresults, free, hfree, rfl⟩ := h
  obtain ⟨hsize, rfl⟩ := moveStack_eq_ok hfree
  have hlen := length_take_returnOrder returns.length
  have hgen : ∀ r ∈ returnOrder.take returns.length, r.general = true :=
    fun r hr => general_of_mem_returnOrder (List.mem_of_mem_take hr)
  rw [moveResults_eq_ok hresults, List.append_assoc]
  generalize returnOrder.take returns.length = rs at hlen hgen ⊢
  have hpops : Passes Q (.framed d) (rs.map .pop) (.framed (d - 8 * rs.length)) :=
    passes_pops hgen fun x hx hx' => hQ x (by omega) (by omega)
  have hreset : ∀ d', lo ≤ d' → d' ≤ hi →
      Along Q (.framed d') [.mov .rsp .rbp, .pop .rbp, .ret] := fun d' hd hd' =>
    ⟨hQ d' hd hd', .inr ⟨.reset 8, rfl, hQ 8 (by omega) (by omega), .inr
      ⟨.done 0, rfl, hQ 0 (by omega) (by omega), .inl rfl⟩⟩⟩
  refine hpops.along ?_
  split_ifs with hempty
  · exact hreset _ (by omega) (by omega)
  · refine ⟨hQ _ (by simp only [Level.depth]; omega) (by simp only [Level.depth]; omega), .inr
      ⟨.framed (d - 8 * rs.length - size), rfl, hreset _ (by omega) (by omega)⟩⟩

/-- The code of the operators in front of the closing `end`. -/
theorem handleInstructions_concat_end {locals : List ℕ} {init : List Operator} {code : List Instr}
    (h : handleInstructions ctx locals (init ++ [.end]) = .ok code) :
    handleInstructions ctx locals init = .ok code := by
  obtain ⟨c, r, hc, hr, rfl⟩ := handleInstructions_append.mp h
  cases hr
  rw [hc, List.append_nil, List.append_nil]

section Body

variable {ty : FuncType} {φ : V.FuncSt} {body : FunctionBody} {out : List Instr × ℕ}
  {init : List Operator} {t : LocalsTable} {H : ℕ}

/-- **The depths of a body** are between those of its frame and those of its
height, apart from results that are not pushed. -/
theorem along_compileBody (h : compileBody V ctx ty φ body = .ok out) (hp : AllI64 ty.params)
    (hfunc : ∀ f ty, C.func f = some ty → ctx.functionType f = some ty)
    (hops : body.operators.items = init ++ [.end]) (hint : ∀ op ∈ init, integral op = true)
    (htyped : typeOps C [] init = some ty.returns.reverse)
    (hH : ∀ pre st, pre <+: init → typeOps C [] pre = some st → st.length ≤ H)
    (ht : layoutLocals ty.params body.locals.items = .ok t)
    (hQ : ∀ x, -(8 * surplusOf ctx init : ℤ) ≤ x → x ≤ 8 + (t.localsSize : ℤ) + 8 * H → Q x) :
    Along Q (.bare 0) out.1 := by
  obtain ⟨order, t', before, code, after, horder, ht', hbefore, hcode, hafter, hout⟩ :=
    compileBody_eq_ok h
  rw [ht] at ht'
  cases ht'
  rw [hops] at hcode
  have hreturns := hH init _ List.prefix_rfl htyped
  have hdepth : 8 + (t.localsSize : ℤ) + 8 * (0 : ℕ) =
      8 + (t.localsSize : ℤ) + 8 * ([] : List Ty).length := by
    simp
  have hbody := passes_handleInstructions hfunc hint htyped (handleInstructions_concat_end hcode) hH
    hdepth fun x hx hx' => hQ x (by omega) hx'
  rw [List.length_reverse] at hreturns hbody
  rw [hout, List.append_assoc]
  refine (passes_prologue hp horder hbefore fun x hx hx' => hQ x (by omega) (by omega)).along
    (hbody.along (along_epilogue hafter ?_ ?_ ?_ ?_ hQ))
  all_goals omega

/-- The code up to a point between two operators, if every result is pushed. -/
theorem passes_to_prefix {pre : List Operator} (h : compileBody V ctx ty φ body = .ok out)
    (hp : AllI64 ty.params) (hfunc : ∀ f ty, C.func f = some ty → ctx.functionType f = some ty)
    (hops : body.operators.items = init ++ [.end]) (hint : ∀ op ∈ init, integral op = true)
    (hH : ∀ pre st, pre <+: init → typeOps C [] pre = some st → st.length ≤ H)
    (hsurplus : surplusOf ctx init = 0) (hpre : pre <+: init) (hst : typeOps C [] pre = some st)
    (ht : layoutLocals ty.params body.locals.items = .ok t) :
    ∃ front, front <+: out.1 ∧
      Passes (fun _ => True) (.bare 0) front (.framed (8 + (t.localsSize : ℤ) + 8 * st.length)) := by
  obtain ⟨order, t', before, code, after, horder, ht', hbefore, hcode, hafter, hout⟩ :=
    compileBody_eq_ok h
  rw [ht] at ht'
  cases ht'
  obtain ⟨rest, rfl⟩ := hpre
  rw [hops] at hcode
  obtain ⟨c, r, hc, -, rfl⟩ := handleInstructions_append.mp (handleInstructions_concat_end hcode)
  have hzero : surplusOf ctx pre = 0 := by
    rw [surplusOf, List.map_append, List.sum_append] at hsurplus
    exact (Nat.add_eq_zero_iff.mp hsurplus).1
  have hdepth : 8 + (t.localsSize : ℤ) + 8 * (0 : ℕ) =
      8 + (t.localsSize : ℤ) + 8 * ([] : List Ty).length := by
    simp
  have hbody := passes_handleInstructions (Q := fun _ => True) hfunc
    (fun op hop => hint op (List.mem_append_left _ hop)) hst hc
    (fun pre' st' hpre' => hH pre' st' (hpre'.trans (List.prefix_append _ _))) hdepth
    fun _ _ _ => trivial
  rw [hzero] at hbody
  refine ⟨before ++ c, ⟨r ++ after, by rw [hout]; simp⟩, ?_⟩
  simpa using (passes_prologue hp horder hbefore fun _ _ _ => trivial).append hbody

end Body

/-! ## The optimiser

A rule takes a push and a pop out, and with them the depth between the two. -/

/-- **The rules only leave depths out.** -/
theorem Rewrites.along {is js : List Instr} (h : Rewrites is js) {p : Level}
    (his : Along Q p is) : Along Q p js := by
  induction h generalizing p with
  | nil => cases his
  | keep i h ih =>
      obtain ⟨hQ, hret | ⟨q, hq, his⟩⟩ := his
      · exact ⟨hQ, .inl hret⟩
      · exact ⟨hQ, .inr ⟨q, hq, ih his⟩⟩
  | self a h ih =>
      obtain ⟨q, hq, his⟩ := his.exists_move (by simp)
      rw [Level.move_self] at hq
      cases hq
      exact ih his
  | pushPop a b h ih =>
      have hQ := his.depth
      obtain ⟨q, hq, his⟩ := his.exists_move (by simp)
      obtain ⟨q', hq', his⟩ := his.exists_move (by simp)
      rcases Level.move_push hq with ⟨d, rfl, rfl, rfl⟩ | ⟨d, rfl, ha, rfl⟩
      · rcases Level.move_pop hq' with ⟨d', hd, rfl, rfl⟩ | ⟨d', hd, -⟩
        · obtain rfl : d' = d + 8 := by rcases hd with hd | hd <;> cases hd; rfl
          refine ⟨hQ, .inr ⟨.bare d, Level.move_self _ _, along_mono (.done d) ?_⟩⟩
          rw [Int.add_sub_cancel] at his
          exact ih his
        · cases hd
      · rcases Level.move_pop hq' with ⟨d', hd, -⟩ | ⟨d', hd, hb, rfl⟩
        · rcases hd with hd | hd <;> cases hd
        · cases hd
          rw [Int.add_sub_cancel] at his
          refine ⟨hQ, .inr ⟨.framed d, ?_, ih his⟩⟩
          by_cases heq : b = a
          · rw [heq, Level.move_self]
          · simp [Level.move, heq, hb]
  | swap a b h ih =>
      obtain ⟨q, hq, his⟩ := his.exists_move (by simp)
      obtain ⟨q', hq', his⟩ := his.exists_move (by simp)
      rcases Level.move_mov hq with ⟨rfl, rfl⟩ | ⟨rfl, rfl, rfl, rfl⟩ | ⟨d, rfl, ha, rfl⟩ |
        ⟨d, rfl, rfl, rfl, rfl⟩
      · rw [Level.move_self] at hq'
        cases hq'
        exact ih his
      · -- the frame is set up and torn down again
        cases hq'
        exact along_mono (.reset 8) (ih his)
      · rcases Level.move_mov hq' with ⟨-, rfl⟩ | ⟨hd, -⟩ | ⟨-, -, -, rfl⟩ | ⟨-, -, -, rfl, -⟩
        · exact ih his
        · cases hd
        · exact ih his
        · cases ha
      · cases hq'

/-- So does the optimiser as a whole. -/
theorem along_optimized {is : List Instr} {p : Level} (h : Along Q p is) :
    Along Q p (optimized is) :=
  optimized_induction (p := fun js => Along Q p js) (fun js hjs => (rewrites_pass js).along hjs) h

/-! ## Stack heights of modules

The conditions are on the module, the conclusion on runs of any of its functions. -/

/-- The type looked up for a function is its declared type, whether it is called or
its body is compiled.  What it takes for this to be so is in
`ParaOS.Parawasm.FunctionTypes`. -/
structure TypesResolved (ps : List Payload) (ctx : Context) : Prop where
  called : ∀ f ty, declaredType ps f = some ty → ctx.functionType f = some ty
  compiled : ∀ k t ty, (definedFunctions ps)[k]? = some t → typeAt ps t = some ty →
    ctx.functionType ((functionImports ps).length + k) = some ty

/-- It can be checked function by function. -/
theorem typesResolved_iff {ps : List Payload} : TypesResolved ps ctx ↔
    (∀ f < (funcSpace ps).length, ∀ ty ∈ declaredType ps f, ctx.functionType f = some ty) ∧
      ∀ k < (definedFunctions ps).length, ∀ t ∈ (definedFunctions ps)[k]?, ∀ ty ∈ typeAt ps t,
        ctx.functionType ((functionImports ps).length + k) = some ty := by
  constructor
  · exact fun h => ⟨fun f _ => h.called f, fun k _ t ht ty hty => h.compiled k t ty ht hty⟩
  · refine fun h => ⟨fun f ty hty => ?_, fun k t ty ht hty => ?_⟩
    · exact h.1 f (lt_of_declaredType hty) ty hty
    · obtain ⟨hk, -⟩ := List.getElem?_eq_some_iff.mp ht
      exact h.2 k hk t ht ty hty

instance (ps : List Payload) (ctx : Context) : Decidable (TypesResolved ps ctx) :=
  decidable_of_iff' _ typesResolved_iff

/-- No function that is called has more than two results. -/
def FewResults (ctx : Context) (ops : List Operator) : Prop :=
  ∀ f ty, .call f ∈ ops → ctx.functionType f = some ty → ty.returns.length ≤ 2

/-- Then all results are pushed. -/
theorem FewResults.surplusOf_eq_zero {ops : List Operator} (h : FewResults ctx ops) :
    surplusOf ctx ops = 0 := by
  have hzero : ∀ op ∈ ops, surplus ctx op = 0 := by
    intro op hop
    cases op with
    | call f =>
        cases hty : ctx.functionType f with
        | none => simp [surplus, hty]
        | some ty =>
            have := h f ty hop hty
            simp only [surplus, hty, Option.map_some, Option.getD_some]
            omega
    | _ => rfl
  rw [surplusOf, List.map_congr_left hzero]
  simp

/-- The height recorded for a function bounds its use of the stack: at every point
of its own code, as emitted and as optimised, `rsp` is no more than the saved
`rbp`, the locals and `height` words below its value on entry, and the emitted
code gets there if no function it calls has more than two results. -/
structure HeightHolds (emitted program : Program) (callees : Callees) (g : Label) (few : Prop)
    (bound : ℕ) : Prop where
  emitted : ∃ j, emitted.target g = some j ∧ StaysAbove emitted callees j bound ∧
    (few → NeverWraps emitted callees j ∧ Attains emitted callees j bound)
  optimized : ∃ j, program.target g = some j ∧ StaysAbove program callees j bound ∧
    (few → NeverWraps program callees j)

variable {st : Compiling V} {its : List Item} {ps : List Payload}

/-- The depths of a body, emitted and optimised, in their programs. -/
theorem heightHolds_of_along (hread : Reading ps its st)
    (hcomp : CompiledWith V ps its st.toContext) {f : ℕ} {g : Label} {code : List Instr}
    (hit : .body f g code ∈ its) (address : ℕ → Word) (word : Label → Word) {callees : Callees}
    (hc : Restores callees) {few : Prop} {bound : ℕ}
    (habove : Along (fun d => d ≤ bound) (.bare 0) code)
    (hfew : few → Along (fun d => 0 ≤ d) (.bare 0) code ∧
      ∃ front, front <+: code ∧ Passes (fun _ => True) (.bare 0) front (.framed bound)) :
    HeightHolds (st.emittedProgram address word) (st.program address word) callees g few bound := by
  obtain ⟨i, j, rest, rest', hi, hj, hemitted, hoptimized⟩ :=
    hread.exists_targets hcomp address address word hit
  refine ⟨⟨i, hi, ?_, fun h => ?_⟩, ⟨j, hj, ?_, fun h => ?_⟩⟩
  · exact Along.staysAbove hc (fun _ h => h) (hemitted ▸ habove.append)
  · obtain ⟨halong, front, hfront, hpasses⟩ := hfew h
    have hwraps : NeverWraps (st.emittedProgram address word) callees i :=
      Along.neverWraps hc (fun _ h => h) (hemitted ▸ halong.append)
    exact ⟨hwraps,
      hpasses.attains hc (hemitted ▸ hfront.trans (List.prefix_append _ _)) hwraps⟩
  · exact Along.staysAbove hc (fun _ h => h) (hoptimized ▸ (along_optimized habove).append)
  · exact Along.neverWraps hc (fun _ h => h) (hoptimized ▸ (along_optimized (hfew h).1).append)

/-- **The recorded height bounds the use of the stack** at every point of a run up
to which `rsp` has not been taken past the last address, which does not come about
if every function that is called has at most two results.

It is for the code of a body with any code behind its calls, as long as that
restores `rsp`.  For callees with three results or more the bound may fail: the
caller pops what was not pushed, `rsp` goes past the last address, and what it is
then is no depth. -/
theorem stack_height_bound {V : Validator} {E : Encoder} {P : Parser} {len : Instr → ℕ}
    {n : ℕ} {module : List UInt8} {asm : AssembledModule} (hE : E.Measured len) (hV : V.Sound)
    (hcount : V.CountsOperands) (hP : P.Documented)
    (hplain : ∀ p ∈ (scan P module).1, p.nests = false)
    (h : compileWithin E P V n module = some (.ok asm)) :
    ∃ st : Compiling V, compilePayloads E (scan P module).1 = .ok st ∧
      (Integral (scan P module).1 → TypesResolved (scan P module).1 st.toContext →
        ∀ (k : ℕ) (body : FunctionBody), (bodies (scan P module).1)[k]? = some body →
          ∃ (g : Label) (ty : FuncType) (table : LocalsTable) (height : ℕ),
            st.got[(functionImports (scan P module).1).length + k]? = some g ∧
            st.functionType ((functionImports (scan P module).1).length + k) = some ty ∧
            layoutLocals ty.params body.locals.items = .ok table ∧
            asm.module.functionStackHeight ((functionImports (scan P module).1).length + k) =
              some height ∧
            ∀ (address : ℕ → Word) (word : Label → Word) (callees : Callees), Restores callees →
              HeightHolds (st.emittedProgram address word) (st.program address word) callees g
                (FewResults st.toContext body.operators.items)
                (8 + table.localsSize + 8 * height)) := by
  obtain ⟨st, hst, hasm⟩ := compileWithin_eq_ok hP h
  have haccepts := accepts_of_compilePayloads hst
  have hvalid := hV.valid _ haccepts hplain
  generalize (scan P module).1 = ps at *
  refine ⟨st, hst, fun hint hresolved k body hbody => ?_⟩
  obtain ⟨its, hread, hrecorded⟩ := reading_recorded hvalid.ordered (foldlM_of_compilePayloads hst)
  obtain ⟨b, assembly, hfinal, -, rfl⟩ := hread.exists_assembled hE hrecorded.compiledWith hasm
  -- the body, its type and its code
  obtain ⟨hk, -⟩ := List.getElem?_eq_some_iff.mp hbody
  obtain ⟨t, ty', ht, hty', hp, init, hops, htyped⟩ := hint.exists_typed hvalid hbody
  obtain ⟨⟨f, g, code⟩, hget⟩ : ∃ x, (its.filterMap Item.body?)[k]? = some x :=
    ⟨_, List.getElem?_eq_getElem (hread.length_bodies ▸ hk)⟩
  obtain ⟨rfl, hg, body', ty, φ, height, hbody', hty, hcode, hheight, hopens⟩ :=
    hrecorded k f g code hget
  rw [hbody] at hbody'
  cases hbody'
  obtain rfl : ty' = ty := Option.some.inj ((hresolved.compiled k t ty' ht hty').symm.trans hty)
  have hpeak := peak_of_compileBody hcount haccepts hplain hopens.enters ht hty' hops htyped hcode
  obtain ⟨order, table, -, -, -, -, htable, -⟩ := compileBody_eq_ok hcode
  have hinit : ∀ op ∈ init, integral op = true := fun op hop =>
    hint.operators body (List.mem_of_getElem? hbody) op (hops ▸ List.mem_append_left _ hop)
  refine ⟨g, ty', table, height, hg, hty, htable, ?_, fun address word callees hc => ?_⟩
  · rw [functionStackHeight_eq, if_pos]
    · exact hheight
    · exact (hfinal.isSome_entry _).mpr ⟨g, List.mem_filterMap.mpr ⟨_, mem_of_body? hget, rfl⟩⟩
  · refine heightHolds_of_along hread hrecorded.compiledWith (mem_of_body? hget) address word hc ?_
      fun hfew => ?_
    · exact along_compileBody hcode hp hresolved.called hops hinit htyped hpeak.le htable
        fun x _ hx => by push_cast; exact hx
    · have hzero : surplusOf st.toContext init = 0 := FewResults.surplusOf_eq_zero fun f ty hf =>
        hfew f ty (hops ▸ List.mem_append_left _ hf)
      obtain ⟨pre, operands, hpre, hoperands, hlen⟩ := hpeak.reached
      refine ⟨?_, ?_⟩
      · exact along_compileBody hcode hp hresolved.called hops hinit htyped hpeak.le htable
          fun x hx _ => by rw [hzero] at hx; simpa using hx
      · have hto := passes_to_prefix hcode hp hresolved.called hops hinit hpeak.le hzero hpre
          hoperands htable
        rw [hlen] at hto
        exact_mod_cast hto

/-- A function of type `() -> i64` that adds `1` and `2`. -/
def addingModule : Script :=
  [(preamble, .version 1),
    ([0x01, 0x05, 0x01, 0x60, 0x00, 0x01, 0x7e], .typeSection ⟨[.func ⟨[], [.i64]⟩], none⟩),
    ([0x03, 0x02, 0x01, 0x00], .functionSection ⟨[0], none⟩),
    ([0x0a, 0x09, 0x01], .codeSectionStart 1),
    ([0x07, 0x00, 0x42, 0x01, 0x42, 0x02, 0x7c, 0x0b],
      .codeSectionEntry ⟨⟨[], none⟩, ⟨[.i64Const 1, .i64Const 2, .i64Add, .end], none⟩⟩)]

/-- Its program as emitted. -/
def addingProgram : Program :=
  programOf [.dq 0, .push .rbp, .mov .rbp .rsp, .movImm .rax 1, .push .rax, .movImm .rax 2,
    .push .rax, .pop .rax, .pop .rbx, .add .rax .rbx, .push .rax, .pop .rax, .mov .rsp .rbp,
    .pop .rbp, .ret] [(0, 1), (1, 2)] (BitVec.ofNat 64) fun _ => 0

/-- This is what `compile` emits. -/
theorem addingModule_program :
    (Script.compiling addingModule).emittedProgram (BitVec.ofNat 64) (fun _ => 0) =
      addingProgram := by
  have h : (Script.compiling addingModule).instructions = addingProgram.code ∧
      (Script.compiling addingModule).labelIndices = [(0, 1), (1, 2)] := by
    decide +kernel
  rw [Compiling.emittedProgram, h.1, h.2]
  rfl

/-- The height of the function is `2`, and from `rsp = 64` it gets down to
`64 - 8 - 8 * 2`. -/
theorem stack_height_bound_instance :
    ∃ asm, compileWithin Encoder.reference (parserOf addingModule) Validator.reference 20
        (Script.bytes addingModule) = some (.ok asm) ∧
      asm.module.functionStackHeight 0 = some 2 ∧
      ∃ m, OwnReach addingProgram (fun _ s s' => s' = s) ⟨1, State.ofStack 64 100 [0]⟩ m ∧
        m.state.sp = 40 := by
  obtain ⟨asm, h, h2⟩ : ∃ asm, compileWithin Encoder.reference (parserOf addingModule)
      Validator.reference 20 (Script.bytes addingModule) = some (.ok asm) ∧
      asm.module.functionStackHeight 0 = some 2 := ⟨_, rfl, rfl⟩
  refine ⟨asm, h, h2, ?_⟩
  obtain ⟨st, hst, hbound⟩ := stack_height_bound Encoder.reference_measured
    Validator.reference_sound Validator.reference_countsOperands (parserOf_documented addingModule)
    (of_decide_eq_true rfl) h
  have hcomp : compilePayloads Encoder.reference (Script.payloads addingModule) =
      .ok (Script.compiling addingModule) := rfl
  obtain rfl : st = Script.compiling addingModule := Outcome.ok.inj (hst.symm.trans hcomp)
  obtain ⟨g, ty, table, height, hg, hty, htable, hheight, hholds⟩ :=
    hbound ⟨of_decide_eq_true rfl, of_decide_eq_true rfl, of_decide_eq_true rfl⟩
      (by decide +kernel) 0 _ rfl
  have hused : (Script.compiling addingModule).functionType 0 = some ⟨[], [.i64]⟩ := by
    decide +kernel
  obtain rfl : height = 2 := Option.some.inj (hheight.symm.trans h2)
  obtain rfl : ty = ⟨[], [.i64]⟩ := Option.some.inj (hty.symm.trans hused)
  cases htable
  have hg' : (Script.compiling addingModule).got[0]? = some 2 := by decide +kernel
  obtain rfl : g = 2 := Option.some.inj (hg.symm.trans hg')
  obtain ⟨j, hj, -, hfew⟩ := (hholds (BitVec.ofNat 64) (fun _ => 0) (fun _ s s' => s' = s)
    ⟨fun _ s s' h => by rw [h], fun _ s s' h => by rw [h]⟩).emitted
  rw [addingModule_program] at hj hfew
  cases hj
  -- the function runs straight ahead to its `ret`
  obtain ⟨s', hs'⟩ : ∃ s', addingProgram.run ((addingProgram.code.drop 1).take 13)
      (State.ofStack 64 100 [0]) = some s' := ⟨_, rfl⟩
  obtain ⟨m, hm, -, hsp⟩ := (hfew fun f ty hf => by simp at hf).2 _ _
    (ownReach_of_run (List.take_prefix _ _) hs') rfl
  exact ⟨m, hm, by simp only at hsp; have : (State.ofStack 64 100 [0]).sp = 64 := rfl; omega⟩

/-- A function that calls an imported one with four results and adds them up. -/
def summingModule : Script :=
  [(preamble, .version 1),
    ([0x01, 0x0c, 0x02, 0x60, 0x00, 0x04, 0x7e, 0x7e, 0x7e, 0x7e, 0x60, 0x00, 0x01, 0x7e],
      .typeSection ⟨[.func ⟨[], [.i64, .i64, .i64, .i64]⟩, .func ⟨[], [.i64]⟩], none⟩),
    ([0x02, 0x09, 0x01, 0x03, 0x65, 0x6e, 0x76, 0x01, 0x66, 0x00, 0x00],
      .importSection ⟨[⟨"env", some "f", .function 0⟩], none⟩),
    ([0x03, 0x02, 0x01, 0x01], .functionSection ⟨[1], none⟩),
    ([0x0a, 0x09, 0x01], .codeSectionStart 1),
    ([0x07, 0x00, 0x10, 0x00, 0x7c, 0x7c, 0x7c, 0x0b],
      .codeSectionEntry ⟨⟨[], none⟩, ⟨[.call 0, .i64Add, .i64Add, .i64Add, .end], none⟩⟩)]

/-- Its program as emitted: two of the results are pushed, and six operands popped
for three sums. -/
def summingProgram : Program :=
  programOf [.zeroBytes, .dq importPlaceholder, .dq 0, .push .rbp, .mov .rbp .rsp,
    .movLabel .r10 2, .callReg .r10, .push .rax, .push .rdx,
    .pop .rax, .pop .rbx, .add .rax .rbx, .push .rax, .pop .rax, .pop .rbx, .add .rax .rbx,
    .push .rax, .pop .rax, .pop .rbx, .add .rax .rbx, .push .rax, .pop .rax, .mov .rsp .rbp,
    .pop .rbp, .ret] [(1, 2), (2, 3), (3, 4)] (BitVec.ofNat 64) fun _ => 0

/-- This is what `compile` emits. -/
theorem summingModule_program :
    (Script.compiling summingModule).emittedProgram (BitVec.ofNat 64) (fun _ => 0) =
      summingProgram := by
  have h : (Script.compiling summingModule).instructions = summingProgram.code ∧
      (Script.compiling summingModule).labelIndices = [(1, 2), (2, 3), (3, 4)] := by
    decide +kernel
  rw [Compiling.emittedProgram, h.1, h.2]
  rfl

/-- Called with its return address in the last word of memory, the function of
`summingModule` gets to `rsp = 0`. -/
theorem stack_height_exceeded : ¬ ∀ (script : Script) (n : ℕ) (asm : AssembledModule)
    (st : Compiling Validator.reference),
    compileWithin Encoder.reference (parserOf script) Validator.reference n
      (Script.bytes script) = some (.ok asm) →
    compilePayloads Encoder.reference (Script.payloads script) = .ok st →
    Integral (Script.payloads script) → TypesResolved (Script.payloads script) st.toContext →
    ∀ (k height : ℕ) (g : Label) (body : FunctionBody) (ty : FuncType) (table : LocalsTable),
      (bodies (Script.payloads script))[k]? = some body →
      st.got[(functionImports (Script.payloads script)).length + k]? = some g →
      st.functionType ((functionImports (Script.payloads script)).length + k) = some ty →
      layoutLocals ty.params body.locals.items = .ok table →
      asm.module.functionStackHeight ((functionImports (Script.payloads script)).length + k) =
        some height →
      ∀ (address : ℕ → Word) (word : Label → Word) (callees : Callees) (j : ℕ),
        Restores callees → (st.emittedProgram address word).target g = some j →
        ∀ s c, OwnReach (st.emittedProgram address word) callees ⟨j, s⟩ c →
          s.sp ≤ c.state.sp + (8 + table.localsSize + 8 * height) := by
  intro h
  obtain ⟨asm, hasm, h4⟩ : ∃ asm, compileWithin Encoder.reference (parserOf summingModule)
      Validator.reference 20 (Script.bytes summingModule) = some (.ok asm) ∧
      asm.module.functionStackHeight 1 = some 4 := ⟨_, rfl, rfl⟩
  have hst : compilePayloads Encoder.reference (Script.payloads summingModule) =
      .ok (Script.compiling summingModule) := rfl
  have hused : (Script.compiling summingModule).functionType 1 = some ⟨[], [.i64]⟩ := by
    decide +kernel
  have hg : (Script.compiling summingModule).got[1]? = some 4 := by decide +kernel
  have hbound := h summingModule 20 asm _ hasm hst
    ⟨of_decide_eq_true rfl, of_decide_eq_true rfl, of_decide_eq_true rfl⟩ (by decide +kernel)
    0 4 4 _ ⟨[], [.i64]⟩ ⟨[], 0⟩ rfl hg hused rfl h4 (BitVec.ofNat 64) (fun _ => 0)
    (fun _ s s' => s' = s) 3 ⟨fun _ s s' h => by rw [h], fun _ s s' h => by rw [h]⟩
  rw [summingModule_program] at hbound
  -- up to the call, over it, and on to the last operand popped for the third sum
  have hrun : ((summingProgram.run ((summingProgram.code.drop 3).take 3)
      (State.ofStack (-8) 100 [0])).bind fun s₁ =>
        summingProgram.run ((summingProgram.code.drop 7).take 12) s₁).map State.sp = some 0 := by
    decide +kernel
  obtain ⟨s₂, hs₂, hsp⟩ := Option.map_eq_some_iff.mp hrun
  obtain ⟨s₁, hs₁, hs₂⟩ := Option.bind_eq_some_iff.mp hs₂
  have hreach : OwnReach summingProgram (fun _ s s' => s' = s)
      ⟨3, State.ofStack (-8) 100 [0]⟩ ⟨19, s₂⟩ :=
    ((ownReach_of_run (List.take_prefix _ _) hs₁).tail (.call rfl rfl rfl)).trans
      (ownReach_of_run (List.take_prefix _ _) hs₂)
  have := hbound rfl _ _ hreach
  rw [hsp] at this
  exact absurd this (by decide)

end ParaOS.Parawasm
