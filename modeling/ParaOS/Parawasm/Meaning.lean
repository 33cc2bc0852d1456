import ParaOS.Parawasm.Activation
import ParaOS.Wasm.StackNeed

/-!
# What compiled code computes

`Runs` and `Calls` say what the functions of a module compute; `Eval` says what
code at an index comes to.  For the code `compile` emits the two are the same
thing (`calls_iff_eval`): a call returns, with certain results in the result
registers, exactly when the function computes them from the words in the argument
registers with as many bytes of stack as `rsp` is above address zero.  One
direction is by induction on what is computed (`eval_of_runs`), the other by
induction on what the machine does (`runs_of_eval`).

What the imports do enters in two halves.  Outside code `Obeys` a behaviour if it
does nothing else, and `Provides` it if it does all of that.

### Two inductions

What is computed is a derivation of `Runs`, with a case for each operator and one
for each call; what the machine does is one of `Eval`, with a case for each call and
for the `ret`, and straight-line code between them.  Neither follows the other step
by step.  In `eval_of_runs` an operator that is not a call adds its code in front of
what is evaluated already; in `runs_of_eval` the evaluation stops at an instruction,
and the operators whose code has been run by then have to be found
(`Remains.reached`).

### What is load-bearing

So many bytes of stack means that `rsp` is that far above address zero, and nothing
else.  A frame of so many bytes, an operand of eight, a return address of eight: the
machine stops exactly where `Runs` has no more bytes, and this is why the
equivalence needs no side condition on room.

The words below an activation's operands are not known and not needed.  What is
loaded is a param, which the prologue has stored; a declared local would not have
been.
-/

namespace ParaOS.Parawasm

open Machine X86 Wasm

/-- What outside code comes to is part of a behaviour, if the stack ends at `top`. -/
def Obeys (env : Env) (top : ℕ) (a : Word) (ty : FuncType) (B : Behaviour) : Prop :=
  ∀ s s', s.sp + 8 ≤ top → env a s s' →
    B s.sp (argumentsOf s ty.params.length) (resultsOf s' ty.returns.length)

/-- What is part of a behaviour outside code comes to. -/
def Provides (env : Env) (top : ℕ) (a : Word) (ty : FuncType) (B : Behaviour) : Prop :=
  ∀ s n results, s.sp + 8 ≤ top → B n (argumentsOf s ty.params.length) results → n ≤ s.sp →
    ∃ s', env a s s' ∧ resultsOf s' ty.returns.length = results

variable {P : Program} {env : Env} {ctx : Context} {F : Functions} {I : ℕ → Behaviour}
  {f : Frame} {returns : List Ty} {locals : List ℕ} {size n m pc top : ℕ}
  {s s' t : X86.State} {w w' : Wasm.State} {op : Operator} {ops : List Operator}
  {ty : FuncType}

/-! ## What remains of a body

A body is followed by what is left of it: the operators still to come, the number of
operands there are, and the code from an index on.  It is the same for both
inductions. -/

/-- A function the compiler knows the type of, and can call: the type declared is
the type looked up, with as many results as are pushed. -/
structure Callable (F : Functions) (ctx : Context) (g : ℕ) (ty : FuncType) : Prop where
  declared : F.type g = some ty
  used : ctx.functionType g = some ty
  params : AllI64 ty.params
  returns : AllI64 ty.returns
  two : ty.returns.length ≤ 2

/-- The code at an index is that of the last operators of a body, and its
epilogue. -/
structure Remains (P : Program) (ctx : Context) (F : Functions) (returns : List Ty)
    (locals : List ℕ) (size : ℕ) (ops : List Operator) (n pc : ℕ) : Prop where
  slots : ∀ off ∈ locals, 8 ≤ off ∧ off ≤ size
  integral : AllI64 returns
  two : returns.length ≤ 2
  calls : ∀ g, .call g ∈ ops → ∃ ty, Callable F ctx g ty
  depth : operandDepths ctx locals n ops = some returns.length
  code : ∃ code after rest, handleInstructions ctx locals ops = .ok code ∧
    epilogue returns size = .ok after ∧ P.code.drop pc = code ++ (after ++ rest)

/-- With no operators left there is the epilogue. -/
theorem Remains.nil (h : Remains P ctx F returns locals size [] n pc) :
    n = returns.length ∧ ∃ after rest, epilogue returns size = .ok after ∧
      P.code.drop pc = after ++ rest := by
  obtain ⟨code, after, rest, hcode, hafter, hdrop⟩ := h.code
  cases hcode
  exact ⟨Option.some.inj h.depth, after, rest, hafter, hdrop⟩

/-- The code behind a stretch of code. -/
theorem drop_add {is js : List Instr} (h : P.code.drop pc = is ++ js) :
    P.code.drop (pc + is.length) = js := by
  rw [← List.drop_drop, h, List.drop_left]

/-- The code of the first operator. -/
theorem Remains.cons (h : Remains P ctx F returns locals size (op :: ops) n pc) :
    ∃ c m, handleInstruction ctx locals op = .ok c ∧ operandDepth ctx locals n op = some m ∧
      (∃ js, P.code.drop pc = c ++ js) ∧
      Remains P ctx F returns locals size ops m (pc + c.length) := by
  obtain ⟨code, after, rest, hcode, hafter, hdrop⟩ := h.code
  obtain ⟨c, r, hc, hr, rfl⟩ := handleInstructions_cons.mp hcode
  obtain ⟨m, hm, hdepth⟩ := Option.bind_eq_some_iff.mp h.depth
  rw [List.append_assoc] at hdrop
  exact ⟨c, m, hc, hm, ⟨_, hdrop⟩, h.slots, h.integral, h.two,
    fun g hg => h.calls g (List.mem_cons_of_mem _ hg), hdepth, r, after, rest, hr, hafter,
    drop_add hdrop⟩

/-- The code that loads the arguments of a call. -/
def loads (ty : FuncType) : List Instr := (integerOrder.take ty.params.length).reverse.map .pop

/-- The code that puts the results of a call back. -/
def pushes (ty : FuncType) : List Instr := (returnOrder.take ty.returns.length).map .push

/-- The code of a call: up to the instruction that calls, and behind it. -/
theorem Remains.call {g : ℕ} {mid : List Instr} {i : Instr}
    (hcall : callCode ctx g = mid ++ [i])
    (h : Remains P ctx F returns locals size (.call g :: ops) n pc) :
    ∃ ty m js, Callable F ctx g ty ∧ ty.params.length ≤ 6 ∧ n = ty.params.length + m ∧
      P.code.drop pc = (loads ty ++ mid) ++ i :: (pushes ty ++ js) ∧
      P.code.drop (pc + (loads ty ++ mid).length + 1) = pushes ty ++ js ∧
      Remains P ctx F returns locals size ops (ty.returns.length + m)
        (pc + (loads ty ++ mid).length + 1 + (pushes ty).length) := by
  obtain ⟨ty, hty⟩ := h.calls g List.mem_cons_self
  obtain ⟨c, m, hc, hm, ⟨js, hdrop⟩, hrest⟩ := h.cons
  rw [operandDepth, hty.used, Option.bind_some, Option.ite_none_right_eq_some,
    Option.some.injEq, min_eq_right hty.two] at hm
  obtain ⟨hle, rfl⟩ := hm
  obtain ⟨args, results, hargs, hresults, rfl⟩ := handleInstruction_argumentCode hty.used hc
  have hsix : ty.params.length ≤ 6 := by
    rw [argumentCode, Outcome.bind_eq_ok] at hargs
    obtain ⟨order, horder, -⟩ := hargs
    exact (drainTo_eq_ok.mp horder).1
  rw [argumentCode_i64 hty.params hsix] at hargs
  rw [pushResults, moveResults_i64 hty.returns] at hresults
  cases hargs
  cases hresults
  have hsplit : P.code.drop pc = (loads ty ++ mid) ++ i :: (pushes ty ++ js) := by
    rw [hdrop, hcall, loads, pushes]
    simp only [List.append_assoc, List.cons_append, List.nil_append]
  have hlen : ((integerOrder.take ty.params.length).reverse.map Instr.pop ++ callCode ctx g ++
      (returnOrder.take ty.returns.length).map Instr.push).length =
        (loads ty ++ mid).length + 1 + (pushes ty).length := by
    rw [hcall, loads, pushes]
    simp only [List.length_append, List.length_singleton]
    omega
  rw [hlen, Nat.add_comm (n - ty.params.length), ← Nat.add_assoc, ← Nat.add_assoc] at hrest
  exact ⟨ty, n - ty.params.length, js, hty, hsix, by omega, hsplit, (drop_of_split hsplit).2, hrest⟩

/-- Running code is evaluated from where it has got to. -/
theorem eval_of_run {is : List Instr} {o : Option X86.State} (hcode : is <+: P.code.drop pc)
    (hrun : P.run is s = some s') (h : Eval P env (pc + is.length) s' o) : Eval P env pc s o := by
  induction is generalizing pc s with
  | nil =>
      cases hrun
      exact h
  | cons i is ih =>
      obtain ⟨rest, hrest⟩ := hcode
      obtain ⟨s₁, hs₁, hrun⟩ := Option.bind_eq_some_iff.mp hrun
      have hi : P.code[pc]? = some i := by
        rw [← List.head?_drop, ← hrest]
        rfl
      have htail : is <+: P.code.drop (pc + 1) := by
        rw [← List.tail_drop, ← hrest]
        exact List.prefix_append _ _
      refine Eval.cons hi hs₁ (ih htail hrun ?_)
      rw [List.length_cons, Nat.add_comm is.length, ← Nat.add_assoc] at h
      exact h

/-! ## Functions and their code

What `compile` has to establish for a program, so that the results below apply to
it. -/

/-- A body stands at an index: prologue, operators, epilogue. -/
structure BodyAt (P : Program) (ctx : Context) (F : Functions) (ty : FuncType)
    (ops : List Operator) (k : ℕ) : Prop where
  params : AllI64 ty.params
  accepts : X86.accepts .entry (P.code.drop k) = true
  prologue : ∃ groups before rest,
    entryCode ty groups = .ok (⟨paramSlots ty.params.length, 8 * ty.params.length⟩, before) ∧
    advances .entry before = some (.framed (8 * ty.params.length) 0) ∧
    P.code.drop k = before ++ rest ∧
    Remains P ctx F ty.returns (paramSlots ty.params.length) (8 * ty.params.length) ops 0
      (k + before.length)

/-- A program has the code of functions, and slots for those that are imported. -/
structure Implements (P : Program) (ctx : Context) (F : Functions) : Prop where
  defined : ∀ f d, F.definition f = some d → ∃ ty g k, F.type f = some ty ∧
    ctx.got[f]? = some g ∧ P.target g = some k ∧ d.locals = 0 ∧
    d.frame = 8 + 8 * ty.params.length ∧ BodyAt P ctx F ty d.operators k
  imported : ∀ f ty, F.type f = some ty → F.definition f = none →
    ctx.got[f]? = none ∧ ∃ l, ctx.ils[f]? = some l

/-- The outside code that is reached through the slots of imports. -/
def ThroughSlots (word : Label → Word) (ctx : Context) (F : Functions)
    (p : Word → FuncType → ℕ → Prop) : Prop :=
  ∀ f ty l, F.type f = some ty → F.definition f = none → ctx.ils[f]? = some l → p (word l) ty f

/-- The argument registers are as they were. -/
theorem argumentsOf_congr (h : ∀ r, r.general = true → r ≠ .r10 → s'.regs r = s.regs r) (n : ℕ) :
    argumentsOf s' n = argumentsOf s n := by
  refine List.map_congr_left fun r hr => ?_
  have hmem := List.mem_of_mem_take hr
  refine h r (general_of_mem_integerOrder hmem) ?_
  rintro rfl
  exact absurd hmem (by decide)

/-- A push changes no argument register. -/
theorem argumentsOf_push {v : Word} (h : s.push v = some s') (n : ℕ) :
    argumentsOf s' n = argumentsOf s n :=
  argumentsOf_congr (fun r hr _ => (State.push_spec h).2.2.2 r (general_ne hr).1) n

/-- Nor does the address of an import. -/
theorem argumentsOf_set (v : Word) (n : ℕ) : argumentsOf (s.set .r10 v) n = argumentsOf s n :=
  argumentsOf_congr (fun _ _ hr => State.set_regs_of_ne _ _ hr) n

/-- An activation may use a general register. -/
theorem Active.set {r : Reg} (hr : r.general = true) (v : Word) (h : Active f locals size s w) :
    Active f locals size (s.set r v) w :=
  ⟨h.sim.set (general_ne hr).1.symm (general_ne hr).2.symm v, h.phase.set hr⟩

/-- There is a prologue only for up to six params. -/
theorem BodyAt.length_params {k : ℕ} (h : BodyAt P ctx F ty ops k) : ty.params.length ≤ 6 := by
  obtain ⟨groups, before, rest, hentry, -⟩ := h.prologue
  exact (entryCode_i64 h.params hentry).1

/-- A prologue runs straight ahead. -/
theorem plain_entryCode {groups : List (ℕ × Ty)} {t : LocalsTable} {before : List Instr}
    (hp : AllI64 ty.params) (h : entryCode ty groups = .ok (t, before)) :
    ∀ i ∈ before, plain i = true := by
  obtain ⟨-, -, -, -, rfl⟩ := entryCode_i64 hp h
  intro i hi
  simp only [List.mem_append, List.mem_cons, List.not_mem_nil, or_false] at hi
  rcases hi with ((rfl | rfl) | hi) | hi
  · rfl
  · rfl
  · split_ifs at hi
    · cases hi
    · cases List.mem_singleton.mp hi
      rfl
  · obtain ⟨j, hj, rfl⟩ := List.mem_iff_getElem.mp hi
    rw [List.getElem_zipWith]
    rfl

/-- A callee sets up its frame if there is room, and then the arguments are its
locals, in reverse. -/
theorem BodyAt.enter {k : ℕ} (hbody : BodyAt P ctx F ty ops k) (hin : InPhase f .entry s) :
    ∃ before js, P.code.drop k = before ++ js ∧ (∀ i ∈ before, plain i = true) ∧
      Remains P ctx F ty.returns (paramSlots ty.params.length) (8 * ty.params.length) ops 0
        (k + before.length) ∧
      (8 + 8 * ty.params.length ≤ s.sp → ∃ s₁, P.run before s = some s₁) ∧
      ∀ s₁, P.run before s = some s₁ →
        base f (8 * ty.params.length) + (8 * ty.params.length + 8) = s.sp ∧
        Active f (paramSlots ty.params.length) (8 * ty.params.length) s₁
          ⟨[], (argumentsOf s ty.params.length).reverse⟩ := by
  obtain ⟨groups, before, rest, hentry, hadv, hdrop, hrem⟩ := hbody.prologue
  have hrun : 8 + 8 * ty.params.length ≤ s.sp → ∃ s₁, P.run before s = some s₁ ∧
      Active f (paramSlots ty.params.length) (8 * ty.params.length) s₁
        ⟨[], (argumentsOf s ty.params.length).reverse⟩ :=
    fun hroom => active_prologue hbody.params hentry rfl hadv hin hroom
  refine ⟨before, rest, hdrop, plain_entryCode hbody.params hentry, hrem, fun hroom => ?_,
    fun s₁ hs₁ => ?_⟩
  · obtain ⟨s₁, hs₁, -⟩ := hrun hroom
    exact ⟨s₁, hs₁⟩
  · have hroom := (room_of_run hadv hin hs₁).2
    have hsp := hin.2.1
    obtain ⟨s₂, hs₂, hactive⟩ := hrun (by omega)
    cases hs₁.symm.trans hs₂
    exact ⟨by omega, hactive⟩

/-- Behind a call: the caller puts the results on its operands if there is room. -/
theorem Active.returned {rest ls results : List Word} (htwo : ty.returns.length ≤ 2)
    (hres : resultsOf s ty.returns.length = results) (h : Active f locals size s ⟨rest, ls⟩) :
    (8 * (ty.returns.length + rest.length) ≤ base f size → ∃ s', P.run (pushes ty) s = some s') ∧
      ∀ s', P.run (pushes ty) s = some s' →
        8 * (ty.returns.length + rest.length) ≤ base f size ∧
        Active f locals size s' ⟨results.reverse ++ rest, ls⟩ := by
  subst hres
  refine ⟨fun hroom => ?_, fun s' hs' => ?_⟩
  · obtain ⟨s', hs', -⟩ := h.results (P := P) htwo hroom
    exact ⟨s', hs'⟩
  · have hroom := (room_of_run (advances_results htwo rest.length) h.phase hs').1
    obtain ⟨s₂, hs₂, hactive⟩ := h.results (P := P) htwo hroom
    cases hs'.symm.trans hs₂
    exact ⟨hroom, hactive⟩

/-- Results are put on by instructions that do not call. -/
theorem plain_pushes : ∀ i ∈ pushes ty, plain i = true := by
  intro i hi
  obtain ⟨r, -, rfl⟩ := List.mem_map.mp hi
  rfl

/-! ## From what is computed to what the machine does

By induction on `Runs`, from the last operator to the first. -/

/-- **What operators compute, their code comes to.** -/
theorem eval_of_runs (hP : Implements P ctx F) (hdisc : P.Disciplined)
    (henv : WellBehaved env top) (htop : top ≤ 2 ^ 64)
    (hI : ThroughSlots P.word ctx F fun a ty f => Provides env top a ty (I f))
    (h : Runs F convention I n ops w w')
    (hrem : Remains P ctx F returns locals size ops w.stack.length pc)
    (hactive : Active f locals size s w) (hn : n ≤ base f size) (hle : f.top + 8 ≤ top) :
    ∃ t, Eval P env pc s (some t) ∧ resultsOf t returns.length = w'.stack := by
  induction h generalizing returns locals size pc f s with
  | @nil n w =>
      obtain ⟨hlen, after, rest, hafter, hdrop⟩ := hrem.nil
      obtain ⟨is, s', v, t, rfl, hrun, hpop, hres⟩ :=
        hactive.epilogue hrem.integral hafter hrem.two hlen (by omega)
      rw [List.append_assoc] at hdrop
      exact ⟨t, .ret hdrop hrun hpop, hres⟩
  | @op n op ops w w₁ w' hstep hroom _ ih =>
      obtain ⟨c, m, hc, hm, ⟨js, hdrop⟩, hrest⟩ := hrem.cons
      have hop : ∀ g, op ≠ .call g := by
        rintro g rfl
        cases hstep
      obtain ⟨w₂, hw₂, rfl, -, hexists⟩ :=
        hactive.operator (P := P) (fun off hoff => (hrem.slots off hoff).2) hop hc hm
      cases hstep.symm.trans hw₂
      obtain ⟨s₁, hrun, hactive₁⟩ := hexists (by omega)
      obtain ⟨t, ht, hres⟩ := ih hrest hactive₁ hn hle
      exact ⟨t, eval_of_run ⟨js, hdrop.symm⟩ hrun ht, hres⟩
  | @call n m g ty d ops args rest ls w₁ w' hty hd hargs hroom _ hlen hres _ ihbody ih =>
      obtain ⟨ty', l, j, hty', hl, hj, hlocals, hframe, hbody⟩ := hP.defined g d hd
      cases hty.symm.trans hty'
      have hcall : callCode ctx g = [] ++ [.callLabel l] := by
        rw [callCode, hl]
        rfl
      obtain ⟨ty', k, js, hcallable, hsix, hk, hdrop, hafter, hrest⟩ := hrem.call hcall
      cases hty.symm.trans hcallable.declared
      rw [List.length_append, List.length_reverse, hargs] at hk
      obtain rfl : rest.length = k := by omega
      rw [List.append_nil] at hdrop hafter hrest
      have hslots := fun off hoff => (hrem.slots off hoff).1
      -- the arguments are loaded and the return address is pushed
      obtain ⟨s₁, hrun, hactive₁, hargs₁⟩ := hactive.arguments (P := P) hsix hargs
      obtain ⟨-, htop₁, hsp₁⟩ := room_of_phase hactive₁.phase
      simp only at hsp₁
      obtain ⟨s₂, hpush⟩ : ∃ s₂, s₁.push (P.address (pc + (loads ty).length + 1)) = some s₂ :=
        ⟨_, State.push_eq (by omega)⟩
      have hsp₂ := (State.push_spec hpush).2.1
      have hbelow : s₂.sp + 8 ≤ top := by omega
      -- the callee computes its results from the arguments
      obtain ⟨before, js₂, hbefore, -, hcallee, hexists, henter⟩ :=
        hbody.enter (inPhase_entry hpush)
      obtain ⟨s₃, hrun₃⟩ := hexists (by omega)
      obtain ⟨hbase, hactive₃⟩ := henter s₃ hrun₃
      rw [argumentsOf_push hpush, hargs₁] at hactive₃
      rw [hlocals, List.replicate_zero, List.append_nil] at ihbody
      obtain ⟨t₁, ht₁, hres₁⟩ := ihbody hcallee hactive₃ (by omega) hbelow
      have heval := eval_of_run ⟨js₂, hbefore.symm⟩ hrun₃ ht₁
      have hkept := Restored.kept hpush
        (heval.restored hdisc henv hbody.accepts (inPhase_entry hpush) hbelow)
      -- and the caller goes on with them
      obtain ⟨hexists₄, hactive₄⟩ :=
        (hactive₁.kept hslots hle hkept).returned (P := P) hcallable.two hres₁
      obtain ⟨s₄, hrun₄⟩ := hexists₄ (Nat.le_trans hres hn)
      have hresults : (convention.results w₁.stack.reverse).reverse = w₁.stack.reverse := by
        rw [convention, List.reverse_reverse]
      rw [hresults] at ih
      obtain ⟨t, ht, hres'⟩ := ih (by
        rw [List.length_append, List.length_reverse, hlen]
        exact hrest) (hactive₄ s₄ hrun₄).2 hn hle
      exact ⟨t, .call hdrop hrun hj hpush heval (eval_of_run ⟨js, hafter.symm⟩ hrun₄ ht), hres'⟩
  | @outside n m g ty ops args results rest ls w' hty hd hargs hroom hB hlen hres _ ih =>
      obtain ⟨hgot, l, hl⟩ := hP.imported g ty hty hd
      have hcall : callCode ctx g = [.movLabel .r10 l] ++ [.callReg .r10] := by
        rw [callCode, hgot, hl]
        rfl
      obtain ⟨ty', k, js, hcallable, hsix, hk, hdrop, hafter, hrest⟩ := hrem.call hcall
      cases hty.symm.trans hcallable.declared
      rw [List.length_append, List.length_reverse, hargs] at hk
      obtain rfl : rest.length = k := by omega
      have hslots := fun off hoff => (hrem.slots off hoff).1
      obtain ⟨s₁, hrun, hactive₁, hargs₁⟩ := hactive.arguments (P := P) hsix hargs
      have hactive₂ := hactive₁.set (r := .r10) rfl (P.word l)
      have hrun₂ : P.run (loads ty ++ [.movLabel .r10 l]) s = some (s₁.set .r10 (P.word l)) := by
        rw [Program.run_append, loads, hrun]
        rfl
      obtain ⟨-, htop₁, hsp₁⟩ := room_of_phase hactive₂.phase
      simp only at hsp₁
      obtain ⟨s₂, hpush⟩ : ∃ s₂, (s₁.set .r10 (P.word l)).push
          (P.address (pc + (loads ty ++ [Instr.movLabel .r10 l]).length + 1)) = some s₂ :=
        ⟨_, State.push_eq (by omega)⟩
      have hsp₂ := (State.push_spec hpush).2.1
      have hargs₂ : argumentsOf s₂ ty.params.length = args := by
        rw [argumentsOf_push hpush, argumentsOf_set, hargs₁]
      obtain ⟨t₁, hout, hres₁⟩ :=
        hI g ty l hty hd hl s₂ m results (by omega) (by rw [hargs₂]; exact hB) (by omega)
      rw [← State.set_regs_self s₁ .r10 (P.word l)] at hout
      obtain ⟨hexists₄, hactive₄⟩ :=
        (hactive₂.kept hslots hle (henv.kept hpush hout)).returned (P := P) hcallable.two hres₁
      obtain ⟨s₄, hrun₄⟩ := hexists₄ (Nat.le_trans hres hn)
      obtain ⟨t, ht, hres'⟩ := ih (by
        rw [List.length_append, List.length_reverse, hlen]
        exact hrest) (hactive₄ s₄ hrun₄).2 hn hle
      exact ⟨t, .outside hdrop hrun₂ hpush hout (eval_of_run ⟨js, hafter.symm⟩ hrun₄ ht), hres'⟩

/-! ## From what the machine does to what is computed

By induction on `Eval`.  Its rules take stretches of code that need not begin or end
with an operator's code, so it is first found out what such a stretch comes to. -/

/-- Only calls have instructions that call. -/
theorem plain_handleInstruction {c : List Instr} (hop : ∀ g, op ≠ .call g)
    (hc : handleInstruction ctx locals op = .ok c) : ∀ i ∈ c, plain i = true := by
  cases op with
  | call g => exact absurd rfl (hop g)
  | localGet i =>
      rw [handleInstruction] at hc
      split at hc
      · cases hc
        simp [plain]
      · cases hc
  | localSet i =>
      rw [handleInstruction] at hc
      split at hc
      · cases hc
        simp [plain]
      · cases hc
  | unimplemented b => cases hc
  | _ =>
      cases hc
      simp [plain]

/-- The operators up to the first call, and their code: where it runs it does what
they do, and it runs where there is what they take of the stack. -/
theorem Remains.straight (F : Functions) (I : ℕ → Behaviour) (take : ℕ → Option ℕ) (f : Frame)
    (h : Remains P ctx F returns locals size ops n pc) :
    ∃ post c m, (∀ i ∈ c, plain i = true) ∧ (∃ js, P.code.drop pc = c ++ js) ∧
      Remains P ctx F returns locals size post m (pc + c.length) ∧
      (post = [] ∨ ∃ g ops', post = .call g :: ops') ∧
      ∀ s w, w.stack.length = n → Active f locals size s w →
        (∀ s₁, P.run c s = some s₁ →
          ∃ w₁, w₁.stack.length = m ∧ Active f locals size s₁ w₁ ∧
            ∀ w', Runs F convention I (base f size) post w₁ w' →
              Runs F convention I (base f size) ops w w') ∧
        ∀ x, stackOf F take locals.length n ops = some x → x.2 ≤ base f size →
          ∃ s₁ x₁, P.run c s = some s₁ ∧ stackOf F take locals.length m post = some x₁ ∧
            x₁.2 ≤ base f size := by
  induction ops generalizing n pc with
  | nil => exact ⟨[], [], n, by simp, ⟨_, rfl⟩, h, .inl rfl, fun s w hn hs =>
      ⟨fun s₁ hs₁ => ⟨w, hn, Option.some.inj hs₁ ▸ hs, fun w' hw' => hw'⟩,
        fun x hx hle => ⟨s, x, rfl, hx, hle⟩⟩⟩
  | cons op ops ih =>
      by_cases hcall : ∃ g, op = .call g
      · obtain ⟨g, rfl⟩ := hcall
        exact ⟨_, [], n, by simp, ⟨_, rfl⟩, h, .inr ⟨g, ops, rfl⟩, fun s w hn hs =>
          ⟨fun s₁ hs₁ => ⟨w, hn, Option.some.inj hs₁ ▸ hs, fun w' hw' => hw'⟩,
            fun x hx hle => ⟨s, x, rfl, hx, hle⟩⟩⟩
      · have hop : ∀ g, op ≠ .call g := fun g hg => hcall ⟨g, hg⟩
        obtain ⟨c, m, hc, hm, ⟨js, hdrop⟩, hrest⟩ := h.cons
        obtain ⟨post, c', m', hplain, ⟨js', hdrop'⟩, hpost, hkind, hrun⟩ := ih hrest
        rw [drop_add hdrop] at hdrop'
        rw [Nat.add_assoc, ← List.length_append] at hpost
        refine ⟨post, c ++ c', m', ?_, ⟨js', ?_⟩, hpost, hkind, fun s w hn hs => ?_⟩
        · exact List.forall_mem_append.mpr ⟨plain_handleInstruction hop hc, hplain⟩
        · rw [hdrop, hdrop', List.append_assoc]
        · subst hn
          obtain ⟨w₂, hstep, hlen, hadv, hexists⟩ :=
            hs.operator (P := P) (fun off hoff => (h.slots off hoff).2) hop hc hm
          refine ⟨fun s₁ hs₁ => ?_, fun x hx hle => ?_⟩
          · rw [Program.run_append, Option.bind_eq_some_iff] at hs₁
            obtain ⟨s₂, hs₂, hs₁⟩ := hs₁
            have hroom := (room_of_run hadv hs.phase hs₂).1
            obtain ⟨s₃, hs₃, hactive⟩ := hexists hroom
            cases hs₂.symm.trans hs₃
            obtain ⟨w₁, hw₁, hactive₁, hafter⟩ := (hrun s₂ w₂ hlen hactive).1 s₁ hs₁
            exact ⟨w₁, hw₁, hactive₁, fun w' hw' =>
              .op hstep (by rw [hlen]; exact hroom) (hafter w' hw')⟩
          · obtain ⟨y, hy, hx⟩ := Option.bind_eq_some_iff.mp hx
            obtain ⟨z, hz, rfl⟩ := Option.map_eq_some_iff.mp hx
            have hheight : operatorTakes F take w.locals.length w.stack.length op =
                some (w₂.stack.length, 8 * w₂.stack.length) :=
              operatorTakes_of_height (Convention.height_of_step hstep).2
            rw [hs.sim.rep.length] at hheight
            cases hy.symm.trans hheight
            rw [hlen] at hz hle
            simp only [Nat.max_le] at hle
            obtain ⟨s₂, hs₂, hactive⟩ := hexists hle.1
            obtain ⟨s₁, x₁, hs₁, hx₁, hle₁⟩ := (hrun s₂ w₂ hlen hactive).2 z hz hle.2
            exact ⟨s₁, x₁, by rw [Program.run_append, hs₂, Option.bind_some, hs₁], hx₁, hle₁⟩

/-- What the code of a body comes to first. -/
theorem Remains.next (hP : Implements P ctx F) {front : List Instr}
    (hfront : ∀ i ∈ front, plain i = true) {js : List Instr} (hjs : P.code.drop pc = front ++ js)
    (h : Remains P ctx F returns locals size ops n (pc + front.length))
    (hkind : ops = [] ∨ ∃ g ops', ops = .call g :: ops') :
    ∃ seg i rest, P.code.drop pc = front ++ seg ++ i :: rest ∧
      (∀ i ∈ front ++ seg, plain i = true) ∧ plain i = false ∧
      ((ops = [] ∧ i = .ret ∧ epilogue returns size = .ok (seg ++ [.ret])) ∨
        ∃ g ops' ty m js, ops = .call g :: ops' ∧ Callable F ctx g ty ∧ ty.params.length ≤ 6 ∧
          n = ty.params.length + m ∧ rest = pushes ty ++ js ∧
          Remains P ctx F returns locals size ops' (ty.returns.length + m)
            (pc + (front ++ seg).length + 1 + (pushes ty).length) ∧
          ((∃ d l, F.definition g = some d ∧ ctx.got[g]? = some l ∧ i = .callLabel l ∧
              seg = loads ty) ∨
            ∃ l, F.definition g = none ∧ ctx.ils[g]? = some l ∧ i = .callReg .r10 ∧
              seg = loads ty ++ [.movLabel .r10 l])) := by
  have hafter := drop_add hjs
  have hloads : ∀ ty : FuncType, ∀ i ∈ loads ty, plain i = true := by
    intro ty i hi
    obtain ⟨r, -, rfl⟩ := List.mem_map.mp hi
    rfl
  rcases hkind with rfl | ⟨g, ops', rfl⟩
  · obtain ⟨-, after, rest, hepilogue, hdrop⟩ := h.nil
    obtain ⟨-, hform⟩ := epilogue_i64 h.integral hepilogue
    obtain ⟨seg, rfl, hseg⟩ : ∃ seg, after = seg ++ [.ret] ∧ ∀ i ∈ seg, plain i = true := by
      refine ⟨(returnOrder.take returns.length).map .pop ++
        (if size = 0 then [] else [.addRsp size]) ++ [.mov .rsp .rbp, .pop .rbp],
        by rw [hform]; simp, ?_⟩
      intro i hi
      simp only [List.mem_append, List.mem_map, List.mem_cons, List.not_mem_nil, or_false] at hi
      rcases hi with (⟨r, -, rfl⟩ | hi) | rfl | rfl
      · rfl
      · split_ifs at hi
        · cases hi
        · cases List.mem_singleton.mp hi
          rfl
      · rfl
      · rfl
    refine ⟨seg, .ret, rest, ?_, List.forall_mem_append.mpr ⟨hfront, hseg⟩, rfl,
      .inl ⟨rfl, rfl, hepilogue⟩⟩
    rw [hjs, ← hafter, hdrop]
    simp
  · have hcode : ∃ mid i, callCode ctx g = mid ++ [i] ∧ plain i = false ∧
        (∀ i ∈ mid, plain i = true) ∧
        ((∃ d l, F.definition g = some d ∧ ctx.got[g]? = some l ∧ i = .callLabel l ∧ mid = []) ∨
          ∃ l, F.definition g = none ∧ ctx.ils[g]? = some l ∧ i = .callReg .r10 ∧
            mid = [.movLabel .r10 l]) := by
      cases hd : F.definition g with
      | some d =>
          obtain ⟨ty, l, k, -, hl, -⟩ := hP.defined g d hd
          exact ⟨[], .callLabel l, by rw [callCode, hl]; rfl, rfl, by simp,
            .inl ⟨d, l, rfl, hl, rfl, rfl⟩⟩
      | none =>
          obtain ⟨ty, hty⟩ := h.calls g List.mem_cons_self
          obtain ⟨hgot, l, hl⟩ := hP.imported g ty hty.declared hd
          exact ⟨[.movLabel .r10 l], .callReg .r10, by rw [callCode, hgot, hl]; rfl, rfl,
            by simp [plain], .inr ⟨l, rfl, hl, rfl, rfl⟩⟩
    obtain ⟨mid, i, hcall, hi, hmid, hkind⟩ := hcode
    obtain ⟨ty, m, js', hcallable, hsix, hn, hdrop, -, hrest⟩ := h.call hcall
    refine ⟨loads ty ++ mid, i, pushes ty ++ js', ?_, ?_, hi,
      .inr ⟨g, ops', ty, m, js', rfl, hcallable, hsix, hn, rfl, ?_, ?_⟩⟩
    · rw [hjs, ← hafter, hdrop]
      simp only [List.append_assoc]
    · exact List.forall_mem_append.mpr
        ⟨hfront, List.forall_mem_append.mpr ⟨hloads ty, hmid⟩⟩
    · rw [List.length_append, ← Nat.add_assoc]
      exact hrest
    · rcases hkind with ⟨d, l, hd, hl, rfl, rfl⟩ | ⟨l, hd, hl, rfl, rfl⟩
      · exact .inl ⟨d, l, hd, hl, rfl, List.append_nil _⟩
      · exact .inr ⟨l, hd, hl, rfl, rfl⟩

/-- What has been run when the code of a body comes to its return or to a call: the
operators up to there, and what stands in front of that instruction. -/
theorem Remains.reached (hP : Implements P ctx F) (I : ℕ → Behaviour) {front : List Instr}
    (hfront : ∀ i ∈ front, plain i = true) (hpre : ∃ js, P.code.drop pc = front ++ js)
    (hrem : Remains P ctx F returns locals size ops w.stack.length (pc + front.length))
    (hactive : ∀ s₀, P.run front s = some s₀ → Active f locals size s₀ w) {s₁ : X86.State}
    {seg rest : List Instr} {i : Instr} (hcode : P.code.drop pc = seg ++ i :: rest)
    (hi : plain i = false) (hrun : P.run seg s = some s₁) :
    ∃ s₀ s₂ w₁ post before after, P.run front s = some s₀ ∧ seg = before ++ after ∧
      P.run after s₂ = some s₁ ∧ Active f locals size s₂ w₁ ∧
      Remains P ctx F returns locals size post w₁.stack.length (pc + before.length) ∧
      (∀ w', Runs F convention I (base f size) post w₁ w' →
        Runs F convention I (base f size) ops w w') ∧
      ((post = [] ∧ i = .ret ∧ epilogue returns size = .ok (after ++ [.ret])) ∨
        ∃ g ops' ty m js, post = .call g :: ops' ∧ Callable F ctx g ty ∧ ty.params.length ≤ 6 ∧
          w₁.stack.length = ty.params.length + m ∧ rest = pushes ty ++ js ∧
          Remains P ctx F returns locals size ops' (ty.returns.length + m)
            (pc + seg.length + 1 + (pushes ty).length) ∧
          ((∃ d l, F.definition g = some d ∧ ctx.got[g]? = some l ∧ i = .callLabel l ∧
              after = loads ty) ∨
            ∃ l, F.definition g = none ∧ ctx.ils[g]? = some l ∧ i = .callReg .r10 ∧
              after = loads ty ++ [.movLabel .r10 l])) := by
  obtain ⟨js, hjs⟩ := hpre
  obtain ⟨post, c, m, hplain, ⟨js', hjs'⟩, hpost, hkind, hsteps⟩ :=
    hrem.straight F I (fun _ => none) f
  rw [drop_add hjs] at hjs'
  rw [Nat.add_assoc, ← List.length_append] at hpost
  obtain ⟨after, i', rest', hcode', hplain', hi', hnext⟩ :=
    hpost.next hP (List.forall_mem_append.mpr ⟨hfront, hplain⟩)
      (by rw [hjs, hjs', List.append_assoc]) hkind
  obtain ⟨rfl, rfl, rfl⟩ :=
    segment_unique (hcode.symm.trans hcode') (plain_of_run hrun) hplain' hi hi'
  rw [List.append_assoc, Program.run_append, Option.bind_eq_some_iff] at hrun
  obtain ⟨s₀, hs₀, hrun⟩ := hrun
  rw [Program.run_append, Option.bind_eq_some_iff] at hrun
  obtain ⟨s₂, hs₂, hrun⟩ := hrun
  obtain ⟨w₁, rfl, hactive₁, hruns⟩ := (hsteps s₀ w rfl (hactive s₀ hs₀)).1 s₂ hs₂
  exact ⟨s₀, s₂, w₁, post, front ++ c, after, hs₀, rfl, hrun, hactive₁, hpost, hruns, hnext⟩

/-- **What code comes to, its operators compute.** -/
theorem runs_of_eval (hP : Implements P ctx F) (hdisc : P.Disciplined)
    (henv : WellBehaved env top) (htop : top ≤ 2 ^ 64)
    (hI : ThroughSlots P.word ctx F fun a ty f => Obeys env top a ty (I f)) {o : Option X86.State}
    (h : Eval P env pc s o) (ho : o = some t) {front : List Instr}
    (hfront : ∀ i ∈ front, plain i = true) (hpre : ∃ js, P.code.drop pc = front ++ js)
    (hrem : Remains P ctx F returns locals size ops w.stack.length (pc + front.length))
    (hactive : ∀ s₀, P.run front s = some s₀ → Active f locals size s₀ w)
    (hle : f.top + 8 ≤ top) :
    ∃ s₀ w', P.run front s = some s₀ ∧ Runs F convention I (base f size) ops w w' ∧
      resultsOf t returns.length = w'.stack := by
  induction h generalizing returns locals size ops f w front t with
  | @ret pc s s₁ t₁ seg rest v hcode hrun hpop =>
      cases ho
      obtain ⟨s₀, s₂, w₁, post, before, after, hs₀, rfl, hrun, hactive₁, hpost, hruns, hnext⟩ :=
        hrem.reached hP I hfront hpre hactive hcode rfl hrun
      rcases hnext with ⟨rfl, -, hafter⟩ | ⟨_, _, _, _, _, _, _, _, _, _, _, hnext⟩
      · obtain ⟨is, s₃, v', t', his, hrun', hpop', hres⟩ :=
          hactive₁.epilogue (P := P) hpost.integral hafter hpost.two hpost.nil.1 (by omega)
        obtain rfl := List.append_cancel_right his
        cases hrun.symm.trans hrun'
        cases hpop.symm.trans hpop'
        exact ⟨s₀, w₁, hs₀, hruns w₁ .nil, hres⟩
      · rcases hnext with ⟨_, _, _, _, hi', -⟩ | ⟨_, _, _, hi', -⟩ <;> cases hi'
  | stop => cases ho
  | @call pc k s s₁ s₂ s₃ seg rest l o hcode hrun hk hpush hcallee _ ihcallee ihrest =>
      obtain ⟨s₀, t₂, ⟨st, ls⟩, post, before, after, hs₀, rfl, hrun, hactive₂, -, hruns, hnext⟩ :=
        hrem.reached hP I hfront hpre hactive hcode rfl hrun
      rcases hnext with ⟨-, hi', -⟩ | ⟨g, ops', ty, d₁, js₁, rfl, hcallable, hsix, hm, rfl,
        hrest, ⟨d, l', hd, hl, hi', rfl⟩ | ⟨_, _, _, hi', -⟩⟩
      · cases hi'
      · cases hi'
        obtain ⟨ty', l', j, hty', hl', hj, hlocals, hframe, hbody⟩ := hP.defined g d hd
        cases hcallable.declared.symm.trans hty'
        cases hl.symm.trans hl'
        cases hk.symm.trans hj
        obtain ⟨args, below, rfl, hargs, hbelow⟩ := exists_arguments hm
        -- the arguments are loaded and the return address is pushed
        obtain ⟨s₁', hrun', hactive₁, hargs₁⟩ := hactive₂.arguments (P := P) hsix hargs
        cases hrun.symm.trans hrun'
        obtain ⟨-, htop₁, hsp₁⟩ := room_of_phase hactive₁.phase
        simp only at hsp₁
        obtain ⟨hroom, hsp₂, -⟩ := State.push_spec hpush
        have hle₂ : s₂.sp + 8 ≤ top := by omega
        -- the callee computes its results from the arguments
        obtain ⟨before, js₂, hbefore, hplain₂, hrem₂, -, henter⟩ :=
          hbody.enter (inPhase_entry hpush)
        rw [argumentsOf_push hpush, hargs₁] at henter
        obtain ⟨s₄, w₂, hs₄, hruns₂, hres₂⟩ := ihcallee rfl hplain₂ ⟨js₂, hbefore⟩
          (w := ⟨[], args.reverse⟩) hrem₂ (fun s₄ hs₄ => (henter s₄ hs₄).2) hle₂
        obtain ⟨hbase, -⟩ := henter s₄ hs₄
        have hlen₂ : w₂.stack.length = ty.returns.length := by
          rw [← hres₂, length_resultsOf hcallable.two]
        -- and the caller goes on with them
        have hkept := Restored.kept hpush
          (hcallee.restored hdisc henv hbody.accepts (inPhase_entry hpush) hle₂)
        obtain ⟨-, hactive₅⟩ := (hactive₁.kept (fun off hoff => (hrem.slots off hoff).1) hle
          hkept).returned (P := P) hcallable.two hres₂
        obtain ⟨s₅, w', hs₅, hruns', hres'⟩ := ihrest ho plain_pushes
          ⟨js₁, (drop_of_split hcode).2⟩ (w := ⟨w₂.stack.reverse ++ below, ls⟩)
          (by rw [List.length_append, List.length_reverse, hlen₂, hbelow]; exact hrest)
          (fun s₅ hs₅ => (hactive₅ s₅ hs₅).2) hle
        refine ⟨s₀, w', hs₀, hruns w' (Runs.call hcallable.declared hd hargs
          (m := s₂.sp - (8 * ty.params.length + 8)) (by omega) ?_ hlen₂
          (hactive₅ s₅ hs₅).1 ?_), hres'⟩
        · rw [hlocals, List.replicate_zero, List.append_nil]
          exact hruns₂
        · rw [convention, List.reverse_reverse]
          exact hruns'
      · cases hi'
  | callStop => cases ho
  | @outside pc s s₁ s₂ s₃ seg rest r o hcode hrun hpush hout _ ihrest =>
      obtain ⟨s₀, t₂, ⟨st, ls⟩, post, before, after, hs₀, rfl, hrun, hactive₂, -, hruns, hnext⟩ :=
        hrem.reached hP I hfront hpre hactive hcode rfl hrun
      rcases hnext with ⟨-, hi', -⟩ | ⟨g, ops', ty, d₁, js₁, rfl, hcallable, hsix, hm, rfl,
        hrest, ⟨_, _, _, _, hi', -⟩ | ⟨l, hd, hl, hi', rfl⟩⟩
      · cases hi'
      · cases hi'
      · cases hi'
        rw [Program.run_append, Option.bind_eq_some_iff] at hrun
        obtain ⟨t₃, ht₃, hrun⟩ := hrun
        cases hrun
        obtain ⟨args, below, rfl, hargs, hbelow⟩ := exists_arguments hm
        obtain ⟨s₁', hrun', hactive₁, hargs₁⟩ := hactive₂.arguments (P := P) hsix hargs
        cases ht₃.symm.trans hrun'
        have hactive₃ := hactive₁.set (r := .r10) rfl (P.word l)
        obtain ⟨-, htop₁, hsp₁⟩ := room_of_phase hactive₃.phase
        simp only at hsp₁
        obtain ⟨hroom, hsp₂, -⟩ := State.push_spec hpush
        have hB := hI g ty l hcallable.declared hd hl s₂ s₃ (by omega)
          (by rw [← State.set_regs_self t₃ .r10 (P.word l)]; exact hout)
        rw [argumentsOf_push hpush, argumentsOf_set, hargs₁] at hB
        obtain ⟨-, hactive₅⟩ := (hactive₃.kept (fun off hoff => (hrem.slots off hoff).1) hle
          (henv.kept hpush hout)).returned (P := P) hcallable.two rfl
        obtain ⟨s₅, w', hs₅, hruns', hres'⟩ := ihrest ho plain_pushes
          ⟨js₁, (drop_of_split hcode).2⟩
          (w := ⟨(resultsOf s₃ ty.returns.length).reverse ++ below, ls⟩)
          (by
            rw [List.length_append, List.length_reverse, length_resultsOf hcallable.two, hbelow]
            exact hrest)
          (fun s₅ hs₅ => (hactive₅ s₅ hs₅).2) hle
        exact ⟨s₀, w', hs₀, hruns w' (.outside hcallable.declared hd hargs (by omega) hB
          (length_resultsOf hcallable.two) (hactive₅ s₅ hs₅).1 hruns'), hres'⟩

/-! ## Calls

From operators to functions: a prologue in front, and arguments and results as they
are passed. -/

/-- The arguments of a callee without declared locals, as it sees them. -/
theorem calleeLocals (args : List Word) :
    convention.arguments args ++ List.replicate 0 0 = args.reverse := List.append_nil _

/-- A call of compiled code returns what its function computes, if outside code
provides what imports compute. -/
theorem eval_of_calls (hP : Implements P ctx F) (hdisc : P.Disciplined)
    (henv : WellBehaved env top) (htop : top ≤ 2 ^ 64)
    (hprovides : ThroughSlots P.word ctx F fun a ty f => Provides env top a ty (I f)) {g k : ℕ}
    {l : Label} {results : List Word} (hty : F.type g = some ty) (hl : ctx.got[g]? = some l)
    (hk : P.target l = some k) (hle : s.sp + 8 ≤ top)
    (h : Calls F convention I g s.sp (argumentsOf s ty.params.length) results) :
    ∃ t, Eval P env k s (some t) ∧ resultsOf t ty.returns.length = results := by
  obtain ⟨ty', d, m, w, hty', hd, -, hroom, hruns, hlen, rfl⟩ := h
  cases hty.symm.trans hty'
  obtain ⟨ty', l', k', hty', hl', hk', hlocals, hframe, hbody⟩ := hP.defined g d hd
  cases hty.symm.trans hty'
  cases hl.symm.trans hl'
  cases hk.symm.trans hk'
  have hin : InPhase ⟨s.mem.load s.sp, s.regs .rbp, s.regs .rsp⟩ .entry s := ⟨rfl, rfl, rfl⟩
  obtain ⟨before, js, hbefore, -, hrem, hexists, henter⟩ := hbody.enter hin
  rw [hlocals, calleeLocals] at hruns
  obtain ⟨s₁, hs₁⟩ := hexists (by omega)
  obtain ⟨hbase, hactive⟩ := henter s₁ hs₁
  obtain ⟨t, ht, hres⟩ := eval_of_runs hP hdisc henv htop hprovides hruns hrem hactive
    (by omega) hle
  exact ⟨t, eval_of_run ⟨js, hbefore.symm⟩ hs₁ ht, hres.trans (List.reverse_reverse _).symm⟩

/-- What a call of compiled code returns its function computes, if outside code obeys
what is said of imports. -/
theorem calls_of_eval (hP : Implements P ctx F) (hdisc : P.Disciplined)
    (henv : WellBehaved env top) (htop : top ≤ 2 ^ 64)
    (hobeys : ThroughSlots P.word ctx F fun a ty f => Obeys env top a ty (I f)) {g k : ℕ}
    {d : Definition} {l : Label} (hty : F.type g = some ty) (htwo : ty.returns.length ≤ 2)
    (hd : F.definition g = some d) (hl : ctx.got[g]? = some l) (hk : P.target l = some k)
    (hle : s.sp + 8 ≤ top) (h : Eval P env k s (some t)) :
    Calls F convention I g s.sp (argumentsOf s ty.params.length)
      (resultsOf t ty.returns.length) := by
  obtain ⟨ty', l', k', hty', hl', hk', hlocals, hframe, hbody⟩ := hP.defined g d hd
  cases hty.symm.trans hty'
  cases hl.symm.trans hl'
  cases hk.symm.trans hk'
  have hin : InPhase ⟨s.mem.load s.sp, s.regs .rbp, s.regs .rsp⟩ .entry s := ⟨rfl, rfl, rfl⟩
  obtain ⟨before, js, hbefore, hplain, hrem, -, henter⟩ := hbody.enter hin
  obtain ⟨s₀, w, hs₀, hruns, hres⟩ := runs_of_eval hP hdisc henv htop hobeys h rfl hplain
    ⟨js, hbefore⟩ (w := ⟨[], (argumentsOf s ty.params.length).reverse⟩) hrem
    (fun s₀ hs₀ => (henter s₀ hs₀).2) hle
  have hbase := (henter s₀ hs₀).1
  refine ⟨ty, d, s.sp - (8 * ty.params.length + 8), w, hty, hd,
    length_argumentsOf hbody.length_params, by omega, ?_, ?_, ?_⟩
  · rw [hlocals, calleeLocals]
    exact Runs.mono hruns (by omega)
  · rw [← hres, length_resultsOf htwo]
  · exact hres.trans (List.reverse_reverse _).symm

/-- **A call of compiled code returns exactly what its function computes**, from
the words in the argument registers and with the bytes of stack below `rsp`. -/
theorem calls_iff_eval (hP : Implements P ctx F) (hdisc : P.Disciplined)
    (henv : WellBehaved env top) (htop : top ≤ 2 ^ 64)
    (hprovides : ThroughSlots P.word ctx F fun a ty f => Provides env top a ty (I f))
    (hobeys : ThroughSlots P.word ctx F fun a ty f => Obeys env top a ty (I f)) {g k : ℕ}
    {d : Definition} {l : Label} {results : List Word} (hty : F.type g = some ty)
    (htwo : ty.returns.length ≤ 2) (hd : F.definition g = some d) (hl : ctx.got[g]? = some l)
    (hk : P.target l = some k) (hle : s.sp + 8 ≤ top) :
    (∃ t, Eval P env k s (some t) ∧ resultsOf t ty.returns.length = results) ↔
      Calls F convention I g s.sp (argumentsOf s ty.params.length) results := by
  refine ⟨?_, eval_of_calls hP hdisc henv htop hprovides hty hl hk hle⟩
  rintro ⟨t, ht, rfl⟩
  exact calls_of_eval hP hdisc henv htop hobeys hty htwo hd hl hk hle ht

end ParaOS.Parawasm
