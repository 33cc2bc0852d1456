import ParaOS.Parawasm.Isolation
import ParaOS.Parawasm.Optimisation
import ParaOS.Parawasm.StackHeight

/-!
# What the optimiser changes

Calling a function of a module as it was emitted and as the optimiser leaves it
comes to the same, but for one thing.  Emitted code pushes operands it pops at
once; optimised code moves them, and so needs less of the stack.  Where the stack
is short, the optimised call may return while the emitted one has no room left
(`optimised_returns_where_emitted_stops`).  Otherwise they return alike
(`optimised_returns_alike`).

The operands that are popped in a body have been pushed in it because the module
is valid: the types of the operands are counted by `operandDepth` when calls are
compiled with the declared types and nothing has more than two results.

### What is load-bearing

`Simple` is what makes valid bodies keep to their frames.  Without declared locals
no slot has the offset zero, and with at most two results for each function and the
declared types looked up, the operands the emitted code has are those the validator
counts.

Outside code must not look at return addresses (`Env.Indifferent`).  They are
different words in the two programs, at the same places, and this is the only
difference it could see.

Addresses are separate in both programs.  Where the two are loaded has nothing to do
with each other.

### Why the second half is a disjunction

The emitted program may need more of the stack than the optimised one.  A state with
too little of it is not excluded, since nobody checks for it; what is stated is that
this is the only way for the two to differ.
-/

namespace ParaOS.Parawasm

open Machine X86 Wasm

/-! ## Valid bodies keep to their frames

Typing counts operands, and `operandDepth` counts words.  For typed code they are
the same number. -/

/-- No function has more than two results. -/
def AtMostTwoResults (ps : List Payload) : Prop :=
  ∀ f ty, declaredType ps f = some ty → ty.returns.length ≤ 2

/-- It can be checked function by function. -/
theorem atMostTwoResults_iff {ps : List Payload} : AtMostTwoResults ps ↔
    ∀ f < (funcSpace ps).length, ∀ ty ∈ declaredType ps f, ty.returns.length ≤ 2 :=
  ⟨fun h f _ => h f, fun h f ty hty => h f (lt_of_declaredType hty) ty hty⟩

instance (ps : List Payload) : Decidable (AtMostTwoResults ps) :=
  decidable_of_iff' _ atMostTwoResults_iff

/-- No function declares locals. -/
def NoLocals (ps : List Payload) : Prop := ∀ body ∈ bodies ps, localCount body.locals.items = 0

instance (ps : List Payload) : Decidable (NoLocals ps) :=
  inferInstanceAs (Decidable (∀ body ∈ bodies ps, _))

variable {ctx : Context} {locals : List ℕ} {C : TypeContext} {st st' : List Ty}

/-- Operands are counted by their types. -/
theorem operandDepth_of_typeOp {op : Operator} (hlocals : ∀ off ∈ locals, 8 ≤ off)
    (hcalls : ∀ f ty, C.func f = some ty →
      ctx.functionType f = some ty ∧ ty.returns.length ≤ 2)
    (hop : integral op = true) (h : typeOp C st op = some st') :
    operandDepth ctx locals st.length op = some st'.length := by
  have hbinary : ∀ {ts : List Ty}, popTypes [.i64, .i64] st = some ts →
      (if 2 ≤ st.length then some (st.length - 1) else none) = some (ts.length + 1) := by
    intro ts hts
    have hlen := popTypes_length hts
    simp only [List.length_cons, List.length_nil] at hlen
    rw [if_pos (by omega)]
    exact congrArg some (by omega)
  cases op with
  | i64Const v =>
      cases h
      rfl
  | i64Add =>
      obtain ⟨ts, hts, rfl⟩ := Option.map_eq_some_iff.mp h
      exact hbinary hts
  | i64Sub =>
      obtain ⟨ts, hts, rfl⟩ := Option.map_eq_some_iff.mp h
      exact hbinary hts
  | nop =>
      cases h
      rfl
  | localGet i =>
      obtain ⟨t, -, rfl⟩ := Option.map_eq_some_iff.mp h
      rfl
  | localSet i =>
      obtain ⟨t, -, hts⟩ := Option.bind_eq_some_iff.mp h
      have hlen := popTypes_length hts
      simp only [List.length_singleton] at hlen
      rw [operandDepth, if_pos ⟨by omega, fun off hoff => hlocals off (List.mem_of_getElem? hoff)⟩]
      exact congrArg some (by omega)
  | call f =>
      obtain ⟨ty, hty, h⟩ := Option.bind_eq_some_iff.mp h
      obtain ⟨ts, hts, rfl⟩ := Option.map_eq_some_iff.mp h
      obtain ⟨hused, htwo⟩ := hcalls f ty hty
      have hlen := popTypes_length hts
      rw [List.length_reverse] at hlen
      rw [operandDepth, hused, Option.bind_some, if_pos (by omega)]
      simp only [List.length_append, List.length_reverse, Option.some.injEq]
      omega
  | «end» => cases h
  | i32Add => cases hop
  | i32Sub => cases hop
  | unimplemented b => cases hop

/-- The closing `end` is no operator with a depth of its own. -/
theorem operandDepths_of_typeOps {ops : List Operator} (hlocals : ∀ off ∈ locals, 8 ≤ off)
    (hcalls : ∀ f ty, C.func f = some ty →
      ctx.functionType f = some ty ∧ ty.returns.length ≤ 2)
    (hops : ∀ op ∈ ops, integral op = true) (h : typeOps C st ops = some st') :
    operandDepths ctx locals st.length (ops ++ [.end]) = some st'.length := by
  induction ops generalizing st with
  | nil =>
      cases h
      rfl
  | cons op ops ih =>
      obtain ⟨st₁, hop, h⟩ := Option.bind_eq_some_iff.mp h
      rw [List.forall_mem_cons] at hops
      rw [List.cons_append, operandDepths, operandDepth_of_typeOp hlocals hcalls hops.1 hop,
        Option.bind_some, ih hops.2 h]

/-- Functions that are called in typed code have types. -/
theorem exists_func_of_call {ops : List Operator} {f : ℕ} (h : typeOps C st ops = some st')
    (hf : .call f ∈ ops) : ∃ ty, C.func f = some ty := by
  induction ops generalizing st with
  | nil => cases hf
  | cons op ops ih =>
      obtain ⟨st₁, hop, h⟩ := Option.bind_eq_some_iff.mp h
      rcases List.mem_cons.mp hf with rfl | hf
      · obtain ⟨ty, hty, -⟩ := Option.bind_eq_some_iff.mp hop
        exact ⟨ty, hty⟩
      · exact ih h hf

/-! ## Modules

From bodies to modules, with both programs side by side. -/

/-- What is asked of a module. -/
structure Simple (ps : List Payload) (ctx : Context) : Prop where
  integral : Integral ps
  noLocals : NoLocals ps
  results : AtMostTwoResults ps
  resolved : TypesResolved ps ctx

variable {V : Validator} {its : List Item} {ps : List Payload} {σ : Compiling V}
  {address address' : ℕ → Word} {word : Label → Word} {env : Env}

/-- The type of a body, and how it types the body. -/
theorem Simple.typed (hs : Simple ps ctx) (h : Valid ps) {k : ℕ} {body : FunctionBody}
    (hbody : (bodies ps)[k]? = some body) :
    ∃ ty, ctx.functionType ((functionImports ps).length + k) = some ty ∧ AllI64 ty.params ∧
      WellTyped ⟨declaredType ps, ty.params ++ declaredLocals body.locals.items⟩ ty.returns
        body.operators.items := by
  obtain ⟨t, ty, ht, hty, htyped⟩ := hs.integral.exists_typed h hbody
  exact ⟨ty, hs.resolved.compiled k t ty ht hty, htyped⟩

/-- **All bodies of such a module keep to their frames.** -/
theorem Simple.keepsFrames (hs : Simple ps ctx) (h : Valid ps) : KeepsFrames ps ctx := by
  intro k body ty hbody hty
  have hmem := List.mem_of_getElem? hbody
  obtain ⟨ty', hty', hp, init, hops, htyped⟩ := hs.typed h hbody
  cases hty.symm.trans hty'
  have hoperators := hs.integral.operators body hmem
  refine ⟨hp, hs.integral.locals body hmem, ty.returns.length, ?_, by omega⟩
  rw [hops] at hoperators ⊢
  have hlen : ty.returns.reverse.length = ty.returns.length := List.length_reverse
  rw [← hlen]
  refine operandDepths_of_typeOps ?_ ?_
    (fun op hop => hoperators op (List.mem_append_left _ hop)) htyped
  · intro off hoff
    rw [hs.noLocals body hmem, frameOffsets, List.range_zero, List.map_nil, List.append_nil,
      List.mem_map] at hoff
    obtain ⟨i, -, rfl⟩ := hoff
    omega
  · exact fun f ty hf => ⟨hs.resolved.called f ty hf, hs.results f ty hf⟩

/-- The functions a body calls are there. -/
theorem Simple.callCode_ne_nil (hs : Simple ps σ.toContext) (h : Valid ps)
    (hread : Reading ps its σ) {k f : ℕ} {body : FunctionBody}
    (hbody : (bodies ps)[k]? = some body) (hf : .call f ∈ body.operators.items) :
    callCode σ.toContext f ≠ [] := by
  obtain ⟨ty₀, -, -, init, hops, htyped⟩ := hs.typed h hbody
  rw [hops, List.mem_append] at hf
  obtain ⟨ty, hty⟩ := exists_func_of_call htyped (hf.resolve_right (by simp))
  have hreached := hread.reached h.ordered (hs.resolved.called f ty hty)
  rw [callCode]
  cases hgot : σ.got[f]? with
  | some g => simp
  | none =>
      rcases hreached with ⟨g, hg⟩ | ⟨l, hl⟩
      · rw [hgot] at hg
        cases hg
      · simp [hl]

/-- **The label of a function stands before its code in the one program and before
optimised code in its place in the other.** -/
theorem Simple.exists_faithful (hs : Simple ps σ.toContext) (h : Valid ps)
    (hread : Reading ps its σ) (hcomp : CompiledWith V ps its σ.toContext)
    (address address' : ℕ → Word) (word : Label → Word) {f : ℕ} {g : Label}
    (hg : σ.got[f]? = some g) :
    ∃ i j, (σ.emittedProgram address word).target g = some i ∧
      (σ.program address' word).target g = some j ∧
      accepts .entry ((σ.emittedProgram address word).code.drop i) = true ∧
      accepts .entry ((σ.program address' word).code.drop j) = true ∧
      Faithful (σ.emittedProgram address word) (σ.program address' word) .entry
        ((σ.emittedProgram address word).code.drop i) ((σ.program address' word).code.drop j) := by
  obtain ⟨k, hk, rfl⟩ := hread.index_of_got h.ordered hg
  rw [← h.bodyCount] at hk
  obtain ⟨⟨f', g', code⟩, hget⟩ : ∃ x, (its.filterMap Item.body?)[k]? = some x :=
    ⟨_, List.getElem?_eq_getElem (hread.length_bodies ▸ hk)⟩
  obtain ⟨rfl, hg', body, ty, φ, height, hbody, hty, hcode⟩ := hcomp k f' g' code hget
  obtain rfl : g = g' := Option.some.inj (hg.symm.trans hg')
  obtain ⟨i, j, rest, rest', hi, hj, hdrop, hdrop'⟩ :=
    hread.exists_targets hcomp address address' word (mem_of_body? hget)
  have hkeep := hs.keepsFrames h k body ty hbody hty
  have hacc := compileBody_accepts hcode hkeep
  refine ⟨i, j, hi, hj, ?_, ?_, ?_⟩
  · rw [hdrop]
    exact accepts_append hacc
  · rw [hdrop']
    exact accepts_append (accepts_optimized hacc)
  · rw [hdrop, hdrop']
    have hword : (σ.program address' word).word = (σ.emittedProgram address word).word := rfl
    exact faithful_compileBody hword (hs.integral.operators body (List.mem_of_getElem? hbody))
      (fun f hf => hs.callCode_ne_nil h hread hbody hf)
      (hs.noLocals body (List.mem_of_getElem? hbody)) hcode hkeep rest rest'

/-- What emitted code calls are functions of the module. -/
theorem Reading.got_of_callLabel (h : Reading ps its σ)
    (hcomp : CompiledWith V ps its σ.toContext) (hkeep : KeepsFrames ps σ.toContext) {pc : ℕ}
    {l : Label} (hl : (σ.emittedProgram address word).code[pc]? = some (.callLabel l)) :
    ∃ f : ℕ, σ.got[f]? = some l := by
  have hmem := List.mem_of_getElem? hl
  rw [h.emittedProgram_eq] at hmem
  simp only [programOf, codeOf] at hmem
  obtain ⟨it, hit, hmem⟩ := List.mem_flatMap.mp hmem
  cases it with
  | body f g code =>
      obtain ⟨i, hi⟩ := mem_body? hit
      obtain ⟨rfl, -, body, ty, φ, height, hbody, hty, hcode⟩ := hcomp i f g code hi
      obtain ⟨f, -, hf⟩ := callLabel_mem_compileBody (hkeep i body ty hbody hty).1 hcode hmem
      exact ⟨f, hf⟩
  | _ => simp [Item.code] at hmem

/-- The two programs of a module. -/
theorem Simple.setting (hs : Simple ps σ.toContext) (h : Valid ps) (hread : Reading ps its σ)
    (hcomp : CompiledWith V ps its σ.toContext) {top : ℕ} (henv : WellBehaved env top)
    (hind : env.Indifferent (Set.range address ∪ Set.range address')) :
    Setting (σ.emittedProgram address word) (σ.program address' word) env top
      (Set.range address ∪ Set.range address') where
  refines := by
    refine ⟨rfl, fun pc l hl => ?_⟩
    obtain ⟨f, hf⟩ := hread.got_of_callLabel hcomp (hs.keepsFrames h) hl
    obtain ⟨i, j, hi, hj, -, -, hfaith⟩ := hs.exists_faithful h hread hcomp address address' word hf
    exact ⟨i, j, hi, hj, hfaith⟩
  disciplined := by
    intro pc k l hl hk
    obtain ⟨f, hf⟩ := hread.got_of_callLabel hcomp (hs.keepsFrames h) hl
    obtain ⟨i, j, hi, -, hacc, -, -⟩ := hs.exists_faithful h hread hcomp address address' word hf
    cases hk.symm.trans hi
    exact hacc
  disciplined' := hread.disciplined hcomp (hs.keepsFrames h)
  wellBehaved := henv
  indifferent := hind
  address k := .inl ⟨k, rfl⟩
  address' k := .inr ⟨k, rfl⟩

/-- **Optimised code behaves like emitted code**, in modules of `i64` functions
without declared locals, with at most two results each and with the declared types
looked up for them.  Whatever function is called in whatever state: if the call
returns as emitted, it returns as optimised, with the same registers and the same
memory at and above `rsp` on entry; and if it returns as optimised, it returns as
emitted in the same way or comes to an instruction for which there is no room on the
stack.

The way out in the other direction is needed.  The optimised code leaves out a push
and the pop behind it, and so gets by with a word less; a call for which there is
just that much room returns as optimised and not as emitted.  That outside code does
not look at return addresses (`Indifferent`) is needed because those are different
in the two programs. -/
theorem optimised_returns_alike {V : Validator} {E : Encoder} {P : Parser} {n : ℕ}
    {module : List UInt8} {asm : AssembledModule} (hV : V.Sound) (hP : P.Documented)
    (hplain : ∀ p ∈ (scan P module).1, p.nests = false)
    (h : compileWithin E P V n module = some (.ok asm)) :
    ∃ st : Compiling V, compilePayloads E (scan P module).1 = .ok st ∧
      (Integral (scan P module).1 → NoLocals (scan P module).1 →
        AtMostTwoResults (scan P module).1 → TypesResolved (scan P module).1 st.toContext →
        ∀ (address address' : ℕ → Word) (word : Label → Word) (env : Env) (top : ℕ),
          (st.emittedProgram address word).Separate → (st.program address' word).Separate →
          WellBehaved env top → env.Indifferent (Set.range address ∪ Set.range address') →
          ∀ k < (bodies (scan P module).1).length, ∃ g i j,
            st.got[(functionImports (scan P module).1).length + k]? = some g ∧
            (st.emittedProgram address word).target g = some i ∧
            (st.program address' word).target g = some j ∧
            ∀ s : X86.State, s.sp + 8 ≤ top →
              (∀ u, Returns (st.emittedProgram address word) env i s u →
                ∃ u', Returns (st.program address' word) env j s u' ∧ u'.regs = u.regs ∧
                  SameAbove s.sp u u') ∧
              (∀ u', Returns (st.program address' word) env j s u' →
                (∃ u, Returns (st.emittedProgram address word) env i s u ∧ u'.regs = u.regs ∧
                  SameAbove s.sp u u') ∨
                RunsOut (st.emittedProgram address word) env i s)) := by
  obtain ⟨st, hst, -⟩ := compileWithin_eq_ok hP h
  have hvalid := hV.valid _ (accepts_of_compilePayloads hst) hplain
  refine ⟨st, hst, fun hint hno htwo hres address address' word env top hsep hsep' henv hind k hk =>
    ?_⟩
  have hs : Simple (scan P module).1 st.toContext := ⟨hint, hno, htwo, hres⟩
  obtain ⟨its, hread, hcomp⟩ :=
    reading_compiledWith hvalid.ordered (foldlM_of_compilePayloads hst)
  obtain ⟨g, -, hg, -⟩ := hread.exists_target hcomp address word hk
  obtain ⟨i, j, hi, hj, hacc, hacc', hfaith⟩ :=
    hs.exists_faithful hvalid hread hcomp address address' word hg
  have hset : Setting (st.emittedProgram address word) (st.program address' word) env top _ :=
    hs.setting hvalid hread hcomp henv hind
  refine ⟨g, i, j, hg, hi, hj, fun s htop => ?_⟩
  have hsame : ∀ {u u' : X86.State}, Same ∅ s.sp u u' → u'.regs = u.regs ∧ SameAbove s.sp u u' := by
    intro u u' h
    refine ⟨h.regs, fun x hx => h.mem x hx ?_⟩
    rintro ⟨b, hb, -⟩
    cases hb
  obtain ⟨hrefine, hreflect⟩ := returns_refine hset hsep hsep' hacc hacc' hfaith htop
  refine ⟨fun u hu => ?_, fun u' hu' => ?_⟩
  · obtain ⟨u', hu', hu⟩ := hrefine u hu
    exact ⟨u', hu', hsame hu⟩
  · rcases hreflect u' hu' with ⟨u, hu, hu'⟩ | hout
    · exact .inl ⟨u, hu, hsame hu'⟩
    · exact .inr hout

/-- The program of `askingModule` as emitted. -/
def emittedAskingProgram : Program :=
  programOf [.zeroBytes, .dq importPlaceholder, .dq 0, .push .rbp, .mov .rbp .rsp, .subRsp 8,
    .store 8 .rdi, .load .rax 8, .push .rax, .pop .rdi, .movLabel .r10 2, .callReg .r10,
    .push .rax, .pop .rax, .addRsp 8, .mov .rsp .rbp, .pop .rbp, .ret] [(1, 2), (2, 3), (3, 4)]
    (BitVec.ofNat 64) fun _ => 0

/-- This is what `compile` emits. -/
theorem askingModule_emittedProgram :
    (Script.compiling askingModule).emittedProgram (BitVec.ofNat 64) (fun _ => 0) =
      emittedAskingProgram := by
  have h : (Script.compiling askingModule).instructions = emittedAskingProgram.code ∧
      (Script.compiling askingModule).labelIndices = [(1, 2), (2, 3), (3, 4)] := by
    decide +kernel
  rw [Compiling.emittedProgram, h.1, h.2]
  rfl

/-- It looks at one register and not at memory. -/
theorem indifferent_increments (W : Set Word) : increments.Indifferent W := by
  rintro a B s s' _ - h rfl
  refine ⟨_, rfl, ?_, h.mem⟩
  simp only [State.set, h.regs]

/-- Called with `5`, function `1` of `askingModule` returns `6` with the same
registers as emitted and as optimised. -/
theorem optimised_returns_alike_instance : ∃ u u',
    Returns emittedAskingProgram increments 3 ((State.ofStack 64 100 [0]).set .rdi 5) u ∧
      Returns askingProgram increments 3 ((State.ofStack 64 100 [0]).set .rdi 5) u' ∧
      u'.regs = u.regs ∧ u.regs .rax = 6 := by
  obtain ⟨asm, h⟩ : ∃ asm, compileWithin Encoder.reference (parserOf askingModule)
      Validator.reference 20 (Script.bytes askingModule) = some (.ok asm) := ⟨_, rfl⟩
  obtain ⟨st, hst, halike⟩ := optimised_returns_alike Validator.reference_sound
    (parserOf_documented askingModule) (of_decide_eq_true rfl) h
  have hcomp : compilePayloads Encoder.reference (Script.payloads askingModule) =
      .ok (Script.compiling askingModule) := rfl
  obtain rfl : st = Script.compiling askingModule := Outcome.ok.inj (hst.symm.trans hcomp)
  have hresolved : TypesResolved (Script.payloads askingModule)
      (Script.compiling askingModule).toContext := by
    decide +kernel
  obtain ⟨g, i, j, hg, hi, hj, halike⟩ := halike
    ⟨of_decide_eq_true rfl, of_decide_eq_true rfl, of_decide_eq_true rfl⟩ (of_decide_eq_true rfl)
    (of_decide_eq_true rfl) hresolved (BitVec.ofNat 64) (BitVec.ofNat 64) (fun _ => 0) increments
    (2 ^ 32) (askingModule_emittedProgram ▸ separate_ofNat (by decide))
    (askingModule_program ▸ separate_ofNat (by decide)) (wellBehaved_increments _)
    (indifferent_increments _) 0 (by decide)
  have hg' : (Script.compiling askingModule).got[1]? = some 4 := by decide +kernel
  obtain rfl : g = 4 := Option.some.inj (hg.symm.trans hg')
  rw [askingModule_emittedProgram] at hi halike
  rw [askingModule_program] at hj halike
  cases hi
  cases hj
  -- up to the call of the import and from there to the `ret` the code runs straight ahead
  obtain ⟨s₁, s₂, s₃, s₄, w, u, h₁, h₂, h₃, h₄, h₅, hu⟩ : ∃ s₁ s₂ s₃ s₄ w u,
      emittedAskingProgram.run ((emittedAskingProgram.code.drop 3).take 8)
        ((State.ofStack 64 100 [0]).set .rdi 5) = some s₁ ∧
      s₁.push (BitVec.ofNat 64 12) = some s₂ ∧ increments (s₁.regs .r10) s₂ s₃ ∧
      emittedAskingProgram.run ((emittedAskingProgram.code.drop 12).take 5) s₃ = some s₄ ∧
      s₄.pop = some (w, u) ∧ u.regs .rax = 6 :=
    ⟨_, _, _, _, _, _, rfl, rfl, rfl, rfl, rfl, by decide +kernel⟩
  have hreach : Reach emittedAskingProgram increments
      (.call 3 ((State.ofStack 64 100 [0]).set .rdi 5))
      ⟨12, s₃, (Cfg.call 3 ((State.ofStack 64 100 [0]).set .rdi 5)).frames⟩ :=
    (reach_of_run (List.take_prefix _ _) h₁).tail (.outside rfl h₂ h₃)
  have hret : Returns emittedAskingProgram increments 3
      ((State.ofStack 64 100 [0]).set .rdi 5) u :=
    ⟨_, w, hreach.trans (reach_of_run (List.take_prefix _ _) h₄), rfl, rfl, h₅⟩
  obtain ⟨u', hu', hregs, -⟩ := (halike _ (by decide)).1 u hret
  exact ⟨u, u', hret, hu', hregs, hu⟩

/-- A function of type `() -> i64` that returns `1`. -/
def answeringModule : Script :=
  [(preamble, .version 1),
    ([0x01, 0x05, 0x01, 0x60, 0x00, 0x01, 0x7e], .typeSection ⟨[.func ⟨[], [.i64]⟩], none⟩),
    ([0x03, 0x02, 0x01, 0x00], .functionSection ⟨[0], none⟩),
    ([0x0a, 0x06, 0x01], .codeSectionStart 1),
    ([0x04, 0x00, 0x42, 0x01, 0x0b],
      .codeSectionEntry ⟨⟨[], none⟩, ⟨[.i64Const 1, .end], none⟩⟩)]

/-- Its program as emitted: the operand is pushed and popped. -/
def emittedAnsweringProgram : Program :=
  programOf [.dq 0, .push .rbp, .mov .rbp .rsp, .movImm .rax 1, .push .rax, .pop .rax,
    .mov .rsp .rbp, .pop .rbp, .ret] [(0, 1), (1, 2)] (BitVec.ofNat 64) fun _ => 0

/-- Its program as optimised: the operand stays in `rax`. -/
def answeringProgram : Program :=
  programOf [.dq 0, .push .rbp, .mov .rbp .rsp, .movImm .rax 1, .mov .rsp .rbp, .pop .rbp, .ret]
    [(0, 1), (1, 2)] (BitVec.ofNat 64) fun _ => 0

/-- This is what `compile` emits, -/
theorem answeringModule_emittedProgram :
    (Script.compiling answeringModule).emittedProgram (BitVec.ofNat 64) (fun _ => 0) =
      emittedAnsweringProgram := by
  have h : (Script.compiling answeringModule).instructions = emittedAnsweringProgram.code ∧
      (Script.compiling answeringModule).labelIndices = [(0, 1), (1, 2)] := by
    decide +kernel
  rw [Compiling.emittedProgram, h.1, h.2]
  rfl

/-- and this is what the optimiser makes of it. -/
theorem answeringModule_program :
    (Script.compiling answeringModule).program (BitVec.ofNat 64) (fun _ => 0) =
      answeringProgram := by
  have h : optimize (Script.compiling answeringModule).instructions
      (Script.compiling answeringModule).labelIndices =
        (answeringProgram.code, [(0, 1), (1, 2)]) := by
    decide +kernel
  rw [Compiling.program, h]
  rfl

/-- Code that returns at once looks at nothing. -/
theorem indifferent_returning (W : Set Word) : Env.Indifferent returning W := by
  rintro a B s s' _ - h rfl
  refine ⟨_, rfl, ?_, h.mem⟩
  simp only [State.set, h.regs]

/-- With one word left on the stack, `answeringModule` returns as optimised and not
as emitted. -/
theorem optimised_returns_where_emitted_stops : ¬ ∀ (script : Script) (n : ℕ)
    (asm : AssembledModule) (st : Compiling Validator.reference),
    compileWithin Encoder.reference (parserOf script) Validator.reference n
      (Script.bytes script) = some (.ok asm) →
    compilePayloads Encoder.reference (Script.payloads script) = .ok st →
    Integral (Script.payloads script) → NoLocals (Script.payloads script) →
    AtMostTwoResults (Script.payloads script) →
    TypesResolved (Script.payloads script) st.toContext →
    ∀ (address address' : ℕ → Word) (word : Label → Word) (env : Env) (top : ℕ),
      (st.emittedProgram address word).Separate → (st.program address' word).Separate →
      WellBehaved env top → env.Indifferent (Set.range address ∪ Set.range address') →
      ∀ (f g i j : ℕ) (s : X86.State), st.got[f]? = some g →
        (st.emittedProgram address word).target g = some i →
        (st.program address' word).target g = some j → s.sp + 8 ≤ top →
        ((∃ u, Returns (st.emittedProgram address word) env i s u) ↔
          ∃ u', Returns (st.program address' word) env j s u') ∧
        ∀ u u', Returns (st.emittedProgram address word) env i s u →
          Returns (st.program address' word) env j s u' → u'.regs = u.regs ∧
            SameAbove s.sp u u' := by
  intro h
  obtain ⟨asm, hasm⟩ : ∃ asm, compileWithin Encoder.reference (parserOf answeringModule)
      Validator.reference 20 (Script.bytes answeringModule) = some (.ok asm) := ⟨_, rfl⟩
  have hst : compilePayloads Encoder.reference (Script.payloads answeringModule) =
      .ok (Script.compiling answeringModule) := rfl
  have hg : (Script.compiling answeringModule).got[0]? = some 2 := by decide +kernel
  have hresolved : TypesResolved (Script.payloads answeringModule)
      (Script.compiling answeringModule).toContext := by
    decide +kernel
  have hstops := h answeringModule 20 asm _ hasm hst
    ⟨of_decide_eq_true rfl, of_decide_eq_true rfl, of_decide_eq_true rfl⟩ (of_decide_eq_true rfl)
    (of_decide_eq_true rfl) hresolved (BitVec.ofNat 64) (BitVec.ofNat 64) (fun _ => 0) returning
    (2 ^ 32) (answeringModule_emittedProgram ▸ separate_ofNat (by decide))
    (answeringModule_program ▸ separate_ofNat (by decide)) (wellBehaved_returning _)
    (indifferent_returning _) 0 2 1 1 (State.ofStack 8 100 [0]) hg
  rw [answeringModule_emittedProgram, answeringModule_program] at hstops
  -- the saved `rbp` takes the last word
  have hcode : emittedAnsweringProgram.code.drop 1 =
      (emittedAnsweringProgram.code.drop 1).take 7 ++ [.ret] := rfl
  have hcode' : answeringProgram.code.drop 1 =
      (answeringProgram.code.drop 1).take 5 ++ [.ret] := rfl
  obtain ⟨u, hu⟩ := (hstops rfl rfl (by decide)).1.mpr
    ⟨_, (returns_iff_run hcode' (by decide)).mpr ⟨_, _, rfl, rfl⟩⟩
  obtain ⟨s', w, hrun, -⟩ := (returns_iff_run hcode (by decide)).mp hu
  have hnone : emittedAnsweringProgram.run ((emittedAnsweringProgram.code.drop 1).take 7)
      (State.ofStack 8 100 [0]) = none := rfl
  rw [hnone] at hrun
  cases hrun

end ParaOS.Parawasm
