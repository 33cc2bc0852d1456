import ParaOS.Parawasm.CallConvention
import ParaOS.Parawasm.Crates
import ParaOS.Parawasm.EntryPoints

/-!
# When `compile` returns

The other results about `compile` start from a module it has accepted.  Here it is
shown what makes it accept one: the validator lets every payload through, no reader
breaks off, every body has code (`Compiles`), and the assembler takes what is
emitted (`compileWithin_ok`).

The assembler is asked several times, for the offset of each import and of each
function and for the binary at the end, always for a list of instructions that have
been emitted.  So one property of emitted code is enough (`Assemblable`), and one
instruction without an encoding is too much (`not_stack32_of_assembleModule`).

### What is load-bearing

`Encodes` has two halves.  `accepts` is what the assembler is documented to take:
registers and immediates in range, with labels bound to instructions that are there.
It leaves out instructions that name a label, as for these it would have to speak of
distances.  `rejects` is about `Push_r32` and `Pop_r32`, which have no encoding in
64-bit mode.

A module with a call is therefore not shown to be accepted here.  What needs
acceptance here is about functions on `i32`, of which most are refused.
-/

namespace ParaOS.Parawasm

open Machine X86 Wasm

/-! ## What has an encoding

A property of single instructions, so that it passes to lists, through the optimiser
and through the binding of labels. -/

/-- The 32-bit stack operations. -/
def stack32 : Instr → Bool
  | .push32 _ => true
  | .pop32 _ => true
  | _ => false

/-- Instructions that have an encoding in 64-bit mode and name no label: offsets
and sizes are signed 32-bit numbers. -/
def encodable : Instr → Bool
  | .push32 _ => false
  | .pop32 _ => false
  | .movLabel _ _ => false
  | .callLabel _ => false
  | .store off _ => off ≤ 2 ^ 31
  | .load _ off => off ≤ 2 ^ 31
  | .loadArg _ off => off < 2 ^ 31
  | .subRsp n => n < 2 ^ 31
  | .addRsp n => n < 2 ^ 31
  | _ => true

/-- What `iced-x86` says of the encodings of instructions: lists of encodable ones
with labels at some of them are assembled, and nothing is that has a 32-bit stack
operation in it. -/
structure Encoder.Encodes (E : Encoder) : Prop where
  accepts : ∀ is bound, (∀ i ∈ is, encodable i = true) →
    (∀ b ∈ bound, b.2 < is.length) → ∃ assembly, E.assemble is bound = .ok assembly
  rejects : ∀ is bound assembly, E.assemble is bound = .ok assembly →
    ∀ i ∈ is, stack32 i = false

/-- A list of encodable instructions has bytes, -/
theorem exists_encodeFrom (address : Label → ℕ) {is : List Instr}
    (h : ∀ i ∈ is, encodable i = true) (ip : ℕ) :
    ∃ bytes, encodeFrom address ip is = some bytes := by
  induction is generalizing ip with
  | nil => exact ⟨[], rfl⟩
  | cons i is ih =>
      rw [List.forall_mem_cons] at h
      obtain ⟨first, hfirst⟩ : ∃ first, encode address ip i = some first := by
        cases i with
        | push32 r => cases h.1
        | pop32 r => cases h.1
        | _ => exact ⟨_, rfl⟩
      obtain ⟨rest, hrest⟩ := ih h.2 (ip + first.length)
      exact ⟨first ++ rest, by rw [encodeFrom, hfirst, Option.bind_some, hrest, Option.map_some]⟩

/-- and one with a 32-bit stack operation has none. -/
theorem not_stack32_of_encodeFrom {address : Label → ℕ} {ip : ℕ} {is : List Instr}
    {bytes : List UInt8} (h : encodeFrom address ip is = some bytes) :
    ∀ i ∈ is, stack32 i = false := by
  induction is generalizing ip bytes with
  | nil => simp
  | cons i is ih =>
      rw [encodeFrom, Option.bind_eq_some_iff] at h
      obtain ⟨first, hfirst, h⟩ := h
      obtain ⟨rest, hrest, -⟩ := Option.map_eq_some_iff.mp h
      refine List.forall_mem_cons.mpr ⟨?_, ih hrest⟩
      cases i with
      | push32 r => cases hfirst
      | pop32 r => cases hfirst
      | _ => rfl

/-- The reference encoder is one of these. -/
theorem Encoder.reference_encodes : Encoder.reference.Encodes := by
  refine ⟨fun is bound h _ => ?_, fun is bound assembly h => ?_⟩
  · obtain ⟨bytes, hbytes⟩ := exists_encodeFrom (addressOf is bound) h 0
    exact ⟨⟨bytes, offsetsOf is⟩, by simp only [Encoder.reference, hbytes]⟩
  · rw [Encoder.reference] at h
    dsimp only at h
    split at h
    · rename_i bytes hbytes
      exact not_stack32_of_encodeFrom hbytes
    · cases h

variable {V : Validator} {E : Encoder} {P : Parser} {len : Instr → ℕ} {st : Compiling V}

/-- An assembled label has an offset. -/
theorem exists_labelIp (hE : E.Measured len) {is : List Instr} {bound : List (Label × ℕ)}
    {assembly : Assembly} (h : E.assemble is bound = .ok assembly) {k : ℕ} (hk : k < is.length) :
    ∃ offset, labelIp assembly k = .ok offset := by
  refine ⟨codeSize len (is.take k), ?_⟩
  rw [labelIp, hE.offsets _ _ _ h, if_pos hk]

/-! ## Reading

Each step of the loop returns a state whose instructions can be assembled again, as
the next import or the end will ask for it. -/

/-- Instructions and labels an assembler takes. -/
def Assemblable (is : List Instr) (bound : List (Label × ℕ)) : Prop :=
  (∀ i ∈ is, encodable i = true) ∧ ∀ b ∈ bound, b.2 < is.length

/-- More instructions do no harm. -/
theorem Assemblable.append {is new : List Instr} {bound : List (Label × ℕ)}
    (h : Assemblable is bound) (hnew : ∀ i ∈ new, encodable i = true) :
    Assemblable (is ++ new) bound := by
  refine ⟨fun i hi => (List.mem_append.mp hi).elim (h.1 i) (hnew i), fun b hb => ?_⟩
  rw [List.length_append]
  exact Nat.lt_add_right _ (h.2 b hb)

/-- A label with the place it is at. -/
theorem Assemblable.label {is : List Instr} {bound : List (Label × ℕ)} (h : Assemblable is bound)
    (l : Label) : Assemblable (is ++ [.zeroBytes]) (bound ++ [(l, is.length)]) := by
  have happ : Assemblable (is ++ [.zeroBytes]) bound := h.append (by simp [encodable])
  refine ⟨happ.1, fun b hb => ?_⟩
  rcases List.mem_append.mp hb with hb | hb
  · exact happ.2 b hb
  · cases List.mem_singleton.mp hb
    simp

/-- Operators that have code and that the validator lets through are compiled. -/
theorem exists_compileOps {ctx : Context} {locals : List ℕ} {φ φ' : V.FuncSt}
    {ops : List Operator} {code : List Instr} (hops : ops.foldlM V.op φ = .ok φ')
    (hcode : handleInstructions ctx locals ops = .ok code) (height : ℕ) :
    ∃ height', compileOps V ctx locals φ height ops = .ok (φ', height', code) := by
  induction ops generalizing φ height code with
  | nil =>
      cases hops
      cases hcode
      exact ⟨height, rfl⟩
  | cons op ops ih =>
      rw [List.foldlM_cons, Validator.except_bind_eq_ok] at hops
      obtain ⟨φ₁, hφ₁, hops⟩ := hops
      obtain ⟨c, r, hc, hr, rfl⟩ := handleInstructions_cons.mp hcode
      obtain ⟨height', hrest⟩ := ih hops hr (max height (V.operandStackHeight φ₁))
      refine ⟨height', ?_⟩
      simp only [compileOps, hφ₁, Outcome.ofReader, Outcome.ok_bind, hc, hrest, Outcome.pure_eq_ok]

/-- Groups that count nothing are compiled, whatever the build. -/
theorem compileLocals_of_localCount {groups : List (ℕ × Ty)} {t : LocalsTable} {φ φ' : V.FuncSt}
    (h : localCount groups = 0) (hsized : ∀ g ∈ groups, Sized g.2) (hlt : t.localsSize < 2 ^ 32)
    (hφ : groups.foldlM (fun φ g => V.defineLocals φ g.1 g.2) φ = .ok φ') :
    compileLocals V φ t groups = .ok (φ', t) := by
  induction groups generalizing φ with
  | nil =>
      cases hφ
      rfl
  | cons g groups ih =>
      obtain ⟨hcount, hcounts⟩ := Nat.add_eq_zero_iff.mp ((localCount_cons g groups).symm.trans h)
      rw [List.foldlM_cons, Validator.except_bind_eq_ok] at hφ
      obtain ⟨φ₁, hφ₁, hφ⟩ := hφ
      rw [List.forall_mem_cons] at hsized
      have hexact : exactGroup t g = .ok t := by
        rw [exactGroup, encodingSize_of_sized hsized.1, Outcome.ok_bind, hcount, Nat.mul_zero,
          Nat.add_zero, List.range_zero, List.map_nil, List.append_nil]
        rfl
      rw [compileLocals, layoutGroup_of_exact hexact hlt, Outcome.ok_bind, hφ₁]
      exact ih hcounts hsized.2 hφ

/-- There is code for a validated body without declared locals if there is for its
parts. -/
theorem exists_compileBody {ctx : Context} {ty : FuncType} {σ σ' σ'' : V.St} {φ : V.FuncSt}
    {body : FunctionBody} {t : LocalsTable} {before code after : List Instr}
    (hbody : Complete (.codeSectionEntry body)) (hlocals : localCount body.locals.items = 0)
    (hsized : ∀ g ∈ body.locals.items, Sized g.2)
    (hφ : V.codeSectionEntry σ = .ok (φ, σ')) (hσ : V.body σ body = .ok σ'')
    (hentry : entryCode ty [] = .ok (t, before))
    (hcode : handleInstructions ctx t.locals body.operators.items = .ok code)
    (hafter : epilogue ty.returns t.localsSize = .ok after) :
    ∃ height, compileBody V ctx ty φ body = .ok (before ++ code ++ after, height) := by
  simp only [entryCode, Outcome.bind_eq_ok, Outcome.pure_eq_ok, Outcome.ok.injEq,
    Prod.mk.injEq] at hentry
  obtain ⟨order, horder, t, ht, _, hbefore, rfl, rfl⟩ := hentry
  obtain ⟨hexact, hlt⟩ := layoutLocals_eq_ok.mp ht
  have ht₀ : ty.params.foldlM (layoutParam V.overflowChecks) ⟨[], 0⟩ = .ok t := by
    simpa only [layout, List.foldlM_nil, bind_pure] using
      layout_of_exact hexact hlt V.overflowChecks
  simp only [Validator.body, hφ, Validator.except_bind_eq_ok] at hσ
  obtain ⟨_, hpair, φ₁, hdeclared, φ', hops, _, hfinish, -⟩ := hσ
  cases hpair
  have hgroups := compileLocals_of_localCount hlocals hsized hlt hdeclared
  obtain ⟨height, hheight⟩ := exists_compileOps hops hcode (V.operandStackHeight φ₁)
  refine ⟨height, ?_⟩
  simp only [compileBody, readEnd, hbody.1, hbody.2, horder, ht₀, hgroups, hbefore, hheight,
    hfinish, Outcome.ofReader, hafter, Outcome.ok_bind, Outcome.pure_eq_ok]

/-- There is code for a body, and the assembler takes it. -/
def Compiles (st : Compiling V) (body : FunctionBody) : Prop :=
  ∀ φ σ, V.codeSectionEntry st.validator = .ok (φ, σ) →
    ∃ ty g code height, st.functionType st.functionBodyIndex = some ty ∧
      st.got[st.functionBodyIndex]? = some g ∧
      compileBody V st.toContext ty φ body = .ok (code, height) ∧ ∀ i ∈ code, encodable i = true

/-- An import is handled: what has been emitted can be assembled. -/
theorem exists_importEntry (hE : E.Measured len) (hEnc : E.Encodes)
    (h : Assemblable st.instructions st.bound) (i : Import) :
    ∃ st', importEntry E st i = .ok st' ∧ Assemblable st'.instructions st'.bound := by
  have hlabel := h.label st.nextLabel
  obtain ⟨assembly, hassembly⟩ := hEnc.accepts _ _ hlabel.1 hlabel.2
  obtain ⟨offset, hoffset⟩ := exists_labelIp hE hassembly (k := st.instructions.length) (by simp)
  rw [importEntry]
  simp only [hassembly, Outcome.ofIced, Outcome.ok_bind, hoffset]
  cases i.ty with
  | function t => exact ⟨_, rfl, hlabel.append (by simp [encodable])⟩
  | other => exact ⟨_, rfl, hlabel⟩

/-- A section whose entries are all handled is read. -/
theorem exists_readSection {α : Type} {p : Payload} {r : Reader α} {σ : V.St}
    {entry : Compiling V → α → Outcome (Compiling V)} (hr : r.err = none)
    (hσ : V.payload st.validator p = .ok σ)
    (hentry : ∀ st, Assemblable st.instructions st.bound → ∀ a ∈ r.items,
      ∃ st', entry st a = .ok st' ∧ Assemblable st'.instructions st'.bound)
    (h : Assemblable st.instructions st.bound) :
    ∃ st', readSection st p r entry = .ok st' ∧ Assemblable st'.instructions st'.bound := by
  obtain ⟨st', hst', h'⟩ := exists_foldlM (b := { st with validator := σ })
    (p := fun st => Assemblable st.instructions st.bound) hentry h
  refine ⟨st', ?_, h'⟩
  simp only [readSection, validate, hσ, Outcome.ofReader, Outcome.ok_bind, Outcome.pure_eq_ok,
    hst', readEnd, hr]

/-- **A payload that is let through is handled.** -/
theorem exists_handlePayload (hE : E.Measured len) (hEnc : E.Encodes) {p : Payload} {σ : V.St}
    (h : Assemblable st.instructions st.bound) (hσ : V.feed st.validator p = .ok σ)
    (hp : Complete p) (hbody : ∀ body, p = .codeSectionEntry body → Compiles st body) :
    ∃ st', handlePayload E st p = .ok st' ∧ Assemblable st'.instructions st'.bound := by
  have hvalidate : V.payload st.validator p = .ok σ →
      ∃ st', validate st p = .ok st' ∧ Assemblable st'.instructions st'.bound := fun hσ =>
    ⟨{ st with validator := σ }, by simp [validate, hσ, Outcome.ofReader], h⟩
  cases p with
  | memorySection r => exact exists_readSection hp hσ (fun st hst a _ => ⟨_, rfl, hst⟩) h
  | typeSection r =>
      refine exists_readSection hp hσ (fun st hst d _ => ?_) h
      cases d with
      | func ty => exact ⟨_, rfl, hst⟩
      | inst => exact ⟨_, rfl, hst⟩
      | module => exact ⟨_, rfl, hst⟩
  | importSection r =>
      exact exists_readSection hp hσ (fun st hst i _ => exists_importEntry hE hEnc hst i) h
  | functionSection r =>
      exact exists_readSection hp hσ
        (fun st hst t _ => ⟨_, rfl, hst.append (by simp [encodable])⟩) h
  | exportSection r => exact exists_readSection hp hσ (fun st hst e _ => ⟨_, rfl, hst⟩) h
  | codeSectionEntry body =>
      obtain ⟨⟨φ, σ'⟩, hφ, -⟩ := Validator.except_bind_eq_ok.mp hσ
      obtain ⟨ty, g, code, height, hty, hg, hcode, henc⟩ := hbody body rfl φ σ' hφ
      have hst : ∃ st', handlePayload E st (.codeSectionEntry body) = .ok st' ∧
          st'.instructions = st.instructions ++ code ∧ st'.bound = st.bound := by
        simp only [handlePayload, codeEntry, hφ, Outcome.ofReader, Outcome.ok_bind, hty, hg,
          Outcome.unwrap, hcode, Outcome.pure_eq_ok]
        exact ⟨_, rfl, rfl, rfl⟩
      obtain ⟨st', hst', hinstr, hbound⟩ := hst
      refine ⟨st', hst', ?_⟩
      rw [hinstr, hbound]
      exact h.append henc
  | customSection bytes => exact ⟨st, rfl, h⟩
  | _ => exact hvalidate hσ

/-- **A validated module is read**, if there is code for its bodies. -/
theorem exists_compilePayloads (hE : E.Measured len) (hEnc : E.Encodes) {ps : List Payload}
    (hacc : V.Accepts ps) (hcomplete : ∀ p ∈ ps, Complete p)
    (hbodies : ∀ (pre post : List Payload) (body : FunctionBody) (st : Compiling V),
      ps = pre ++ .codeSectionEntry body :: post →
      pre.foldlM (handlePayload E) Compiling.init = .ok st →
      (∃ σ, V.body st.validator body = .ok σ) → Compiles st body) :
    ∃ st : Compiling V, compilePayloads E ps = .ok st ∧ Assemblable st.instructions st.bound := by
  obtain ⟨σ, hσ, hend⟩ := hacc
  -- payload by payload, from the front
  have hread : ∀ pre post, ps = pre ++ post → ∃ st : Compiling V,
      pre.foldlM (handlePayload E) Compiling.init = .ok st ∧
        Assemblable st.instructions st.bound := by
    intro pre
    induction pre using List.reverseRecOn with
    | nil =>
        intro _ _
        exact ⟨Compiling.init, rfl, by simp [Compiling.init], by simp [Compiling.init]⟩
    | append_singleton pre p ih =>
        intro post hps
        rw [List.append_assoc, List.singleton_append] at hps
        obtain ⟨st, hst, h⟩ := ih _ hps
        have hfed := hσ
        rw [hps, List.foldlM_append, Validator.except_bind_eq_ok] at hfed
        obtain ⟨σ₁, hσ₁, hfed⟩ := hfed
        rw [List.foldlM_cons, Validator.except_bind_eq_ok] at hfed
        obtain ⟨σ₂, hσ₂, -⟩ := hfed
        have hσ₁' : σ₁ = st.validator := Except.ok.inj (hσ₁.symm.trans (feed_of_foldlM hst))
        subst hσ₁'
        obtain ⟨st', hst', h'⟩ := exists_handlePayload hE hEnc h hσ₂
          (hcomplete p (by rw [hps]; simp))
          (fun body hp => hbodies pre post body st (hp ▸ hps) hst
            ⟨σ₂, by rw [hp] at hσ₂; exact hσ₂⟩)
        refine ⟨st', ?_, h'⟩
        rw [List.foldlM_append, hst, Outcome.ok_bind, List.foldlM_cons, hst', Outcome.ok_bind]
        rfl
  obtain ⟨st, hst, h⟩ := hread ps [] (by simp)
  have hval : σ = st.validator := Except.ok.inj (hσ.symm.trans (feed_of_foldlM hst))
  refine ⟨st, ?_, h⟩
  rw [compilePayloads, hst, Outcome.ok_bind, ← hval, hend]
  rfl

/-! ## Assembling

The second loop asks for an assembly at every entry point. -/

/-- The rules make moves between registers, which are encodable. -/
theorem encodable_optimized {is : List Instr} (h : ∀ i ∈ is, encodable i = true) :
    ∀ i ∈ optimized is, encodable i = true := by
  refine optimized_induction (p := fun js => ∀ i ∈ js, encodable i = true)
    (fun js hjs i hi => ?_) h
  rcases (rewrites_pass js).mem hi with hi | ⟨a, b, rfl⟩
  · exact hjs i hi
  · rfl

/-- Binding a label asks the assembler once, and it answers. -/
theorem exists_bindLabel (hE : E.Measured len) (hEnc : E.Encodes) (labels : List (ℕ × Label))
    (functions : List (Label × ℕ)) {b : Binding} (h : Assemblable b.instructions b.bound)
    (idx : ℕ) :
    ∃ b', bindLabel E labels functions idx b = .ok b' ∧ Assemblable b'.instructions b'.bound := by
  rw [bindLabel]
  cases labels.find? fun l => l.1 == idx with
  | none => exact ⟨b, rfl, h⟩
  | some m =>
      have hlabel := h.label m.2
      cases hf : functions.find? fun f => f.1 == m.2 with
      | none =>
          simp only [hf]
          exact ⟨_, rfl, hlabel⟩
      | some f =>
          obtain ⟨assembly, hassembly⟩ := hEnc.accepts _ _ hlabel.1 hlabel.2
          obtain ⟨ip, hip⟩ := exists_labelIp hE hassembly (k := b.instructions.length) (by simp)
          simp only [hf, hassembly, Outcome.ofIced, Outcome.ok_bind, hip]
          exact ⟨_, rfl, hlabel⟩

/-- So all labels are bound. -/
theorem exists_bindFrom (hE : E.Measured len) (hEnc : E.Encodes) (labels : List (ℕ × Label))
    (functions : List (Label × ℕ)) {is : List Instr} (his : ∀ i ∈ is, encodable i = true)
    {b : Binding} (h : Assemblable b.instructions b.bound) (idx : ℕ) :
    ∃ b', bindFrom E labels functions is idx b = .ok b' ∧
      Assemblable b'.instructions b'.bound := by
  induction is generalizing b idx with
  | nil => exact ⟨b, rfl, h⟩
  | cons i is ih =>
      rw [List.forall_mem_cons] at his
      obtain ⟨b₁, hb₁, h₁⟩ := exists_bindLabel hE hEnc labels functions h idx
      obtain ⟨b', hb', h'⟩ := ih his.2
        (b := { b₁ with instructions := b₁.instructions ++ [i] })
        (h₁.append (by simpa using his.1)) (idx + 1)
      exact ⟨b', by rw [bindFrom, hb₁, Outcome.ok_bind, hb'], h'⟩

/-- Then there is a binary. -/
theorem exists_assembleModule (hE : E.Measured len) (hEnc : E.Encodes)
    (h : ∀ i ∈ st.instructions, encodable i = true) : ∃ asm, assembleModule E st = .ok asm := by
  have hopt : ∀ i ∈ (optimize st.instructions st.labelIndices).1, encodable i = true := by
    rw [optimize_fst]
    exact encodable_optimized h
  obtain ⟨b, hb, h'⟩ := exists_bindFrom hE hEnc (optimize st.instructions st.labelIndices).2
    st.functionBodies hopt (b := ⟨[], [], st.module.functionBodies⟩)
    ⟨by simp, by simp⟩ 0
  obtain ⟨assembly, hassembly⟩ := hEnc.accepts _ _ h'.1 h'.2
  rw [assembleModule, bindLabels, hb, Outcome.ok_bind, hassembly]
  exact ⟨_, rfl⟩

/-- **A module that is read and has encodable code is compiled.** -/
theorem compileWithin_ok (hP : P.Documented) (hE : E.Measured len) (hEnc : E.Encodes)
    {module : List UInt8} (hend : (scan P module).2 = .finished)
    (hst : compilePayloads E (scan P module).1 = .ok st)
    (h : ∀ i ∈ st.instructions, encodable i = true) :
    ∃ n asm, compileWithin E P V n module = some (.ok asm) := by
  obtain ⟨asm, hasm⟩ := exists_assembleModule hE hEnc h
  have hout : loopOutcome E Compiling.init (scan P module) = some (.ok st) := by
    rw [loopOutcome, foldlM_of_compilePayloads hst, hend]
    rw [compilePayloads, foldlM_of_compilePayloads hst, Outcome.ok_bind] at hst
    exact congrArg some hst
  obtain ⟨n, hn⟩ := (loopWithin_start_iff hP).mpr hout
  refine ⟨n, asm, ?_⟩
  rw [compileWithin, hn, Option.map_some, Outcome.ok_bind, hasm]

/-! ## What cannot be assembled

The other direction, for one kind of instruction: it stays in the list until the
end. -/

/-- Rules drop what they mention and nothing else. -/
theorem Rewrites.mem_of_stop {is js : List Instr} (h : Rewrites is js) {i : Instr}
    (hstop : stop i = true) (hi : i ∈ is) : i ∈ js := by
  induction h with
  | nil => cases hi
  | keep j h ih =>
      rcases List.mem_cons.mp hi with rfl | hi
      · exact List.mem_cons_self
      · exact List.mem_cons_of_mem _ (ih hi)
  | pushPop a b h ih =>
      rcases List.mem_cons.mp hi with rfl | hi
      · cases hstop
      · rcases List.mem_cons.mp hi with rfl | hi
        · cases hstop
        · exact List.mem_cons_of_mem _ (ih hi)
  | swap a b h ih =>
      rcases List.mem_cons.mp hi with rfl | hi
      · cases hstop
      · rcases List.mem_cons.mp hi with rfl | hi
        · cases hstop
        · exact ih hi
  | self a h ih =>
      rcases List.mem_cons.mp hi with rfl | hi
      · cases hstop
      · exact ih hi

/-- The optimiser keeps what no rule mentions. -/
theorem mem_optimized_of_stop {is : List Instr} {i : Instr} (hstop : stop i = true)
    (hi : i ∈ is) : i ∈ optimized is :=
  optimized_induction (p := fun js => i ∈ js)
    (fun js hjs => (rewrites_pass js).mem_of_stop hstop hjs) hi

/-- Binding a label only appends. -/
theorem bindLabel_appends {labels : List (ℕ × Label)} {functions : List (Label × ℕ)} {idx : ℕ}
    {b b' : Binding} (h : bindLabel E labels functions idx b = .ok b') :
    b.instructions <+: b'.instructions := by
  rw [bindLabel] at h
  split at h
  · cases h
    exact List.prefix_rfl
  · dsimp only at h
    split at h
    · cases h
      exact List.prefix_append _ _
    · simp only [Outcome.bind_eq_ok, Outcome.pure_eq_ok, Outcome.ok.injEq] at h
      obtain ⟨assembly, -, ip, -, rfl⟩ := h
      exact List.prefix_append _ _

/-- Binding labels drops no instruction. -/
theorem mem_of_bindFrom {labels : List (ℕ × Label)} {functions : List (Label × ℕ)}
    {is : List Instr} {idx : ℕ} {b b' : Binding}
    (h : bindFrom E labels functions is idx b = .ok b') {i : Instr}
    (hi : i ∈ is ∨ i ∈ b.instructions) : i ∈ b'.instructions := by
  induction is generalizing b idx with
  | nil =>
      cases h
      simpa using hi
  | cons j is ih =>
      rw [bindFrom, Outcome.bind_eq_ok] at h
      obtain ⟨b₁, hb₁, h⟩ := h
      refine ih h ?_
      rcases hi with hi | hi
      · rcases List.mem_cons.mp hi with rfl | hi
        · exact .inr (by simp)
        · exact .inl hi
      · exact .inr (List.mem_append_left _ ((bindLabel_appends hb₁).subset hi))

/-- **What is compiled has no 32-bit stack operation in it.** -/
theorem not_stack32_of_assembleModule (hEnc : E.Encodes) {asm : AssembledModule}
    (h : assembleModule E st = .ok asm) : ∀ i ∈ st.instructions, stack32 i = false := by
  intro i hi
  simp only [assembleModule, Outcome.bind_eq_ok, Outcome.ofIced_eq_ok] at h
  obtain ⟨b, hb, assembly, hassembly, -⟩ := h
  by_contra hstack
  rw [Bool.not_eq_false] at hstack
  have hstop : stop i = true := by
    cases i with
    | push32 r => rfl
    | pop32 r => rfl
    | _ => cases hstack
  have hmem : i ∈ (optimize st.instructions st.labelIndices).1 := by
    rw [optimize_fst]
    exact mem_optimized_of_stop hstop hi
  have := hEnc.rejects _ _ _ hassembly i (mem_of_bindFrom hb (.inl hmem))
  rw [hstack] at this
  cases this

end ParaOS.Parawasm
