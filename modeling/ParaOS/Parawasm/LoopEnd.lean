import ParaOS.Parawasm.Bodies

/-!
# When the loop around the parser ends

The loop runs for ever on an input that is cut off inside an item, unless a
payload before the cut is refused, and it can be left by a panic
(`ParaOS.Parawasm.SectionLoop`).  `loop_ends_iff` says when neither happens, by the
payloads the parser delivers and the validator's verdicts on them; what is asked
of a single body is `BodyPanics` and `BodyRefused` of `ParaOS.Parawasm.Verdicts`.

The induction is over the payloads, from the front.  Payloads that have all been
handled are `Clear` (`clear_iff`): the validator has let them through, the readers
of their entries have come to their ends and there is code for the bodies.  Of the
next payload `payload_fate` then says what comes of it.  For a body that is
`codeEntry_fate`, where the type that is looked up and the state the validator is
in are read off the payloads in front (`Reading`).

All three hypotheses are used.  Without `Documented` the parser could deliver
payloads for ever.  Without `KeepsOrder` the code of an earlier body could be among
the instructions that are assembled for the offset of an import, and a body could
come before the section that declares its function; without `AssemblesData` the
assembler could refuse even an empty list of instructions.  Both would be further
ways for an import section to fail, which no module has that the parser and the
validator let through.
-/

namespace ParaOS.Parawasm

open Machine X86 Wasm

variable {V : Validator} {E : Encoder} {P : Parser} {ctx : Context} {ty : FuncType}
  {ps : List Payload} {body : FunctionBody} {φ : V.FuncSt} {σ : V.St}

/-! ## Payloads

A body is handled in the state its payloads have left.  `Reading` says what that
state knows of them, and of it two things are used here: the type that is looked up
for the body, and the maps that calls are compiled with.

Whether the declared locals are come to is settled first (`codeEntry_front`).  There
are three answers, and `BodyPanics.front` and `BodyRefused.front` say that the two
verdicts on a body know them too; so where the locals are not come to, nothing that
is behind them needs to be looked at. -/

variable {st st' : Compiling V} {its : List Item}

/-- A body that is come to with a type is compiled with it. -/
theorem codeEntry_eq (body : FunctionBody) {σ' : V.St} (hread : Reading ps its st)
    (hord : Ordered ps) (hentry : V.codeSectionEntry st.validator = .ok (φ, σ'))
    (hty : typeLookedUp ps (bodyNumber ps) = some ty) :
    ∃ next : List Instr × ℕ → Compiling V, codeEntry st body =
      compileBody V st.toContext ty φ body >>= fun out => .ok (next out) := by
  have hnumber : st.functionBodyIndex = bodyNumber ps := hread.bodyIndex
  obtain ⟨g, hg⟩ : ∃ g, st.got[bodyNumber ps]? = some g := by
    refine hread.exists_got hord (Nat.le_add_right _ _) ?_
    by_contra hlt
    rw [typeLookedUp, List.getElem?_eq_none (Nat.not_lt.mp hlt)] at hty
    cases hty
  refine ⟨fun out => { st with
    validator := σ'
    functionBodies := st.functionBodies ++ [(g, bodyNumber ps)]
    labelIndices := st.labelIndices ++ [(st.instructions.length, g)]
    instructions := st.instructions ++ out.1
    module := { st.module with
      functionStackHeights := st.module.functionStackHeights.insert (bodyNumber ps) out.2 }
    functionBodyIndex := bodyNumber ps + 1 }, ?_⟩
  have hlookup : st.functionType (bodyNumber ps) = some ty := (hread.functionType _).trans hty
  simp only [codeEntry, hentry, hnumber, hlookup, hg, Outcome.ofReader, Outcome.unwrap,
    Outcome.ok_bind]
  rfl

/-- A body that panics before its declared locals are come to, or is come to. -/
theorem BodyPanics.front (h : BodyPanics V ps σ body) :
    ∃ φ σ', V.codeSectionEntry σ = .ok (φ, σ') ∧ (typeLookedUp ps (bodyNumber ps) = none ∨
      ∃ ty, typeLookedUp ps (bodyNumber ps) = some ty ∧ body.locals.err = none) := by
  have hentered : ∀ {φ ty}, Entered V ps σ body φ ty → ∃ φ σ',
      V.codeSectionEntry σ = .ok (φ, σ') ∧ (typeLookedUp ps (bodyNumber ps) = none ∨
        ∃ ty, typeLookedUp ps (bodyNumber ps) = some ty ∧ body.locals.err = none) := by
    intro φ ty hent
    obtain ⟨σ', hentry⟩ := hent.entry
    exact ⟨φ, σ', hentry, .inr ⟨ty, hent.type, hent.complete⟩⟩
  cases h with
  | type hentry hnone => exact ⟨_, _, hentry, .inl hnone⟩
  | params hentry hty herr _ => exact ⟨_, _, hentry, .inr ⟨_, hty, herr⟩⟩
  | group hent _ _ _ => exact hentered hent
  | store hent _ _ => exact hentered hent
  | operator hopen _ _ _ _ =>
      obtain ⟨φ₀, hent, -⟩ := hopen.entered
      exact hentered hent
  | results hopen _ _ _ _ =>
      obtain ⟨φ₀, hent, -⟩ := hopen.entered
      exact hentered hent

/-- A body that is refused before its declared locals are come to, or is come to. -/
theorem BodyRefused.front (h : BodyRefused V ps σ body) :
    (∃ e, V.codeSectionEntry σ = .error e) ∨
      (∃ ty e, typeLookedUp ps (bodyNumber ps) = some ty ∧ body.locals.err = some e) ∨
      ∃ φ ty, Entered V ps σ body φ ty := by
  cases h with
  | entry he => exact .inl ⟨_, he⟩
  | locals _ hty he => exact .inr (.inl ⟨_, _, hty, he⟩)
  | group hent _ _ _ _ _ => exact .inr (.inr ⟨_, _, hent⟩)
  | operator hopen _ _ _ =>
      obtain ⟨φ₀, hent, -⟩ := hopen.entered
      exact .inr (.inr ⟨_, _, hent⟩)
  | operators hopen _ _ =>
      obtain ⟨φ₀, hent, -⟩ := hopen.entered
      exact .inr (.inr ⟨_, _, hent⟩)
  | finish hopen _ _ _ =>
      obtain ⟨φ₀, hent, -⟩ := hopen.entered
      exact .inr (.inr ⟨_, _, hent⟩)

/-- **Before the declared locals** a body is come to with a type, or it has
panicked, or it has been refused. -/
theorem codeEntry_front (body : FunctionBody) (hread : Reading ps its st) (hord : Ordered ps) :
    (∃ φ ty, Entered V ps st.validator body φ ty ∧ ∃ next : List Instr × ℕ → Compiling V,
        codeEntry st body = compileBody V st.toContext ty φ body >>= fun out => .ok (next out)) ∨
      (codeEntry st body = .panic ∧ BodyPanics V ps st.validator body ∧
        ¬ BodyRefused V ps st.validator body ∧ ¬ Supported ps body) ∨
      ((∃ e, codeEntry st body = .err e) ∧ BodyRefused V ps st.validator body ∧
        ¬ BodyPanics V ps st.validator body ∧
        ¬ ((∃ σ', V.body st.validator body = .ok σ') ∧ body.locals.err = none)) := by
  cases hentry : V.codeSectionEntry st.validator with
  | error e =>
      refine .inr (.inr ⟨⟨.wasmReaderError e, by rw [codeEntry, hentry]; rfl⟩, .entry hentry,
        fun h => ?_, fun h => ?_⟩)
      · obtain ⟨φ, σ', hok, -⟩ := h.front
        rw [hentry] at hok
        cases hok
      · obtain ⟨⟨σ', hσ'⟩, -⟩ := h
        rw [Validator.body, hentry] at hσ'
        cases hσ'
  | ok opened =>
      obtain ⟨φ, σ'⟩ := opened
      cases hty : typeLookedUp ps (bodyNumber ps) with
      | none =>
          have hnumber : st.functionBodyIndex = bodyNumber ps := hread.bodyIndex
          have hlookup : st.functionType (bodyNumber ps) = none := (hread.functionType _).trans hty
          refine .inr (.inl ⟨by rw [codeEntry, hentry, hnumber, hlookup]; rfl, .type hentry hty,
            fun h => ?_, fun h => ?_⟩)
          · rcases h.front with ⟨e, he⟩ | ⟨ty, e, hty', -⟩ | ⟨φ', ty, hent⟩
            · rw [hentry] at he
              cases he
            · rw [hty] at hty'
              cases hty'
            · rw [hent.type] at hty
              cases hty
          · obtain ⟨ty, hty', -⟩ := h
            rw [hty] at hty'
            cases hty'
      | some ty =>
          obtain ⟨next, hnext⟩ := codeEntry_eq body hread hord hentry hty
          cases herr : body.locals.err with
          | some e =>
              refine .inr (.inr ⟨⟨.wasmReaderError e, ?_⟩, .locals hentry hty herr, fun h => ?_,
                fun h => by cases h.2⟩)
              · rw [hnext, compileBody, readEnd, herr]
                rfl
              · obtain ⟨φ', σ'', -, hnone | ⟨ty', -, hnone⟩⟩ := h.front
                · rw [hty] at hnone
                  cases hnone
                · rw [herr] at hnone
                  cases hnone
          | none =>
              by_cases hparams : ty.params.length ≤ 6 ∧ ∀ t ∈ ty.params, Sized t
              · exact .inl ⟨φ, ty, ⟨⟨σ', hentry⟩, hty, herr, hparams.1, hparams.2⟩, next, hnext⟩
              · have hno : 6 < ty.params.length ∨ ∃ t ∈ ty.params, ¬ Sized t := by
                  by_contra hnot
                  push Not at hnot
                  exact hparams hnot
                refine .inr (.inl ⟨?_, .params hentry hty herr hno, fun h => ?_, fun h => ?_⟩)
                · rw [hnext, compileBody, (readEnd_eq_ok (u := ())).mpr herr, Outcome.ok_bind]
                  by_cases hregs : ty.params.length ≤ 6
                  · rw [drainTo_eq_ok.mpr ⟨hregs, rfl⟩, Outcome.ok_bind,
                      layoutParams_panic (by dsimp only; omega)
                        (hno.resolve_left (Nat.not_lt.mpr hregs))]
                    rfl
                  · rw [drainTo_panic (Nat.not_le.mp hregs)]
                    rfl
                · rcases h.front with ⟨e, he⟩ | ⟨ty', e, -, he⟩ | ⟨φ', ty', hent⟩
                  · rw [hentry] at he
                    cases he
                  · rw [herr] at he
                    cases he
                  · cases hty.symm.trans hent.type
                    exact hparams ⟨hent.registers, hent.params⟩
                · obtain ⟨ty', hty', ⟨hregs, hints, -⟩, -⟩ := h
                  cases hty.symm.trans hty'
                  refine hparams ⟨hregs, fun t ht => ?_⟩
                  rcases hints t ht with rfl | rfl <;> decide

/-- **What comes of a body**, by what it says and what the validator has to say of
it. -/
theorem codeEntry_fate (body : FunctionBody) (hread : Reading ps its st) (hord : Ordered ps) :
    (codeEntry st body = .panic ↔ BodyPanics V ps st.validator body) ∧
      ((∃ e, codeEntry st body = .err e) ↔ BodyRefused V ps st.validator body) ∧
      ((∃ st', codeEntry st body = .ok st') ↔ (∃ σ', V.body st.validator body = .ok σ') ∧
        Complete (.codeSectionEntry body) ∧ Supported ps body) := by
  rcases codeEntry_front body hread hord with
    ⟨φ, ty, hent, next, hnext⟩ | ⟨hpanic, hsite, hno, hunsup⟩ | ⟨⟨e, he⟩, hsite, hno, hunsup⟩
  · have htypes : ∀ f, st.functionType f = typeLookedUp ps f := hread.functionType
    refine ⟨?_, ?_, ?_⟩
    · rw [← compileBody_panic_iff htypes hent, hnext, Outcome.bind_eq_panic]
      simp
    · rw [← compileBody_err_iff htypes hent, hnext]
      simp only [Outcome.bind_eq_err]
      simp
    · rw [← compileBody_ok_iff htypes hent, hnext]
      simp only [Outcome.bind_eq_ok]
      constructor
      · rintro ⟨st', out, hout, -⟩
        exact ⟨out, hout⟩
      · rintro ⟨out, hout⟩
        exact ⟨next out, out, hout, rfl⟩
  · simp [hpanic, hsite, hno, hunsup]
  · refine ⟨by simp [he, hno], by simp [he, hsite], by simp [he], fun h => ?_⟩
    exact absurd ⟨h.1, h.2.1.1⟩ hunsup

/-! ## All payloads

Sections other than bodies cannot panic.  With one exception their entries cannot
fail either, once the validator has let the section through: for every import the
instructions so far are assembled to learn the offset of its slot, and the assembler
may refuse.  Until the first body there is only data among the instructions
(`DataOnly`), and data it takes (`AssemblesData`). -/

/-- Nothing but data has been emitted, and every label is at some of it. -/
def DataOnly (st : Compiling V) : Prop :=
  (∀ i ∈ st.instructions, isData i = true) ∧ ∀ b ∈ st.bound, b.2 < st.instructions.length

/-- One more piece of data keeps it. -/
theorem DataOnly.append {is : List Instr} {bound : List (Label × ℕ)}
    (h : (∀ i ∈ is, isData i = true) ∧ ∀ b ∈ bound, b.2 < is.length) {i : Instr}
    (hi : isData i = true) :
    (∀ j ∈ is ++ [i], isData j = true) ∧ ∀ b ∈ bound, b.2 < (is ++ [i]).length := by
  refine ⟨fun j hj => ?_, fun b hb => ?_⟩
  · rcases List.mem_append.mp hj with hj | hj
    · exact h.1 j hj
    · cases List.mem_singleton.mp hj
      exact hi
  · rw [List.length_append]
    exact Nat.lt_add_right _ (h.2 b hb)

/-- While there is only data, the offset of an import is found. -/
theorem exists_importEntry_of_dataOnly (hE : E.AssemblesData) (h : DataOnly st) (i : Import) :
    ∃ st', importEntry E st i = .ok st' ∧ DataOnly st' := by
  have hslot := DataOnly.append h (i := .zeroBytes) rfl
  have hlabel : (∀ j ∈ st.instructions ++ [.zeroBytes], isData j = true) ∧
      ∀ b ∈ st.bound ++ [(st.nextLabel, st.instructions.length)],
        b.2 < (st.instructions ++ [Instr.zeroBytes]).length := by
    refine ⟨hslot.1, fun b hb => ?_⟩
    rcases List.mem_append.mp hb with hb | hb
    · exact hslot.2 b hb
    · cases List.mem_singleton.mp hb
      simp
  obtain ⟨assembly, hassembly, hlen⟩ := hE _ _ hlabel.1 hlabel.2
  obtain ⟨offset, hoffset⟩ : ∃ offset, labelIp assembly st.instructions.length = .ok offset := by
    have hlt : st.instructions.length < assembly.offsets.length := by
      rw [hlen, List.length_append]
      exact Nat.lt_succ_self _
    exact ⟨assembly.offsets[st.instructions.length],
      by rw [labelIp, List.getElem?_eq_getElem hlt]⟩
  rw [importEntry]
  simp only [hassembly, Outcome.ofIced, Outcome.ok_bind, hoffset]
  cases i.ty with
  | function t => exact ⟨_, rfl, DataOnly.append hlabel (i := .dq importPlaceholder) rfl⟩
  | other => exact ⟨_, rfl, hlabel⟩

/-- Until the first body there is nothing but data. -/
theorem dataOnly_of_foldlM (hE : E.AssemblesData) (hst : ps.foldlM (handlePayload E) st = .ok st')
    (h : DataOnly st) (hps : ∀ p ∈ ps, ∀ body, p ≠ .codeSectionEntry body) : DataOnly st' := by
  induction ps generalizing st with
  | nil =>
      cases hst
      exact h
  | cons p ps ih =>
      rw [List.foldlM_cons, Outcome.bind_eq_ok] at hst
      obtain ⟨st₁, hst₁, hst⟩ := hst
      rw [List.forall_mem_cons] at hps
      refine ih hst (preserves_handlePayload (fun s s' hstep hs => ?_) h hst₁) hps.2
      cases hstep with
      | ofValidator _ => exact hs
      | ofMemory h' => cases h'; exact hs
      | @ofType r d s s' h' => cases d <;> cases h' <;> exact hs
      | @ofImport r i s s' h' =>
          obtain ⟨s'', hs'', hdata⟩ := exists_importEntry_of_dataOnly hE hs i
          rw [h'] at hs''
          cases hs''
          exact hdata
      | ofFunction h' => cases h'; exact DataOnly.append hs (i := .dq 0) rfl
      | ofExport h' => cases h'; exact hs
      | ofCode _ => exact absurd rfl (hps.1 _)

/-- A section whose entries keep an invariant and do not fail under it is handled
exactly if the validator lets it through and the reader gets to its end; otherwise
it is refused. -/
theorem readSection_fate {α : Type} {p : Payload} {r : Reader α}
    {entry : Compiling V → α → Outcome (Compiling V)} {I : Compiling V → Prop}
    (hI : ∀ σ, V.payload st.validator p = .ok σ → I { st with validator := σ })
    (hentry : ∀ s a, I s → ∃ s', entry s a = .ok s' ∧ I s') :
    ((∃ σ, V.payload st.validator p = .ok σ) ∧ r.err = none →
      ∃ st', readSection st p r entry = .ok st') ∧
    ((∃ e, V.payload st.validator p = .error e) ∨ r.err ≠ none →
      ∃ e, readSection st p r entry = .err e) := by
  cases hσ : V.payload st.validator p with
  | error e =>
      refine ⟨fun h => ?_, fun _ => ⟨.wasmReaderError e, by rw [readSection, validate, hσ]; rfl⟩⟩
      obtain ⟨⟨σ, hno⟩, -⟩ := h
      cases hno
  | ok σ =>
      obtain ⟨st', hst', -⟩ := exists_foldlM (fun s hs a (_ : a ∈ r.items) => hentry s a hs)
        (hI σ hσ)
      have heq : readSection st p r entry = readEnd r >>= fun _ => .ok st' := by
        rw [readSection, validate, hσ]
        change (r.items.foldlM entry { st with validator := σ } >>= _) = _
        rw [hst']
        rfl
      rw [heq]
      refine ⟨fun h => ?_, fun h => ?_⟩
      · exact ⟨st', by rw [(readEnd_eq_ok (u := ())).mpr h.2, Outcome.ok_bind]⟩
      · rcases h with ⟨e, hno⟩ | herr
        · cases hno
        · obtain ⟨e, he⟩ := readEnd_eq_err.mpr herr
          exact ⟨e, by rw [he, Outcome.err_bind]⟩

/-- A payload that is no body is handled exactly if it is let through and complete,
and otherwise refused. -/
theorem handlePayload_fate {p : Payload} (hE : E.AssemblesData)
    (hp : ∀ body, p ≠ .codeSectionEntry body)
    (hdata : ∀ r σ, p = .importSection r → V.feed st.validator p = .ok σ → DataOnly st) :
    ((∃ σ, V.feed st.validator p = .ok σ) ∧ Complete p → ∃ st', handlePayload E st p = .ok st') ∧
    ((∃ e, V.feed st.validator p = .error e) ∨ ¬ Complete p →
      ∃ e, handlePayload E st p = .err e) := by
  have hvalidate : ((∃ σ, V.payload st.validator p = .ok σ) ∧ True →
      ∃ st', validate st p = .ok st') ∧
      ((∃ e, V.payload st.validator p = .error e) ∨ ¬ True → ∃ e, validate st p = .err e) := by
    constructor
    · rintro ⟨⟨σ, hσ⟩, -⟩
      exact ⟨_, by rw [validate, hσ]; rfl⟩
    · rintro (⟨e, he⟩ | hno)
      · exact ⟨.wasmReaderError e, by rw [validate, he]; rfl⟩
      · exact absurd trivial hno
  cases p with
  | memorySection r =>
      exact readSection_fate (I := fun _ => True) (fun _ _ => trivial)
        fun s a _ => ⟨_, rfl, trivial⟩
  | typeSection r =>
      refine readSection_fate (I := fun _ => True) (fun _ _ => trivial) fun s d _ => ?_
      cases d with
      | func ty => exact ⟨_, rfl, trivial⟩
      | inst => exact ⟨_, rfl, trivial⟩
      | module => exact ⟨_, rfl, trivial⟩
  | importSection r =>
      exact readSection_fate (I := DataOnly) (fun σ hσ => hdata r σ rfl hσ)
        fun s i hs => exists_importEntry_of_dataOnly hE hs i
  | functionSection r =>
      exact readSection_fate (I := fun _ => True) (fun _ _ => trivial)
        fun s a _ => ⟨_, rfl, trivial⟩
  | exportSection r =>
      exact readSection_fate (I := fun _ => True) (fun _ _ => trivial)
        fun s a _ => ⟨_, rfl, trivial⟩
  | codeSectionEntry body => exact absurd rfl (hp body)
  | customSection bytes =>
      refine ⟨fun _ => ⟨st, rfl⟩, fun h => ?_⟩
      rcases h with ⟨e, he⟩ | hno
      · cases he
      · exact absurd trivial hno
  | _ => exact hvalidate

/-- Payloads one longer. -/
theorem clear_concat {p : Payload} {σ' : V.St} :
    Clear V (ps ++ [p]) σ' ↔ ∃ σ, Clear V ps σ ∧ V.feed σ p = .ok σ' ∧ Complete p ∧
      ∀ body, p = .codeSectionEntry body → Supported ps body := by
  constructor
  · rintro ⟨hfeed, hall⟩
    rw [List.foldlM_append, Validator.except_bind_eq_ok] at hfeed
    obtain ⟨σ, hσ, hfeed⟩ := hfeed
    simp only [List.foldlM_cons, List.foldlM_nil, bind_pure] at hfeed
    refine ⟨σ, ⟨hσ, fun pre q post hps => ?_⟩, hfeed, hall ps p [] (by simp)⟩
    exact hall pre q (post ++ [p]) (by simp [hps])
  · rintro ⟨σ, ⟨hσ, hall⟩, hfeed, hcomplete, hsup⟩
    refine ⟨?_, fun pre q post hps => ?_⟩
    · rw [List.foldlM_append, Validator.except_bind_eq_ok]
      exact ⟨σ, hσ, by simpa using hfeed⟩
    · rcases List.eq_nil_or_concat post with rfl | ⟨post, q', rfl⟩
      · obtain ⟨rfl, hq⟩ := List.append_inj' hps rfl
        cases hq
        exact ⟨hcomplete, hsup⟩
      · rw [List.concat_eq_append, ← List.cons_append, ← List.append_assoc] at hps
        obtain ⟨rfl, -⟩ := List.append_inj' hps rfl
        exact hall pre q post rfl

/-- **What comes of a payload**, after payloads that have been handled. -/
theorem payload_fate (hV : V.KeepsOrder) (hE : E.AssemblesData)
    (hst : ps.foldlM (handlePayload E) Compiling.init = .ok st) (p : Payload) :
    (handlePayload E st p = .panic ↔
      ∃ body, p = .codeSectionEntry body ∧ BodyPanics V ps st.validator body) ∧
    ((∃ e, handlePayload E st p = .err e) ↔ Refused V ps st.validator p) ∧
    ((∃ st', handlePayload E st p = .ok st') ↔ (∃ σ, V.feed st.validator p = .ok σ) ∧
      Complete p ∧ ∀ body, p = .codeSectionEntry body → Supported ps body) := by
  have hfed : ps.foldlM V.feed V.new = .ok st.validator := feed_of_foldlM hst
  by_cases hbody : ∃ body, p = .codeSectionEntry body
  · obtain ⟨body, rfl⟩ := hbody
    obtain ⟨its, hread⟩ := reading_of_foldlM hst
    obtain ⟨hpanic, herr, hok⟩ := codeEntry_fate body hread (hV _ _ hfed)
    have hbody : ∀ q : FunctionBody → Prop,
        (∃ b, Payload.codeSectionEntry body = .codeSectionEntry b ∧ q b) ↔ q body := fun q =>
      ⟨fun ⟨_, hb, hq⟩ => (by cases hb; exact hq), fun hq => ⟨body, rfl, hq⟩⟩
    refine ⟨hpanic.trans (hbody _).symm, herr, hok.trans ?_⟩
    refine and_congr_right fun _ => and_congr_right fun _ => ⟨fun hsup b hb => ?_, fun h => h _ rfl⟩
    cases hb
    exact hsup
  · have hp : ∀ body, p ≠ .codeSectionEntry body := fun body h => hbody ⟨body, h⟩
    have hdata : ∀ r σ, p = .importSection r → V.feed st.validator p = .ok σ → DataOnly st := by
      rintro r σ rfl hσ
      have hord : Ordered (ps ++ [.importSection r]) := by
        refine hV _ σ ?_
        rw [List.foldlM_append, hfed]
        change ([Payload.importSection r].foldlM V.feed st.validator) = _
        simpa using hσ
      refine dataOnly_of_foldlM hE hst ⟨by simp [Compiling.init], by simp [Compiling.init]⟩
        fun q hq body hqb => ?_
      -- a section that declares something comes before all bodies
      have hnil := bodies_eq_nil_of_declaring hord fun h => absurd (h 1 rfl) (by decide)
      rw [bodies, List.flatMap_eq_nil_iff] at hnil
      have := hnil q (List.mem_append_left _ hq)
      rw [hqb] at this
      cases this
    obtain ⟨hok, herr⟩ := handlePayload_fate hE hp hdata
    have hrefused : Refused V ps st.validator p ↔
        (∃ e, V.feed st.validator p = .error e) ∨ ¬ Complete p := by
      cases p with
      | codeSectionEntry body => exact absurd rfl (hp body)
      | _ => exact Iff.rfl
    rw [hrefused]
    by_cases hpass : (∃ σ, V.feed st.validator p = .ok σ) ∧ Complete p
    · obtain ⟨st', hst'⟩ := hok hpass
      have hno : ¬ ((∃ e, V.feed st.validator p = .error e) ∨ ¬ Complete p) := by
        rintro (⟨e, he⟩ | hno)
        · obtain ⟨⟨σ, hσ⟩, -⟩ := hpass
          rw [he] at hσ
          cases hσ
        · exact hno hpass.2
      refine ⟨?_, ?_, iff_of_true ⟨st', hst'⟩ ⟨hpass.1, hpass.2, fun b hb => absurd hb (hp b)⟩⟩
      · exact iff_of_false (by simp [hst']) fun h => hbody (h.imp fun _ hb => hb.1)
      · exact iff_of_false (by simp [hst']) hno
    · have hsome : (∃ e, V.feed st.validator p = .error e) ∨ ¬ Complete p := by
        by_contra hno
        push Not at hno
        refine hpass ⟨?_, hno.2⟩
        cases hσ : V.feed st.validator p with
        | ok σ => exact ⟨σ, rfl⟩
        | error e => exact absurd hσ (hno.1 e)
      obtain ⟨e, he⟩ := herr hsome
      refine ⟨?_, iff_of_true ⟨e, he⟩ hsome, ?_⟩
      · exact iff_of_false (by simp [he]) fun h => hbody (h.imp fun _ hb => hb.1)
      · exact iff_of_false (by simp [he]) fun h => hpass ⟨h.1, h.2.1⟩

/-- **Payloads are all handled exactly when they are clear.** -/
theorem clear_iff (hV : V.KeepsOrder) (hE : E.AssemblesData) :
    (∃ st : Compiling V, ps.foldlM (handlePayload E) Compiling.init = .ok st ∧
      st.validator = σ) ↔ Clear V ps σ := by
  induction ps using List.reverseRecOn generalizing σ with
  | nil =>
      constructor
      · rintro ⟨st, hst, rfl⟩
        cases hst
        exact ⟨rfl, fun pre p post h => by cases pre <;> cases h⟩
      · rintro ⟨hfeed, -⟩
        cases hfeed
        exact ⟨_, rfl, rfl⟩
  | append_singleton ps p ih =>
      rw [clear_concat]
      constructor
      · rintro ⟨st', hst', rfl⟩
        have hfed' := feed_of_foldlM hst'
        rw [List.foldlM_append, Outcome.bind_eq_ok] at hst'
        obtain ⟨st, hst, hst'⟩ := hst'
        simp only [List.foldlM_cons, List.foldlM_nil, bind_pure] at hst'
        obtain ⟨-, hcomplete, hsup⟩ := (payload_fate hV hE hst p).2.2.mp ⟨st', hst'⟩
        exact ⟨st.validator, ih.mp ⟨st, hst, rfl⟩, handlePayload_validated hst', hcomplete, hsup⟩
      · rintro ⟨σ₀, hclear, hfeed, hcomplete, hsup⟩
        obtain ⟨st, hst, rfl⟩ := ih.mpr hclear
        obtain ⟨st', hst'⟩ := (payload_fate hV hE hst p).2.2.mpr ⟨⟨σ, hfeed⟩, hcomplete, hsup⟩
        refine ⟨st', ?_, Except.ok.inj ((handlePayload_validated hst').symm.trans hfeed)⟩
        rw [List.foldlM_append, hst, Outcome.ok_bind, List.foldlM_cons, hst', Outcome.ok_bind]
        rfl

/-- **When the section loop ends**: exactly when no body that is come to makes
`compile` panic, and the input is not cut off inside an item unless a payload before
the cut is refused.

Both halves are about what the parser delivers and the validator says.  A body is
asked about only if all payloads in front of it are `Clear`, since otherwise the
loop has been left before. -/
theorem loop_ends_iff {E : Encoder} {P : Parser} {V : Validator} {module : List UInt8}
    (hP : P.Documented) (hV : V.KeepsOrder) (hE : E.AssemblesData) :
    LoopEnds E P V module ↔
      (∀ pre body post σ, (scan P module).1 = pre ++ .codeSectionEntry body :: post →
        Clear V pre σ → ¬ BodyPanics V pre σ body) ∧
      ((scan P module).2 = .cutOff → ∃ pre p post σ, (scan P module).1 = pre ++ p :: post ∧
        Clear V pre σ ∧ Refused V pre σ p) := by
  rw [loopEnds_iff_handled hP, handled]
  refine and_congr ?_ (imp_congr_right fun _ => ?_)
  · rw [ne_eq, not_iff_comm, Outcome.foldlM_eq_of_ne_ok (by simp)]
    push Not
    constructor
    · rintro ⟨pre, body, post, σ, hps, hclear, hpanic⟩
      obtain ⟨st, hst, rfl⟩ := (clear_iff hV hE).mpr hclear
      exact ⟨pre, _, post, st, hps, hst, (payload_fate hV hE hst _).1.mpr ⟨body, rfl, hpanic⟩⟩
    · rintro ⟨pre, p, post, st, hps, hst, hpanic⟩
      obtain ⟨body, rfl, hsite⟩ := (payload_fate hV hE hst p).1.mp hpanic
      exact ⟨pre, body, post, st.validator, hps, (clear_iff hV hE).mp ⟨st, hst, rfl⟩, hsite⟩
  · constructor
    · rintro ⟨e, he⟩
      obtain ⟨pre, p, post, st, hps, hst, herr⟩ := (Outcome.foldlM_eq_of_ne_ok (by simp)).mp he
      exact ⟨pre, p, post, st.validator, hps, (clear_iff hV hE).mp ⟨st, hst, rfl⟩,
        (payload_fate hV hE hst p).2.1.mp ⟨e, herr⟩⟩
    · rintro ⟨pre, p, post, σ, hps, hclear, hrefused⟩
      obtain ⟨st, hst, rfl⟩ := (clear_iff hV hE).mpr hclear
      obtain ⟨e, he⟩ := (payload_fate hV hE hst p).2.1.mpr hrefused
      exact ⟨e, (Outcome.foldlM_eq_of_ne_ok (by simp)).mpr ⟨pre, p, post, st, hps, hst, he⟩⟩

/-! ## Two modules

The two halves of the condition.  In the first module there is a body, and it is one
that there is code for; the second is not even a module, and the parser asks for
more data without end. -/

/-- The bytes of groups, around one of them. -/
theorem groupBytes_append_cons (pre post : List (ℕ × Ty)) (g : ℕ × Ty) :
    groupBytes (pre ++ g :: post) = groupBytes pre + bytesOf g.2 * g.1 + groupBytes post := by
  simp only [groupBytes, List.map_append, List.map_cons, List.sum_append, List.sum_cons]
  omega

/-- A body there is code for does not make `compile` panic, unless the table of
its locals overflows. -/
theorem Supported.not_panics (h : Supported ps body)
    (hfits : V.overflowChecks = true → 96 + groupBytes body.locals.items < 2 ^ 32) :
    ¬ BodyPanics V ps σ body := by
  obtain ⟨ty, hty, ⟨hregs, hints, hreturns⟩, hsized, hcode⟩ := h
  have hparams : ∀ t ∈ ty.params, Sized t := by
    intro t ht
    rcases hints t ht with rfl | rfl <;> decide
  intro hpanic
  cases hpanic with
  | type _ hnone =>
      rw [hty] at hnone
      cases hnone
  | params _ hty' _ hno =>
      cases hty.symm.trans hty'
      rcases hno with hmany | ⟨t, ht, hnot⟩
      · exact absurd hregs (Nat.not_le.mpr hmany)
      · exact hnot (hparams t ht)
  | @group φ φ' ty' pre post g hent hitems _ hsite =>
      cases hty.symm.trans hent.type
      rcases hsite with hnot | ⟨hchecks, hge⟩
      · exact hnot (hsized g (by rw [hitems]; simp))
      · have hlt := hfits hchecks
        have hbytes := paramBytes_le ty.params
        rw [hitems, groupBytes_append_cons] at hlt
        omega
  | store hent _ hno =>
      cases hty.symm.trans hent.type
      exact hno hints
  | @operator φ φ' φ'' ty' pre post op hopen hitems _ _ hno =>
      obtain ⟨⟨φ₀, hent, -⟩, -⟩ := hopen
      cases hty.symm.trans hent.type
      exact hno (hcode op (by rw [hitems]; simp))
  | results hopen _ _ _ hno =>
      obtain ⟨⟨φ₀, hent, -⟩, -⟩ := hopen
      cases hty.symm.trans hent.type
      exact hno hreturns

/-- The assembler of the examples takes data. -/
theorem isData_forall_encode (address : Label → ℕ) {is : List Instr}
    (h : ∀ i ∈ is, isData i = true) (ip : ℕ) : ∃ bytes, encodeFrom address ip is = some bytes := by
  induction is generalizing ip with
  | nil => exact ⟨[], rfl⟩
  | cons i is ih =>
      rw [List.forall_mem_cons] at h
      obtain ⟨first, hfirst⟩ : ∃ first, encode address ip i = some first := by
        cases i with
        | zeroBytes => exact ⟨_, rfl⟩
        | dq v => exact ⟨_, rfl⟩
        | _ => exact absurd h.1 Bool.false_ne_true
      obtain ⟨rest, hrest⟩ := ih h.2 (ip + first.length)
      exact ⟨first ++ rest, by rw [encodeFrom, hfirst, Option.bind_some, hrest, Option.map_some]⟩

/-- So it is as the documentation has it. -/
theorem Encoder.reference_assemblesData : Encoder.reference.AssemblesData := by
  intro is bound his _
  obtain ⟨bytes, hbytes⟩ := isData_forall_encode (addressOf is bound) his 0
  exact ⟨⟨bytes, offsetsOf is⟩, by simp only [Encoder.reference, hbytes], by simp [offsetsOf]⟩

/-- A module with one function, which does nothing. -/
def oneFunctionScript : Script :=
  [([0], .version 1), ([1], .typeSection ⟨[.func ⟨[], []⟩], none⟩),
    ([2], .functionSection ⟨[0], none⟩), ([3], .codeSectionStart 1),
    ([4], .codeSectionEntry emptyBody)]

/-- It has a body, and that is one there is code for. -/
theorem loop_ends_iff_instance :
    LoopEnds Encoder.reference (parserOf oneFunctionScript) Validator.reference
      oneFunctionScript.bytes := by
  have hscan : scan (parserOf oneFunctionScript) oneFunctionScript.bytes =
      (oneFunctionScript.map Prod.snd, .finished) := rfl
  refine (loop_ends_iff (parserOf_documented _) Validator.reference_keepsOrder
    Encoder.reference_assemblesData).mpr ⟨?_, fun h => by rw [hscan] at h; cases h⟩
  rw [hscan]
  intro pre body post σ hps _
  obtain ⟨rfl, rfl⟩ : pre = (oneFunctionScript.map Prod.snd).take 4 ∧ body = emptyBody := by
    rcases pre with _ | ⟨p₀, _ | ⟨p₁, _ | ⟨p₂, _ | ⟨p₃, _ | ⟨p₄, pre⟩⟩⟩⟩⟩ <;>
      simp_all [oneFunctionScript]
  refine Supported.not_panics ⟨⟨[], []⟩, rfl, ⟨by decide, ?_, ?_⟩, ?_, ?_⟩ fun _ => by decide
  · simp [AllIntegers]
  · simp [AllIntegers]
  · simp [emptyBody]
  · simp [emptyBody, HasCode]

/-- On the empty input the loop runs for ever. -/
theorem loop_does_not_end : ¬ ∀ (E : Encoder) (P : Parser) (V : Validator) (module : List UInt8),
    P.Documented → V.KeepsOrder → E.AssemblesData → LoopEnds E P V module := by
  intro h
  obtain ⟨n, r, hrun, -⟩ := h Encoder.reference parserReference Validator.reference []
    parserReference_documented Validator.reference_keepsOrder Encoder.reference_assemblesData
  rw [loopWithin_needMoreData (σ := false) parserReference_documented rfl] at hrun
  cases hrun

end ParaOS.Parawasm