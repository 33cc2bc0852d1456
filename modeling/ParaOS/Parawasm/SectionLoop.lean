import ParaOS.Parawasm.Emission
import ParaOS.Wasm.Validation

/-!
# The loop around the parser

`compile` sets `eof` only after a parsed chunk, to whether any data is left.  A
parser that finds an incomplete item while `eof` is still unset asks for more data;
the loop has none, ignores the request and asks the same question again.  With an
empty input, or one that is cut off inside an item, it never stops.

`scan` runs the parser alone and collects what it delivers: payloads, and the reason
it stops (`Stop`).  Each payload takes at least one byte, so one more round than
there are bytes is enough.  The loop then is a fold of `handlePayload` over these
payloads (`loopWithin_eq`), and it is left exactly when the input is not cut off or
one of the payloads before the cut is not handled (`loopEnds_iff_handled`).

### Two stages

`handled` is the fold of the program's own `handlePayload`, and a statement with it
says what the program does in terms of what the program does.  That is the first
stage, and all that is done here: the loop is gone, and what is left is a fold over
a list.  What of a module decides how the fold comes out, without mention of emitted
code, is the second stage and is in `ParaOS.Parawasm.Verdicts`,
`ParaOS.Parawasm.Bodies` and `ParaOS.Parawasm.LoopEnd`.

### What is load-bearing

That a parsed payload takes at least one byte.  Without it a parser could deliver
payloads for ever from no data.  That it takes no more than it was given is what
makes the data of the next round well defined.
-/

namespace ParaOS.Parawasm

open Wasm

/-- Why the parser delivers no further payload. -/
inductive Stop where
  /-- `Payload::End` -/
  | finished
  | malformed (e : BinaryReaderError)
  /-- more data is asked for -/
  | cutOff
  deriving DecidableEq

/-- What the parser delivers from a state on, in at most `n` rounds, with `eof` as
`compile` sets it.  Once data has been asked for there is no further round, as there
will be no data. -/
def scanWithin (P : Parser) : ℕ → P.St → List UInt8 → Bool → List Payload × Stop
  | 0, _, _, _ => ([], .cutOff)
  | n + 1, σ, data, eof =>
      match P.parse σ data eof with
      | .error e => ([], .malformed e)
      | .ok (_, .needMoreData _) => ([], .cutOff)
      | .ok (σ', .parsed consumed payload) =>
          if payload.isEnd then ([], .finished)
          else
            let rest := scanWithin P n σ' (data.drop consumed) ((data.drop consumed).length == 0)
            (payload :: rest.1, rest.2)

/-- What the parser delivers of a module. -/
def scan (P : Parser) (module : List UInt8) : List Payload × Stop :=
  scanWithin P (module.length + 1) P.new module false

variable {V : Validator} (E : Encoder) {P : Parser}

/-- The loop, from what the parser delivers: the payloads are handled one after
the other; if all of them are, what happens then depends on why there are no
more. -/
def loopOutcome (st : Compiling V) (delivered : List Payload × Stop) :
    Option (Outcome (Compiling V)) :=
  match delivered.1.foldlM (handlePayload E) st with
  | .ok st =>
      match delivered.2 with
      | .finished => some do
          Outcome.ofReader (V.endModule st.validator)
          return st
      | .malformed e => some (.err (.wasmReaderError e))
      | .cutOff => none
  | .err e => some (.err e)
  | .panic => some .panic

variable {E}

/-- A loop at an incomplete item does not move. -/
theorem loopWithin_needMoreData (hP : P.Documented) {s : LoopState P V} {σ : P.St} {hint : ℕ}
    (h : P.parse s.parser s.data s.eof = .ok (σ, .needMoreData hint)) (n : ℕ) :
    loopWithin E P n s = none := by
  have hstay : iteration E P s = .inr s := by
    obtain rfl := hP.needMoreData _ _ _ _ _ h
    rw [iteration, h]
  induction n with
  | zero => rfl
  | succ n ih =>
      rw [loopWithin, hstay]
      exact ih

/-- More rounds do not change an outcome. -/
theorem loopWithin_mono {n m : ℕ} (hnm : n ≤ m) {s : LoopState P V}
    {r : Outcome (Compiling V)} (h : loopWithin E P n s = some r) :
    loopWithin E P m s = some r := by
  induction n generalizing m s with
  | zero => cases h
  | succ n ih =>
      obtain ⟨m, rfl⟩ : ∃ k, m = k + 1 := ⟨m - 1, by omega⟩
      rw [loopWithin] at h ⊢
      cases hiter : iteration E P s with
      | inl result =>
          rw [hiter] at h
          exact h
      | inr s' =>
          rw [hiter] at h
          exact ih (by omega) h

/-- **The loop is a fold over what the parser delivers**, as soon as it has more
rounds than there are bytes.  By induction on the rounds, with the number of bytes
left for their bound. -/
theorem loopWithin_eq {n m : ℕ} (hP : P.Documented) {s : LoopState P V}
    (hn : s.data.length < n) (hm : n ≤ m) :
    loopWithin E P m s =
      loopOutcome E s.compiling (scanWithin P n s.parser s.data s.eof) := by
  induction n generalizing s m with
  | zero => omega
  | succ n ih =>
      obtain ⟨m, rfl⟩ : ∃ k, m = k + 1 := ⟨m - 1, by omega⟩
      rw [scanWithin]
      cases hparse : P.parse s.parser s.data s.eof with
      | error e =>
          rw [loopWithin, iteration, hparse]
          rfl
      | ok out =>
          obtain ⟨σ, chunk⟩ := out
          cases chunk with
          | needMoreData hint => exact loopWithin_needMoreData hP hparse _
          | parsed consumed payload =>
              rw [loopWithin, iteration, hparse]
              by_cases hend : payload.isEnd = true
              · simp only [hend, if_true]
                rfl
              · have hle := hP.consumed_le _ _ _ _ _ _ hparse
                have hpos := hP.consumed_pos _ _ _ _ _ _ hparse (by simpa using hend)
                simp only [hend, Bool.false_eq_true, if_false, loopOutcome, List.foldlM_cons]
                cases hst : handlePayload E s.compiling payload with
                | ok st =>
                    simp only [if_pos hle]
                    have hlen : (s.data.drop consumed).length < n := by
                      rw [List.length_drop]
                      omega
                    exact ih (s := ⟨σ, s.data.drop consumed, _, st⟩) hlen (by omega)
                | err e => rfl
                | panic => rfl

/-- What the loop of `compile` comes to. -/
theorem loopWithin_start_iff (hP : P.Documented) {module : List UInt8}
    {r : Outcome (Compiling V)} :
    (∃ n, loopWithin E P n (LoopState.start P V module) = some r) ↔
      loopOutcome E Compiling.init (scan P module) = some r := by
  have heq : ∀ m, module.length + 1 ≤ m → loopWithin E P m (LoopState.start P V module) =
      loopOutcome E Compiling.init (scan P module) :=
    fun m hm => loopWithin_eq hP (Nat.lt_succ_self _) hm
  constructor
  · rintro ⟨n, hn⟩
    rw [← heq (max n (module.length + 1)) (le_max_right _ _)]
    exact loopWithin_mono (le_max_left _ _) hn
  · intro h
    exact ⟨_, (heq _ le_rfl).trans h⟩

/-! ## When the loop ends

It may be left in three ways: by a panic, by an error and by `Payload::End`.  It is
not left at all if the parser asks for data and everything before was handled. -/

/-- The items of a payload are all there. -/
def Complete : Payload → Prop
  | .memorySection r => r.err = none
  | .typeSection r => r.err = none
  | .importSection r => r.err = none
  | .functionSection r => r.err = none
  | .exportSection r => r.err = none
  | .codeSectionEntry body => body.locals.err = none ∧ body.operators.err = none
  | _ => True

/-- The loop reaches `Payload::End` or returns an error, after finitely many
iterations.  A panic does not count. -/
def LoopEnds (E : Encoder) (P : Parser) (V : Validator) (module : List UInt8) : Prop :=
  ∃ n r, loopWithin E P n (LoopState.start P V module) = some r ∧ r ≠ .panic

/-- What comes of handling all payloads of a module. -/
def handled (E : Encoder) (P : Parser) (V : Validator) (module : List UInt8) :
    Outcome (Compiling V) :=
  (scan P module).1.foldlM (handlePayload E) Compiling.init

/-- The loop ends by what comes of its payloads, and by why there are no more. -/
theorem loopEnds_iff_handled {E : Encoder} {P : Parser} {V : Validator} {module : List UInt8}
    (hP : P.Documented) :
    LoopEnds E P V module ↔ handled E P V module ≠ .panic ∧
      ((scan P module).2 = .cutOff → ∃ e, handled E P V module = .err e) := by
  have hends : LoopEnds E P V module ↔
      ∃ r : Outcome (Compiling V),
        loopOutcome E Compiling.init (scan P module) = some r ∧ r ≠ .panic := by
    rw [LoopEnds, exists_comm]
    simp only [exists_and_right, loopWithin_start_iff hP]
  rw [hends, loopOutcome, ← handled]
  cases hfold : handled E P V module with
  | panic => simp
  | err e => simp
  | ok st =>
      cases hstop : (scan P module).2 with
      | cutOff => simp
      | malformed e => simp
      | finished =>
          have hend : (do
              Outcome.ofReader (V.endModule st.validator)
              return st : Outcome (Compiling V)) ≠ .panic := by
            cases V.endModule st.validator <;> simp [Outcome.ofReader]
          simpa using hend

/-! ## A parser

A small one, for modules of custom sections, which shows that what is documented can
be done.  A module cut off inside a section keeps it waiting. -/

/-- The preamble of a module. -/
def preamble : List UInt8 := [0x00, 0x61, 0x73, 0x6d, 0x01, 0x00, 0x00, 0x00]

/-- An item that needs `n` bytes: more data is asked for as long as there may be
any. -/
def needs {α : Type} (n : ℕ) (data : List UInt8) (eof : Bool) (σ : α)
    (item : Except BinaryReaderError (α × Chunk)) : Except BinaryReaderError (α × Chunk) :=
  if n ≤ data.length then item
  else if eof then .error ⟨"unexpected end-of-file", data.length⟩
  else .ok (σ, .needMoreData (n - data.length))

/-- A section: its id, its size in one byte, its contents.  Custom sections are
the ones known here. -/
def parseSection (data : List UInt8) (eof : Bool) : Except BinaryReaderError (Bool × Chunk) :=
  if data = [] ∧ eof then .ok (true, .parsed 0 .end)
  else needs 2 data eof true <|
    let size := (data.getD 1 0).toNat
    if data.head? = some 0 ∧ size < 128 then
      needs (2 + size) data eof true
        (.ok (true, .parsed (2 + size) (.customSection ((data.drop 2).take size))))
    else .error ⟨"unknown section", 0⟩

/-- The preamble, then sections. -/
def parseModule : Bool → List UInt8 → Bool → Except BinaryReaderError (Bool × Chunk)
  | true, data, eof => parseSection data eof
  | false, data, eof => needs 8 data eof false <|
      if data.take 8 = preamble then .ok (true, .parsed 8 (.version 1))
      else .error ⟨"bad magic number", 0⟩

/-- `wasmparser::Parser` on modules of custom sections.  Its state says whether
the preamble has been read. -/
def parserReference : Parser := ⟨Bool, false, parseModule⟩

/-- What the documentation asks of one call of a parser in state `σ`. -/
structure Obliging {α : Type} (σ : α) (data : List UInt8) (eof : Bool)
    (out : Except BinaryReaderError (α × Chunk)) : Prop where
  needMoreData : ∀ σ' hint, out = .ok (σ', .needMoreData hint) → σ' = σ ∧ eof = false
  parsed : ∀ σ' n (p : Payload), out = .ok (σ', .parsed n p) →
    n ≤ data.length ∧ (p.isEnd = false → 0 < n)

/-- It is enough to look at one call. -/
theorem documented_of_obliging {P : Parser}
    (h : ∀ σ data eof, Obliging σ data eof (P.parse σ data eof)) : P.Documented where
  needMoreData := fun σ data eof σ' hint hout => ((h σ data eof).needMoreData σ' hint hout).1
  eof := fun σ data σ' hint hout =>
    absurd ((h σ data true).needMoreData σ' hint hout).2 (by decide)
  consumed_le := fun σ data eof σ' n p hout => ((h σ data eof).parsed σ' n p hout).1
  consumed_pos := fun σ data eof σ' n p hout => ((h σ data eof).parsed σ' n p hout).2

/-- An error obliges to nothing. -/
theorem obliging_error {α : Type} {σ : α} {data : List UInt8} {eof : Bool} (e : BinaryReaderError) :
    Obliging σ data eof (.error e) :=
  ⟨fun _ _ h => (by cases h), fun _ _ _ h => (by cases h)⟩

/-- A payload has to be cut off the data. -/
theorem obliging_parsed {α : Type} {σ σ' : α} {data : List UInt8} {eof : Bool} {n : ℕ}
    {p : Payload} (hle : n ≤ data.length) (hpos : p.isEnd = false → 0 < n) :
    Obliging σ data eof (.ok (σ', .parsed n p)) := by
  refine ⟨fun _ _ h => (by cases h), fun _ _ _ h => ?_⟩
  cases h
  exact ⟨hle, hpos⟩

/-- Where data may be asked for, the data there is has to be too little. -/
theorem obliging_needs {α : Type} {σ : α} {data : List UInt8} {eof : Bool} {n : ℕ}
    {item : Except BinaryReaderError (α × Chunk)}
    (h : n ≤ data.length → Obliging σ data eof item) :
    Obliging σ data eof (needs n data eof σ item) := by
  rw [needs]
  split_ifs with hn heof
  · exact h hn
  · exact obliging_error _
  · refine ⟨fun _ _ h => ?_, fun _ _ _ h => by cases h⟩
    cases h
    exact ⟨rfl, by simpa using heof⟩

/-- This parser does what is documented. -/
theorem parserReference_documented : parserReference.Documented := by
  refine documented_of_obliging fun (σ : Bool) data eof => ?_
  change Obliging σ data eof (parseModule σ data eof)
  cases σ with
  | false =>
      rw [parseModule]
      refine obliging_needs fun hlen => ?_
      split_ifs
      · exact obliging_parsed hlen fun _ => by decide
      · exact obliging_error _
  | true =>
      rw [parseModule, parseSection]
      split_ifs
      · exact obliging_parsed (Nat.zero_le _) fun h => by cases h
      · refine obliging_needs fun _ => ?_
        dsimp only
        split_ifs
        · exact obliging_needs fun hlen => obliging_parsed hlen fun _ => by omega
        · exact obliging_error _

/-! ## Accepted modules

What `compile` accepts has been through the validator, call by call, with the states
the validator returned.  So what is known of accepted modules is what is known of
validated ones. -/

/-- What `compile` returns is the assembly of what it read. -/
theorem compileWithin_eq_ok {n : ℕ} {module : List UInt8} {asm : AssembledModule}
    (hP : P.Documented) (h : compileWithin E P V n module = some (.ok asm)) :
    ∃ st : Compiling V, compilePayloads E (scan P module).1 = .ok st ∧
      assembleModule E st = .ok asm := by
  rw [compileWithin, Option.map_eq_some_iff] at h
  obtain ⟨r, hr, hasm⟩ := h
  rw [Outcome.bind_eq_ok] at hasm
  obtain ⟨st, rfl, hasm⟩ := hasm
  have hout := (loopWithin_start_iff hP).mp ⟨n, hr⟩
  refine ⟨st, ?_, hasm⟩
  rw [loopOutcome] at hout
  cases hfold : (scan P module).1.foldlM (handlePayload E) Compiling.init with
  | panic =>
      rw [hfold] at hout
      cases hout
  | err e =>
      rw [hfold] at hout
      cases hout
  | ok st' =>
      cases hstop : (scan P module).2 with
      | cutOff =>
          rw [hfold, hstop] at hout
          cases hout
      | malformed e =>
          rw [hfold, hstop] at hout
          cases hout
      | finished =>
          rw [hfold, hstop] at hout
          rw [compilePayloads, hfold]
          exact Option.some.inj hout

open Validator (except_bind_eq_ok)

variable {st st' : Compiling V}

/-- Locals are declared to the validator, all of them, -/
theorem compileLocals_validated {φ φ' : V.FuncSt} {t t' : LocalsTable} {gs : List (ℕ × Ty)}
    (h : compileLocals V φ t gs = .ok (φ', t')) :
    gs.foldlM (fun φ g => V.defineLocals φ g.1 g.2) φ = .ok φ' := by
  induction gs generalizing φ t with
  | nil =>
      cases h
      rfl
  | cons g gs ih =>
      simp only [compileLocals, Outcome.bind_eq_ok, Outcome.ofReader_eq_ok] at h
      obtain ⟨t₁, -, φ₁, hφ₁, hgs⟩ := h
      rw [List.foldlM_cons, except_bind_eq_ok]
      exact ⟨φ₁, hφ₁, ih hgs⟩

/-- and operators shown to it. -/
theorem compileOps_validated {ctx : Context} {locals : List ℕ} {φ : V.FuncSt} {height : ℕ}
    {ops : List Operator} {out : V.FuncSt × ℕ × List X86.Instr}
    (h : compileOps V ctx locals φ height ops = .ok out) : ops.foldlM V.op φ = .ok out.1 := by
  induction ops generalizing φ height out with
  | nil =>
      cases h
      rfl
  | cons op ops ih =>
      simp only [compileOps, Outcome.bind_eq_ok, Outcome.ofReader_eq_ok, Outcome.pure_eq_ok,
        Outcome.ok.injEq] at h
      obtain ⟨φ₁, hφ₁, c, -, out', hout', rfl⟩ := h
      have hrest : ops.foldlM V.op φ₁ = .ok out'.1 := ih hout'
      rw [List.foldlM_cons, except_bind_eq_ok]
      exact ⟨φ₁, hφ₁, hrest⟩

/-- A body is compiled only if the validator lets it through. -/
theorem codeEntry_validated {body : FunctionBody} (h : codeEntry st body = .ok st') :
    V.body st.validator body = .ok st'.validator := by
  simp only [codeEntry, compileBody, Outcome.bind_eq_ok, Outcome.ofReader_eq_ok,
    Outcome.pure_eq_ok, Outcome.ok.injEq] at h
  obtain ⟨⟨φ, validator⟩, hentry, ty, -, g, -, ⟨code, height⟩, hbody, rfl⟩ := h
  obtain ⟨-, -, order, -, t₀, -, ⟨φ₁, t⟩, hlocals, before, -, ⟨φ₂, height', code'⟩, hops, -, -,
    _, hfinish, -⟩ := hbody
  rw [Validator.body, except_bind_eq_ok]
  refine ⟨(φ, validator), hentry, ?_⟩
  simp only [except_bind_eq_ok]
  exact ⟨φ₁, compileLocals_validated hlocals, φ₂, compileOps_validated hops, (), hfinish, rfl⟩

/-- A section is told to the validator as a whole; its entries are not. -/
theorem readSection_validated {α : Type} {p : Payload} {r : Reader α}
    {entry : Compiling V → α → Outcome (Compiling V)}
    (hentry : ∀ st st' a, entry st a = .ok st' → st'.validator = st.validator)
    (h : readSection st p r entry = .ok st') : V.payload st.validator p = .ok st'.validator := by
  simp only [readSection, validate, Outcome.bind_eq_ok, Outcome.ofReader_eq_ok,
    Outcome.pure_eq_ok, Outcome.ok.injEq] at h
  obtain ⟨_, ⟨validator, hpayload, rfl⟩, _, hfold, _, -, rfl⟩ := h
  have hkeep := foldlM_preserves (p := fun st => st.validator = validator)
    (fun st st' a hst hst' => (hentry st st' a hst').trans hst) rfl hfold
  rw [hpayload, hkeep]

/-- Every payload that is handled was let through. -/
theorem handlePayload_validated {p : Payload} (h : handlePayload E st p = .ok st') :
    V.feed st.validator p = .ok st'.validator := by
  have hvalidate : ∀ p : Payload, validate st p = .ok st' →
      V.payload st.validator p = .ok st'.validator := by
    intro p hp
    simp only [validate, Outcome.bind_eq_ok, Outcome.ofReader_eq_ok, Outcome.pure_eq_ok,
      Outcome.ok.injEq] at hp
    obtain ⟨validator, hpayload, rfl⟩ := hp
    exact hpayload
  cases p with
  | memorySection r => exact readSection_validated (fun st st' m h => by cases h; rfl) h
  | typeSection r =>
      refine readSection_validated (fun st st' d h => ?_) h
      cases d <;> cases h <;> rfl
  | importSection r =>
      refine readSection_validated (fun st st' i h => ?_) h
      simp only [importEntry, Outcome.bind_eq_ok] at h
      obtain ⟨assembly, -, offset, -, h⟩ := h
      cases hty : i.ty <;> rw [hty] at h <;> cases h <;> rfl
  | functionSection r => exact readSection_validated (fun st st' t h => by cases h; rfl) h
  | exportSection r => exact readSection_validated (fun st st' e h => by cases h; rfl) h
  | codeSectionEntry body => exact codeEntry_validated h
  | customSection bytes =>
      cases h
      rfl
  | _ => exact hvalidate _ h

/-- All payloads have been handled. -/
theorem foldlM_of_compilePayloads {ps : List Payload} (h : compilePayloads E ps = .ok st) :
    ps.foldlM (handlePayload E) Compiling.init = .ok st := by
  simp only [compilePayloads, Outcome.bind_eq_ok, Outcome.pure_eq_ok, Outcome.ok.injEq] at h
  obtain ⟨_, hfold, -, -, rfl⟩ := h
  exact hfold

/-- The validator has been told of all of them. -/
theorem feed_of_foldlM {ps : List Payload} (h : ps.foldlM (handlePayload E) st = .ok st') :
    ps.foldlM V.feed st.validator = .ok st'.validator := by
  induction ps generalizing st with
  | nil =>
      cases h
      rfl
  | cons p ps ih =>
      rw [List.foldlM_cons, Outcome.bind_eq_ok] at h
      obtain ⟨st₁, hst₁, h⟩ := h
      rw [List.foldlM_cons, except_bind_eq_ok]
      exact ⟨st₁.validator, handlePayload_validated hst₁, ih h⟩

/-- **`compile` accepts only what the validator accepts.** -/
theorem accepts_of_compilePayloads {ps : List Payload} (h : compilePayloads E ps = .ok st) :
    V.Accepts ps := by
  simp only [compilePayloads, Outcome.bind_eq_ok, Outcome.ofReader_eq_ok, Outcome.pure_eq_ok,
    Outcome.ok.injEq] at h
  obtain ⟨st', hfold, _, hend, rfl⟩ := h
  exact ⟨st'.validator, feed_of_foldlM hfold, hend⟩

/-- A body is checked with the function validator it is given. -/
theorem Opens.enters {ps : List Payload} {k : ℕ} {body : FunctionBody} {φ : V.FuncSt}
    (h : Opens E ps k body φ) : V.Enters ps k body φ := by
  obtain ⟨pre, post, st, validator, hps, hk, hst, hφ⟩ := h
  exact ⟨pre, post, st.validator, validator, hps, hk, feed_of_foldlM hst, hφ⟩

end ParaOS.Parawasm
