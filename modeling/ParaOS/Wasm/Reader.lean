import ParaOS.Wasm.Spec

/-!
# The interface of `wasmparser`

The crate is not part of the repository, so what `compile` uses of it is a
parameter: a `Parser` that cuts payloads off a byte string, and a `Validator`
that is told every payload and every operator as `compile` gets to it.

`Parser.Documented` and `Validator.Sound` are what the crate's documentation
promises about them.  A validator that accepts every call `compile` makes for a
list of payloads has been given a valid module; a parser that is not at the end
of the data and finds an incomplete item asks for more data and stays as it is,
one that is told there is no more data does not ask, and a parsed payload other
than `End` takes at least one byte of the data it was given.  `CountsOperands` is
what `operand_stack_height` is documented to return.

### Why parameters

`compile` is verified for every parser and every validator that does what is
documented, the real ones among them, and not for models of these.  What would be
wrong is to ask more of them than is documented; so each promise is a field or a
definition of its own, and a theorem names those it needs.

The states of both are types that nothing is known about.  A validator may be asked
in one state only once and in the order in which `compile` asks; what it would
answer elsewhere is of no concern.

`overflowChecks` is a setting of the build, and stands here because it is the one
thing that the crate and `compile` have in common that is not visible in the source.
-/

namespace ParaOS.Wasm

/-- `wasmparser::Chunk` -/
inductive Chunk where
  | needMoreData (hint : ℕ)
  | parsed (consumed : ℕ) (payload : Payload)

/-- `wasmparser::Parser`, with the state that `parse` updates made explicit.  The
flag tells it whether there will be more data. -/
structure Parser where
  St : Type
  new : St
  parse : St → List UInt8 → Bool → Except BinaryReaderError (St × Chunk)

/-- Whether a payload is `Payload::End`. -/
def Payload.isEnd : Payload → Bool
  | .end => true
  | _ => false

/-- Whether a payload starts a module inside the module. -/
def Payload.nests : Payload → Bool
  | .moduleSectionEntry => true
  | _ => false

/-- What the documentation of `Parser::parse` promises.  Nothing is said about which
payloads come out: that they are those of the module is what `Parser.parse` means
here. -/
structure Parser.Documented (P : Parser) : Prop where
  /-- asking for more data leaves the parser as it was -/
  needMoreData : ∀ σ data eof σ' hint,
    P.parse σ data eof = .ok (σ', .needMoreData hint) → σ' = σ
  /-- at the end of the data an incomplete item is an error -/
  eof : ∀ σ data σ' hint, P.parse σ data true ≠ .ok (σ', .needMoreData hint)
  /-- a payload is cut off the data it was given -/
  consumed_le : ∀ σ data eof σ' n p,
    P.parse σ data eof = .ok (σ', .parsed n p) → n ≤ data.length
  /-- and takes something of it, unless it is the last one -/
  consumed_pos : ∀ σ data eof σ' n (p : Payload),
    P.parse σ data eof = .ok (σ', .parsed n p) → p.isEnd = false → 0 < n

/-- `MAX_WASM_FUNCTION_LOCALS` -/
def maxFunctionLocals : ℕ := 50000

/-- `wasmparser::Validator` and `wasmparser::FuncValidator`, with their states
made explicit, and the build they are part of.  That a body has at most
`maxFunctionLocals` locals is a field, since every result about the layout of
locals rests on it. -/
structure Validator where
  /-- whether `+` and `*` panic on overflow: a setting of the whole build, so of the
  crate and of `compile` alike -/
  overflowChecks : Bool
  St : Type
  FuncSt : Type
  /-- `Validator::default` with the features `compile` sets -/
  new : St
  /-- `type_section`, `import_section` and the other methods for whole sections -/
  payload : St → Payload → Except BinaryReaderError St
  codeSectionEntry : St → Except BinaryReaderError (FuncSt × St)
  defineLocals : FuncSt → ℕ → Ty → Except BinaryReaderError FuncSt
  /-- the locals of a body so far, its params included -/
  declared : FuncSt → ℕ
  /-- more locals than the limit are refused -/
  limit : ∀ φ n ty φ', defineLocals φ n ty = .ok φ' →
    declared φ' = declared φ + n ∧ declared φ' ≤ maxFunctionLocals
  op : FuncSt → Operator → Except BinaryReaderError FuncSt
  operandStackHeight : FuncSt → ℕ
  finish : FuncSt → Except BinaryReaderError Unit
  /-- `Validator::end` -/
  endModule : St → Except BinaryReaderError Unit

namespace Validator

variable (V : Validator)

/-- The calls made for one function body. -/
def body (σ : V.St) (b : FunctionBody) : Except BinaryReaderError V.St := do
  let (φ, σ') ← V.codeSectionEntry σ
  let φ ← b.locals.items.foldlM (fun φ g => V.defineLocals φ g.1 g.2) φ
  let φ ← b.operators.items.foldlM V.op φ
  V.finish φ
  return σ'

/-- The calls made for one payload; custom sections are not validated. -/
def feed (σ : V.St) : Payload → Except BinaryReaderError V.St
  | .codeSectionEntry b => V.body σ b
  | .customSection _ => .ok σ
  | p => V.payload σ p

/-- Every call made for a list of payloads, and the closing one, succeeds. -/
def Accepts (ps : List Payload) : Prop :=
  ∃ σ, ps.foldlM V.feed V.new = .ok σ ∧ V.endModule σ = .ok ()

/-- What is accepted has its sections in order, and it is valid WebAssembly if it is
one module and not a module with others inside. -/
structure Sound : Prop where
  ordered : ∀ ps, V.Accepts ps → Ordered ps
  valid : ∀ ps, V.Accepts ps → (∀ p ∈ ps, p.nests = false) → Valid ps

/-- What is let through so far is in order: a section out of order is refused when
it comes, and not at the end of the module. -/
def KeepsOrder : Prop := ∀ ps σ, ps.foldlM V.feed V.new = .ok σ → Ordered ps

/-- The function validator body `k` of a module is checked with. -/
def Enters (ps : List Payload) (k : ℕ) (b : FunctionBody) (φ : V.FuncSt) : Prop :=
  ∃ pre post σ σ', ps = pre ++ .codeSectionEntry b :: post ∧ (bodies pre).length = k ∧
    pre.foldlM V.feed V.new = .ok σ ∧ V.codeSectionEntry σ = .ok (φ, σ')

/-- `operand_stack_height` is the number of operands after the operators checked
so far. -/
def CountsOperands : Prop :=
  ∀ (ps : List Payload) (k t : ℕ) (b : FunctionBody) (ty : FuncType) (φ φ₁ φ₂ : V.FuncSt)
    (ops : List Operator) (st : List Ty), V.Accepts ps → (∀ p ∈ ps, p.nests = false) →
    V.Enters ps k b φ → (definedFunctions ps)[k]? = some t → typeAt ps t = some ty →
    b.locals.items.foldlM (fun φ g => V.defineLocals φ g.1 g.2) φ = .ok φ₁ →
    ops <+: b.operators.items → ops.foldlM V.op φ₁ = .ok φ₂ →
    operandsAfter ⟨declaredType ps, ty.params ++ declaredLocals b.locals.items⟩ ops = some st →
    V.operandStackHeight φ₂ = st.length

end Validator

end ParaOS.Wasm
