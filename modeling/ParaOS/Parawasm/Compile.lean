import ParaOS.Parawasm.Optimizer

/-!
# `parawasm::x86_64`: `X86_64Compiler::compile`

`compile` reads a module payload by payload, emitting code as it goes, then
optimises the whole instruction list, binds the labels and assembles.  Its local
variables are the fields of `Compiling`; each payload is one transition of it
(`handlePayload`), and the loop around the parser is `loopWithin`.

The assembler of `iced-x86` is a parameter as far as bytes are concerned
(`Encoder`).  What is left of it is a list of instructions with labels at some
of its indices: `set_label` followed by `zero_bytes` puts a label at the next
index, `assemble_options` followed by `label_ip` reads off its offset.

### What is left to parameters

`Parser`, `Validator` and `Encoder` are the three crates.  Of the first two,
`compile` sees what they return; of the third also that the instructions so far can
be read and assembled again in the middle, which is done for each import to find the
offset of its slot.

The loop has a number of iterations for fuel, since whether it ends depends on the
parser; that it does, for a parser that keeps its documentation, is in
`ParaOS.Parawasm.SectionLoop`.

### Details that are kept

* A group of declared locals is laid out before the validator is told of it, in
  `u32`.
* `MemorySection` and the other sections are validated first and read afterwards, so
  that an entry that cannot be read is an error behind a section that was accepted.
* `exports` and `imports` are maps: a name exported twice has the later index, and
  every import has an entry of its own, under its function index.
* A label is set in front of the next instruction, and `functionBodies` of the
  module gets offsets, where that of the loop has labels.
-/

namespace ParaOS.Parawasm

open Machine X86 Wasm

/-! ## `Module` and `AssembledModule` -/

/-- `parawasm::x86_64::Module` -/
structure Module where
  functions : Std.TreeMap ℕ ℕ
  functionBodies : Std.TreeMap ℕ ℕ
  functionStackHeights : Std.TreeMap ℕ ℕ
  exports : Std.TreeMap String ℕ
  /-- module name, field name and slot offset, by function index -/
  imports : Std.TreeMap ℕ (String × Option String × ℕ)
  memories : List MemoryType

/-- `Module::new` -/
def Module.new : Module := ⟨∅, ∅, ∅, ∅, ∅, []⟩

/-- `FunctionIdentifier` -/
class FunctionIdentifier (α : Type) where
  findFunction : α → Module → Option ℕ

/-- A function by its index. -/
def findIndex (index : ℕ) (m : Module) : Option ℕ := m.functionBodies[index]?.map fun _ => index

instance : FunctionIdentifier ℕ where
  findFunction := findIndex

instance : FunctionIdentifier String where
  findFunction name m := m.exports[name]?.bind fun index => findIndex index m

namespace Module

variable {α : Type} [FunctionIdentifier α]

/-- `function_entry_point` -/
def functionEntryPoint (m : Module) (identifier : α) : Option ℕ :=
  (FunctionIdentifier.findFunction identifier m).bind fun idx => m.functionBodies[idx]?

/-- `function_stack_height` -/
def functionStackHeight (m : Module) (identifier : α) : Option ℕ :=
  (FunctionIdentifier.findFunction identifier m).bind fun idx => m.functionStackHeights[idx]?

/-- `memory_types` -/
def memoryTypes (m : Module) : List MemoryType := m.memories

end Module

/-- `AssembledModule`, with `assembled` as `binary()` gives it. -/
structure AssembledModule where
  module : Module
  assembled : List UInt8

/-- The eight bytes of `LittleEndian::write_u64`. -/
def leBytes (v : Word) : List UInt8 := (List.range 8).map fun i => UInt8.ofBitVec (Mem.byteOf v i)

/-- The slot offset `link_import` finds for a pair of names: that of the first
entry, in the order of function indices.  An import without a field name is never
found, as two absent names are not compared. -/
def findImport (m : Module) (module : String) (name : Option String) : Option ℕ :=
  m.imports.toList.findSome? fun entry =>
    let namesEqual :=
      match name, entry.2.2.1 with
      | some n, some n' => n == n'
      | _, _ => false
    if entry.2.1 == module && namesEqual then some entry.2.2.2 else none

/-- `link_import` -/
def AssembledModule.linkImport (asm : AssembledModule) (module : String) (name : Option String)
    (addr : Word) : Outcome AssembledModule :=
  match findImport asm.module module name with
  | some offset =>
      if offset + 8 ≤ asm.assembled.length then
        .ok { asm with
          assembled := asm.assembled.take offset ++ leBytes addr ++ asm.assembled.drop (offset + 8) }
      else .panic
  | none => .ok asm

/-! ## The assembler -/

/-- What `assemble_options` returns: the bytes, and the offset of each
instruction. -/
structure Assembly where
  bytes : List UInt8
  offsets : List ℕ

/-- The block encoder: instructions and the indices labels are bound to.  It returns
an error if one of them has no encoding or a label is not where it can be reached.
-/
structure Encoder where
  assemble : List Instr → List (Label × ℕ) → Except IcedError Assembly

/-- `label_ip`, for a label at an instruction index. -/
def labelIp (assembly : Assembly) (index : ℕ) : Outcome ℕ :=
  match assembly.offsets[index]? with
  | some offset => .ok offset
  | none => .err (.assemblerError ⟨"the label is not associated with an instruction"⟩)

/-- The offset a label resolves to: that of the instruction it is bound to. -/
def resolveLabel (assembly : Assembly) (bound : List (Label × ℕ)) (l : Label) : Option ℕ :=
  (bound.find? fun b => b.1 == l).bind fun b => assembly.offsets[b.2]?

/-! ## Function bodies -/

/-- `EncodingSize for Type` -/
def encodingSize : Ty → Outcome ℕ
  | .i32 => .ok 4
  | .i64 => .ok 8
  | .f32 => .ok 4
  | .f64 => .ok 8
  | .v128 => .ok 16
  | .funcRef => .panic
  | .externRef => .panic
  | .exnRef => .panic
  | .func => .panic
  | .emptyBlockType => .panic

/-- `locals` and `locals_size` -/
structure LocalsTable where
  locals : List ℕ
  localsSize : ℕ
  deriving DecidableEq, Repr

/-- A `u32` sum or product whose exact value is `n`: out of range it panics in a
build with overflow checks, and wraps around in one without.  Both kinds of build
are covered by every result about `compile`. -/
def u32 (overflowChecks : Bool) (n : ℕ) : Outcome ℕ :=
  if n < 2 ^ 32 then .ok n else if overflowChecks then .panic else .ok (n % 2 ^ 32)

/-- One param: its slot ends where the previous one did. -/
def layoutParam (overflowChecks : Bool) (t : LocalsTable) (param : Ty) :
    Outcome LocalsTable := do
  let sz ← encodingSize param
  let offset ← u32 overflowChecks (t.localsSize + sz)
  let size ← u32 overflowChecks (t.localsSize + sz)
  return ⟨t.locals ++ [offset], size⟩

/-- The offset of local `i` of a group: `locals_size + sz * i` -/
def groupOffset (overflowChecks : Bool) (localsSize sz i : ℕ) : Outcome ℕ := do
  let distance ← u32 overflowChecks (sz * i)
  u32 overflowChecks (localsSize + distance)

/-- One group of declared locals.  It is laid out before the validator is told of
it, so with the count as the module gives it. -/
def layoutGroup (overflowChecks : Bool) (t : LocalsTable) (group : ℕ × Ty) :
    Outcome LocalsTable := do
  let sz ← encodingSize group.2
  let offsets ← (List.range group.1).mapM (groupOffset overflowChecks t.localsSize sz)
  let size ← groupOffset overflowChecks t.localsSize sz group.1
  return ⟨t.locals ++ offsets, size⟩

/-- `Sub_rm64_imm32` or `Add_rm64_imm32` on `rsp`, which take a signed 32-bit
immediate; nothing for an empty frame. -/
def moveStack (emit : ℕ → Instr) (size : ℕ) : Outcome (List Instr) :=
  if size > 0 then
    if size < 2 ^ 31 then .ok [emit size]
    else .err (.assemblerError ⟨"the immediate does not fit"⟩)
  else .ok []

/-- The stores of the params, with `pop_back` of the register queue for each; a
param for which no register is left is loaded from `extra_args_offset`. -/
def storeParams : List (Ty × ℕ) → List Reg → ℕ → Outcome (List Instr)
  | [], _, _ => .ok []
  | (.i64, i) :: params, order, extraArgsOffset =>
      match order.getLast? with
      | some reg => do
          let rest ← storeParams params order.dropLast extraArgsOffset
          return .store i reg :: rest
      | none => do
          let rest ← storeParams params order (extraArgsOffset + 8)
          return .loadArg .r11 extraArgsOffset :: .store i .r11 :: rest
  | (.i32, i) :: params, order, extraArgsOffset =>
      match order.getLast? with
      | some reg => do
          let rest ← storeParams params order.dropLast extraArgsOffset
          return .store i reg :: rest
      | none => do
          let rest ← storeParams params order (extraArgsOffset + 4)
          return .loadArg .r11 extraArgsOffset :: .store i .r11 :: rest
  | _ :: _, _, _ => .panic

/-- The code in front of a body: save `rbp`, allocate the locals, store the
params. -/
def prologue (params : List Ty) (order : List Reg) (t : LocalsTable) :
    Outcome (List Instr) := do
  let alloc ← moveStack .subRsp t.localsSize
  let stores ← storeParams (params.zip t.locals) order 8
  return [.push .rbp, .mov .rbp .rsp] ++ alloc ++ stores

/-- The code behind a body: load the results, free the locals, restore `rbp`. -/
def epilogue (returns : List Ty) (localsSize : ℕ) : Outcome (List Instr) := do
  let results ← moveResults .pop returns returnOrder
  let free ← moveStack .addRsp localsSize
  return results ++ free ++ [.mov .rsp .rbp, .pop .rbp, .ret]

/-- The end of a reader. -/
def readEnd {α : Type} (r : Reader α) : Outcome Unit :=
  match r.err with
  | none => .ok ()
  | some e => .err (.wasmReaderError e)

variable (V : Validator) (E : Encoder)

/-- The loop over local declarations.  Each group goes through `locals_size` first
and to the validator afterwards. -/
def compileLocals : V.FuncSt → LocalsTable → List (ℕ × Ty) → Outcome (V.FuncSt × LocalsTable)
  | φ, t, [] => .ok (φ, t)
  | φ, t, g :: gs => do
      let t ← layoutGroup V.overflowChecks t g
      let φ ← Outcome.ofReader (V.defineLocals φ g.1 g.2)
      compileLocals φ t gs

/-- The loop over operators, with the height seen so far.  The validator sees an
operator before it is translated, so that an operator without code is a panic only
where it is valid. -/
def compileOps (ctx : Context) (locals : List ℕ) :
    V.FuncSt → ℕ → List Operator → Outcome (V.FuncSt × ℕ × List Instr)
  | φ, height, [] => .ok (φ, height, [])
  | φ, height, op :: ops => do
      let φ ← Outcome.ofReader (V.op φ op)
      let code ← handleInstruction ctx locals op
      let out ← compileOps ctx locals φ (max height (V.operandStackHeight φ)) ops
      return (out.1, out.2.1, code ++ out.2.2)

/-- The code of a function body of the given type, and its stack height.  A body
whose locals cannot be read is given up at once; one whose operators cannot, after
the code of those in front. -/
def compileBody (ctx : Context) (ty : FuncType) (φ : V.FuncSt) (body : FunctionBody) :
    Outcome (List Instr × ℕ) := do
  -- `get_operators_reader` skips over the locals, so a malformed one is found here
  readEnd body.locals
  let order ← drainTo ty.params.length
  let t ← ty.params.foldlM (layoutParam V.overflowChecks) ⟨[], 0⟩
  let (φ, t) ← compileLocals V φ t body.locals.items
  let before ← prologue ty.params order t
  let (φ, height, code) ←
    compileOps V ctx t.locals φ (V.operandStackHeight φ) body.operators.items
  readEnd body.operators
  Outcome.ofReader (V.finish φ)
  let after ← epilogue ty.returns t.localsSize
  return (before ++ code ++ after, height)

/-! ## Payloads -/

/-- The local variables of `compile`.  They are all there is of its state; nothing
is kept between two calls of it. -/
structure Compiling extends Context where
  validator : V.St
  /-- `assembler.instructions()` -/
  instructions : List Instr
  /-- labels set so far, with the index of the instruction they stand before -/
  bound : List (Label × ℕ)
  /-- the id of the next label created -/
  nextLabel : Label
  functionIndex : ℕ
  functionBodyIndex : ℕ
  functionTypeIndex : ℕ
  labelIndices : List (ℕ × Label)
  functionBodies : List (Label × ℕ)
  module : Module

variable {V}

/-- The values `compile` starts with. -/
def Compiling.init : Compiling V where
  got := ∅
  ils := ∅
  functionTypedefs := ∅
  functionTypes := ∅
  validator := V.new
  instructions := []
  bound := []
  nextLabel := 1
  functionIndex := 0
  functionBodyIndex := 0
  functionTypeIndex := 0
  labelIndices := []
  functionBodies := []
  module := Module.new

/-- One entry of a memory section. -/
def memoryEntry (st : Compiling V) (mem : MemoryType) : Outcome (Compiling V) :=
  .ok { st with module := { st.module with memories := st.module.memories ++ [mem] } }

/-- One entry of a type section. -/
def typeEntry (st : Compiling V) : TypeDef → Outcome (Compiling V)
  | .func ty =>
      .ok { st with
        functionTypedefs := st.functionTypedefs.insert st.functionTypeIndex ty
        functionTypeIndex := st.functionTypeIndex + 1 }
  | _ => .ok st

/-- The placeholder in an import slot. -/
def importPlaceholder : Word := 0xBADC0FFEE0DDF00D

/-- One entry of an import section. -/
def importEntry (st : Compiling V) (i : Import) : Outcome (Compiling V) := do
  let here := st.instructions.length
  let st := { st with
    nextLabel := st.nextLabel + 1
    bound := st.bound ++ [(st.nextLabel, here)]
    instructions := st.instructions ++ [.zeroBytes] }
  let assembly ← Outcome.ofIced (E.assemble st.instructions st.bound)
  let offset ← labelIp assembly here
  match i.ty with
  | .function functionType =>
      return { st with
        module := { st.module with
          imports := st.module.imports.insert st.functionIndex (i.module, i.field, offset) }
        nextLabel := st.nextLabel + 1
        labelIndices := st.labelIndices ++ [(st.instructions.length, st.nextLabel)]
        instructions := st.instructions ++ [.dq importPlaceholder]
        ils := st.ils.insert st.functionIndex st.nextLabel
        functionTypes := st.functionTypes.insert st.functionIndex functionType
        functionIndex := st.functionIndex + 1
        functionBodyIndex := st.functionBodyIndex + 1 }
  | .other => return st

/-- One entry of a function section. -/
def functionEntry (st : Compiling V) (functionType : ℕ) : Outcome (Compiling V) :=
  .ok { st with
    nextLabel := st.nextLabel + 2
    labelIndices := st.labelIndices ++ [(st.instructions.length, st.nextLabel)]
    instructions := st.instructions ++ [.dq 0]
    module := { st.module with
      functions := st.module.functions.insert st.functionIndex st.instructions.length }
    got := st.got.insert st.functionIndex (st.nextLabel + 1)
    functionTypes := st.functionTypes.insert st.functionIndex functionType
    functionIndex := st.functionIndex + 1 }

/-- One entry of an export section. -/
def exportEntry (st : Compiling V) (e : Export) : Outcome (Compiling V) :=
  .ok { st with module := { st.module with exports := st.module.exports.insert e.field e.index } }

/-- A code section entry. -/
def codeEntry (st : Compiling V) (body : FunctionBody) : Outcome (Compiling V) := do
  let (φ, validator) ← Outcome.ofReader (V.codeSectionEntry st.validator)
  let ty ← Outcome.unwrap (st.functionType st.functionBodyIndex)
  let funLabel ← Outcome.unwrap st.got[st.functionBodyIndex]?
  let (code, height) ← compileBody V st.toContext ty φ body
  return { st with
    validator := validator
    functionBodies := st.functionBodies ++ [(funLabel, st.functionBodyIndex)]
    labelIndices := st.labelIndices ++ [(st.instructions.length, funLabel)]
    instructions := st.instructions ++ code
    module := { st.module with
      functionStackHeights := st.module.functionStackHeights.insert st.functionBodyIndex height }
    functionBodyIndex := st.functionBodyIndex + 1 }

/-- The validator's share of a payload that is a whole section. -/
def validate (st : Compiling V) (p : Payload) : Outcome (Compiling V) := do
  let validator ← Outcome.ofReader (V.payload st.validator p)
  return { st with validator := validator }

/-- A section that is first validated and then read entry by entry. -/
def readSection {α : Type} (st : Compiling V) (p : Payload) (r : Reader α)
    (entry : Compiling V → α → Outcome (Compiling V)) : Outcome (Compiling V) := do
  let st ← validate st p
  let st ← r.items.foldlM entry st
  readEnd r
  return st

/-- The body of the loop for a payload other than `Payload::End`.  What has no case
of its own is told to the validator and not looked at any further. -/
def handlePayload (st : Compiling V) : Payload → Outcome (Compiling V)
  | .memorySection ms => readSection st (.memorySection ms) ms memoryEntry
  | .typeSection ts => readSection st (.typeSection ts) ts typeEntry
  | .importSection is => readSection st (.importSection is) is (importEntry E)
  | .functionSection fs => readSection st (.functionSection fs) fs functionEntry
  | .exportSection es => readSection st (.exportSection es) es exportEntry
  | .codeSectionEntry body => codeEntry st body
  | .customSection _ => .ok st
  | p => validate st p

/-! ## The loop -/

variable (P : Parser)

/-- What the loop around the parser carries from one iteration to the next. -/
structure LoopState (P : Parser) (V : Validator) where
  parser : P.St
  data : List UInt8
  eof : Bool
  compiling : Compiling V

/-- One iteration: either the loop is left, or it goes on. -/
def iteration (s : LoopState P V) : Outcome (Compiling V) ⊕ LoopState P V :=
  match P.parse s.parser s.data s.eof with
  | .error e => .inl (.err (.wasmReaderError e))
  | .ok (parser, .needMoreData _) => .inr { s with parser := parser }
  | .ok (parser, .parsed consumed payload) =>
      if payload.isEnd then
        .inl do
          Outcome.ofReader (V.endModule s.compiling.validator)
          return s.compiling
      else
        match handlePayload E s.compiling payload with
        | .ok st =>
            if consumed ≤ s.data.length then
              .inr ⟨parser, s.data.drop consumed, (s.data.drop consumed).length == 0, st⟩
            else .inl .panic
        | .err e => .inl (.err e)
        | .panic => .inl .panic

/-- The loop, at most `n` times around. -/
def loopWithin : ℕ → LoopState P V → Option (Outcome (Compiling V))
  | 0, _ => none
  | n + 1, s =>
      match iteration E P s with
      | .inl result => some result
      | .inr s' => loopWithin n s'

/-- Where the loop starts. -/
def LoopState.start (P : Parser) (V : Validator) (module : List UInt8) : LoopState P V :=
  ⟨P.new, module, false, Compiling.init⟩

/-! ## Binding and assembling -/

/-- The state of the second loop over the instructions. -/
structure Binding where
  instructions : List Instr
  bound : List (Label × ℕ)
  functionBodies : Std.TreeMap ℕ ℕ

/-- Set the label that belongs at this index, if there is one, and record the
entry point if it is the label of a function. -/
def bindLabel (labels : List (ℕ × Label)) (functions : List (Label × ℕ)) (idx : ℕ)
    (b : Binding) : Outcome Binding :=
  match labels.find? fun l => l.1 == idx with
  | none => .ok b
  | some (_, label) =>
      let here := b.instructions.length
      let b := { b with
        instructions := b.instructions ++ [.zeroBytes]
        bound := b.bound ++ [(label, here)] }
      match functions.find? fun f => f.1 == label with
      | none => .ok b
      | some (_, index) => do
          let assembly ← Outcome.ofIced (E.assemble b.instructions b.bound)
          let ip ← labelIp assembly here
          return { b with functionBodies := b.functionBodies.insert index ip }

/-- The second loop, from index `idx` on. -/
def bindFrom (labels : List (ℕ × Label)) (functions : List (Label × ℕ)) :
    List Instr → ℕ → Binding → Outcome Binding
  | [], _, b => .ok b
  | i :: is, idx, b => do
      let b ← bindLabel E labels functions idx b
      bindFrom labels functions is (idx + 1) { b with instructions := b.instructions ++ [i] }

/-- The instruction list and labels that come out of `optimize`, bound. -/
def bindLabels (st : Compiling V) : Outcome Binding :=
  let out := optimize st.instructions st.labelIndices
  bindFrom E out.2 st.functionBodies out.1 0 ⟨[], [], st.module.functionBodies⟩

/-- What follows the loop: optimise, bind labels, assemble. -/
def assembleModule (st : Compiling V) : Outcome AssembledModule := do
  let b ← bindLabels E st
  let assembly ← Outcome.ofIced (E.assemble b.instructions b.bound)
  return ⟨{ st.module with functionBodies := b.functionBodies }, assembly.bytes⟩

/-- The loop on a list of payloads, which ends with `Payload::End`.  It is what the
loop around the parser comes to, once the payloads are known. -/
def compilePayloads (ps : List Payload) : Outcome (Compiling V) := do
  let st ← ps.foldlM (handlePayload E) Compiling.init
  Outcome.ofReader (V.endModule st.validator)
  return st

/-- `compile`, if the loop is left within `n` iterations. -/
def compileWithin (V : Validator) (n : ℕ) (module : List UInt8) :
    Option (Outcome AssembledModule) :=
  (loopWithin E P n (LoopState.start P V module)).map fun result => do
    let st ← result
    assembleModule E st

end ParaOS.Parawasm
