import ParaOS.Machine.Memory

/-!
# WebAssembly modules as the parser delivers them

`wasmparser` hands a module to the compiler as a sequence of payloads, one for
each section and one for each function body.  The types here follow the crate's
own.  Sections that `compile` only passes on to the validator keep their bytes
and nothing else.

A module is the list of its payloads up to `Payload::End`, and its index spaces
are read off that list: `typeSpace` (every entry of a type section, whether or
not it is a function type), `funcSpace` (imported, aliased and defined
functions, in this order of appearance) and `bodies`.

### What is left out

Of tables, globals, elements and data nothing is kept, since `compile` only hands
them on.  Nested modules are seen by their markers alone; the parser delivers what
is in them in the same sequence, and the results about the meaning of a module ask
that there are none.  Positions in the file are kept for errors only.

An aliased function has a type but no type index.  It takes a place in the function
index space all the same, between the imports and the defined functions, and this is
where `compile` and the standard part ways.
-/

namespace ParaOS.Wasm

open Machine

/-- `wasmparser::Type` -/
inductive Ty where
  | i32 | i64 | f32 | f64 | v128 | funcRef | externRef | exnRef | func | emptyBlockType
  deriving DecidableEq, Repr

/-- `wasmparser::FuncType` -/
structure FuncType where
  params : List Ty
  returns : List Ty
  deriving DecidableEq, Repr

/-- `wasmparser::TypeDef`.  Instance and module types carry nothing `compile`
reads. -/
inductive TypeDef where
  | func (ty : FuncType)
  | inst
  | module
  deriving DecidableEq, Repr

/-- The operators `handle_instruction` has code for.  Every other operator of
`wasmparser::Operator` ends in `todo!()` there; `unimplemented` stands for these,
told apart by their opcode, for the validator may look at them and answer
differently. -/
inductive Operator where
  | i64Const (value : Word)
  | i64Add
  | i32Add
  | i64Sub
  | i32Sub
  | call (functionIndex : ℕ)
  | nop
  | end
  | localGet (localIndex : ℕ)
  | localSet (localIndex : ℕ)
  | unimplemented (opcode : ℕ)
  deriving DecidableEq, Repr

/-- `wasmparser::BinaryReaderError` -/
structure BinaryReaderError where
  message : String
  offset : ℕ
  deriving DecidableEq, Repr

/-- A section reader: the items it yields, then the error it stops with, if it does
not get to the end.  Items in front of the error are handled before the error is
come to, so that both are kept. -/
structure Reader (α : Type) where
  items : List α
  err : Option BinaryReaderError := none
  deriving Repr

/-- `wasmparser::ImportSectionEntryType`, apart from what only the validator
looks at. -/
inductive ImportType where
  | function (typeIndex : ℕ)
  | other
  deriving DecidableEq, Repr

/-- `wasmparser::Import` -/
structure Import where
  module : String
  field : Option String
  ty : ImportType
  deriving DecidableEq, Repr

/-- `wasmparser::Alias`.  An alias of a function that an instance exports is
given with the type the instance's own type has for that export. -/
inductive Alias where
  | function (ty : FuncType)
  | other
  deriving DecidableEq, Repr

/-- `wasmparser::ExternalKind` -/
inductive ExternalKind where
  | function | table | memory | tag | global | type | module | inst
  deriving DecidableEq, Repr

/-- `wasmparser::Export` -/
structure Export where
  field : String
  kind : ExternalKind
  index : ℕ
  deriving DecidableEq, Repr

/-- `wasmparser::MemoryType` -/
structure MemoryType where
  memory64 : Bool
  shared : Bool
  initial : ℕ
  maximum : Option ℕ
  deriving DecidableEq, Repr

/-- `wasmparser::FunctionBody`: local declarations `(count, type)`, then the
operators, each with a reader of its own that may stop with an error. -/
structure FunctionBody where
  locals : Reader (ℕ × Ty)
  operators : Reader Operator

/-- `wasmparser::Payload` -/
inductive Payload where
  | version (num : ℕ)
  | typeSection (ts : Reader TypeDef)
  | importSection (is : Reader Import)
  | aliasSection (as : Reader Alias)
  | instanceSection (bytes : List UInt8)
  | functionSection (fs : Reader ℕ)
  | tableSection (bytes : List UInt8)
  | memorySection (ms : Reader MemoryType)
  | tagSection (bytes : List UInt8)
  | globalSection (bytes : List UInt8)
  | exportSection (es : Reader Export)
  | startSection (func : ℕ)
  | elementSection (bytes : List UInt8)
  | dataCountSection (count : ℕ)
  | codeSectionStart (count : ℕ)
  | codeSectionEntry (body : FunctionBody)
  | dataSection (bytes : List UInt8)
  | customSection (bytes : List UInt8)
  | moduleSectionStart (count : ℕ)
  | moduleSectionEntry
  | unknownSection (id : ℕ)
  | end

/-! ## Index spaces

An index means something only together with the payloads in front of it.  The lists
here are those of a whole module; `compile` has counters and tables instead, and
that these agree with the lists is shown where they are filled. -/

/-- How a function comes into the function index space.  Imports and definitions
give a type index, aliases the type itself. -/
inductive FuncDecl where
  | imported (typeIndex : ℕ)
  | aliased (ty : FuncType)
  | defined (typeIndex : ℕ)
  deriving DecidableEq, Repr

/-- The type index a function is declared with. -/
def FuncDecl.typeIndex? : FuncDecl → Option ℕ
  | .imported t => some t
  | .aliased _ => none
  | .defined t => some t

/-- Whether a function is defined in the module. -/
def FuncDecl.isDefined : FuncDecl → Bool
  | .defined _ => true
  | _ => false

/-- The function type a type definition stands for. -/
def TypeDef.func? : TypeDef → Option FuncType
  | .func ty => some ty
  | _ => none

/-- The type index of a function import. -/
def ImportType.function? : ImportType → Option ℕ
  | .function t => some t
  | .other => none

/-- The type of an aliased function. -/
def Alias.function? : Alias → Option FuncType
  | .function ty => some ty
  | .other => none

namespace Payload

/-- The type index space entries of a payload. -/
def typeDefs : Payload → List TypeDef
  | .typeSection ts => ts.items
  | _ => []

/-- The type indices of the function imports of a payload. -/
def functionImports : Payload → List ℕ
  | .importSection is => is.items.filterMap fun i => i.ty.function?
  | _ => []

/-- The types of the functions a payload aliases. -/
def functionAliases : Payload → List FuncType
  | .aliasSection as => as.items.filterMap Alias.function?
  | _ => []

/-- The type indices of the functions a payload defines. -/
def definedFunctions : Payload → List ℕ
  | .functionSection fs => fs.items
  | _ => []

/-- The function index space entries of a payload. -/
def funcDecls : Payload → List FuncDecl
  | .importSection is => (is.items.filterMap fun i => i.ty.function?).map .imported
  | .aliasSection as => (as.items.filterMap Alias.function?).map .aliased
  | .functionSection fs => fs.items.map .defined
  | _ => []

/-- The imports of a payload, of functions and of anything else. -/
def imports : Payload → List Import
  | .importSection is => is.items
  | _ => []

/-- The exports of a payload. -/
def exports : Payload → List Export
  | .exportSection es => es.items
  | _ => []

/-- The function body of a code section entry. -/
def bodies : Payload → List FunctionBody
  | .codeSectionEntry body => [body]
  | _ => []

end Payload

/-- The type index space. -/
def typeSpace (ps : List Payload) : List TypeDef := ps.flatMap Payload.typeDefs

/-- The function index space, in order of appearance.  In a module in order the
defined functions come last. -/
def funcSpace (ps : List Payload) : List FuncDecl := ps.flatMap Payload.funcDecls

/-- The type indices of the function imports, in order. -/
def functionImports (ps : List Payload) : List ℕ := ps.flatMap Payload.functionImports

/-- The types of the aliased functions, in order. -/
def functionAliases (ps : List Payload) : List FuncType := ps.flatMap Payload.functionAliases

/-- The type indices of the defined functions, in order. -/
def definedFunctions (ps : List Payload) : List ℕ := ps.flatMap Payload.definedFunctions

/-- The imports, in order. -/
def imports (ps : List Payload) : List Import := ps.flatMap Payload.imports

/-- The exports, in order. -/
def exports (ps : List Payload) : List Export := ps.flatMap Payload.exports

/-- The function bodies, in order. -/
def bodies (ps : List Payload) : List FunctionBody := ps.flatMap Payload.bodies

/-- The function type a type index stands for; none if the index is that of an
instance or module type. -/
def typeAt (ps : List Payload) (t : ℕ) : Option FuncType := (typeSpace ps)[t]?.bind TypeDef.func?

/-- The type declared for a function, whichever way it came into the index space. -/
def declaredType (ps : List Payload) (f : ℕ) : Option FuncType :=
  match (funcSpace ps)[f]? with
  | some (.imported t) => typeAt ps t
  | some (.defined t) => typeAt ps t
  | some (.aliased ty) => some ty
  | none => none

/-- Only functions have types. -/
theorem lt_of_declaredType {ps : List Payload} {f : ℕ} {ty : FuncType}
    (h : declaredType ps f = some ty) : f < (funcSpace ps).length := by
  by_contra hlt
  rw [declaredType, List.getElem?_eq_none (Nat.le_of_not_lt hlt)] at h
  cases h

/-- The types of declared locals, group by group. -/
def declaredLocals (groups : List (ℕ × Ty)) : List Ty :=
  groups.flatMap fun g => List.replicate g.1 g.2

end ParaOS.Wasm
