import ParaOS.Parawasm.Layout
import ParaOS.Parawasm.SectionLoop
import ParaOS.X86.Encoding

/-!
# A parser and an assembler

`Parser` and `Encoder` stand for crates outside the repository, and results about
`compile` ask of them that they are `Documented` and `Measured`.  Here is one of
each, for modules known in advance and for the instructions that are emitted.

A script is the list of items a module consists of, bytes and payload; the parser
of a script is at one of them and wants its bytes.

### What it is for

Theorems about `compile` are about every parser and every assembler that does what
is documented.  For a theorem at one input there has to be one of each, and it
should behave there as the real one does: the parser cuts the payloads of a module
off its bytes, in the order in which they are there, and asks for more data where
there is too little; the assembler lays down the bytes of `ParaOS.X86.Encoding`.
-/

namespace ParaOS.Parawasm

open Machine X86 Wasm

/-! ## Parsing by script -/

/-- The items of a module. -/
abbrev Script := List (List UInt8 × Payload)

/-- One call of the parser: the end is seen when there is no more data. -/
def parseScript (script : Script) (σ : ℕ) (data : List UInt8) (eof : Bool) :
    Except BinaryReaderError (ℕ × Chunk) :=
  match script[σ]? with
  | none =>
      if data = [] ∧ eof then .ok (σ, .parsed 0 .end)
      else needs 1 data eof σ (.error ⟨"unknown section", 0⟩)
  | some (bytes, payload) =>
      needs bytes.length data eof σ <|
        if 0 < bytes.length ∧ data.take bytes.length = bytes then
          .ok (σ + 1, .parsed bytes.length payload)
        else .error ⟨"unexpected item", 0⟩

/-- The bytes of a module. -/
def Script.bytes (script : Script) : List UInt8 := script.flatMap Prod.fst

/-- `wasmparser::Parser` on the module of a script. -/
def parserOf (script : Script) : Parser := ⟨ℕ, 0, parseScript script⟩

/-- It does what is documented, for any script. -/
theorem parserOf_documented (script : Script) : (parserOf script).Documented := by
  refine documented_of_obliging fun (σ : ℕ) data eof => ?_
  change Obliging σ data eof (parseScript script σ data eof)
  rw [parseScript]
  split
  · split_ifs
    · exact obliging_parsed (Nat.zero_le _) fun h => by cases h
    · exact obliging_needs fun _ => obliging_error _
  · refine obliging_needs fun hlen => ?_
    split_ifs with hbytes
    · exact obliging_parsed hlen fun _ => hbytes.1
    · exact obliging_error _

/-! ## Assembling -/

/-- The offsets of the instructions of a list. -/
def offsetsOf (is : List Instr) : List ℕ :=
  (List.range is.length).map fun k => codeSize encodedLength (is.take k)

/-- The address of a label; one that is not bound stands for its id. -/
def addressOf (is : List Instr) (bound : List (Label × ℕ)) (l : Label) : ℕ :=
  ((bound.find? fun b => b.1 == l).bind fun b => (offsetsOf is)[b.2]?).getD l

/-- `CodeAssembler::assemble_options`, in two passes: offsets come from lengths,
which do not depend on labels, and the bytes from the addresses these give. -/
def Encoder.reference : Encoder where
  assemble is bound :=
    match encodeFrom (addressOf is bound) 0 is with
    | some bytes => .ok ⟨bytes, offsetsOf is⟩
    | none => .error ⟨"invalid instruction"⟩

/-- Its lengths are those of the encoding. -/
theorem Encoder.reference_measured : Encoder.reference.Measured encodedLength := by
  have hok : ∀ is bound assembly, Encoder.reference.assemble is bound = .ok assembly →
      encodeFrom (addressOf is bound) 0 is = some assembly.bytes ∧
        assembly.offsets = offsetsOf is := by
    intro is bound assembly h
    rw [Encoder.reference] at h
    dsimp only at h
    split at h
    · rename_i bytes hbytes
      cases h
      exact ⟨hbytes, rfl⟩
    · cases h
  refine ⟨fun is bound assembly h => ?_, fun is bound assembly h k => ?_, rfl, fun v => rfl⟩
  · exact length_encodeFrom (hok is bound assembly h).1
  · rw [(hok is bound assembly h).2, offsetsOf, List.getElem?_map]
    split_ifs with hk
    · rw [List.getElem?_range hk]
      rfl
    · rw [List.getElem?_eq_none (by simpa using hk)]
      rfl

end ParaOS.Parawasm
