import ParaOS.X86.Instr

/-!
# Machine code

The bytes of the instructions the compiler emits, as the block encoder of
`iced-x86` lays them down: a `REX` prefix where one is needed, the opcode, a
`ModRM` byte, a displacement of one byte if it fits, immediates and relative
addresses in little-endian order.

Labels enter only through the address they resolve to, in a field of fixed size,
so the length of an instruction depends on nothing else (`length_encode`).

These are the forms that the assembler is told to use and no others: immediates of
`sub rsp` and `add rsp` are four bytes whatever their value, a call is always
relative, and only the displacement of a slot has two sizes.  The reference encoder
is built from this, and the theorems do not depend on it: what they ask of an
encoder is stated in `ParaOS.Parawasm.Crates`.
-/

namespace ParaOS.X86

/-- The number of a register, in the order of the manual and not of the alphabet. -/
def Reg.number : Reg → ℕ
  | .rax => 0
  | .rcx => 1
  | .rdx => 2
  | .rbx => 3
  | .rsp => 4
  | .rbp => 5
  | .rsi => 6
  | .rdi => 7
  | .r8 => 8
  | .r9 => 9
  | .r10 => 10
  | .r11 => 11
  | .r12 => 12
  | .r13 => 13
  | .r14 => 14
  | .r15 => 15

/-- The `n` low bytes of a number, least significant first. -/
def lowBytes (n : ℕ) (v : ℤ) : List UInt8 :=
  (List.range n).map fun i => UInt8.ofNat (v / 256 ^ i % 256).toNat

/-- A field has its size whatever is in it. -/
@[simp] theorem length_lowBytes (n : ℕ) (v : ℤ) : (lowBytes n v).length = n := by
  simp [lowBytes]

/-- The `REX` prefix for a `reg` and an `rm` operand. -/
def rex (wide : Bool) (reg rm : ℕ) : UInt8 :=
  UInt8.ofNat (0x40 + (if wide then 8 else 0) + 4 * (reg / 8) + rm / 8)

/-- The `REX` prefix of an instruction that is 64 bits wide without one, which needs
it for the upper eight registers only. -/
def rexIfHigh (rm : ℕ) : List UInt8 := if 8 ≤ rm then [rex false 0 rm] else []

/-- The `ModRM` byte. -/
def modRM (mode reg rm : ℕ) : UInt8 := UInt8.ofNat (64 * mode + 8 * (reg % 8) + rm % 8)

/-- An instruction on two registers. -/
def onRegs (opcode : UInt8) (reg rm : Reg) : List UInt8 :=
  [rex true reg.number rm.number, opcode, modRM 3 reg.number rm.number]

/-- Its 32-bit form. -/
def onRegs32 (opcode : UInt8) (reg rm : Reg) : List UInt8 :=
  (if 8 ≤ reg.number ∨ 8 ≤ rm.number then [rex false reg.number rm.number] else []) ++
    [opcode, modRM 3 reg.number rm.number]

/-- An instruction on a register and `[rbp + disp]`. -/
def onFrame (opcode : UInt8) (reg : Reg) (disp : ℤ) : List UInt8 :=
  [rex true reg.number Reg.rbp.number, opcode] ++
    if -128 ≤ disp ∧ disp < 128 then modRM 1 reg.number Reg.rbp.number :: lowBytes 1 disp
    else modRM 2 reg.number Reg.rbp.number :: lowBytes 4 disp

/-- The bytes of an instruction at an address, with the addresses of labels; there
are none for the 32-bit stack operations in 64-bit mode. -/
def encode (address : Label → ℕ) (ip : ℕ) : Instr → Option (List UInt8)
  | .push r => some (rexIfHigh r.number ++ [UInt8.ofNat (0x50 + r.number % 8)])
  | .pop r => some (rexIfHigh r.number ++ [UInt8.ofNat (0x58 + r.number % 8)])
  | .push32 _ => none
  | .pop32 _ => none
  | .mov dst src => some (onRegs 0x89 src dst)
  | .store off src => some (onFrame 0x89 src (-off))
  | .load dst off => some (onFrame 0x8b dst (-off))
  | .loadArg dst off => some (onFrame 0x8b dst off)
  | .movImm dst v =>
      some ([rex true 0 dst.number, UInt8.ofNat (0xb8 + dst.number % 8)] ++ lowBytes 8 v.toNat)
  | .movLabel dst l =>
      some ([rex true dst.number 0, 0x8b, modRM 0 dst.number 5] ++ lowBytes 4 (address l - (ip + 7)))
  | .add dst src => some (onRegs 0x01 src dst)
  | .sub dst src => some (onRegs 0x29 src dst)
  | .add32 dst src => some (onRegs32 0x01 src dst)
  | .sub32 dst src => some (onRegs32 0x29 src dst)
  | .subRsp n => some ([0x48, 0x81, 0xec] ++ lowBytes 4 n)
  | .addRsp n => some ([0x48, 0x81, 0xc4] ++ lowBytes 4 n)
  | .callLabel l => some (0xe8 :: lowBytes 4 (address l - (ip + 5)))
  | .callReg r => some (rexIfHigh r.number ++ [0xff, modRM 3 2 r.number])
  | .nop => some [0x90]
  | .ret => some [0xc3]
  | .dq v => some (lowBytes 8 v.toNat)
  | .zeroBytes => some []

/-- The length of an instruction. -/
def encodedLength (i : Instr) : ℕ := ((encode (fun _ => 0) 0 i).map List.length).getD 0

/-- **A length does not depend on where labels are.**  So offsets are known before
addresses are, and the two passes of an assembler come to one result. -/
theorem length_encode {address : Label → ℕ} {ip : ℕ} {i : Instr} {bytes : List UInt8}
    (h : encode address ip i = some bytes) : bytes.length = encodedLength i := by
  cases i with
  | push32 r => cases h
  | pop32 r => cases h
  | movLabel dst l =>
      cases h
      simp [encodedLength, encode]
  | callLabel l =>
      cases h
      simp [encodedLength, encode]
  | _ =>
      cases h
      rfl

/-- The bytes of a list of instructions from an address on. -/
def encodeFrom (address : Label → ℕ) : ℕ → List Instr → Option (List UInt8)
  | _, [] => some []
  | ip, i :: is =>
      (encode address ip i).bind fun bytes =>
        (encodeFrom address (ip + bytes.length) is).map fun rest => bytes ++ rest

/-- The length of code is the sum of the lengths of its instructions. -/
theorem length_encodeFrom {address : Label → ℕ} {ip : ℕ} {is : List Instr} {bytes : List UInt8}
    (h : encodeFrom address ip is = some bytes) : bytes.length = (is.map encodedLength).sum := by
  induction is generalizing ip bytes with
  | nil =>
      cases h
      rfl
  | cons i is ih =>
      rw [encodeFrom, Option.bind_eq_some_iff] at h
      obtain ⟨first, hfirst, h⟩ := h
      obtain ⟨rest, hrest, rfl⟩ := Option.map_eq_some_iff.mp h
      rw [List.length_append, length_encode hfirst, ih hrest, List.map_cons, List.sum_cons]

/-- The bytes of one instruction of a list, behind those of the instructions in
front of it. -/
theorem encodeFrom_append {address : Label → ℕ} {ip : ℕ} {is js : List Instr} {i : Instr}
    {bytes : List UInt8} (h : encodeFrom address ip (is ++ i :: js) = some bytes) :
    ∃ before here after, bytes = before ++ here ++ after ∧
      encode address (ip + before.length) i = some here ∧
      before.length = (is.map encodedLength).sum := by
  induction is generalizing ip bytes with
  | nil =>
      rw [List.nil_append, encodeFrom, Option.bind_eq_some_iff] at h
      obtain ⟨here, hhere, h⟩ := h
      obtain ⟨after, -, rfl⟩ := Option.map_eq_some_iff.mp h
      exact ⟨[], here, after, rfl, hhere, rfl⟩
  | cons i' is ih =>
      rw [List.cons_append, encodeFrom, Option.bind_eq_some_iff] at h
      obtain ⟨first, hfirst, h⟩ := h
      obtain ⟨rest, hrest, rfl⟩ := Option.map_eq_some_iff.mp h
      obtain ⟨before, here, after, rfl, hhere, hlen⟩ := ih hrest
      refine ⟨first ++ before, here, after, by simp, ?_, ?_⟩
      · rwa [List.length_append, ← Nat.add_assoc]
      · rw [List.length_append, hlen, length_encode hfirst, List.map_cons, List.sum_cons]

end ParaOS.X86
