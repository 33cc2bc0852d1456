import Mathlib.Logic.Function.Basic
import ParaOS.Machine.Memory

/-!
# The x86-64 instructions the compiler emits

`Instr` has one constructor for each iced-x86 `Code` (with its operand kinds)
that `parawasm` ever builds, and `exec` gives the meaning of those that neither
transfer control nor name a label.  Flags are left out: no emitted instruction
reads them.

Two points of `exec` are conventions of this development.  The stack ends at
address `0`: a push, or an allocation by `sub rsp, n`, for which there is no
room below `rsp` stops the machine (`none`) where the processor would run into
whatever guards the stack.  An eight-byte access that would run past the last
address stops it as well.

The `@[simp]` lemmas say what each register holds after an update; later proofs
use them and `push_eq`, `pop_eq` and their kin, and never unfold `exec`.

### What is not modelled

Code is not in memory.  An instruction is looked up in a list, by its index, and
what the bytes at its address are is for `ParaOS.X86.Encoding` and
`ParaOS.Parawasm.Loading`; a program that overwrote itself would be beyond this
model.  There are no interrupts and no other cores, and `call` and `ret` between
activations are steps of `ParaOS.X86.Program` and not of `exec`.

The two instructions `push32` and `pop32` have no meaning, since long mode has no
encoding for them.  They are here because the compiler builds them for `i32`, and a
module with one of them is not assembled.

### Why the end of the stack is a convention

Nothing in the emitted code compares `rsp` with anything.  A stack has an end all
the same, and a theorem about code that uses more of it than there is would be a
theorem about whatever lies behind.  With the end at address `0` the condition is a
number, `s.sp`, from which the room below is read off; where a stack ends at another
address the theorems are used with that much more asked of `rsp`.
-/

namespace ParaOS.X86

open Machine

/-- The general-purpose registers. -/
inductive Reg where
  | rax | rcx | rdx | rbx | rsp | rbp | rsi | rdi
  | r8 | r9 | r10 | r11 | r12 | r13 | r14 | r15
  deriving DecidableEq, Repr

/-- A label of the code assembler, by its id.  The assembler hands them out in
order, and they are not compared for anything but equality. -/
abbrev Label := ℕ

/-- The instructions the compiler emits.  Memory operands are of two shapes:
`[rbp - off]` for the slot of a local and `[rbp + off]` for an argument passed
on the stack. -/
inductive Instr where
  /-- `Push_r64` -/
  | push (r : Reg)
  /-- `Pop_r64` -/
  | pop (r : Reg)
  /-- `Push_r32`, named by the 64-bit register it is part of -/
  | push32 (r : Reg)
  /-- `Pop_r32` -/
  | pop32 (r : Reg)
  /-- `Mov_rm64_r64` between registers -/
  | mov (dst src : Reg)
  /-- `Mov_rm64_r64` to `[rbp - off]` -/
  | store (off : ℕ) (src : Reg)
  /-- `Mov_r64_rm64` from `[rbp - off]` -/
  | load (dst : Reg) (off : ℕ)
  /-- `Mov_r64_rm64` from `[rbp + off]` -/
  | loadArg (dst : Reg) (off : ℕ)
  /-- `Mov_r64_imm64` -/
  | movImm (dst : Reg) (v : Word)
  /-- `Mov_r64_rm64` from the eight bytes at a label -/
  | movLabel (dst : Reg) (l : Label)
  /-- `Add_rm64_r64` -/
  | add (dst src : Reg)
  /-- `Sub_rm64_r64` -/
  | sub (dst src : Reg)
  /-- `Add_rm32_r32` -/
  | add32 (dst src : Reg)
  /-- `Sub_rm32_r32` -/
  | sub32 (dst src : Reg)
  /-- `Sub_rm64_imm32` on `rsp` -/
  | subRsp (n : ℕ)
  /-- `Add_rm64_imm32` on `rsp` -/
  | addRsp (n : ℕ)
  /-- `Call_rel32_64` -/
  | callLabel (l : Label)
  /-- `Call_rm64` on a register -/
  | callReg (r : Reg)
  /-- `Nopd` -/
  | nop
  /-- `Retnq` -/
  | ret
  /-- `DeclareQword` with one element -/
  | dq (v : Word)
  /-- `Zero_bytes`, the assembler's place for a label -/
  | zeroBytes
  deriving DecidableEq, Repr

/-- Data: words, and places without bytes.  The processor is not to come to them,
and they have no address of their own that a `call` or a `ret` could mean. -/
def isData : Instr → Bool
  | .dq _ => true
  | .zeroBytes => true
  | _ => false

/-- Registers and memory, which is all of the machine that emitted code can see. -/
structure State where
  regs : Reg → Word
  mem : Mem

namespace State

/-- Write a register. -/
def set (s : State) (r : Reg) (v : Word) : State :=
  { s with regs := Function.update s.regs r v }

@[simp] theorem set_mem (s : State) (r : Reg) (v : Word) : (s.set r v).mem = s.mem := rfl

@[simp] theorem set_regs_self (s : State) (r : Reg) (v : Word) : (s.set r v).regs r = v := by
  simp [set]

@[simp] theorem set_regs_of_ne (s : State) {r r' : Reg} (v : Word) (h : r' ≠ r) :
    (s.set r v).regs r' = s.regs r' := by
  simp [set, h]

/-- The stack pointer as an address. -/
def sp (s : State) : ℕ := (s.regs .rsp).toNat

/-- The frame pointer as an address. -/
def bp (s : State) : ℕ := (s.regs .rbp).toNat

/-- An address is below `2 ^ 64`, as it comes from a register. -/
theorem sp_lt (s : State) : s.sp < 2 ^ 64 := (s.regs .rsp).isLt

/-- So is the frame pointer. -/
theorem bp_lt (s : State) : s.bp < 2 ^ 64 := (s.regs .rbp).isLt

@[simp] theorem set_sp (s : State) {r : Reg} (v : Word) (h : Reg.rsp ≠ r) :
    (s.set r v).sp = s.sp := by
  simp [sp, h]

@[simp] theorem set_bp (s : State) {r : Reg} (v : Word) (h : Reg.rbp ≠ r) :
    (s.set r v).bp = s.bp := by
  simp [bp, h]

/-- Read the word at an address. -/
def read (s : State) (a : ℕ) : Option Word :=
  if a + 8 ≤ 2 ^ 64 then some (s.mem.load a) else none

/-- Write the word at an address. -/
def write (s : State) (a : ℕ) (v : Word) : Option State :=
  if a + 8 ≤ 2 ^ 64 then some { s with mem := s.mem.store a v } else none

/-- Push a word; there is none below the last slot of the stack. -/
def push (s : State) (v : Word) : Option State :=
  if 8 ≤ s.sp then
    some { regs := Function.update s.regs .rsp (s.regs .rsp - 8)
           mem := s.mem.store (s.sp - 8) v }
  else none

/-- Pop the word at `rsp`. -/
def pop (s : State) : Option (Word × State) :=
  (s.read s.sp).map fun v => (v, s.set .rsp (s.regs .rsp + 8))

/-- The address of the slot `[rbp - off]`. -/
def slot (s : State) (off : ℕ) : ℕ := (s.regs .rbp - BitVec.ofNat 64 off).toNat

/-- The address of `[rbp + off]`. -/
def argSlot (s : State) (off : ℕ) : ℕ := (s.regs .rbp + BitVec.ofNat 64 off).toNat

/-- A stack pointer and a frame pointer, the given words from the stack pointer
upwards, and zeros. -/
def ofStack (sp bp : Word) (ws : List Word) : State where
  regs := fun r => if r = .rsp then sp else if r = .rbp then bp else 0
  mem := ws.zipIdx.foldl (fun m w => Mem.store m (sp.toNat + 8 * w.2) w.1) fun _ => 0

end State

/-- The low half of a register. -/
def low32 (v : Word) : BitVec 32 := v.setWidth 32

/-- The meaning of the instructions that neither transfer control nor name a
label; `none` for those, for the 32-bit stack operations, which have no
encoding in 64-bit mode, and where the machine stops. -/
def exec : Instr → State → Option State
  | .push r, s => s.push (s.regs r)
  | .pop r, s => s.pop.map fun p => p.2.set r p.1
  | .mov dst src, s => some (s.set dst (s.regs src))
  | .store off src, s => s.write (s.slot off) (s.regs src)
  | .load dst off, s => (s.read (s.slot off)).map (s.set dst)
  | .loadArg dst off, s => (s.read (s.argSlot off)).map (s.set dst)
  | .movImm dst v, s => some (s.set dst v)
  | .add dst src, s => some (s.set dst (s.regs dst + s.regs src))
  | .sub dst src, s => some (s.set dst (s.regs dst - s.regs src))
  | .add32 dst src, s =>
      some (s.set dst ((low32 (s.regs dst) + low32 (s.regs src)).setWidth 64))
  | .sub32 dst src, s =>
      some (s.set dst ((low32 (s.regs dst) - low32 (s.regs src)).setWidth 64))
  | .subRsp n, s =>
      if n ≤ s.sp then some (s.set .rsp (s.regs .rsp - BitVec.ofNat 64 n)) else none
  | .addRsp n, s => some (s.set .rsp (s.regs .rsp + BitVec.ofNat 64 n))
  | .nop, s => some s
  | .zeroBytes, s => some s
  | .push32 _, _ => none
  | .pop32 _, _ => none
  | .movLabel _ _, _ => none
  | .callLabel _, _ => none
  | .callReg _, _ => none
  | .ret, _ => none
  | .dq _, _ => none

/-- Straight-line execution: each instruction in its turn, and `none` if one of them
stops the machine. -/
def execList : List Instr → State → Option State
  | [], s => some s
  | i :: is, s => (exec i s).bind (execList is)

@[simp] theorem execList_nil (s : State) : execList [] s = some s := rfl

theorem execList_cons (i : Instr) (is : List Instr) (s : State) :
    execList (i :: is) s = (exec i s).bind (execList is) := rfl

@[simp] theorem execList_singleton (i : Instr) (s : State) : execList [i] s = exec i s := by
  rw [execList_cons]
  cases exec i s <;> rfl

/-- Running two pieces of code one after the other. -/
theorem execList_append (is js : List Instr) (s : State) :
    execList (is ++ js) s = (execList is s).bind (execList js) := by
  induction is generalizing s with
  | nil => rfl
  | cons i is ih =>
      rw [List.cons_append, execList_cons, execList_cons, Option.bind_assoc]
      exact congrArg (Option.bind (exec i s)) (funext fun t => ih t)

/-! ### What the operations do when they succeed

A push or a pop is used in two ways.  Going forward there is room and the state
afterwards is wanted (`push_eq`, `exec_push`); going backward a run has made the
step, and what it must have been is wanted (`push_spec`, `pop_spec`). -/

namespace State

/-- Subtracting within bounds, on addresses: nothing wraps around, and the natural
numbers can be used. -/
theorem toNat_sub_ofNat {w : Word} {n : ℕ} (h : n ≤ w.toNat) :
    (w - BitVec.ofNat 64 n).toNat = w.toNat - n := by
  have hw := w.isLt
  rw [BitVec.toNat_sub, BitVec.toNat_ofNat]
  omega

/-- Adding within bounds, on addresses. -/
theorem toNat_add_ofNat {w : Word} {n : ℕ} (h : w.toNat + n < 2 ^ 64) :
    (w + BitVec.ofNat 64 n).toNat = w.toNat + n := by
  rw [BitVec.toNat_add, BitVec.toNat_ofNat]
  omega

/-- A slot below the frame pointer. -/
theorem slot_eq {s : State} {off : ℕ} (h : off ≤ s.bp) : s.slot off = s.bp - off :=
  toNat_sub_ofNat h

/-- A push that has room. -/
theorem push_eq {s : State} {v : Word} (h : 8 ≤ s.sp) :
    s.push v = some { regs := Function.update s.regs .rsp (s.regs .rsp - 8)
                      mem := s.mem.store (s.sp - 8) v } :=
  if_pos h

/-- A pop inside the address space. -/
theorem pop_eq {s : State} (h : s.sp + 8 ≤ 2 ^ 64) :
    s.pop = some (s.mem.load s.sp, s.set .rsp (s.regs .rsp + 8)) := by
  rw [pop, read, if_pos h]
  rfl

/-- What a push leaves behind: there was room for it, and everything but `rsp` and
the eight bytes below the old top is as it was. -/
theorem push_spec {s s' : State} {v : Word} (h : s.push v = some s') :
    8 ≤ s.sp ∧ s'.sp = s.sp - 8 ∧ s'.mem = s.mem.store (s.sp - 8) v ∧
      ∀ r, r ≠ Reg.rsp → s'.regs r = s.regs r := by
  rw [push] at h
  split at h
  · cases h
    refine ⟨by assumption, ?_, rfl, fun r hr => by simp [hr]⟩
    have := toNat_sub_ofNat (w := s.regs .rsp) (n := 8) (by assumption)
    simpa [sp] using this
  · cases h

/-- What a pop leaves behind.  The word stays in memory, below the new top. -/
theorem pop_spec {s s' : State} {v : Word} (h : s.pop = some (v, s')) :
    s.sp + 8 ≤ 2 ^ 64 ∧ v = s.mem.load s.sp ∧ s' = s.set .rsp (s.regs .rsp + 8) := by
  rw [pop, read] at h
  split at h
  · simp only [Option.map_some, Option.some.injEq, Prod.mk.injEq] at h
    exact ⟨by assumption, h.1.symm, h.2.symm⟩
  · cases h

/-- The stack pointer after a pop that does not reach the last address. -/
theorem sp_set_add (s : State) {n : ℕ} (h : s.sp + n < 2 ^ 64) :
    (s.set .rsp (s.regs .rsp + BitVec.ofNat 64 n)).sp = s.sp + n := by
  simpa [sp] using toNat_add_ofNat (w := s.regs .rsp) h

/-- The stack pointer after an allocation for which there is room. -/
theorem sp_set_sub (s : State) {n : ℕ} (h : n ≤ s.sp) :
    (s.set .rsp (s.regs .rsp - BitVec.ofNat 64 n)).sp = s.sp - n := by
  simpa [sp] using toNat_sub_ofNat (w := s.regs .rsp) h

end State

/-- A push moves one register to a new top of the stack. -/
theorem exec_push {s : State} (r : Reg) (h : 8 ≤ s.sp) :
    ∃ s', exec (.push r) s = some s' ∧ s'.sp = s.sp - 8 ∧
      s'.mem = s.mem.store (s.sp - 8) (s.regs r) ∧
      ∀ q, q ≠ Reg.rsp → s'.regs q = s.regs q := by
  obtain ⟨-, hspec⟩ := State.push_spec (State.push_eq (v := s.regs r) h)
  exact ⟨_, State.push_eq h, hspec⟩

/-- A pop moves the top of the stack to a register.  The register is not `rsp`,
which would be written twice. -/
theorem exec_pop {s : State} {r : Reg} (hr : r ≠ .rsp) (h : s.sp + 8 < 2 ^ 64) :
    ∃ s', exec (.pop r) s = some s' ∧ s'.sp = s.sp + 8 ∧ s'.mem = s.mem ∧
      s'.regs r = s.mem.load s.sp ∧
      ∀ q, q ≠ Reg.rsp → q ≠ r → s'.regs q = s.regs q := by
  refine ⟨(s.set .rsp (s.regs .rsp + 8)).set r (s.mem.load s.sp), ?_, ?_, rfl, by simp, ?_⟩
  · rw [exec, State.pop_eq (by omega)]
    rfl
  · rw [State.set_sp _ _ hr.symm]
    exact s.sp_set_add h
  · intro q hq hqr
    rw [State.set_regs_of_ne _ _ hqr, State.set_regs_of_ne _ _ hq]

/-- A store to a slot inside the address space. -/
theorem exec_store {s : State} {off : ℕ} (r : Reg) (hoff : off ≤ s.bp)
    (h : s.bp - off + 8 ≤ 2 ^ 64) :
    exec (.store off r) s = some { s with mem := s.mem.store (s.bp - off) (s.regs r) } := by
  rw [exec, State.write, State.slot_eq hoff, if_pos h]

/-- A load from a slot inside the address space. -/
theorem exec_load {s : State} {off : ℕ} (r : Reg) (hoff : off ≤ s.bp)
    (h : s.bp - off + 8 ≤ 2 ^ 64) :
    exec (.load r off) s = some (s.set r (s.mem.load (s.bp - off))) := by
  rw [exec, State.read, State.slot_eq hoff, if_pos h]
  rfl

end ParaOS.X86
