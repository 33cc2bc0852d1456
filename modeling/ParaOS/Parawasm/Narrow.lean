import Mathlib.Tactic.IntervalCases
import ParaOS.Parawasm.Acceptance
import ParaOS.Parawasm.FunctionTypes
import ParaOS.Parawasm.Integrity
import ParaOS.Parawasm.NormalForm

/-!
# Functions on `i32`

`handle_instruction` has code for `i32.add` and `i32.sub`, and the params of a
function may be `i32`.  Three things stand between this and working functions.

* The code pops `eax` and pushes it again, and there are no such instructions in
  64-bit mode: a module with arithmetic in it is not assembled.
* The slots of `i32` params are four bytes apart while the prologue stores eight:
  each store overwrites half of the one before it.
* The registers are taken off their queue from the wrong end, so with two params or
  more the slots are those of other arguments.

What is left is a single param that is handed through (`i32_computed_iff`).

### What is load-bearing

`Encodes.rejects`, for one direction: an assembler that took `push eax` in 64-bit
mode would make the code of `i32.add` work.  `Encodes.accepts`, for the other: where
nothing is computed, there is a binary.

The type of the function has to come first in the type section.  `compile` looks
type indices up among function types and functions
(`ParaOS.Parawasm.FunctionTypes`), and with one function type for all functions this
comes out right for index zero only.

A group of declared locals may be empty.  It declares nothing, but `encoding_size`
is asked for its type all the same and panics for a reference type; so the theorem
has a condition on such groups, and `Narrow` only asks that none declares a local.

For two params and more one state is enough: one in which one argument is `1`
and the others are `0`, for each number of params up to six and each of them.  More
than six are a panic.
-/

namespace ParaOS.Parawasm

open Machine X86 Wasm

/-! ## The functions

The class of modules, and what it means for one of their functions to work. -/

/-- The operators on `i32` that have code, and those without a type. -/
def narrow : Operator → Bool
  | .i32Add => true
  | .i32Sub => true
  | .localGet _ => true
  | .nop => true
  | .end => true
  | _ => false

/-- The operators that compute something. -/
def arithmetic32 : Operator → Bool
  | .i32Add => true
  | .i32Sub => true
  | _ => false

/-- A module of functions on `i32`, all of them of one type. -/
structure Narrow (ps : List Payload) (ty : FuncType) : Prop where
  plain : ∀ p ∈ ps, p.nests = false
  complete : ∀ p ∈ ps, Complete p
  types : functionTypesOf (typeSpace ps) = [ty]
  params : ∀ p ∈ ty.params, p = .i32
  returns : ty.returns = [.i32]
  locals : ∀ body ∈ bodies ps, localCount body.locals.items = 0
  operators : ∀ body ∈ bodies ps, ∀ op ∈ body.operators.items, narrow op = true

/-- The arguments of a call, the low halves of registers and, from the seventh on,
of words above the return address. -/
def arguments32 (n : ℕ) (s : X86.State) : List (BitVec 32) :=
  ((integerOrder.take n).map s.regs ++
    (List.range (n - 6)).map fun i => s.mem.load (s.sp + 8 + 8 * i)).map low32

/-- There is a return address on the stack, and room below it for `rbp`, for a word
for each param, and for the operands at every point of the body. -/
structure HasRoom (ty : FuncType) (ops : List Operator) (s : X86.State) : Prop where
  top : s.sp + 8 ≤ 2 ^ 64
  operands : ∀ pre w, pre <+: ops → steps32 pre ⟨[], arguments32 ty.params.length s⟩ = some w →
    8 + 8 * ty.params.length + 8 * w.stack.length ≤ s.sp

/-- After every part of the body the operands are on the machine stack, in eight
bytes each and nothing between them. -/
def OperandSlots (ctx : Context) (ty : FuncType) (ops : List Operator) (s : X86.State) : Prop :=
  ∃ t before, entryCode ty [] = .ok (t, before) ∧
    ∀ pre w, pre <+: ops → steps32 pre ⟨[], arguments32 ty.params.length s⟩ = some w →
      ∃ code s', handleInstructions ctx t.locals pre = .ok code ∧
        execList (before ++ code) s = some s' ∧
        s'.sp + 8 * w.stack.length + t.localsSize = s'.bp ∧
        ∀ (i : ℕ) (v : BitVec 32), w.stack[i]? = some v →
          low32 (s'.mem.load (s'.sp + 8 * i)) = v

/-- `compile` returns, and the function with this body returns what WebAssembly
says. -/
def ComputesI32 (E : Encoder) (P : Parser) (V : Validator) (module : List UInt8) (ty : FuncType)
    (k : ℕ) (body : FunctionBody) : Prop :=
  ∃ (n : ℕ) (asm : AssembledModule) (st : Compiling V) (g : Label),
    compileWithin E P V n module = some (.ok asm) ∧
    compilePayloads E (scan P module).1 = .ok st ∧
    st.got[(functionImports (scan P module).1).length + k]? = some g ∧
    ∀ (address : ℕ → Word) (word : Label → Word) (env : Env) (s : X86.State),
      HasRoom ty body.operators.items s →
        OperandSlots st.toContext ty body.operators.items s ∧
        ∃ j t, (st.program address word).target g = some j ∧
          Returns (st.program address word) env j s t ∧
          result32 body.operators.items (arguments32 ty.params.length s) =
            some (low32 (t.regs .rax))

/-! ## Bodies without arithmetic

With nothing computed there is nothing to return but a param, and a valid body reads
it once. -/

/-- A body without arithmetic that is well typed reads locals, and each of them
leaves an operand. -/
theorem typeOps_quiet {C : TypeContext} {ops : List Operator} {ts ts' : List Ty}
    (hops : ∀ op ∈ ops, narrow op = true ∧ arithmetic32 op = false)
    (h : typeOps C ts ops = some ts') :
    (∃ a, ops = List.replicate a .nop ∧ ts' = ts) ∨
    (∃ a b i t, ops = List.replicate a .nop ++ .localGet i :: List.replicate b .nop ∧
      C.locals[i]? = some t ∧ ts' = t :: ts) ∨ ts.length + 2 ≤ ts'.length := by
  induction ops generalizing ts with
  | nil =>
      cases h
      exact .inl ⟨0, rfl, rfl⟩
  | cons op ops ih =>
      rw [List.forall_mem_cons] at hops
      rw [typeOps, Option.bind_eq_some_iff] at h
      obtain ⟨ts₁, hts₁, h⟩ := h
      cases op with
      | nop =>
          cases hts₁
          rcases ih hops.2 h with ⟨a, rfl, rfl⟩ | ⟨a, b, i, t, rfl, ht, rfl⟩ | hlen
          · exact .inl ⟨a + 1, rfl, rfl⟩
          · exact .inr (.inl ⟨a + 1, b, i, t, rfl, ht, rfl⟩)
          · exact .inr (.inr hlen)
      | localGet i =>
          obtain ⟨t, ht, rfl⟩ := Option.map_eq_some_iff.mp hts₁
          rcases ih hops.2 h with ⟨b, rfl, rfl⟩ | ⟨a, b, j, t', -, -, rfl⟩ | hlen
          · exact .inr (.inl ⟨0, b, i, t, rfl, ht, rfl⟩)
          · exact .inr (.inr (by simp))
          · rw [List.length_cons] at hlen
            exact .inr (.inr (by omega))
      | «end» => cases hts₁
      | i32Add => cases hops.1.2
      | i32Sub => cases hops.1.2
      | _ => cases hops.1.1

/-- A body that reads param `i` and returns it, with `a` operators that do nothing
before it and `b` after it. -/
def passOn (a b i : ℕ) : List Operator :=
  List.replicate a .nop ++ .localGet i :: (List.replicate b .nop ++ [.end])

/-- **A body without arithmetic hands one of its params through.** -/
theorem exists_localGet {C : TypeContext} {ops : List Operator} {t : Ty}
    (hops : ∀ op ∈ ops, narrow op = true ∧ arithmetic32 op = false)
    (h : WellTyped C [t] ops) :
    ∃ a b i, ops = passOn a b i ∧ i < C.locals.length := by
  obtain ⟨init, rfl, hinit⟩ := h
  have hops' := fun op hop => hops op (List.mem_append_left _ hop)
  rcases typeOps_quiet hops' hinit with ⟨a, -, hnil⟩ | ⟨a, b, i, t', rfl, ht', -⟩ | hlen
  · cases hnil
  · exact ⟨a, b, i, by simp [passOn], (List.getElem?_eq_some_iff.mp ht').1⟩
  · simp at hlen

/-! ## Their code

The lists of instructions in full, so that the rest is about lists and registers. -/

/-- The prologue of a function of `n` params that are `i32`. -/
def narrowEntry (n : ℕ) : List Instr :=
  [.push .rbp, .mov .rbp .rsp, .subRsp (4 * n)] ++
    List.zipWith .store ((List.range n).map fun i => 4 * (i + 1)) (integerOrder.take n).reverse

/-- The code of a function of `n` params that hands param `i` through, with `a`
operators that do nothing before it and `b` after it. -/
def handThrough (n i a b : ℕ) : List Instr :=
  narrowEntry n ++
    (List.replicate a .nop ++ .load .rax (4 * (i + 1)) :: .push .rax :: List.replicate b .nop) ++
    [.pop .rax, .addRsp (4 * n), .mov .rsp .rbp, .pop .rbp, .ret]

/-- The prologue of a function on `i32`: slots four bytes apart, -/
theorem entryCode_i32 {n : ℕ} (hpos : 0 < n) (hn : n ≤ 6) (rs : List Ty) :
    entryCode ⟨List.replicate n .i32, rs⟩ [] =
      .ok (⟨(List.range n).map fun i => 4 * (i + 1), 4 * n⟩, narrowEntry n) := by
  interval_cases n <;> rfl

/-- and its epilogue. -/
theorem epilogue_i32 {n : ℕ} (hpos : 0 < n) (hn : n ≤ 6) :
    epilogue [.i32] (4 * n) =
      .ok [.pop .rax, .addRsp (4 * n), .mov .rsp .rbp, .pop .rbp, .ret] := by
  interval_cases n <;> rfl

variable {V : Validator} {E : Encoder} {ctx : Context} {n i a b : ℕ}

/-- Operators that do nothing are `nop`s. -/
theorem handleInstructions_nops (locals : List ℕ) (a : ℕ) :
    handleInstructions ctx locals (List.replicate a .nop) = .ok (List.replicate a .nop) := by
  induction a with
  | zero => rfl
  | succ a ih => exact handleInstructions_cons.mpr ⟨[.nop], _, rfl, ih, rfl⟩

/-- The code of a body that hands a param through. -/
theorem handleInstructions_handThrough (hi : i < n) (a b : ℕ) :
    handleInstructions ctx ((List.range n).map fun i => 4 * (i + 1)) (passOn a b i) =
      .ok (List.replicate a .nop ++
        .load .rax (4 * (i + 1)) :: .push .rax :: List.replicate b .nop) := by
  have hget : handleInstruction ctx ((List.range n).map fun i => 4 * (i + 1)) (.localGet i) =
      .ok [.load .rax (4 * (i + 1)), .push .rax] := by
    simp [handleInstruction, hi]
  have hrest : handleInstructions ctx ((List.range n).map fun i => 4 * (i + 1))
      (List.replicate b .nop ++ [.end]) = .ok (List.replicate b .nop) :=
    handleInstructions_append.mpr ⟨_, [], handleInstructions_nops _ b, rfl, by simp⟩
  exact handleInstructions_append.mpr ⟨_, _, handleInstructions_nops _ a,
    handleInstructions_cons.mpr ⟨_, _, hget, hrest, rfl⟩, rfl⟩

/-- What is left of the operand on its way to `rax`. -/
def handedOver : ℕ → List Instr
  | 0 => []
  | b + 1 => .push .rax :: (List.replicate (b + 1) .nop ++ [.pop .rax])

/-- The operand is pushed and popped, at once or with `nop`s in between. -/
theorem optimized_handedOver (n b : ℕ) :
    optimized (.push .rax :: (List.replicate b .nop ++ [.pop .rax, .addRsp (4 * n)])) =
      handedOver b ++ [.addRsp (4 * n)] := by
  cases b with
  | zero =>
      have hfirst : pass [.push .rax, .pop .rax, .addRsp (4 * n)] =
          [.mov .rax .rax, .addRsp (4 * n)] := rfl
      have hsecond : pass [.mov .rax .rax, .addRsp (4 * n)] = [.addRsp (4 * n)] := rfl
      change optimized [.push .rax, .pop .rax, .addRsp (4 * n)] = [.addRsp (4 * n)]
      rw [← optimized_pass, hfirst, ← optimized_pass, hsecond]
      exact optimized_of_fixed rfl
  | succ b =>
      have hpush : optimized (.push .rax :: List.replicate (b + 1) .nop) =
          .push .rax :: List.replicate (b + 1) .nop := by
        change optimized ([.push .rax, .nop] ++ List.replicate b .nop) = _
        rw [optimized_append _ (stops_of_getLast? rfl rfl),
          optimized_of_fixed (show pass [.push .rax, .nop] = _ from rfl),
          optimized_of_stops fun i hi => by rw [List.eq_of_mem_replicate hi]; rfl]
        rfl
      have hstops : Stops (.push .rax :: List.replicate (b + 1) .nop) := by
        rw [List.replicate_succ', ← List.cons_append]
        exact stops_concat rfl
      rw [← List.cons_append, optimized_append _ hstops, hpush,
        optimized_of_fixed (show pass [.pop .rax, .addRsp (4 * n)] = _ from rfl)]
      simp [handedOver]

/-- The code that is left of a function that hands a param through, up to its
`ret`. -/
def handedThrough (n i a b : ℕ) : List Instr :=
  narrowEntry n ++ List.replicate a Instr.nop ++ [Instr.load .rax (4 * (i + 1))] ++
    handedOver b ++ [Instr.addRsp (4 * n), .mov .rsp .rbp, .pop .rbp]

/-- The stores of the params and the load of one of them. -/
def storesAndLoad (n i a : ℕ) : List Instr :=
  List.zipWith Instr.store ((List.range n).map fun i => 4 * (i + 1))
    (integerOrder.take n).reverse ++ List.replicate a Instr.nop ++
      [Instr.load .rax (4 * (i + 1))]

/-- No rule mentions stores and loads. -/
theorem stop_storesAndLoad (n i a : ℕ) : ∀ i' ∈ storesAndLoad n i a, stop i' = true := by
  intro i' hi'
  rw [storesAndLoad, List.mem_append, List.mem_append] at hi'
  rcases hi' with (hi' | hi') | hi'
  · obtain ⟨k, hk, rfl⟩ := List.mem_iff_getElem.mp hi'
    rw [List.getElem_zipWith]
    rfl
  · rw [List.eq_of_mem_replicate hi']
    rfl
  · rw [List.mem_singleton.mp hi']
    rfl

/-- What the optimiser leaves of such a function. -/
theorem optimized_handThrough (n i a b : ℕ) :
    optimized (handThrough n i a b) = handedThrough n i a b ++ [.ret] := by
  have hsplit : handThrough n i a b = [.push .rbp, .mov .rbp .rsp, .subRsp (4 * n)] ++
      storesAndLoad n i a ++
      (.push .rax :: (List.replicate b .nop ++ [.pop .rax, .addRsp (4 * n)])) ++
      [.mov .rsp .rbp, .pop .rbp, .ret] := by
    simp [handThrough, narrowEntry, storesAndLoad]
  have hmid : Stops (.push .rax :: (List.replicate b .nop ++ [.pop .rax, .addRsp (4 * n)])) := by
    rw [← List.cons_append]
    exact stops_of_getLast? (List.getLast?_append_cons ..) rfl
  have hfirst : Stops ([.push .rbp, .mov .rbp .rsp, .subRsp (4 * n)] ++
      storesAndLoad n i a) := by
    rw [storesAndLoad, ← List.append_assoc]
    exact stops_concat rfl
  rw [hsplit, optimized_append _ (hfirst.append hmid), optimized_append _ hfirst,
    optimized_append _ (stops_of_getLast? rfl rfl),
    optimized_of_stops (stop_storesAndLoad n i a), optimized_handedOver,
    optimized_of_fixed (show pass [.push .rbp, .mov .rbp .rsp, .subRsp (4 * n)] = _ from rfl),
    optimized_of_fixed (show pass [.mov .rsp .rbp, .pop .rbp, .ret] = _ from rfl)]
  simp [handedThrough, narrowEntry, storesAndLoad]

/-! ## What it does

Straight-line code from the first instruction to the `ret`, in any state with room. -/

variable {s s₁ t : X86.State} {P : Program} {env : Env}

/-- `nop`s do nothing. -/
theorem execList_nops (a : ℕ) (s : X86.State) : execList (List.replicate a .nop) s = some s := by
  induction a with
  | zero => rfl
  | succ a ih => rw [List.replicate_succ, execList_cons, exec, Option.bind_some, ih]

/-- The operand gets to `rax` in either form. -/
theorem exec_handedOver (b : ℕ) (h : 8 ≤ s.sp) :
    ∃ s', execList (handedOver b) s = some s' ∧ s'.regs .rax = s.regs .rax ∧
      s'.regs .rbp = s.regs .rbp := by
  cases b with
  | zero => exact ⟨s, rfl, rfl, rfl⟩
  | succ b =>
      have hlt := s.sp_lt
      obtain ⟨s₁, h₁, hsp₁, hmem₁, hregs₁⟩ := exec_push .rax h
      obtain ⟨s₂, h₂, -, -, hrax₂, hregs₂⟩ :=
        exec_pop (s := s₁) (r := .rax) (by decide) (by omega)
      refine ⟨s₂, ?_, ?_, ?_⟩
      · rw [handedOver, execList_cons, h₁, Option.bind_some, execList_append, execList_nops,
          Option.bind_some, execList_singleton, h₂]
      · rw [hrax₂, hmem₁, hsp₁, Mem.load_store_self]
      · rw [hregs₂ _ (by decide) (by decide), hregs₁ _ (by decide)]

/-- **A function that hands a param through returns what is in its slot.** -/
theorem exec_handThrough (hentry : execList (narrowEntry n) s = some s₁)
    (hbp : s₁.bp + 16 ≤ 2 ^ 64) (hsp : 8 ≤ s₁.sp) (hoff : 4 * (i + 1) ≤ s₁.bp) (a b : ℕ) :
    ∃ s' w t, execList (handedThrough n i a b) s = some s' ∧ s'.pop = some (w, t) ∧
      t.regs .rax = s₁.mem.load (s₁.bp - 4 * (i + 1)) := by
  have hload := exec_load .rax hoff (by omega)
  have hsp₂ : (s₁.set .rax (s₁.mem.load (s₁.bp - 4 * (i + 1)))).sp = s₁.sp :=
    State.set_sp _ _ (by decide)
  obtain ⟨s₃, h₃, hrax₃, hrbp₃⟩ := exec_handedOver b (by rw [hsp₂]; exact hsp)
  rw [State.set_regs_self] at hrax₃
  rw [State.set_regs_of_ne _ _ (by decide)] at hrbp₃
  have hfree : exec (.addRsp (4 * n)) s₃ =
      some (s₃.set .rsp (s₃.regs .rsp + BitVec.ofNat 64 (4 * n))) := rfl
  have hbp₄ : (s₃.set .rsp (s₃.regs .rsp + BitVec.ofNat 64 (4 * n))).bp = s₁.bp := by
    rw [State.set_bp _ _ (by decide), State.bp, hrbp₃, State.bp]
  obtain ⟨s', h', hsp', -, hregs'⟩ := exec_leave (by rw [hbp₄]; omega)
  refine ⟨s', _, _, ?_, State.pop_eq (by omega), ?_⟩
  · rw [handedThrough, execList_append, execList_append, execList_append, execList_append, hentry,
      Option.bind_some, execList_nops, Option.bind_some, execList_singleton, hload,
      Option.bind_some, h₃, Option.bind_some, execList_cons, hfree, Option.bind_some, h']
  · rw [State.set_regs_of_ne _ _ (by decide), hregs' _ (by decide) (by decide),
      State.set_regs_of_ne _ _ (by decide), hrax₃]

/-- The call returns, and what it returns is in the slot. -/
theorem returns_handThrough {j : ℕ} {rest : List Instr}
    (hcode : P.code.drop j = optimized (handThrough n i a b) ++ rest)
    (hentry : execList (narrowEntry n) s = some s₁) (hbp : s₁.bp + 16 ≤ 2 ^ 64)
    (hsp : 8 ≤ s₁.sp) (hoff : 4 * (i + 1) ≤ s₁.bp) :
    (∃ t, Returns P env j s t) ∧
      ∀ t, Returns P env j s t → t.regs .rax = s₁.mem.load (s₁.bp - 4 * (i + 1)) := by
  obtain ⟨s', w, t, hrun, hpop, hrax⟩ := exec_handThrough hentry hbp hsp hoff a b
  have hrun' := Program.run_of_execList (P := P) hrun
  rw [optimized_handThrough, List.append_assoc, List.singleton_append] at hcode
  have hiff : ∀ t, Returns P env j s t ↔ _ := fun t => returns_iff_run hcode (plain_of_run hrun')
  refine ⟨⟨t, (hiff t).mpr ⟨s', w, hrun', hpop⟩⟩, fun t' ht' => ?_⟩
  obtain ⟨s'', w', hrun'', hpop'⟩ := (hiff t').mp ht'
  rw [hrun'] at hrun''
  cases hrun''
  rw [hpop] at hpop'
  cases hpop'
  exact hrax

/-! ### One param -/

/-- With one param the slot has the argument, in its low half. -/
theorem exec_narrowEntry_one (h : 12 ≤ s.sp) :
    ∃ s₁, execList (narrowEntry 1) s = some s₁ ∧ s₁.bp + 8 = s.sp ∧ s₁.sp + 4 = s₁.bp ∧
      s₁.mem.load (s₁.bp - 4) = s.regs .rdi := by
  have hlt := s.sp_lt
  obtain ⟨s₁, h₁, hsp₁, -, hregs₁⟩ := exec_push (s := s) .rbp (by omega)
  have h₂ : exec (.mov .rbp .rsp) s₁ = some (s₁.set .rbp (s₁.regs .rsp)) := rfl
  have hbp₂ : (s₁.set .rbp (s₁.regs .rsp)).bp = s₁.sp := by simp [State.bp, State.sp]
  have hsp₂ : (s₁.set .rbp (s₁.regs .rsp)).sp = s₁.sp := State.set_sp _ _ (by decide)
  have hsize₂ : 4 ≤ (s₁.set .rbp (s₁.regs .rsp)).sp := by omega
  obtain ⟨s₃, h₃, hsp₃, -, hregs₃⟩ := exec_alloc hsize₂
  have hbp₃ : s₃.bp = s₁.sp := by rw [← hbp₂, State.bp, State.bp, hregs₃ _ (by decide)]
  have hrdi : s₃.regs .rdi = s.regs .rdi := by
    rw [hregs₃ _ (by decide), State.set_regs_of_ne _ _ (by decide), hregs₁ _ (by decide)]
  have hoff : 4 ≤ s₃.bp := by omega
  have h₄ := exec_store .rdi hoff (by omega)
  refine ⟨{ s₃ with mem := s₃.mem.store (s₃.bp - 4) (s₃.regs .rdi) }, ?_, ?_, ?_, ?_⟩
  · change execList ([.push .rbp, .mov .rbp .rsp] ++ [.subRsp 4] ++ [.store 4 .rdi]) s = _
    rw [execList_append, execList_append, execList_cons, h₁, Option.bind_some, execList_singleton,
      h₂, Option.bind_some]
    change ((execList (if 4 = 0 then [] else [.subRsp 4]) _).bind _) = _
    rw [h₃, Option.bind_some, execList_singleton, h₄]
  · change s₃.bp + 8 = _
    omega
  · change s₃.sp + 4 = s₃.bp
    omega
  · change (s₃.mem.store (s₃.bp - 4) (s₃.regs .rdi)).load (s₃.bp - 4) = _
    rw [Mem.load_store_self, hrdi]

/-! ### More than one -/

/-- A call with `1` for argument `i` and zeros. -/
def oneAt (i : ℕ) : X86.State :=
  ((X86.State.ofStack 128 0 []).set (integerOrder.getD i .rdi) 1)

/-- What holds for each number of params from two to six and each param. -/
theorem forall_counts {p : ℕ → ℕ → Prop} (h : ∀ n ∈ [2, 3, 4, 5, 6], ∀ i ∈ List.range n, p n i)
    (hn : 2 ≤ n) (hn' : n ≤ 6) (hi : i < n) : p n i := by
  have hmem : n ∈ [2, 3, 4, 5, 6] := by
    simp
    omega
  exact h n hmem i (List.mem_range.mpr hi)

/-- **The argument is lost**: with two params or more, none of the slots has its
own. -/
theorem exec_narrowEntry_oneAt (hn : 2 ≤ n) (hn' : n ≤ 6) (hi : i < n) :
    ∃ s₁, execList (narrowEntry n) (oneAt i) = some s₁ ∧ s₁.bp = 120 ∧ s₁.sp + 4 * n = 120 ∧
      low32 (s₁.mem.load (120 - 4 * (i + 1))) = 0 := by
  have hall : ∀ n ∈ [2, 3, 4, 5, 6], ∀ i ∈ List.range n,
      (execList (narrowEntry n) (oneAt i)).map
        (fun s₁ => (s₁.bp, s₁.sp + 4 * n, low32 (s₁.mem.load (120 - 4 * (i + 1))))) =
        some (120, 120, 0) := by
    decide +kernel
  obtain ⟨s₁, hs₁, heq⟩ := Option.map_eq_some_iff.mp (forall_counts hall hn hn' hi)
  simp only [Prod.mk.injEq] at heq
  exact ⟨s₁, hs₁, heq⟩

/-! ## Operands in their slots

That operands take eight bytes each and lie next to each other is a result of its
own, about every point of a body. -/

/-- The operands are on the machine stack and the params in their slots, as far as
their low halves go. -/
structure Holds (offs : List ℕ) (size : ℕ) (w : State32) (s : X86.State) : Prop where
  top : s.bp + 8 ≤ 2 ^ 64
  depth : s.sp + 8 * w.stack.length + size = s.bp
  operands : ∀ (i : ℕ) (v : BitVec 32), w.stack[i]? = some v →
    low32 (s.mem.load (s.sp + 8 * i)) = v
  locals : ∀ (i : ℕ) (v : BitVec 32), w.locals[i]? = some v →
    ∃ off, offs[i]? = some off ∧ off ≤ size ∧ low32 (s.mem.load (s.bp - off)) = v

variable {offs : List ℕ} {size : ℕ} {w w' : State32} {op : Operator} {ops : List Operator}
  {code : List Instr}

/-- A param that is read is on top of the operands. -/
theorem Holds.localGet (h : Holds offs size w s) {v : BitVec 32} (hv : w.locals[i]? = some v)
    (hcode : handleInstruction ctx offs (.localGet i) = .ok code) (hroom : 8 ≤ s.sp) :
    ∃ s', execList code s = some s' ∧ s'.bp = s.bp ∧
      Holds offs size { w with stack := v :: w.stack } s' := by
  obtain ⟨off, hoff, hle, hload⟩ := h.locals i v hv
  have hdepth := h.depth
  have htop := h.top
  rw [handleInstruction, hoff] at hcode
  cases hcode
  have h₁ := exec_load (s := s) .rax (show off ≤ s.bp by omega) (by omega)
  have hsp₁ : (s.set .rax (s.mem.load (s.bp - off))).sp = s.sp := State.set_sp _ _ (by decide)
  obtain ⟨s₂, h₂, hsp₂, hmem₂, hregs₂⟩ := exec_push .rax (by rw [hsp₁]; exact hroom)
  rw [hsp₁, State.set_mem, State.set_regs_self] at hmem₂
  rw [hsp₁] at hsp₂
  have hbp₂ : s₂.bp = s.bp := by
    rw [State.bp, hregs₂ _ (by decide), State.set_regs_of_ne _ _ (by decide), State.bp]
  refine ⟨s₂, ?_, hbp₂, ⟨by omega, ?_, fun k v' hk => ?_, fun k v' hk => ?_⟩⟩
  · rw [execList_cons, h₁, Option.bind_some, execList_singleton, h₂]
  · dsimp only
    rw [List.length_cons]
    omega
  · cases k with
    | zero =>
        cases hk
        rw [hmem₂, hsp₂, Nat.mul_zero, Nat.add_zero, Mem.load_store_self, hload]
    | succ k =>
        rw [hmem₂, Mem.load_store_of_disjoint (by omega),
          show s₂.sp + 8 * (k + 1) = s.sp + 8 * k by omega]
        exact h.operands k v' hk
  · obtain ⟨off', hoff', hle', hload'⟩ := h.locals k v' hk
    refine ⟨off', hoff', hle', ?_⟩
    rw [hbp₂, hmem₂, Mem.load_store_of_disjoint (by omega), hload']

/-- One operator that computes nothing. -/
theorem Holds.step (h : Holds offs size w s) (hop : arithmetic32 op = false)
    (hw : step32 op w = some w') (hcode : handleInstruction ctx offs op = .ok code)
    (hroom : 8 * w'.stack.length + size ≤ s.bp) :
    ∃ s', execList code s = some s' ∧ s'.bp = s.bp ∧ Holds offs size w' s' := by
  cases op with
  | nop =>
      cases hw
      cases hcode
      exact ⟨s, rfl, rfl, h⟩
  | «end» =>
      cases hw
      cases hcode
      exact ⟨s, rfl, rfl, h⟩
  | localGet i =>
      obtain ⟨v, hv, rfl⟩ := Option.map_eq_some_iff.mp hw
      have hdepth := h.depth
      rw [List.length_cons] at hroom
      exact h.localGet hv hcode (by omega)
  | i32Add => cases hop
  | i32Sub => cases hop
  | _ => cases hw

/-- A sequence of them. -/
theorem Holds.steps (h : Holds offs size w s) (hops : ∀ op ∈ ops, arithmetic32 op = false)
    (hw : steps32 ops w = some w') (hcode : handleInstructions ctx offs ops = .ok code)
    (hroom : ∀ pre w₁, pre <+: ops → steps32 pre w = some w₁ →
      8 * w₁.stack.length + size ≤ s.bp) :
    ∃ s', execList code s = some s' ∧ Holds offs size w' s' := by
  induction ops generalizing w s code with
  | nil =>
      cases hw
      cases hcode
      exact ⟨s, rfl, h⟩
  | cons op ops ih =>
      rw [List.forall_mem_cons] at hops
      rw [steps32_cons, Option.bind_eq_some_iff] at hw
      obtain ⟨w₁, hw₁, hw⟩ := hw
      obtain ⟨c, r, hc, hr, rfl⟩ := handleInstructions_cons.mp hcode
      have hroom₁ := hroom [op] w₁ ⟨ops, rfl⟩ (by rw [steps32_cons, hw₁]; rfl)
      obtain ⟨s₁, hs₁, hbp₁, h₁⟩ := h.step hops.1 hw₁ hc hroom₁
      have hroom' : ∀ pre w₂, pre <+: ops → steps32 pre w₁ = some w₂ →
          8 * w₂.stack.length + size ≤ s₁.bp := by
        intro pre w₂ hpre hw₂
        rw [hbp₁]
        exact hroom (op :: pre) w₂ ((List.prefix_cons_inj op).mpr hpre)
          (by rw [steps32_cons, hw₁, Option.bind_some, hw₂])
      obtain ⟨s', hs', h'⟩ := ih h₁ hops.2 hw hr hroom'
      exact ⟨s', by rw [execList_append, hs₁, Option.bind_some, hs'], h'⟩

/-- **Operands of a function with one param are in their slots**, if nothing is
computed. -/
theorem operandSlots_one (hops : ∀ op ∈ ops, arithmetic32 op = false)
    (hcode : handleInstructions ctx [4] ops = .ok code) (h : HasRoom ⟨[.i32], [.i32]⟩ ops s) :
    OperandSlots ctx ⟨[.i32], [.i32]⟩ ops s := by
  refine ⟨⟨[4], 4⟩, narrowEntry 1, rfl, fun pre w hpre hw => ?_⟩
  have hsp := h.operands [] _ ⟨ops, rfl⟩ rfl
  simp only [List.length_singleton, List.length_nil] at hsp
  obtain ⟨s₁, hs₁, hbp₁, hsp₁, hload₁⟩ := exec_narrowEntry_one (s := s) (by omega)
  have hstart : Holds [4] 4 ⟨[], arguments32 1 s⟩ s₁ := by
    refine ⟨by have := s.sp_lt; omega, by simpa using hsp₁, fun i v hv => by simp at hv,
      fun i v hv => ?_⟩
    cases i with
    | zero =>
        cases hv
        exact ⟨4, rfl, le_rfl, congrArg low32 hload₁⟩
    | succ i => cases hv
  obtain ⟨post, rfl⟩ := hpre
  obtain ⟨c, r, hc, -, -⟩ := handleInstructions_append.mp hcode
  obtain ⟨s', hs', h'⟩ := hstart.steps (fun op hop => hops op (List.mem_append_left _ hop)) hw hc
    (fun pre' w₁ hpre' hw₁ => by
      have := h.operands pre' w₁ (hpre'.trans (List.prefix_append _ _)) hw₁
      simp only [List.length_singleton] at this
      omega)
  exact ⟨c, s', hc, by rw [execList_append, hs₁, Option.bind_some, hs'], h'.depth, h'.operands⟩

/-! ## Types

The lookup of types, where there is one function type only. -/

section Types

variable {ps : List Payload} {ty : FuncType}

/-- Every function of the module is declared with its one type. -/
theorem Narrow.typeAt (h : Narrow ps ty) (hvalid : Valid ps) {t : ℕ}
    (ht : t ∈ countedFunctions ps) : Wasm.typeAt ps t = some ty := by
  rw [← filterMap_funcSpace] at ht
  obtain ⟨d, hd, hdt⟩ := List.mem_filterMap.mp ht
  obtain ⟨ty', hty'⟩ := hvalid.types d hd t hdt
  have hmem : ty' ∈ functionTypesOf (typeSpace ps) := by
    obtain ⟨x, hx, hfunc⟩ := Option.bind_eq_some_iff.mp hty'
    exact List.mem_filterMap.mpr ⟨x, List.mem_of_getElem? hx, hfunc⟩
  rw [h.types, List.mem_singleton] at hmem
  rw [hty', hmem]

/-- A type that comes first is the only one with a function type. -/
theorem Narrow.eq_zero (h : Narrow ps ty) (hfirst : Wasm.typeAt ps 0 = some ty) {t : ℕ}
    (ht : Wasm.typeAt ps t = some ty) : t = 0 := by
  have htypes := h.types
  rw [Wasm.typeAt] at hfirst ht
  cases hspace : typeSpace ps with
  | nil =>
      rw [hspace] at hfirst
      cases hfirst
  | cons x xs =>
      rw [hspace] at hfirst ht htypes
      have hx : x.func? = some ty := hfirst
      rw [functionTypesOf, List.filterMap_cons, hx] at htypes
      have hnil : xs.filterMap TypeDef.func? = [] := List.tail_eq_of_cons_eq htypes
      cases t with
      | zero => rfl
      | succ t =>
          obtain ⟨y, hy, hfunc⟩ := Option.bind_eq_some_iff.mp ht
          have hnone := List.filterMap_eq_nil_iff.mp hnil y (List.mem_of_getElem? hy)
          rw [hnone] at hfunc
          cases hfunc

/-- **The type a body is compiled with is the one type of the module**, if it is
the first of its types, and there is none otherwise. -/
theorem Narrow.functionType_iff {pre : List Payload} {its : List Item} {st : Compiling V}
    (h : Narrow ps ty) (hvalid : Valid ps) (hread : Reading pre its st)
    (hcounted : countedFunctions pre = countedFunctions ps) (htypes : typeSpace pre = typeSpace ps)
    {f : ℕ} (hf : f < (countedFunctions ps).length) {ty' : FuncType} :
    st.functionType f = some ty' ↔ Wasm.typeAt ps 0 = some ty ∧ ty' = ty := by
  rw [hread.functionType, hcounted, htypes, h.types]
  constructor
  · intro hty'
    obtain ⟨u, hu, hty'⟩ := Option.bind_eq_some_iff.mp hty'
    obtain ⟨t, -, hu⟩ := Option.bind_eq_some_iff.mp hu
    cases u with
    | zero => exact ⟨h.typeAt hvalid (List.mem_of_getElem? hu), (Option.some.inj hty').symm⟩
    | succ u => cases hty'
  · rintro ⟨hfirst, rfl⟩
    have hzero : ∀ k < (countedFunctions ps).length, (countedFunctions ps)[k]? = some 0 := by
      intro k hk
      have hget := List.getElem?_eq_getElem hk
      rw [hget, h.eq_zero hfirst (h.typeAt hvalid (List.mem_of_getElem? hget))]
    rw [hzero f hf, Option.bind_some, hzero 0 (by omega), Option.bind_some]
    rfl

end Types

/-! ## Arithmetic -/

/-- Arithmetic pops a 32-bit register. -/
theorem exists_stack32 (hcode : handleInstructions ctx offs ops = .ok code) (hmem : op ∈ ops)
    (hop : arithmetic32 op = true) : ∃ i ∈ code, stack32 i = true := by
  obtain ⟨pre, post, rfl⟩ := List.append_of_mem hmem
  obtain ⟨c, r, -, hr, rfl⟩ := handleInstructions_append.mp hcode
  obtain ⟨c', r', hc', -, rfl⟩ := handleInstructions_cons.mp hr
  have hpop : .pop32 .rax ∈ c' := by
    cases op with
    | i32Add =>
        cases hc'
        simp
    | i32Sub =>
        cases hc'
        simp
    | _ => cases hop
  exact ⟨_, List.mem_append_right _ (List.mem_append_left _ hpop), rfl⟩

/-- **In what is compiled nothing is computed.** -/
theorem arithmetic_of_compiled {ps : List Payload} {its : List Item} {st : Compiling V}
    {asm : AssembledModule} (hEnc : E.Encodes) (hread : Reading ps its st)
    (hcomp : CompiledWith V ps its st.toContext) (hasm : assembleModule E st = .ok asm) :
    ∀ body ∈ bodies ps, ∀ op ∈ body.operators.items, arithmetic32 op = false := by
  intro body hbody op hop
  by_contra harith
  rw [Bool.not_eq_false] at harith
  obtain ⟨k, hk⟩ := List.mem_iff_getElem?.mp hbody
  obtain ⟨hlt, -⟩ := List.getElem?_eq_some_iff.mp hk
  obtain ⟨⟨f, g, code⟩, hget⟩ : ∃ x, (its.filterMap Item.body?)[k]? = some x :=
    ⟨_, List.getElem?_eq_getElem (hread.length_bodies ▸ hlt)⟩
  obtain ⟨-, -, body', ty, φ, height, hbody', -, hcode⟩ := hcomp k f g code hget
  rw [hk] at hbody'
  cases hbody'
  obtain ⟨order, t, before, middle, after, -, -, -, hmiddle, -, hout⟩ := compileBody_eq_ok hcode
  obtain ⟨i, hi, hstack⟩ := exists_stack32 hmiddle hop harith
  have hmem : i ∈ st.instructions := by
    rw [hread.emitted.instructions]
    refine List.mem_flatMap.mpr ⟨_, mem_of_body? hget, ?_⟩
    change i ∈ code
    rw [show code = _ from hout]
    exact List.mem_append_left _ (List.mem_append_right _ hi)
  have := not_stack32_of_assembleModule hEnc hasm i hmem
  rw [hstack] at this
  cases this

/-! ## Handing a param through -/

/-- Operators that do nothing do nothing. -/
theorem steps32_nops (a : ℕ) (ops : List Operator) (w : State32) :
    steps32 (List.replicate a .nop ++ ops) w = steps32 ops w := by
  induction a with
  | zero => rfl
  | succ a ih =>
      rw [List.replicate_succ, List.cons_append, steps32_cons]
      exact ih

/-- A body that hands a param through leaves it on the stack, -/
theorem steps32_passOn (a b : ℕ) {args : List (BitVec 32)} {v : BitVec 32}
    (hv : args[i]? = some v) : steps32 (passOn a b i) ⟨[], args⟩ = some ⟨[v], args⟩ := by
  rw [passOn, steps32_nops, steps32_cons, step32, hv, Option.map_some, Option.bind_some,
    steps32_nops]
  rfl

/-- and returns it. -/
theorem result32_handThrough (a b : ℕ) {args : List (BitVec 32)} {v : BitVec 32}
    (hv : args[i]? = some v) : result32 (passOn a b i) args = some v := by
  rw [result32, steps32_passOn a b hv]
  rfl

/-- Operators that push an operand. -/
def pushes32 : Operator → Bool
  | .localGet _ => true
  | _ => false

/-- Each operator pushes at most one operand. -/
theorem length_steps32 {pre : List Operator} (h : steps32 pre w = some w') :
    w'.stack.length ≤ w.stack.length + pre.countP pushes32 := by
  induction pre generalizing w with
  | nil =>
      cases h
      simp
  | cons op pre ih =>
      rw [steps32_cons, Option.bind_eq_some_iff] at h
      obtain ⟨w₁, hw₁, h⟩ := h
      have hrest := ih h
      have hone : w₁.stack.length ≤ w.stack.length + if pushes32 op then 1 else 0 := by
        cases op with
        | localGet i =>
            obtain ⟨v, -, rfl⟩ := Option.map_eq_some_iff.mp hw₁
            simp [pushes32]
        | i32Add =>
            obtain ⟨stack, ls⟩ := w
            match stack, hw₁ with
            | b :: a :: st, hw₁ =>
                cases hw₁
                rw [List.length_cons, List.length_cons, List.length_cons]
                omega
        | i32Sub =>
            obtain ⟨stack, ls⟩ := w
            match stack, hw₁ with
            | b :: a :: st, hw₁ =>
                cases hw₁
                rw [List.length_cons, List.length_cons, List.length_cons]
                omega
        | nop =>
            cases hw₁
            simp
        | «end» =>
            cases hw₁
            simp
        | _ => cases hw₁
      rw [List.countP_cons]
      omega

/-- One operand at a time needs room for one. -/
theorem hasRoom_handThrough {ty : FuncType} (htop : s.sp + 8 ≤ 2 ^ 64)
    (hroom : 16 + 8 * ty.params.length ≤ s.sp) (a b i : ℕ) :
    HasRoom ty (passOn a b i) s := by
  refine ⟨htop, fun pre w hpre hw => ?_⟩
  have hcount : (passOn a b i).countP pushes32 = 1 := by
    rw [passOn, List.countP_append, List.countP_cons, List.countP_append, List.countP_replicate,
      List.countP_replicate]
    rfl
  have hle := length_steps32 hw
  have hpre := hpre.sublist.countP_le (p := pushes32)
  rw [hcount] at hpre
  simp only [List.length_nil] at hle
  omega

variable {ps : List Payload} {ty : FuncType} {k : ℕ} {body : FunctionBody}

/-- What a body of the module is, if nothing is computed. -/
theorem Narrow.exists_handThrough (h : Narrow ps ty) (hvalid : Valid ps)
    (harith : ∀ body ∈ bodies ps, ∀ op ∈ body.operators.items, arithmetic32 op = false)
    (hk : (bodies ps)[k]? = some body) :
    ∃ a b i, body.operators.items = passOn a b i ∧ i < ty.params.length := by
  have hmem := List.mem_of_getElem? hk
  obtain ⟨t, -, ht, -⟩ := hvalid.exists_typeAt hk
  have hcounted : t ∈ countedFunctions ps := by
    rw [countedFunctions_of_ordered hvalid.ordered]
    exact List.mem_append_right _ (List.mem_of_getElem? ht)
  have htyped := hvalid.typed k body t ty hk ht (h.typeAt hvalid hcounted) fun op hop => by
    have := h.operators body hmem op hop
    cases op with
    | unimplemented n => cases this
    | _ => rfl
  rw [h.returns, declaredLocals_of_localCount (h.locals body hmem)] at htyped
  obtain ⟨a, b, i, hops, hi⟩ := exists_localGet
    (fun op hop => ⟨h.operators body hmem op hop, harith body hmem op hop⟩) htyped
  exact ⟨a, b, i, hops, by simpa using hi⟩

/-- All params are `i32`, and there is one result. -/
theorem Narrow.params_eq (h : Narrow ps ty) :
    ty = ⟨List.replicate ty.params.length .i32, [.i32]⟩ := by
  obtain ⟨params, returns⟩ := ty
  rw [← h.returns, ← List.eq_replicate_of_mem h.params]

/-- The code of such a body. -/
theorem Narrow.code_eq (h : Narrow ps ty) {φ : V.FuncSt} {height : ℕ}
    (hlocals : localCount body.locals.items = 0)
    (hops : body.operators.items = passOn a b i) (hi : i < ty.params.length)
    (hcode : compileBody V ctx ty φ body = .ok (code, height)) :
    ty.params.length ≤ 6 ∧ (∀ g ∈ body.locals.items, Sized g.2) ∧
      code = handThrough ty.params.length i a b := by
  obtain ⟨order, t, before, middle, after, horder, ht, hbefore, hmiddle, hafter, hout⟩ :=
    compileBody_eq_ok hcode
  have hn := (drainTo_eq_ok.mp horder).1
  obtain ⟨hsized, ht⟩ := layoutLocals_of_localCount hlocals ht
  have hentry : entryCode ty [] = .ok (t, before) := by
    simp [entryCode, horder, ht, hbefore]
  rw [h.params_eq, entryCode_i32 (by omega) hn] at hentry
  cases hentry
  rw [hops, handleInstructions_handThrough hi] at hmiddle
  cases hmiddle
  rw [h.returns, epilogue_i32 (by omega) hn] at hafter
  cases hafter
  exact ⟨hn, hsized, hout⟩

/-- With one param the code can be assembled. -/
theorem encodable_handThrough (hi : i < 1) (a b : ℕ) :
    ∀ j ∈ handThrough 1 i a b, encodable j = true := by
  obtain rfl : i = 0 := by omega
  intro j hj
  simp only [handThrough, List.mem_append, List.mem_cons, List.mem_replicate] at hj
  rcases hj with (hj | ⟨-, rfl⟩ | rfl | rfl | ⟨-, rfl⟩) | hj
  · revert hj j
    decide
  · rfl
  · rfl
  · rfl
  · rfl
  · rcases hj with rfl | rfl | rfl | rfl | rfl | hj
    · rfl
    · rfl
    · rfl
    · rfl
    · rfl
    · cases hj

/-- There is code for such a body with one param. -/
theorem Narrow.compiles (h : Narrow ps ty) (hvalid : Valid ps)
    (hfirst : Wasm.typeAt ps 0 = some ty) (hone : ty.params.length = 1)
    (harith : ∀ body ∈ bodies ps, ∀ op ∈ body.operators.items, arithmetic32 op = false)
    (hsized : ∀ body ∈ bodies ps, ∀ g ∈ body.locals.items, Sized g.2)
    {pre post : List Payload} {st : Compiling V} {σ : V.St}
    (hps : ps = pre ++ .codeSectionEntry body :: post)
    (hst : pre.foldlM (handlePayload E) Compiling.init = .ok st)
    (hσ : V.body st.validator body = .ok σ) : Compiles st body := by
  intro φ σ' hφ
  have hord := hvalid.ordered
  obtain ⟨htypes, hfuncs, himports, hdefined⟩ := declarations_of_ordered (hps ▸ hord)
  rw [← hps] at htypes hfuncs himports hdefined
  obtain ⟨its, hread⟩ := reading_of_foldlM hst
  have hcounted : countedFunctions pre = countedFunctions ps := by
    rw [← filterMap_funcSpace, ← filterMap_funcSpace, hfuncs]
  have hbody : (bodies ps)[(bodies pre).length]? = some body := by
    rw [hps, bodies, List.flatMap_append, List.flatMap_cons, ← bodies]
    simp [Payload.bodies]
  obtain ⟨hlt, -⟩ := List.getElem?_eq_some_iff.mp hbody
  have hindex : st.functionBodyIndex < (countedFunctions ps).length := by
    rw [hread.bodyIndex, countedFunctions_of_ordered hord, List.length_append,
      ← hvalid.bodyCount, himports]
    omega
  have hty := (h.functionType_iff hvalid hread hcounted htypes.symm hindex).mpr ⟨hfirst, rfl⟩
  obtain ⟨g, hg⟩ := hread.exists_got (hps ▸ hord).left (f := st.functionBodyIndex)
    (by rw [hread.bodyIndex]; omega) (by rw [hcounted]; exact hindex)
  have hmem := List.mem_of_getElem? hbody
  obtain ⟨a, b, i, hops, hi⟩ := h.exists_handThrough hvalid harith hbody
  have hcomplete := h.complete (.codeSectionEntry body) (by rw [hps]; simp)
  have hentry : entryCode ty [] = .ok (⟨[4], 4⟩, narrowEntry 1) := by
    rw [h.params_eq, hone]
    rfl
  have hafter : epilogue ty.returns 4 =
      .ok [.pop .rax, .addRsp 4, .mov .rsp .rbp, .pop .rbp, .ret] := by
    rw [h.returns]
    rfl
  have hmiddle : handleInstructions st.toContext [4] body.operators.items =
      .ok (List.replicate a .nop ++
        .load .rax (4 * (i + 1)) :: .push .rax :: List.replicate b .nop) := by
    rw [hops]
    exact handleInstructions_handThrough (hone ▸ hi) a b
  obtain ⟨height, hcode⟩ :=
    exists_compileBody hcomplete (h.locals body hmem) (hsized body hmem) hφ hσ hentry hmiddle hafter
  exact ⟨ty, g, _, height, hty, hg, hcode, encodable_handThrough (hone ▸ hi) a b⟩

/-- Where the code of such a body is, once the module has been read. -/
theorem Narrow.exists_code (h : Narrow ps ty) (hvalid : Valid ps) {its : List Item}
    {st : Compiling V} (hread : Reading ps its st) (hcomp : CompiledWith V ps its st.toContext)
    (harith : ∀ body ∈ bodies ps, ∀ op ∈ body.operators.items, arithmetic32 op = false)
    (hk : (bodies ps)[k]? = some body) :
    ∃ a b i g, body.operators.items = passOn a b i ∧ i < ty.params.length ∧
      ty.params.length ≤ 6 ∧ (∀ g ∈ body.locals.items, Sized g.2) ∧ Wasm.typeAt ps 0 = some ty ∧
      st.got[(functionImports ps).length + k]? = some g ∧
      ∀ address word, ∃ j rest, (st.program address word).target g = some j ∧
        (st.program address word).code.drop j =
          optimized (handThrough ty.params.length i a b) ++ rest := by
  obtain ⟨hlt, -⟩ := List.getElem?_eq_some_iff.mp hk
  obtain ⟨⟨f, g, code⟩, hget⟩ : ∃ x, (its.filterMap Item.body?)[k]? = some x :=
    ⟨_, List.getElem?_eq_getElem (hread.length_bodies ▸ hlt)⟩
  obtain ⟨rfl, hg, body', ty', φ, height, hbody', hty', hcode⟩ := hcomp k f g code hget
  rw [hk] at hbody'
  cases hbody'
  have hindex : (functionImports ps).length + k < (countedFunctions ps).length := by
    rw [countedFunctions_of_ordered hvalid.ordered, List.length_append, ← hvalid.bodyCount]
    omega
  obtain ⟨hfirst, rfl⟩ := (h.functionType_iff hvalid hread rfl rfl hindex).mp hty'
  obtain ⟨a, b, i, hops, hi⟩ := h.exists_handThrough hvalid harith hk
  obtain ⟨hn, hsized, rfl⟩ := h.code_eq (h.locals body (List.mem_of_getElem? hk)) hops hi hcode
  refine ⟨a, b, i, g, hops, hi, hn, hsized, hfirst, hg, fun address word => ?_⟩
  rw [hread.program_eq hcomp]
  exact target_body address word (labelled_optimized hread hcomp) (nodup_created hread)
    (List.mem_map_of_mem (f := Item.optimized) (mem_of_body? hget))

theorem oneAt_spec (hn : 2 ≤ n) (hn' : n ≤ 6) (hi : i < n) :
    (oneAt i).sp = 128 ∧ (arguments32 n (oneAt i))[i]? = some 1 := by
  have hall : ∀ n ∈ [2, 3, 4, 5, 6], ∀ i ∈ List.range n,
      (oneAt i).sp = 128 ∧ (arguments32 n (oneAt i))[i]? = some 1 := by
    decide +kernel
  exact forall_counts hall hn hn' hi

/-- With two params or more a param does not get through. -/
theorem not_returns_oneAt {j : ℕ} {rest : List Instr} (hn : 2 ≤ n) (hn' : n ≤ 6) (hi : i < n)
    (hcode : P.code.drop j = optimized (handThrough n i a b) ++ rest)
    (h : Returns P env j (oneAt i) t) :
    result32 (passOn a b i) (arguments32 n (oneAt i)) ≠ some (low32 (t.regs .rax)) := by
  obtain ⟨s₁, hs₁, hbp, hsp, hlost⟩ := exec_narrowEntry_oneAt hn hn' hi
  have hrax := (returns_handThrough hcode hs₁ (by omega) (by omega) (by omega)).2 t h
  rw [result32_handThrough a b (oneAt_spec hn hn' hi).2, hrax, hbp, hlost]
  decide

/-- With one param it does. -/
theorem returns_one {j : ℕ} {rest : List Instr}
    (hcode : P.code.drop j = optimized (handThrough 1 0 a b) ++ rest)
    (h : HasRoom ⟨[.i32], [.i32]⟩ (passOn a b 0) s) :
    ∃ t, Returns P env j s t ∧
      result32 (passOn a b 0) (arguments32 1 s) = some (low32 (t.regs .rax)) := by
  have hroom := h.operands (passOn a b 0) _ List.prefix_rfl (steps32_passOn a b rfl)
  have htop := h.top
  simp only [List.length_singleton] at hroom
  obtain ⟨s₁, hs₁, hbp₁, hsp₁, hload₁⟩ := exec_narrowEntry_one (s := s) (by omega)
  have hret : (∃ t, Returns P env j s t) ∧ _ :=
    returns_handThrough hcode hs₁ (by omega) (by omega) (by omega)
  obtain ⟨⟨t, ht⟩, hrax⟩ := hret
  refine ⟨t, ht, ?_⟩
  rw [result32_handThrough a b rfl, hrax t ht]
  exact congrArg (fun v => some (low32 v)) hload₁.symm

/-- **When functions on `i32` work**: exactly if there is one param, nothing is
computed in any function of the module, no other type stands before the function
type, and groups that declare no local are of types with a size.

A `Narrow` module has one function type, with params and one result of `i32`, and
functions that declare no local.  The condition has no hypothesis about the
arguments or the state: where it fails, one of the functions is refused, makes the
compiler panic, or does not return what it should for some argument. -/
theorem i32_computed_iff {V : Validator} {E : Encoder} {P : Parser} {len : Instr → ℕ}
    {module : List UInt8} {ty : FuncType} {k : ℕ} {body : FunctionBody} (hE : E.Measured len)
    (hEnc : E.Encodes) (hV : V.Sound) (hP : P.Documented) (hend : (scan P module).2 = .finished)
    (hacc : V.Accepts (scan P module).1) (h : Narrow (scan P module).1 ty)
    (hk : (bodies (scan P module).1)[k]? = some body) :
    ComputesI32 E P V module ty k body ↔
      typeAt (scan P module).1 0 = some ty ∧ ty.params.length = 1 ∧
        (∀ body ∈ bodies (scan P module).1, ∀ op ∈ body.operators.items,
          arithmetic32 op = false) ∧
        ∀ body ∈ bodies (scan P module).1, ∀ g ∈ body.locals.items, Sized g.2 := by
  have hvalid := hV.valid _ hacc h.plain
  constructor
  · rintro ⟨n, asm, st, g, hcompile, hst, hg, hrun⟩
    obtain ⟨st', hst', hasm⟩ := compileWithin_eq_ok hP hcompile
    obtain rfl : st' = st := Outcome.ok.inj (hst'.symm.trans hst)
    obtain ⟨its, hread, hcomp⟩ :=
      reading_compiledWith hvalid.ordered (foldlM_of_compilePayloads hst)
    have harith := arithmetic_of_compiled hEnc hread hcomp hasm
    obtain ⟨a, b, i, g', hops, hi, hn, -, hfirst, hg', hcode⟩ :=
      h.exists_code hvalid hread hcomp harith hk
    rw [hg] at hg'
    cases hg'
    refine ⟨hfirst, ?_, harith, fun body' hbody' => ?_⟩
    rotate_left
    · obtain ⟨k', hk'⟩ := List.mem_iff_getElem?.mp hbody'
      obtain ⟨-, -, -, -, -, -, -, hsized, -⟩ := h.exists_code hvalid hread hcomp harith hk'
      exact hsized
    by_contra hne
    have htwo : 2 ≤ ty.params.length := by omega
    have hsp := (oneAt_spec htwo hn hi).1
    obtain ⟨-, j, t, hj, hret, hres⟩ := hrun (fun _ => 0) (fun _ => 0) returning (oneAt i)
      (hops ▸ hasRoom_handThrough (by omega) (by omega) a b i)
    obtain ⟨j', rest, hj', hdrop⟩ := hcode (fun _ => 0) (fun _ => 0)
    rw [hj] at hj'
    cases hj'
    rw [hops] at hres
    exact not_returns_oneAt htwo hn hi hdrop hret hres
  · rintro ⟨hfirst, hone, harith, hsized⟩
    obtain ⟨st, hst, hasm⟩ := exists_compilePayloads hE hEnc hacc h.complete
      fun pre post body st hps hst hσ =>
        h.compiles hvalid hfirst hone harith hsized hps hst hσ.choose_spec
    obtain ⟨n, asm, hcompile⟩ := compileWithin_ok hP hE hEnc hend hst hasm.1
    obtain ⟨its, hread, hcomp⟩ :=
      reading_compiledWith hvalid.ordered (foldlM_of_compilePayloads hst)
    obtain ⟨a, b, i, g, hops, hi, hn, -, -, hg, hcode⟩ :=
      h.exists_code hvalid hread hcomp harith hk
    obtain rfl : ty = ⟨[.i32], [.i32]⟩ := by
      rw [h.params_eq, hone]
      rfl
    obtain rfl : i = 0 := by
      rw [hone] at hi
      omega
    refine ⟨n, asm, st, g, hcompile, hst, hg, fun address word env s hroom => ⟨?_, ?_⟩⟩
    · have hmiddle : handleInstructions st.toContext [4] (passOn a b 0) = .ok _ :=
        handleInstructions_handThrough hi a b
      rw [← hops] at hmiddle
      exact operandSlots_one (harith body (List.mem_of_getElem? hk)) hmiddle hroom
    · obtain ⟨j, rest, hj, hdrop⟩ := hcode address word
      rw [hops] at hroom ⊢
      obtain ⟨t, ht, hres⟩ := returns_one hdrop hroom
      exact ⟨j, t, hj, ht, hres⟩

/-- The module of a function on `i32`: its types, given with their bytes, and its
operators, given with theirs. -/
def narrowModule (params : List Ty) (types : List UInt8) (ops : List Operator)
    (code : List UInt8) : Script :=
  [(preamble, .version 1),
    ([0x01, UInt8.ofNat (types.length + 2), 0x01, 0x60] ++ types,
      .typeSection ⟨[.func ⟨params, [.i32]⟩], none⟩),
    ([0x03, 0x02, 0x01, 0x00], .functionSection ⟨[0], none⟩),
    ([0x0a, UInt8.ofNat (code.length + 3), 0x01], .codeSectionStart 1),
    ([UInt8.ofNat (code.length + 1), 0x00] ++ code,
      .codeSectionEntry ⟨⟨[], none⟩, ⟨ops, none⟩⟩)]

/-- `(param i32) (result i32)`, `local.get 0` -/
def passingModule : Script :=
  narrowModule [.i32] [0x01, 0x7f, 0x01, 0x7f] [.localGet 0, .end] [0x20, 0x00, 0x0b]

/-- `(param i32 i32) (result i32)`, `local.get 0; local.get 1; i32.add` -/
def adding32Module : Script :=
  narrowModule [.i32, .i32] [0x02, 0x7f, 0x7f, 0x01, 0x7f]
    [.localGet 0, .localGet 1, .i32Add, .end] [0x20, 0x00, 0x20, 0x01, 0x6a, 0x0b]

theorem narrow_payloads {ty : FuncType} {ops : List Operator} (hp : ∀ p ∈ ty.params, p = .i32)
    (hr : ty.returns = [.i32]) (hops : ∀ op ∈ ops, narrow op = true) :
    Narrow [.version 1, .typeSection ⟨[.func ty], none⟩, .functionSection ⟨[0], none⟩,
      .codeSectionStart 1, .codeSectionEntry ⟨⟨[], none⟩, ⟨ops, none⟩⟩] ty := by
  refine ⟨by simp [Payload.nests], by simp [Complete], rfl, hp, hr, ?_, ?_⟩
  · simp [bodies, Payload.bodies, localCount]
  · simpa [bodies, Payload.bodies] using hops

/-- The function that returns its argument. -/
theorem i32_computed_iff_instance :
    ComputesI32 Encoder.reference (parserOf passingModule) Validator.reference
      (Script.bytes passingModule) ⟨[.i32], [.i32]⟩ 0
      ⟨⟨[], none⟩, ⟨[.localGet 0, .end], none⟩⟩ := by
  have hbodies : bodies (Script.payloads passingModule) =
      [⟨⟨[], none⟩, ⟨[.localGet 0, .end], none⟩⟩] := rfl
  have hmodule : Narrow (Script.payloads passingModule) ⟨[.i32], [.i32]⟩ :=
    narrow_payloads (by decide) rfl (by decide)
  have hend : (scan (parserOf passingModule) (Script.bytes passingModule)).2 = .finished := rfl
  have hacc : Validator.reference.Accepts (Script.payloads passingModule) := ⟨_, rfl, rfl⟩
  refine (i32_computed_iff Encoder.reference_measured Encoder.reference_encodes
    Validator.reference_sound (parserOf_documented passingModule) hend hacc hmodule
    rfl).mpr ⟨rfl, rfl, fun body hbody => ?_, fun body hbody => ?_⟩
  · rw [hbodies] at hbody
    cases List.mem_singleton.mp hbody
    decide
  · rw [hbodies] at hbody
    cases List.mem_singleton.mp hbody
    intro g hg
    cases hg

/-- The function that adds its arguments is not compiled. -/
theorem i32_not_computed : ¬ ∀ (script : Script) (ty : FuncType) (k : ℕ) (body : FunctionBody),
    (scan (parserOf script) (Script.bytes script)).2 = .finished →
    Validator.reference.Accepts (Script.payloads script) → Narrow (Script.payloads script) ty →
    (bodies (Script.payloads script))[k]? = some body →
    ComputesI32 Encoder.reference (parserOf script) Validator.reference (Script.bytes script) ty k
      body := by
  intro h
  have hacc : Validator.reference.Accepts (Script.payloads adding32Module) := ⟨_, rfl, rfl⟩
  have hmodule : Narrow (Script.payloads adding32Module) ⟨[.i32, .i32], [.i32]⟩ :=
    narrow_payloads (by decide) rfl (by decide)
  obtain ⟨n, asm, st, g, hcompile, -⟩ := h adding32Module _ 0 _ rfl hacc hmodule rfl
  obtain ⟨st, hst, hasm⟩ := compileWithin_eq_ok (parserOf_documented adding32Module) hcompile
  obtain ⟨its, hread, hcomp⟩ := reading_compiledWith
    (Validator.reference_sound.ordered _ hacc) (foldlM_of_compilePayloads hst)
  have harith := arithmetic_of_compiled Encoder.reference_encodes hread hcomp hasm
  exact absurd (harith ⟨⟨[], none⟩, ⟨[.localGet 0, .localGet 1, .i32Add, .end], none⟩⟩
    (List.mem_of_getElem? (i := 0) rfl) .i32Add (by simp)) (by decide)

end ParaOS.Parawasm
