import Std.Data.TreeMap
import ParaOS.X86.Instr
import ParaOS.Wasm.Reader

/-!
# `parawasm::x86_64::instructions`

The translation of one operator, `handleInstruction`, with the parts of it that
have loops of their own named separately: the pops that move call arguments into
registers, the call itself, and the pushes that put results back.

A Rust function that can return an error or panic is a function into `Outcome`.
`todo!()`, a failed `unwrap` and an out-of-range `drain` are all `panic`.
Emitted code is returned as a list; the caller appends it to the assembler.

### What is load-bearing

A panic is not an error.  A caller that handles `Err` still does not survive a
panic, and to say that `compile` returns an error is to say that it does not panic.
Hence three outcomes, and the lemmas about `bind` for each.

The order in which things are asked is kept, because it decides between them: where
the source unwraps a lookup before it drains the queue of registers, so does the
translation here, and a body that would do both wrong ends with the first.

`Context.functionType` is a chain of three lookups, and its first two look alike:
the type index of a function is looked up again as if it were a function.  This is
how the source has it.
-/

namespace ParaOS.Parawasm

open Machine X86 Wasm

universe u v

/-- `iced_x86::IcedError` -/
structure IcedError where
  message : String
  deriving DecidableEq, Repr

/-- `parawasm::x86_64::Error` -/
inductive Error where
  | wasmReaderError (e : BinaryReaderError)
  | assemblerError (e : IcedError)
  deriving DecidableEq, Repr

/-- The result of a computation that may return `Err` or panic.  It is a monad, and
`do` blocks read as the Rust code with its `?`s does. -/
inductive Outcome (α : Type u) where
  | ok (a : α)
  | err (e : Error)
  | panic
  deriving DecidableEq, Repr

namespace Outcome

/-- `?` and sequencing. -/
def bind {α : Type u} {β : Type v} : Outcome α → (α → Outcome β) → Outcome β
  | .ok a, f => f a
  | .err e, _ => .err e
  | .panic, _ => .panic

instance : Monad Outcome where
  pure := .ok
  bind := bind

instance : LawfulMonad Outcome := LawfulMonad.mk' Outcome
  (fun x => by cases x <;> rfl) (fun _ _ => rfl) (fun x _ _ => by cases x <;> rfl)

variable {α β : Type u}

@[simp] theorem ok_bind (a : α) (f : α → Outcome β) : (Outcome.ok a >>= f) = f a := rfl

/-- An error is returned at once, -/
@[simp] theorem err_bind (e : Error) (f : α → Outcome β) :
    (Outcome.err e >>= f) = Outcome.err e := rfl

/-- and a panic ends everything. -/
@[simp] theorem panic_bind (f : α → Outcome β) :
    (Outcome.panic >>= f) = Outcome.panic := rfl

@[simp] theorem pure_eq_ok (a : α) : (pure a : Outcome α) = .ok a := rfl

/-- A sequence succeeds when both parts do. -/
theorem bind_eq_ok {x : Outcome α} {f : α → Outcome β} {b : β} :
    (x >>= f) = .ok b ↔ ∃ a, x = .ok a ∧ f a = .ok b := by
  cases x <;> simp

/-- A sequence panics where its first part does, or the second after it. -/
theorem bind_eq_panic {x : Outcome α} {f : α → Outcome β} :
    (x >>= f) = .panic ↔ x = .panic ∨ ∃ a, x = .ok a ∧ f a = .panic := by
  cases x <;> simp

/-- A sequence returns an error where its first part does, or the second after it.
-/
theorem bind_eq_err {x : Outcome α} {f : α → Outcome β} {e : Error} :
    (x >>= f) = .err e ↔ x = .err e ∨ ∃ a, x = .ok a ∧ f a = .err e := by
  cases x <;> simp

/-- What does not return is not gone on from. -/
theorem bind_of_ne_ok {x : Outcome α} (hx : ∀ a, x ≠ .ok a) (f : α → Outcome α) :
    (x >>= f) = x := by
  cases x with
  | ok a => exact absurd rfl (hx a)
  | err e => rfl
  | panic => rfl

/-- **Where a loop is left early**: at the first element for which its body does not
return, with what it comes to there.  The elements behind it play no part.  It is
used for the loops over payloads, entries, locals and operators alike, once with an
error and once with a panic for `r`. -/
theorem foldlM_eq_of_ne_ok {γ : Type v} {f : β → γ → Outcome β} {r : Outcome β}
    (hr : ∀ b, r ≠ .ok b) {as : List γ} {b : β} :
    as.foldlM f b = r ↔ ∃ pre a post b', as = pre ++ a :: post ∧ pre.foldlM f b = .ok b' ∧
      f b' a = r := by
  induction as generalizing b with
  | nil =>
      refine ⟨fun h => absurd h.symm (hr b), ?_⟩
      rintro ⟨pre, a, post, b', h, -⟩
      cases pre <;> cases h
  | cons a as ih =>
      rw [List.foldlM_cons]
      by_cases hok : ∃ b₁, f b a = .ok b₁
      · obtain ⟨b₁, hb₁⟩ := hok
        rw [hb₁, ok_bind, ih]
        constructor
        · rintro ⟨pre, a', post, b', rfl, hpre, ha'⟩
          exact ⟨a :: pre, a', post, b', rfl, by rw [List.foldlM_cons, hb₁, ok_bind, hpre], ha'⟩
        · rintro ⟨pre, a', post, b', h, hpre, ha'⟩
          cases pre with
          | nil =>
              cases h
              cases hpre
              exact absurd (ha'.symm.trans hb₁) (hr _)
          | cons a₀ pre =>
              cases h
              rw [List.foldlM_cons, hb₁, ok_bind] at hpre
              exact ⟨pre, a', post, b', rfl, hpre, ha'⟩
      · rw [bind_of_ne_ok fun b₁ hb₁ => hok ⟨b₁, hb₁⟩]
        constructor
        · exact fun h => ⟨[], a, as, b, rfl, rfl, h⟩
        · rintro ⟨pre, a', post, b', h, hpre, ha'⟩
          cases pre with
          | nil =>
              cases h
              cases hpre
              exact ha'
          | cons a₀ pre =>
              -- the loop does not get past `a`
              cases h
              rw [List.foldlM_cons, bind_eq_ok] at hpre
              obtain ⟨b₁, hb₁, -⟩ := hpre
              exact absurd ⟨b₁, hb₁⟩ hok

/-- An error of `wasmparser`, on its way out. -/
def ofReader {α : Type} : Except BinaryReaderError α → Outcome α
  | .ok a => .ok a
  | .error e => .err (.wasmReaderError e)

@[simp] theorem ofReader_eq_ok {α : Type} {x : Except BinaryReaderError α} {a : α} :
    ofReader x = .ok a ↔ x = .ok a := by
  cases x <;> simp [ofReader]

@[simp] theorem ofReader_ne_panic {α : Type} {x : Except BinaryReaderError α} :
    ofReader x ≠ .panic := by
  cases x <;> simp [ofReader]

/-- Errors of the reader keep what they were. -/
theorem ofReader_eq_err {α : Type} {x : Except BinaryReaderError α} {e : Error} :
    ofReader x = .err e ↔ ∃ e', x = .error e' ∧ e = .wasmReaderError e' := by
  cases x <;> simp [ofReader, eq_comm]

/-- An error of `iced_x86`, on its way out. -/
def ofIced {α : Type} : Except IcedError α → Outcome α
  | .ok a => .ok a
  | .error e => .err (.assemblerError e)

@[simp] theorem ofIced_eq_ok {α : Type} {x : Except IcedError α} {a : α} :
    ofIced x = .ok a ↔ x = .ok a := by
  cases x <;> simp [ofIced]

/-- `unwrap` -/
def unwrap {α : Type} : Option α → Outcome α
  | some a => .ok a
  | none => .panic

@[simp] theorem unwrap_eq_ok {α : Type} {x : Option α} {a : α} :
    unwrap x = .ok a ↔ x = some a := by
  cases x <;> simp [unwrap]

end Outcome

/-! ## Registers in the order they are used

Both queues are vectors made anew for each function and each call.  Arguments are
taken from the back of theirs, results from the front. -/

/-- The argument registers. -/
def integerOrder : List Reg := [.rdi, .rsi, .rdx, .rcx, .r8, .r9]

/-- The result registers. -/
def returnOrder : List Reg := [.rax, .rdx]

/-- `vec![rdi, rsi, rdx, rcx, r8, r9].drain(0..n).collect()`; the range must lie
inside the vector. -/
def drainTo (n : ℕ) : Outcome (List Reg) :=
  if n ≤ integerOrder.length then .ok (integerOrder.take n) else .panic

/-! ## The translation of one operator

Pops come before pushes in the code of every operator, and the second operand is
popped first into `rax`. -/

/-- The maps `compile` keeps while it reads a module, as far as an operator is
translated with them. -/
structure Context where
  /-- labels of defined functions -/
  got : Std.TreeMap ℕ Label
  /-- labels of import slots -/
  ils : Std.TreeMap ℕ Label
  functionTypedefs : Std.TreeMap ℕ FuncType
  functionTypes : Std.TreeMap ℕ ℕ

/-- The chain of lookups by which `compile` and `handle_instruction` find the
type of a function. -/
def Context.functionType (ctx : Context) (functionIndex : ℕ) : Option FuncType :=
  (ctx.functionTypes[functionIndex]?.bind fun i => ctx.functionTypes[i]?).bind fun t =>
    ctx.functionTypedefs[t]?

/-- The pops that load the arguments of a call: `pop_back` of the register queue
for each param. -/
def popArgs : List Ty → List Reg → Outcome (List Instr)
  | [], _ => .ok []
  | .i64 :: params, order =>
      match order.getLast? with
      | some reg => do
          let rest ← popArgs params order.dropLast
          return .pop reg :: rest
      | none => .panic
  | .i32 :: params, order =>
      match order.getLast? with
      | some reg => do
          let rest ← popArgs params order.dropLast
          return .pop reg :: rest
      | none => .panic
  | _ :: _, _ => .panic

/-- One instruction for each result for which there is still a register:
`pop_front` of the queue, and nothing once it is empty. -/
def moveResults (emit : Reg → Instr) : List Ty → List Reg → Outcome (List Instr)
  | [], _ => .ok []
  | .i64 :: returns, reg :: order => do
      let rest ← moveResults emit returns order
      return emit reg :: rest
  | .i64 :: returns, [] => moveResults emit returns []
  | .i32 :: returns, reg :: order => do
      let rest ← moveResults emit returns order
      return emit reg :: rest
  | .i32 :: returns, [] => moveResults emit returns []
  | _ :: _, _ => .panic

/-- The pushes after a call. -/
def pushResults (returns : List Ty) : Outcome (List Instr) :=
  moveResults .push returns returnOrder

/-- The call: direct for a defined function, through the slot of an import
otherwise. -/
def callCode (ctx : Context) (functionIndex : ℕ) : List Instr :=
  match ctx.got[functionIndex]? with
  | none =>
      match ctx.ils[functionIndex]? with
      | some importLabel => [.movLabel .r10 importLabel, .callReg .r10]
      | none => []
  | some label => [.callLabel label]

/-- `handle_instruction`: the code emitted for an operator.  A local without a slot
and a function without a type are panics, and so is every operator without a case of
its own. -/
def handleInstruction (ctx : Context) (locals : List ℕ) : Operator → Outcome (List Instr)
  | .i64Const value => .ok [.movImm .rax value, .push .rax]
  | .i64Add => .ok [.pop .rax, .pop .rbx, .add .rax .rbx, .push .rax]
  | .i32Add => .ok [.pop32 .rax, .pop32 .rbx, .add32 .rax .rbx, .push32 .rax]
  | .i64Sub => .ok [.pop .rax, .pop .rbx, .sub .rax .rbx, .push .rax]
  | .i32Sub => .ok [.pop32 .rax, .pop32 .rbx, .sub32 .rax .rbx, .push32 .rax]
  | .call functionIndex => do
      let ty ← Outcome.unwrap (ctx.functionType functionIndex)
      let order ← drainTo ty.params.length
      let args ← popArgs ty.params order
      let results ← pushResults ty.returns
      return args ++ callCode ctx functionIndex ++ results
  | .nop => .ok [.nop]
  | .end => .ok []
  | .localGet localIndex =>
      match locals[localIndex]? with
      | some offset => .ok [.load .rax offset, .push .rax]
      | none => .panic
  | .localSet localIndex =>
      match locals[localIndex]? with
      | some offset => .ok [.pop .rax, .store offset .rax]
      | none => .panic
  | .unimplemented _ => .panic

/-- The code emitted for a sequence of operators. -/
def handleInstructions (ctx : Context) (locals : List ℕ) :
    List Operator → Outcome (List Instr)
  | [] => .ok []
  | op :: ops => do
      let code ← handleInstruction ctx locals op
      let rest ← handleInstructions ctx locals ops
      return code ++ rest

/-- A sequence has code when its first operator has and the rest has. -/
theorem handleInstructions_cons {ctx : Context} {locals : List ℕ} {op : Operator}
    {ops : List Operator} {code : List Instr} :
    handleInstructions ctx locals (op :: ops) = .ok code ↔
      ∃ c r, handleInstruction ctx locals op = .ok c ∧
        handleInstructions ctx locals ops = .ok r ∧ code = c ++ r := by
  simp only [handleInstructions, Outcome.bind_eq_ok, Outcome.pure_eq_ok, Outcome.ok.injEq]
  constructor
  · rintro ⟨c, hc, r, hr, rfl⟩
    exact ⟨c, r, hc, hr, rfl⟩
  · rintro ⟨c, r, hc, hr, rfl⟩
    exact ⟨c, hc, r, hr, rfl⟩

/-- The code of a sequence is the code of its two halves. -/
theorem handleInstructions_append {ctx : Context} {locals : List ℕ}
    {ops ops' : List Operator} {code : List Instr} :
    handleInstructions ctx locals (ops ++ ops') = .ok code ↔
      ∃ c r, handleInstructions ctx locals ops = .ok c ∧
        handleInstructions ctx locals ops' = .ok r ∧ code = c ++ r := by
  induction ops generalizing code with
  | nil => simp [handleInstructions, eq_comm]
  | cons op ops ih =>
      rw [List.cons_append, handleInstructions_cons]
      constructor
      · rintro ⟨c, r, hc, hr, rfl⟩
        obtain ⟨c', r', hc', hr', rfl⟩ := ih.mp hr
        exact ⟨c ++ c', r', handleInstructions_cons.mpr ⟨c, c', hc, hc', rfl⟩, hr',
          (List.append_assoc _ _ _).symm⟩
      · rintro ⟨c, r, hc, hr, rfl⟩
        obtain ⟨c', r', hc', hr', rfl⟩ := handleInstructions_cons.mp hc
        exact ⟨c', r' ++ r, hc', ih.mpr ⟨r', r, hr', hr, rfl⟩, List.append_assoc _ _ _⟩

end ParaOS.Parawasm
