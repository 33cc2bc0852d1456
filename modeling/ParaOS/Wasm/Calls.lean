import ParaOS.Wasm.Spec

/-!
# Functions that call each other

`step` executes the operators that stay in a function.  `Runs` adds calls: of
functions with a definition, whose operators are run in their turn, and of the
others, about which only their `Behaviour` is known.

Three things are left open.  How a call passes values is a `Convention`, and
`Convention.standard` is the one of WebAssembly.  How much there is of the stack
that operands, return addresses and activations share is a number of bytes, so
that `Runs` says of a computation not only what it comes to but also what it takes
(`Runs.mono`).  And what the imported functions do is again a `Behaviour` for
each, as is what a function with a definition does (`Calls`): functions linked to
the imports of a module can be put in the place of its imports.

### The design decisions

**Compiled code's own convention is one of several.**  `compile` subtracts the wrong
way round and passes arguments and results in another order.  With a `Convention`
for a parameter, one semantics serves both: the compiled code is shown to compute
what WebAssembly does by *its* convention, and a module for which the two
conventions agree is computed as the standard has it.

**Stack is counted in bytes.**  An operand takes eight, a return address eight, and
an activation what its frame takes; the frame is a field of the definition, so that
it can be set to what the compiler allocates.  The count is an upper bound of what
may be used and not of what is, hence `Runs.mono`.

**What is open is a behaviour and not a function.**  An import may return nothing
for some arguments, or one of several results.
-/

namespace ParaOS.Wasm

open Machine

/-! ## Conventions -/

/-- How values are passed: the difference of an operand and the one above it, the
arguments as the callee finds them, and the results as the caller does.  The two
lists may be reordered, and nothing else is done to them by the conventions used
here. -/
structure Convention where
  difference : Word → Word → Word
  arguments : List Word → List Word
  results : List Word → List Word

/-- WebAssembly's. -/
def Convention.standard : Convention := ⟨fun a b => a - b, id, id⟩

/-- One operator, with the differences of a convention. -/
def Convention.step (c : Convention) : Operator → State → Option State
  | .i64Sub, ⟨b :: a :: st, ls⟩ => some ⟨c.difference a b :: st, ls⟩
  | op, w => Wasm.step op w

/-- By the convention of WebAssembly an operator does what WebAssembly says. -/
@[simp] theorem Convention.step_standard (op : Operator) (w : State) :
    Convention.standard.step op w = Wasm.step op w := by
  unfold Convention.step
  split
  · rfl
  · rfl

/-! ## Functions -/

/-- A function with operators of its own. -/
structure Definition where
  /-- the number of declared locals -/
  locals : ℕ
  operators : List Operator
  /-- the bytes of the stack an activation takes besides its operands -/
  frame : ℕ

/-- The functions of a module, by index.  Those without a definition are
imported. -/
structure Functions where
  type : ℕ → Option FuncType
  definition : ℕ → Option Definition

/-- What a function does: with so many bytes of stack, the results it returns for
arguments.  It is a relation, in which a call that returns nothing has no results.
-/
abbrev Behaviour := ℕ → List Word → List Word → Prop

/-- A sequence of operators with a stack of so many bytes.  A callee has what its
caller leaves free: its arguments are popped before the call, and its own activation
comes below what is left. -/
inductive Runs (F : Functions) (c : Convention) (I : ℕ → Behaviour) :
    ℕ → List Operator → State → State → Prop where
  | nil {n : ℕ} {w : State} : Runs F c I n [] w w
  | op {n : ℕ} {op : Operator} {ops : List Operator} {w w₁ w' : State} :
      c.step op w = some w₁ → 8 * w₁.stack.length ≤ n → Runs F c I n ops w₁ w' →
      Runs F c I n (op :: ops) w w'
  | call {n m f : ℕ} {ty : FuncType} {d : Definition} {ops : List Operator}
      {args rest ls : List Word} {w₁ w' : State} :
      F.type f = some ty → F.definition f = some d → args.length = ty.params.length →
      8 * rest.length + 8 + d.frame + m ≤ n →
      Runs F c I m d.operators ⟨[], c.arguments args ++ List.replicate d.locals 0⟩ w₁ →
      w₁.stack.length = ty.returns.length → 8 * (ty.returns.length + rest.length) ≤ n →
      Runs F c I n ops ⟨(c.results w₁.stack.reverse).reverse ++ rest, ls⟩ w' →
      Runs F c I n (.call f :: ops) ⟨args.reverse ++ rest, ls⟩ w'
  | outside {n m f : ℕ} {ty : FuncType} {ops : List Operator}
      {args results rest ls : List Word} {w' : State} :
      F.type f = some ty → F.definition f = none → args.length = ty.params.length →
      8 * rest.length + 8 + m ≤ n → I f m args results →
      results.length = ty.returns.length → 8 * (ty.returns.length + rest.length) ≤ n →
      Runs F c I n ops ⟨results.reverse ++ rest, ls⟩ w' →
      Runs F c I n (.call f :: ops) ⟨args.reverse ++ rest, ls⟩ w'

/-- What the functions with a definition do.  An activation starts with no operands,
its arguments and its declared locals, which are zero, and ends with its results and
nothing else. -/
def Calls (F : Functions) (c : Convention) (I : ℕ → Behaviour) (f : ℕ) : Behaviour :=
  fun n args results => ∃ ty d m w, F.type f = some ty ∧ F.definition f = some d ∧
    args.length = ty.params.length ∧ d.frame + m ≤ n ∧
    Runs F c I m d.operators ⟨[], c.arguments args ++ List.replicate d.locals 0⟩ w ∧
    w.stack.length = ty.returns.length ∧ results = c.results w.stack.reverse

variable {F : Functions} {c c' : Convention} {I : ℕ → Behaviour} {n n' f : ℕ}
  {ops : List Operator} {args results : List Word} {w w' : State}

/-- Operands that are arguments, and the rest. -/
theorem exists_arguments {st : List Word} {p m : ℕ} (h : st.length = p + m) :
    ∃ args rest : List Word, st = args.reverse ++ rest ∧ args.length = p ∧ rest.length = m := by
  refine ⟨(st.take p).reverse, st.drop p, ?_, ?_, ?_⟩
  · rw [List.reverse_reverse, List.take_append_drop]
  · rw [List.length_reverse, List.length_take_of_le (h ▸ Nat.le_add_right p m)]
  · rw [List.length_drop, h, Nat.add_sub_cancel_left]

/-- **More stack does no harm.**  What is computed in so many bytes is computed in
more. -/
theorem Runs.mono (h : Runs F c I n ops w w') (hn : n ≤ n') : Runs F c I n' ops w w' := by
  induction h generalizing n' with
  | nil => exact .nil
  | op hstep hroom _ ih => exact .op hstep (Nat.le_trans hroom hn) (ih hn)
  | call hty hd hargs hroom hbody hlen hres _ _ ih =>
      exact .call hty hd hargs (Nat.le_trans hroom hn) hbody hlen (Nat.le_trans hres hn) (ih hn)
  | outside hty hd hargs hroom hI hlen hres _ ih =>
      exact .outside hty hd hargs (Nat.le_trans hroom hn) hI hlen (Nat.le_trans hres hn) (ih hn)

/-- The same for a call. -/
theorem Calls.mono (h : Calls F c I f n args results) (hn : n ≤ n') :
    Calls F c I f n' args results := by
  obtain ⟨ty, d, m, w, hty, hd, hargs, hroom, h⟩ := h
  exact ⟨ty, d, m, w, hty, hd, hargs, Nat.le_trans hroom hn, h⟩

/-! ## Conventions that agree -/

/-- Two conventions make no difference to functions: none of them subtracts unless
the differences are the same, and arguments and results are passed alike in the
numbers in which they are passed. -/
structure Convention.Agree (F : Functions) (c c' : Convention) : Prop where
  difference : ∀ f d, F.definition f = some d → .i64Sub ∈ d.operators →
    c.difference = c'.difference
  arguments : ∀ f ty args, F.type f = some ty → args.length = ty.params.length →
    c.arguments args = c'.arguments args
  results : ∀ f ty results, F.type f = some ty → results.length = ty.returns.length →
    c.results results = c'.results results

/-- A convention agrees with itself, -/
theorem Convention.Agree.refl (F : Functions) (c : Convention) : Convention.Agree F c c :=
  ⟨fun _ _ _ _ => rfl, fun _ _ _ _ _ => rfl, fun _ _ _ _ _ => rfl⟩

/-- and agreement goes both ways. -/
theorem Convention.Agree.symm (h : Convention.Agree F c c') : Convention.Agree F c' c :=
  ⟨fun f d hd hop => (h.difference f d hd hop).symm,
    fun f ty args hty hlen => (h.arguments f ty args hty hlen).symm,
    fun f ty results hty hlen => (h.results f ty results hty hlen).symm⟩

/-- An operator is executed alike if it does not subtract, or if differences are the
same. -/
theorem Convention.step_congr {op : Operator} (h : op = .i64Sub → c.difference = c'.difference)
    (w : State) : c.step op w = c'.step op w := by
  by_cases hop : op = .i64Sub
  · rw [hop, Convention.step.eq_def, Convention.step.eq_def, h hop]
  · cases op <;> first | rfl | exact absurd rfl hop

/-- Operators run alike by conventions that agree. -/
theorem Runs.congr (hagree : Convention.Agree F c c')
    (hops : .i64Sub ∈ ops → c.difference = c'.difference) (h : Runs F c I n ops w w') :
    Runs F c' I n ops w w' := by
  induction h with
  | nil => exact .nil
  | op hstep hroom _ ih =>
      rw [Convention.step_congr fun hop => hops (hop ▸ List.mem_cons_self)] at hstep
      exact .op hstep hroom (ih fun hop => hops (List.mem_cons_of_mem _ hop))
  | @call n m f ty d ops args rest ls w₁ w' hty hd hargs hroom _ hlen hres _ ihbody ih =>
      have hbody := ihbody (hagree.difference f d hd)
      have hrest := ih fun hop => hops (List.mem_cons_of_mem _ hop)
      rw [hagree.arguments f ty args hty hargs] at hbody
      rw [hagree.results f ty _ hty (by rw [List.length_reverse, hlen])] at hrest
      exact .call hty hd hargs hroom hbody hlen hres hrest
  | outside hty hd hargs hroom hI hlen hres _ ih =>
      exact .outside hty hd hargs hroom hI hlen hres
        (ih fun hop => hops (List.mem_cons_of_mem _ hop))

/-- **Calls come to the same by conventions that agree.**  The agreement is about
all functions with a definition, since any of them may be called further in. -/
theorem calls_congr (hagree : Convention.Agree F c c') :
    Calls F c I f n args results ↔ Calls F c' I f n args results := by
  have hone : ∀ {c c' : Convention}, Convention.Agree F c c' →
      Calls F c I f n args results → Calls F c' I f n args results := by
    rintro c c' hagree ⟨ty, d, m, w, hty, hd, hargs, hroom, hbody, hlen, rfl⟩
    refine ⟨ty, d, m, w, hty, hd, hargs, hroom, ?_, hlen, ?_⟩
    · rw [← hagree.arguments f ty args hty hargs]
      exact hbody.congr hagree (hagree.difference f d hd)
    · exact hagree.results f ty _ hty (by rw [List.length_reverse, hlen])
  exact ⟨hone hagree, hone hagree.symm⟩

end ParaOS.Wasm
