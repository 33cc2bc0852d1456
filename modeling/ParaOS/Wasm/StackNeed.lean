import ParaOS.Wasm.Calls

/-!
# How much stack a call takes

Operators without branches are all executed, so what a computation takes of the
stack can be read off the operators: `stackOf` adds up a body, given what the
functions it calls take, and `takes` follows the calls to a given depth.  A call
can be computed exactly if its depth is bounded and there is as much stack
(`exists_calls_iff`).  In particular a function computes nothing if it comes back
to itself (`acc_of_takes`).

### What is load-bearing

That there are no branches.  Every operator of a body is executed whenever the body
is left at its end, so the largest of what they take is what the body takes,
whatever the operands are.  `stackOf` follows the number of operands and never their
values, and so `takes` is a number for a function and not one for each call of it.

`ExactlyTakes` asks of imports that they have such a number too.  Without it the
stack a call needs could depend on what is passed to an import, and no number would
be right.

### Recursion

With `takes` the depth of calls is bounded by its argument.  A function that comes
back to itself has no number at any depth (`acc_of_takes`), so it computes nothing
on any stack; and one that does not has a number at some depth
(`exists_takes_of_acc`).  There is no third case, for want of branches.
-/

namespace ParaOS.Wasm

open Machine

/-- The number of operands after an operator that stays in the function, `none` if
there are too few for it or the local is not there. -/
def height (locals h : ℕ) : Operator → Option ℕ
  | .i64Const _ => some (h + 1)
  | .i64Add => if 2 ≤ h then some (h - 1) else none
  | .i64Sub => if 2 ≤ h then some (h - 1) else none
  | .localGet i => if i < locals then some (h + 1) else none
  | .localSet i => if 1 ≤ h ∧ i < locals then some (h - 1) else none
  | .nop => some h
  | .end => some h
  | _ => none

/-- The number of operands after an operator and the bytes it takes, given what
functions take.  A call takes the operands it leaves behind, a return address and
what the callee takes; afterwards the results are among them. -/
def operatorTakes (F : Functions) (take : ℕ → Option ℕ) (locals h : ℕ) :
    Operator → Option (ℕ × ℕ)
  | .call f => (F.type f).bind fun ty => (take f).bind fun callee =>
      if ty.params.length ≤ h then
        some (ty.returns.length + (h - ty.params.length),
          max (8 * (h - ty.params.length) + 8 + callee)
            (8 * (ty.returns.length + (h - ty.params.length))))
      else none
  | op => (height locals h op).map fun h' => (h', 8 * h')

/-- The same for a sequence of operators: the number of operands at its end, and the
largest of what they take. -/
def stackOf (F : Functions) (take : ℕ → Option ℕ) (locals : ℕ) :
    ℕ → List Operator → Option (ℕ × ℕ)
  | h, [] => some (h, 0)
  | h, op :: ops => (operatorTakes F take locals h op).bind fun x =>
      (stackOf F take locals x.1 ops).map fun y => (y.1, max x.2 y.2)

/-- What functions take, if calls go no deeper than this.  The frame of an
activation comes to what its operators take; a function that calls deeper than is
allowed has no number. -/
def takes (F : Functions) (outside : ℕ → Option ℕ) : ℕ → ℕ → Option ℕ
  | 0, f =>
      match F.definition f with
      | some _ => none
      | none => outside f
  | n + 1, f =>
      match F.definition f with
      | some d => (F.type f).bind fun ty =>
          (stackOf F (takes F outside n) (ty.params.length + d.locals) 0 d.operators).bind fun x =>
            if x.1 = ty.returns.length then some (d.frame + x.2) else none
      | none => outside f

variable {F : Functions} {c : Convention} {I : ℕ → Behaviour} {outside : ℕ → Option ℕ}
  {take take' : ℕ → Option ℕ} {locals n n' m h f k : ℕ} {op : Operator} {ops : List Operator}
  {args : List Word} {w w' : State} {x : ℕ × ℕ} {ty : FuncType} {d : Definition}

/-! ## Depth

The depth is fuel, and like all fuel it must not matter how much of it is left over. -/

/-- An operator takes the same if functions that had a number keep it, -/
theorem operatorTakes_mono (hle : ∀ f k, take f = some k → take' f = some k)
    (hx : operatorTakes F take locals h op = some x) :
    operatorTakes F take' locals h op = some x := by
  cases op with
  | call f =>
      obtain ⟨ty, hty, hx⟩ := Option.bind_eq_some_iff.mp hx
      obtain ⟨callee, hcallee, hx⟩ := Option.bind_eq_some_iff.mp hx
      rw [operatorTakes, hty, Option.bind_some, hle f callee hcallee, Option.bind_some, hx]
  | _ => exact hx

/-- and so does a sequence. -/
theorem stackOf_mono (hle : ∀ f k, take f = some k → take' f = some k)
    (hx : stackOf F take locals h ops = some x) : stackOf F take' locals h ops = some x := by
  induction ops generalizing h x with
  | nil => exact hx
  | cons op ops ih =>
      obtain ⟨y, hy, hx⟩ := Option.bind_eq_some_iff.mp hx
      obtain ⟨z, hz, rfl⟩ := Option.map_eq_some_iff.mp hx
      rw [stackOf, operatorTakes_mono hle hy, Option.bind_some, ih hz]
      rfl

/-- What a function with a definition takes, read off its body. -/
theorem takes_definition (hty : F.type f = some ty) (hd : F.definition f = some d) :
    takes F outside (n + 1) f = some k ↔ ∃ bytes,
      stackOf F (takes F outside n) (ty.params.length + d.locals) 0 d.operators =
        some (ty.returns.length, bytes) ∧ k = d.frame + bytes := by
  simp only [takes, hd, hty, Option.bind_some, Option.bind_eq_some_iff,
    Option.ite_none_right_eq_some, Option.some.injEq]
  constructor
  · rintro ⟨⟨out, bytes⟩, hx, rfl, rfl⟩
    exact ⟨bytes, hx, rfl⟩
  · rintro ⟨bytes, hx, rfl⟩
    exact ⟨_, hx, rfl, rfl⟩

/-- What is imported takes what it is said to take, at any depth. -/
theorem takes_outside (hd : F.definition f = none) : takes F outside n f = outside f := by
  cases n with
  | zero => rw [takes, hd]
  | succ n => rw [takes, hd]

theorem takes_succ (hk : takes F outside n f = some k) : takes F outside (n + 1) f = some k := by
  induction n generalizing f k with
  | zero =>
      cases hd : F.definition f with
      | some d =>
          rw [takes, hd] at hk
          cases hk
      | none =>
          rw [takes_outside hd] at hk ⊢
          exact hk
  | succ n ih =>
      cases hd : F.definition f with
      | some d =>
          rw [takes, hd] at hk
          obtain ⟨ty, hty, -⟩ := Option.bind_eq_some_iff.mp hk
          obtain ⟨bytes, hx, rfl⟩ := (takes_definition hty hd).mp (by rw [takes, hd]; exact hk)
          exact (takes_definition hty hd).mpr ⟨bytes, stackOf_mono (fun f k => ih) hx, rfl⟩
      | none =>
          rw [takes_outside hd] at hk ⊢
          exact hk

/-- **Depth does no harm.**  A number found at some depth is the number at every
greater one. -/
theorem takes_mono (hnm : n ≤ m) (hk : takes F outside n f = some k) :
    takes F outside m f = some k := by
  induction hnm with
  | refl => exact hk
  | step _ ih => exact takes_succ ih

/-! ## What is computed in it -/

/-- Imported functions return what they return with so many bytes, and with
more. -/
def ExactlyTakes (F : Functions) (I : ℕ → Behaviour) (outside : ℕ → Option ℕ) : Prop :=
  ∀ f ty m args, F.type f = some ty → F.definition f = none → args.length = ty.params.length →
    ((∃ results : List Word, I f m args results ∧ results.length = ty.returns.length) ↔
      ∃ k, outside f = some k ∧ k ≤ m)

/-- A convention passes as many values as there are. -/
structure Convention.Lengths (c : Convention) : Prop where
  arguments : ∀ args, (c.arguments args).length = args.length
  results : ∀ results, (c.results results).length = results.length

/-- The locals of an activation are its params and its declared locals, by any
convention that passes as many values as there are. -/
theorem Convention.Lengths.length_locals (hc : c.Lengths) (args : List Word) (locals : ℕ) :
    (c.arguments args ++ List.replicate locals 0).length = args.length + locals := by
  rw [List.length_append, hc.arguments, List.length_replicate]

/-- An operator that stays in the function is executed if there are the operands
and locals for it. -/
theorem Convention.step_height (c : Convention) (op : Operator) (w : State) :
    (c.step op w).map (fun w₁ => (w₁.locals.length, w₁.stack.length)) =
      (height w.locals.length w.stack.length op).map fun h' => (w.locals.length, h') := by
  obtain ⟨st, ls⟩ := w
  have htwo : ∀ st' : List Word, st.length = st'.length + 2 →
      (if 2 ≤ st.length then some (st.length - 1) else none) = some (st'.length + 1) := by
    intro st' hlen
    rw [if_pos (by omega)]
    exact congrArg some (by omega)
  cases op with
  | i64Add =>
      cases st with
      | nil => rfl
      | cons b st =>
          cases st with
          | nil => rfl
          | cons a st => exact (congrArg (Option.map _) (htwo st rfl)).symm
  | i64Sub =>
      cases st with
      | nil => rfl
      | cons b st =>
          cases st with
          | nil => rfl
          | cons a st => exact (congrArg (Option.map _) (htwo st rfl)).symm
  | localGet i =>
      change Option.map _ (ls[i]?.map fun v => _) = Option.map _ (if i < ls.length then _ else _)
      by_cases hi : i < ls.length
      · rw [List.getElem?_eq_getElem hi, if_pos hi]
        rfl
      · rw [List.getElem?_eq_none (Nat.le_of_not_lt hi), if_neg hi]
        rfl
  | localSet i =>
      cases st with
      | nil => rfl
      | cons v st =>
          change Option.map _ (if i < ls.length then _ else _) = Option.map _ (if _ ∧ _ then _ else _)
          by_cases hi : i < ls.length
          · rw [if_pos hi, if_pos ⟨Nat.le_add_left 1 st.length, hi⟩, Option.map_some,
              List.length_set]
            rfl
          · rw [if_neg hi, if_neg fun h => hi h.2]
            rfl
  | _ => rfl

/-- What is executed, as heights have it. -/
theorem Convention.height_of_step {w₁ : State} (hstep : c.step op w = some w₁) :
    w₁.locals.length = w.locals.length ∧
      height w.locals.length w.stack.length op = some w₁.stack.length := by
  have hlen := c.step_height op w
  rw [hstep, Option.map_some, eq_comm, Option.map_eq_some_iff] at hlen
  obtain ⟨h', hh', heq⟩ := hlen
  rw [Prod.mk.injEq] at heq
  exact ⟨heq.1.symm, hh'.trans (congrArg some heq.2)⟩

/-- And the other way round. -/
theorem Convention.step_of_height {h' : ℕ}
    (hh' : height w.locals.length w.stack.length op = some h') :
    ∃ w₁, c.step op w = some w₁ ∧ w₁.locals.length = w.locals.length ∧ w₁.stack.length = h' := by
  have hlen := c.step_height op w
  rw [hh', Option.map_some, Option.map_eq_some_iff] at hlen
  obtain ⟨w₁, hstep, heq⟩ := hlen
  rw [Prod.mk.injEq] at heq
  exact ⟨w₁, hstep, heq⟩

/-- An operator that stays in the function takes the operands there are behind it.
-/
theorem operatorTakes_of_height {h' : ℕ} (hh' : height locals h op = some h') :
    operatorTakes F take locals h op = some (h', 8 * h') := by
  cases op with
  | call f => cases hh'
  | _ => exact congrArg (Option.map fun h' => (h', 8 * h')) hh'

/-- A call takes what is behind its arguments, a return address, and what its callee
takes. -/
theorem operatorTakes_call {callee : ℕ} (hty : F.type f = some ty) (hcallee : take f = some callee)
    (hle : ty.params.length ≤ h) :
    operatorTakes F take locals h (.call f) =
      some (ty.returns.length + (h - ty.params.length),
        max (8 * (h - ty.params.length) + 8 + callee)
          (8 * (ty.returns.length + (h - ty.params.length)))) := by
  rw [operatorTakes, hty, Option.bind_some, hcallee, Option.bind_some, if_pos hle]

/-- What a call takes with its arguments on top of the others. -/
theorem operatorTakes_arguments {rest : List Word} (hty : F.type f = some ty)
    (hargs : args.length = ty.params.length) :
    operatorTakes F take locals (args.reverse ++ rest).length (.call f) = some x ↔
      ∃ callee, take f = some callee ∧ (ty.returns.length + rest.length,
        max (8 * rest.length + 8 + callee) (8 * (ty.returns.length + rest.length))) = x := by
  have hlen : (args.reverse ++ rest).length = ty.params.length + rest.length := by
    rw [List.length_append, List.length_reverse, hargs]
  have hle : ty.params.length ≤ (args.reverse ++ rest).length := hlen ▸ Nat.le_add_right _ _
  have hbelow : (args.reverse ++ rest).length - ty.params.length = rest.length := by
    rw [hlen, Nat.add_sub_cancel_left]
  rw [operatorTakes, hty, Option.bind_some, Option.bind_eq_some_iff]
  simp only [if_pos hle, hbelow, Option.some.injEq]

/-- The deeper of two depths is enough for both. -/
theorem stackOf_cons {y : ℕ × ℕ} (hx : operatorTakes F (takes F outside n) locals h op = some x)
    (hy : stackOf F (takes F outside n') locals x.1 ops = some y) :
    stackOf F (takes F outside (max n n')) locals h (op :: ops) = some (y.1, max x.2 y.2) := by
  rw [stackOf, operatorTakes_mono (fun f k => takes_mono (Nat.le_max_left n n')) hx,
    Option.bind_some, stackOf_mono (fun f k => takes_mono (Nat.le_max_right n n')) hy]
  rfl

/-- **What is computed takes no more than there is.** -/
theorem stackOf_of_runs (hc : c.Lengths) (hI : ExactlyTakes F I outside)
    (hrun : Runs F c I n ops w w') :
    ∃ depth bytes, stackOf F (takes F outside depth) w.locals.length w.stack.length ops =
      some (w'.stack.length, bytes) ∧ bytes ≤ n := by
  induction hrun with
  | nil => exact ⟨0, 0, rfl, Nat.zero_le _⟩
  | @op n op ops w w₁ w' hstep hroom _ ih =>
      obtain ⟨depth, bytes, hops, hle⟩ := ih
      obtain ⟨hlocals, hheight⟩ := Convention.height_of_step hstep
      rw [hlocals] at hops
      exact ⟨_, _, stackOf_cons (n := 0) (operatorTakes_of_height hheight) hops,
        Nat.max_le.mpr ⟨hroom, hle⟩⟩
  | @call n m f ty d ops args rest ls w₁ w' hty hd hargs hroom _ hlen hres _ ihbody ih =>
      obtain ⟨depth, bytes, hbody, hle⟩ := ihbody
      obtain ⟨depth', bytes', hops, hle'⟩ := ih
      rw [hc.length_locals, hargs, hlen] at hbody
      have hcallee := (takes_definition hty hd).mpr ⟨bytes, hbody, rfl⟩
      rw [List.length_append, List.length_reverse, hc.results, List.length_reverse, hlen] at hops
      refine ⟨_, _, stackOf_cons ((operatorTakes_arguments hty hargs).mpr ⟨_, hcallee, rfl⟩) hops,
        ?_⟩
      simp only [Nat.max_le]
      omega
  | @outside n m f ty ops args results rest ls w' hty hd hargs hroom hB hlen hres _ ih =>
      obtain ⟨depth', bytes', hops, hle'⟩ := ih
      obtain ⟨callee, hcallee, hle⟩ := (hI f ty m args hty hd hargs).mp ⟨results, hB, hlen⟩
      have hcallee : takes F outside 0 f = some callee := by rw [takes_outside hd, hcallee]
      rw [List.length_append, List.length_reverse, hlen] at hops
      refine ⟨_, _, stackOf_cons ((operatorTakes_arguments hty hargs).mpr ⟨_, hcallee, rfl⟩) hops,
        ?_⟩
      simp only [Nat.max_le]
      omega

/-- Functions compute something in what they are said to take, whatever their
arguments are. -/
def Suffices (F : Functions) (c : Convention) (I : ℕ → Behaviour) (take : ℕ → Option ℕ) : Prop :=
  ∀ f ty d args m k, F.type f = some ty → F.definition f = some d →
    args.length = ty.params.length → take f = some k → k ≤ m →
    ∃ results, Calls F c I f m args results

/-- Operators are computed in what they take. -/
theorem exists_runs_of_stackOf (hc : c.Lengths) (hI : ExactlyTakes F I outside)
    (hout : ∀ f, F.definition f = none → take f = outside f) (htake : Suffices F c I take)
    (hx : stackOf F take w.locals.length w.stack.length ops = some x) (hle : x.2 ≤ n) :
    ∃ w', Runs F c I n ops w w' ∧ w'.stack.length = x.1 := by
  induction ops generalizing w x with
  | nil =>
      cases hx
      exact ⟨w, .nil, rfl⟩
  | cons op ops ih =>
      obtain ⟨y, hy, hx⟩ := Option.bind_eq_some_iff.mp hx
      obtain ⟨z, hz, rfl⟩ := Option.map_eq_some_iff.mp hx
      simp only [Nat.max_le] at hle
      by_cases hcall : ∃ f, op = .call f
      · obtain ⟨f, rfl⟩ := hcall
        obtain ⟨ty, hty, hy⟩ := Option.bind_eq_some_iff.mp hy
        obtain ⟨callee, hcallee, hy⟩ := Option.bind_eq_some_iff.mp hy
        rw [Option.ite_none_right_eq_some, Option.some.injEq] at hy
        obtain ⟨hparams, rfl⟩ := hy
        simp only [Nat.max_le] at hle
        obtain ⟨st, ls⟩ := w
        obtain ⟨args, rest, rfl, hargs, hrest⟩ := exists_arguments (Nat.add_sub_of_le hparams).symm
        simp only at hparams hz hle
        rw [← hrest] at hz hle
        have hnext : ∀ results : List Word, results.length = ty.returns.length →
            ∃ w', Runs F c I n ops ⟨results.reverse ++ rest, ls⟩ w' ∧ w'.stack.length = z.1 := by
          intro results hresults
          refine ih ?_ hle.2
          rw [List.length_append, List.length_reverse, hresults]
          exact hz
        cases hd : F.definition f with
        | some d =>
            obtain ⟨results, ty', d', m', w₁, hty', hd', -, hroom, hbody, hlen, rfl⟩ :=
              htake f ty d args callee callee hty hd hargs hcallee (Nat.le_refl _)
            cases hty.symm.trans hty'
            cases hd.symm.trans hd'
            obtain ⟨w', hw', hout'⟩ := hnext (c.results w₁.stack.reverse)
              (by rw [hc.results, List.length_reverse, hlen])
            exact ⟨w', .call hty hd hargs (by omega) hbody hlen hle.1.2 hw', hout'⟩
        | none =>
            rw [hout f hd] at hcallee
            obtain ⟨results, hB, hlen⟩ :=
              (hI f ty callee args hty hd hargs).mpr ⟨callee, hcallee, Nat.le_refl _⟩
            obtain ⟨w', hw', hout'⟩ := hnext results hlen
            exact ⟨w', .outside hty hd hargs (by omega) hB hlen hle.1.2 hw', hout'⟩
      · obtain ⟨h', hh', rfl⟩ : ∃ h', height w.locals.length w.stack.length op = some h' ∧
            (h', 8 * h') = y := by
          cases op with
          | call f => exact absurd ⟨f, rfl⟩ hcall
          | _ => exact Option.map_eq_some_iff.mp hy
        obtain ⟨w₁, hstep, hlocals, rfl⟩ := Convention.step_of_height (c := c) hh'
        rw [← hlocals] at hz
        obtain ⟨w', hw', hout'⟩ := ih hz hle.2
        exact ⟨w', .op hstep hle.1 hw', hout'⟩

/-- What functions are said to take is enough for them, by induction on the depth.
-/
theorem suffices_takes (hc : c.Lengths) (hI : ExactlyTakes F I outside) (depth : ℕ) :
    Suffices F c I (takes F outside depth) := by
  induction depth with
  | zero =>
      intro f ty d args m k hty hd hargs hk hle
      rw [takes, hd] at hk
      cases hk
  | succ depth ih =>
      intro f ty d args m k hty hd hargs hk hle
      obtain ⟨bytes, hx, rfl⟩ := (takes_definition hty hd).mp hk
      rw [← hargs, ← hc.length_locals args d.locals] at hx
      obtain ⟨w, hw, hlen⟩ := exists_runs_of_stackOf hc hI (fun f hd => takes_outside hd) ih
        (w := ⟨[], c.arguments args ++ List.replicate d.locals 0⟩) hx (Nat.le_refl _)
      exact ⟨_, ty, d, bytes, w, hty, hd, hargs, hle, hw, hlen, rfl⟩

/-- There is as much stack as a call takes. -/
def Enough (F : Functions) (outside : ℕ → Option ℕ) (f n : ℕ) : Prop :=
  ∃ depth k, takes F outside depth f = some k ∧ k ≤ n

/-- **How much stack a call takes**: something is computed exactly if there is as
much.  The arguments play no part in it, so that all calls of a function need the
same. -/
theorem exists_calls_iff (hc : c.Lengths) (hI : ExactlyTakes F I outside)
    (hty : F.type f = some ty) (hd : F.definition f = some d)
    (hargs : args.length = ty.params.length) :
    (∃ results, Calls F c I f n args results) ↔ Enough F outside f n := by
  constructor
  · rintro ⟨results, ty', d', m, w, hty', hd', -, hroom, hbody, hlen, rfl⟩
    cases hty.symm.trans hty'
    cases hd.symm.trans hd'
    obtain ⟨depth, bytes, hx, hle⟩ := stackOf_of_runs hc hI hbody
    rw [hc.length_locals, hargs, hlen] at hx
    exact ⟨depth + 1, _, (takes_definition hty hd).mpr ⟨bytes, hx, rfl⟩, by omega⟩
  · rintro ⟨depth, k, hk, hle⟩
    exact suffices_takes hc hI depth f ty d args n k hty hd hargs hk hle

/-! ## Results and stack -/

/-- Imported functions that return what a relation says if they have as much stack
as they take. -/
def bounded (outside : ℕ → Option ℕ) (R : ℕ → List Word → List Word → Prop) : ℕ → Behaviour :=
  fun f m args results => (∃ k, outside f = some k ∧ k ≤ m) ∧ R f args results

/-- What a function computes on a stack without bounds.  This is the meaning
WebAssembly gives it, which has no bound on the stack either. -/
def Computes (F : Functions) (c : Convention) (R : ℕ → List Word → List Word → Prop) (f : ℕ)
    (args results : List Word) : Prop :=
  ∃ n, Calls F c (fun f _ args results => R f args results) f n args results

/-- Every imported function returns something. -/
def Total (F : Functions) (outside : ℕ → Option ℕ) (R : ℕ → List Word → List Word → Prop) : Prop :=
  ∀ f ty args, F.type f = some ty → F.definition f = none → args.length = ty.params.length →
    (∃ k, outside f = some k) → ∃ results : List Word, R f args results ∧
      results.length = ty.returns.length

variable {R : ℕ → List Word → List Word → Prop} {results : List Word}

/-- Imported functions that return something whenever they have what they take, take
exactly that. -/
theorem Total.exactlyTakes (h : Total F outside R) :
    ExactlyTakes F (bounded outside R) outside := by
  intro f ty m args hty hd hargs
  constructor
  · rintro ⟨results, ⟨hk, -⟩, -⟩
    exact hk
  · rintro ⟨k, hk, hle⟩
    obtain ⟨results, hR, hlen⟩ := h f ty args hty hd hargs ⟨k, hk⟩
    exact ⟨results, ⟨⟨k, hk, hle⟩, hR⟩, hlen⟩

/-- Imported functions that do more do no harm. -/
theorem Runs.imp {I' : ℕ → Behaviour} (hI : ∀ f m args results, I f m args results →
    I' f m args results) (h : Runs F c I n ops w w') : Runs F c I' n ops w w' := by
  induction h with
  | nil => exact .nil
  | op hstep hroom _ ih => exact .op hstep hroom ih
  | call hty hd hargs hroom _ hlen hres _ ihbody ih =>
      exact .call hty hd hargs hroom ihbody hlen hres ih
  | outside hty hd hargs hroom hB hlen hres _ ih =>
      exact .outside hty hd hargs hroom (hI _ _ _ _ hB) hlen hres ih

/-- What is computed on some stack is computed on what it takes. -/
theorem Runs.bounded (hc : c.Lengths)
    (h : Runs F c (fun f _ args results => R f args results) n ops w w') {depth : ℕ}
    (hx : stackOf F (takes F outside depth) w.locals.length w.stack.length ops = some x)
    (hle : x.2 ≤ m) : Runs F c (bounded outside R) m ops w w' := by
  induction h generalizing m depth x with
  | nil => exact .nil
  | @op n op ops w w₁ w' hstep hroom _ ih =>
      obtain ⟨hlocals, hheight⟩ := Convention.height_of_step hstep
      obtain ⟨y, hy, hx⟩ := Option.bind_eq_some_iff.mp hx
      obtain ⟨z, hz, rfl⟩ := Option.map_eq_some_iff.mp hx
      rw [operatorTakes_of_height hheight] at hy
      cases hy
      simp only [Nat.max_le] at hle
      rw [← hlocals] at hz
      exact .op hstep hle.1 (ih hz hle.2)
  | @call n m' f ty d ops args rest ls w₁ w' hty hd hargs hroom _ hlen hres _ ihbody ih =>
      obtain ⟨y, hy, hx⟩ := Option.bind_eq_some_iff.mp hx
      obtain ⟨z, hz, rfl⟩ := Option.map_eq_some_iff.mp hx
      obtain ⟨callee, hcallee, rfl⟩ := (operatorTakes_arguments hty hargs).mp hy
      simp only [Nat.max_le] at hle
      cases depth with
      | zero =>
          rw [takes, hd] at hcallee
          cases hcallee
      | succ depth =>
          obtain ⟨bytes, hbytes, rfl⟩ := (takes_definition hty hd).mp hcallee
          have hlocals := hc.length_locals args d.locals
          rw [← hargs, ← hlocals] at hbytes
          have hbody : Runs F c (Wasm.bounded outside R) bytes d.operators
              ⟨[], c.arguments args ++ List.replicate d.locals 0⟩ w₁ :=
            ihbody hbytes (Nat.le_refl bytes)
          have hops : stackOf F (takes F outside (depth + 1)) ls.length
              ((c.results w₁.stack.reverse).reverse ++ rest).length ops = some z := by
            rw [List.length_append, List.length_reverse, hc.results, List.length_reverse, hlen]
            exact hz
          exact .call hty hd hargs (by omega) hbody hlen hle.1.2 (ih hops hle.2)
  | @outside n m' f ty ops args results rest ls w' hty hd hargs hroom hB hlen hres _ ih =>
      obtain ⟨y, hy, hx⟩ := Option.bind_eq_some_iff.mp hx
      obtain ⟨z, hz, rfl⟩ := Option.map_eq_some_iff.mp hx
      obtain ⟨callee, hcallee, rfl⟩ := (operatorTakes_arguments hty hargs).mp hy
      simp only [Nat.max_le] at hle
      rw [takes_outside hd] at hcallee
      have hops : stackOf F (takes F outside depth) ls.length (results.reverse ++ rest).length ops =
          some z := by
        rw [List.length_append, List.length_reverse, hlen]
        exact hz
      exact .outside hty hd hargs (by omega) ⟨⟨callee, hcallee, Nat.le_refl _⟩, hB⟩ hlen hle.1.2
        (ih hops hle.2)

/-- **Results and stack are separate matters**: a function returns what it computes
without bounds, if there is as much stack as it takes. -/
theorem calls_bounded_iff (hc : c.Lengths) (hR : Total F outside R) :
    Calls F c (bounded outside R) f n args results ↔
      Enough F outside f n ∧ Computes F c R f args results := by
  constructor
  · rintro ⟨ty, d, m, w, hty, hd, hargs, hroom, hbody, hlen, rfl⟩
    refine ⟨?_, n, ty, d, m, w, hty, hd, hargs, hroom, hbody.imp fun f m args results h => h.2,
      hlen, rfl⟩
    exact (exists_calls_iff hc hR.exactlyTakes hty hd hargs).mp
      ⟨_, ty, d, m, w, hty, hd, hargs, hroom, hbody, hlen, rfl⟩
  · rintro ⟨⟨depth, k, hk, hle⟩, n', ty, d, m, w, hty, hd, hargs, -, hbody, hlen, rfl⟩
    cases depth with
    | zero =>
        rw [takes, hd] at hk
        cases hk
    | succ depth =>
        obtain ⟨bytes, hbytes, rfl⟩ := (takes_definition hty hd).mp hk
        rw [← hargs, ← hc.length_locals args d.locals] at hbytes
        exact ⟨ty, d, bytes, w, hty, hd, hargs, hle, hbody.bounded hc hbytes (Nat.le_refl bytes),
          hlen, rfl⟩

/-! ## Recursion -/

/-- A function that another one calls. -/
def CalledBy (F : Functions) (g f : ℕ) : Prop :=
  ∃ d, F.definition f = some d ∧ .call g ∈ d.operators

/-- What is called takes something if the whole does. -/
theorem take_of_stackOf {g : ℕ} (hx : stackOf F take locals h ops = some x)
    (hg : .call g ∈ ops) : ∃ k, take g = some k := by
  induction ops generalizing h x with
  | nil => cases hg
  | cons op ops ih =>
      obtain ⟨y, hy, hx⟩ := Option.bind_eq_some_iff.mp hx
      obtain ⟨z, hz, -⟩ := Option.map_eq_some_iff.mp hx
      rcases List.mem_cons.mp hg with rfl | hg
      · obtain ⟨ty, -, hy⟩ := Option.bind_eq_some_iff.mp hy
        obtain ⟨callee, hcallee, -⟩ := Option.bind_eq_some_iff.mp hy
        exact ⟨callee, hcallee⟩
      · exact ih hz hg

/-- **A function that comes back to itself takes more than there ever is.**  At any
depth: what it takes would have to be more than itself. -/
theorem acc_of_takes {depth : ℕ} (hk : takes F outside depth f = some k) :
    Acc (CalledBy F) f := by
  induction depth generalizing f k with
  | zero =>
      refine ⟨f, ?_⟩
      rintro g ⟨d, hd, -⟩
      rw [takes, hd] at hk
      cases hk
  | succ depth ih =>
      refine ⟨f, ?_⟩
      rintro g ⟨d, hd, hg⟩
      rw [takes, hd] at hk
      obtain ⟨ty, -, hk⟩ := Option.bind_eq_some_iff.mp hk
      obtain ⟨x, hx, -⟩ := Option.bind_eq_some_iff.mp hk
      obtain ⟨k', hk'⟩ := take_of_stackOf hx hg
      exact ih hk'

/-- Functions with a definition have a type, and operators that are executed with
the operands there are, to the end and with the results on the stack.  Valid
functions are like that. -/
def WellFormed (F : Functions) : Prop :=
  ∀ f d, F.definition f = some d → ∃ ty bytes, F.type f = some ty ∧
    stackOf F (fun _ => some 0) (ty.params.length + d.locals) 0 d.operators =
      some (ty.returns.length, bytes)

/-- Heights do not depend on what functions take. -/
theorem stackOf_of_takes (htake : ∀ g, .call g ∈ ops → ∃ k, take' g = some k)
    (hx : stackOf F take locals h ops = some x) :
    ∃ bytes, stackOf F take' locals h ops = some (x.1, bytes) := by
  induction ops generalizing h x with
  | nil =>
      cases hx
      exact ⟨0, rfl⟩
  | cons op ops ih =>
      obtain ⟨y, hy, hx⟩ := Option.bind_eq_some_iff.mp hx
      obtain ⟨z, hz, rfl⟩ := Option.map_eq_some_iff.mp hx
      obtain ⟨bytes, hrest⟩ := ih (fun g hg => htake g (List.mem_cons_of_mem _ hg)) hz
      obtain ⟨bytes', hop⟩ : ∃ b, operatorTakes F take' locals h op = some (y.1, b) := by
        cases op with
        | call g =>
            obtain ⟨ty, hty, hy⟩ := Option.bind_eq_some_iff.mp hy
            obtain ⟨callee, -, hy⟩ := Option.bind_eq_some_iff.mp hy
            rw [Option.ite_none_right_eq_some, Option.some.injEq] at hy
            obtain ⟨hle, rfl⟩ := hy
            obtain ⟨k, hk⟩ := htake g List.mem_cons_self
            exact ⟨_, operatorTakes_call hty hk hle⟩
        | _ => exact ⟨y.2, hy⟩
      exact ⟨max bytes' bytes, by rw [stackOf, hop, Option.bind_some, hrest]; rfl⟩

/-- What is called has a type. -/
theorem type_of_stackOf {g : ℕ} (hx : stackOf F take locals h ops = some x)
    (hg : .call g ∈ ops) : ∃ ty, F.type g = some ty := by
  induction ops generalizing h x with
  | nil => cases hg
  | cons op ops ih =>
      obtain ⟨y, hy, hx⟩ := Option.bind_eq_some_iff.mp hx
      obtain ⟨z, hz, -⟩ := Option.map_eq_some_iff.mp hx
      rcases List.mem_cons.mp hg with rfl | hg
      · obtain ⟨ty, hty, -⟩ := Option.bind_eq_some_iff.mp hy
        exact ⟨ty, hty⟩
      · exact ih hz hg

/-- One depth is enough for all that is called. -/
theorem exists_depth (hall : ∀ g, .call g ∈ ops → ∃ depth k, takes F outside depth g = some k) :
    ∃ depth, ∀ g, .call g ∈ ops → ∃ k, takes F outside depth g = some k := by
  induction ops with
  | nil => exact ⟨0, fun g hg => absurd hg List.not_mem_nil⟩
  | cons op ops ih =>
      obtain ⟨depth, hdepth⟩ := ih fun g hg => hall g (List.mem_cons_of_mem _ hg)
      by_cases hop : ∃ g, op = .call g
      · obtain ⟨g, rfl⟩ := hop
        obtain ⟨depth', k, hk⟩ := hall g List.mem_cons_self
        refine ⟨max depth depth', fun g' hg' => ?_⟩
        rcases List.mem_cons.mp hg' with heq | hg'
        · cases heq
          exact ⟨k, takes_mono (Nat.le_max_right _ _) hk⟩
        · obtain ⟨k', hk'⟩ := hdepth g' hg'
          exact ⟨k', takes_mono (Nat.le_max_left _ _) hk'⟩
      · refine ⟨depth, fun g hg => ?_⟩
        rcases List.mem_cons.mp hg with heq | hg
        · exact absurd ⟨g, heq.symm⟩ hop
        · exact hdepth g hg

/-- **And one that does not takes something.** -/
theorem exists_takes_of_acc (hF : WellFormed F)
    (hout : ∀ f ty, F.type f = some ty → F.definition f = none → ∃ k, outside f = some k)
    (hacc : Acc (CalledBy F) f) (hty : F.type f = some ty) :
    ∃ depth k, takes F outside depth f = some k := by
  induction hacc generalizing ty with
  | intro f _ ih =>
      cases hd : F.definition f with
      | none =>
          obtain ⟨k, hk⟩ := hout f ty hty hd
          exact ⟨0, k, by rw [takes_outside hd, hk]⟩
      | some d =>
          obtain ⟨ty', bytes, hty', hx⟩ := hF f d hd
          cases hty.symm.trans hty'
          have hall : ∀ g, .call g ∈ d.operators →
              ∃ depth k, takes F outside depth g = some k := by
            intro g hg
            obtain ⟨tyg, htyg⟩ := type_of_stackOf hx hg
            exact ih g ⟨d, hd, hg⟩ htyg
          obtain ⟨depth, hdepth⟩ := exists_depth hall
          obtain ⟨bytes', hx'⟩ := stackOf_of_takes hdepth hx
          exact ⟨depth + 1, _, (takes_definition hty hd).mpr ⟨bytes', hx', rfl⟩⟩

end ParaOS.Wasm
