import ParaOS.Parawasm.Compile

/-!
# The shape of a compiled body

What `compileBody` emits, taken apart once so that no later proof unfolds it:
`compileBody_eq_ok` gives the table of locals and the three pieces of code, and
the lemmas after it give each piece in closed form when params, results and
locals are all `i64`.

The table of such a function has params at `8, 16, …, 8n` and declared locals at
`8n, 8n + 8, …` (`frame_i64`).  A slot is named by the distance of its *lowest*
byte below `rbp`, so the first declared local shares the slot of the last param,
and without params it is the word at `rbp` itself.

### Exact sizes

The source computes offsets in `u32`, and in two kinds of build that differ where a
sum is out of range.  Nearly all of what is said about frames needs neither:
`exactLayout` is the same table over the natural numbers, and `layout` agrees with
it whenever the last size is in range (`layout_of_exact`), in either build, since
sizes only grow.

### What is load-bearing

That a body which is compiled has its table in range is *not* because the locals
were checked first; they are not.  It holds because the validator refuses a group
that makes the number of locals exceed 50000, after that group has been laid out.
So a body may overflow and be refused, but not overflow and be compiled
(`compileLocals_eq_ok`).  `Roomy` is the invariant of that argument: what is laid
out, with the largest size for every local that may still come, stays below `2 ^
31`.
-/

namespace ParaOS.Parawasm

open Machine X86 Wasm

/-! ## The table of locals

First the arithmetic, then the folds.  `u32` has three lemmas, in range, out of
range and with overflow checks; nothing else unfolds it. -/

/-- The table of locals of a body, in a build with or without overflow checks. -/
def layout (overflowChecks : Bool) (params : List Ty) (groups : List (ℕ × Ty)) :
    Outcome LocalsTable := do
  let t ← params.foldlM (layoutParam overflowChecks) ⟨[], 0⟩
  groups.foldlM (layoutGroup overflowChecks) t

/-- The table of locals of a body whose sizes are all `u32`. -/
def layoutLocals (params : List Ty) (groups : List (ℕ × Ty)) : Outcome LocalsTable :=
  layout true params groups

/-- One param, with exact sizes. -/
def exactParam (t : LocalsTable) (param : Ty) : Outcome LocalsTable := do
  let sz ← encodingSize param
  return ⟨t.locals ++ [t.localsSize + sz], t.localsSize + sz⟩

/-- One group, with exact sizes. -/
def exactGroup (t : LocalsTable) (group : ℕ × Ty) : Outcome LocalsTable := do
  let sz ← encodingSize group.2
  return ⟨t.locals ++ (List.range group.1).map fun i => t.localsSize + sz * i,
    t.localsSize + sz * group.1⟩

/-- The table of locals with exact sizes: what `layout` comes to as long as they are
all `u32`. -/
def exactLayout (params : List Ty) (groups : List (ℕ × Ty)) : Outcome LocalsTable := do
  let t ← params.foldlM exactParam ⟨[], 0⟩
  groups.foldlM exactGroup t

/-- In range there is nothing to it, -/
theorem u32_of_lt {n : ℕ} (h : n < 2 ^ 32) (c : Bool) : u32 c n = .ok n := if_pos h

/-- out of range a build with overflow checks panics, -/
theorem u32_of_ge {n : ℕ} (h : 2 ^ 32 ≤ n) : u32 true n = .panic := by
  rw [u32, if_neg (Nat.not_lt.mpr h), if_pos rfl]

/-- and so what it returns there is exact. -/
theorem u32_true_eq_ok {n m : ℕ} : u32 true n = .ok m ↔ n < 2 ^ 32 ∧ m = n := by
  rcases Nat.lt_or_ge n (2 ^ 32) with h | h
  · rw [u32_of_lt h, Outcome.ok.injEq, eq_comm, and_iff_right h]
  · rw [u32_of_ge h]
    exact ⟨fun hno => (by cases hno), fun hno => absurd hno.1 (Nat.not_lt.mpr h)⟩

/-- No arithmetic returns an error. -/
theorem u32_ne_err {c : Bool} {n : ℕ} {e : Error} : u32 c n ≠ .err e := by
  rw [u32]
  split_ifs <;> simp

/-- An offset in range is exact in any build: the product is no larger than the sum.
-/
theorem groupOffset_of_lt {size sz i : ℕ} (h : size + sz * i < 2 ^ 32) (c : Bool) :
    groupOffset c size sz i = .ok (size + sz * i) := by
  rw [groupOffset, u32_of_lt (by omega), Outcome.ok_bind, u32_of_lt h]

/-- With overflow checks every offset that is returned is exact. -/
theorem groupOffset_true_eq_ok {size sz i off : ℕ} :
    groupOffset true size sz i = .ok off ↔ size + sz * i < 2 ^ 32 ∧ off = size + sz * i := by
  simp only [groupOffset, Outcome.bind_eq_ok, u32_true_eq_ok]
  constructor
  · rintro ⟨_, ⟨-, rfl⟩, hlt, rfl⟩
    exact ⟨hlt, rfl⟩
  · rintro ⟨hlt, rfl⟩
    exact ⟨sz * i, ⟨by omega, rfl⟩, hlt, rfl⟩

/-- A list of computations that all return. -/
theorem mapM_eq_ok {α β : Type} {f : α → Outcome β} {g : α → β} {as : List α}
    (h : ∀ a ∈ as, f a = .ok (g a)) : as.mapM f = .ok (as.map g) := by
  induction as with
  | nil => rfl
  | cons a as ih =>
      rw [List.forall_mem_cons] at h
      rw [List.mapM_cons, h.1, Outcome.ok_bind, ih h.2]
      rfl

/-- The offsets of a group whose end is in range. -/
theorem mapM_groupOffset {size sz n : ℕ} (h : size + sz * n < 2 ^ 32) (c : Bool) :
    (List.range n).mapM (groupOffset c size sz) =
      .ok ((List.range n).map fun i => size + sz * i) := by
  refine mapM_eq_ok fun i hi => groupOffset_of_lt ?_ c
  have := Nat.mul_le_mul_left sz (List.mem_range.mp hi).le
  omega

/-- A group whose end is a `u32` is laid out exactly. -/
theorem layoutGroup_of_exact {t t' : LocalsTable} {g : ℕ × Ty} (h : exactGroup t g = .ok t')
    (hlt : t'.localsSize < 2 ^ 32) (c : Bool) : layoutGroup c t g = .ok t' := by
  simp only [exactGroup, Outcome.bind_eq_ok, Outcome.pure_eq_ok, Outcome.ok.injEq] at h
  obtain ⟨sz, hsz, rfl⟩ := h
  rw [layoutGroup, hsz, Outcome.ok_bind, mapM_groupOffset hlt, Outcome.ok_bind,
    groupOffset_of_lt hlt, Outcome.ok_bind]
  rfl

/-- So is a param. -/
theorem layoutParam_of_exact {t t' : LocalsTable} {p : Ty} (h : exactParam t p = .ok t')
    (hlt : t'.localsSize < 2 ^ 32) (c : Bool) : layoutParam c t p = .ok t' := by
  simp only [exactParam, Outcome.bind_eq_ok, Outcome.pure_eq_ok, Outcome.ok.injEq] at h
  obtain ⟨sz, hsz, rfl⟩ := h
  rw [layoutParam, hsz, Outcome.ok_bind, u32_of_lt hlt, Outcome.ok_bind, Outcome.ok_bind]
  rfl

/-- With overflow checks nothing but the exact table is returned. -/
theorem exact_of_layoutGroup {t t' : LocalsTable} {g : ℕ × Ty}
    (h : layoutGroup true t g = .ok t') : exactGroup t g = .ok t' ∧ t'.localsSize < 2 ^ 32 := by
  simp only [layoutGroup, Outcome.bind_eq_ok, groupOffset_true_eq_ok, Outcome.pure_eq_ok,
    Outcome.ok.injEq] at h
  obtain ⟨sz, hsz, offs, hoffs, size, ⟨hlt, rfl⟩, rfl⟩ := h
  rw [mapM_groupOffset hlt] at hoffs
  cases hoffs
  refine ⟨?_, hlt⟩
  rw [exactGroup, hsz, Outcome.ok_bind]
  rfl

/-- The same for a param. -/
theorem exact_of_layoutParam {t t' : LocalsTable} {p : Ty}
    (h : layoutParam true t p = .ok t') : exactParam t p = .ok t' ∧ t'.localsSize < 2 ^ 32 := by
  simp only [layoutParam, Outcome.bind_eq_ok, u32_true_eq_ok, Outcome.pure_eq_ok,
    Outcome.ok.injEq] at h
  obtain ⟨sz, hsz, offset, ⟨hlt, rfl⟩, size, ⟨-, rfl⟩, rfl⟩ := h
  refine ⟨?_, hlt⟩
  rw [exactParam, hsz, Outcome.ok_bind]
  rfl

/-- A layout by steps that return what exact ones return. -/
theorem exact_of_foldlM {α : Type} {f exact : LocalsTable → α → Outcome LocalsTable} {as : List α}
    (hstep : ∀ t a t', f t a = .ok t' → exact t a = .ok t' ∧ t'.localsSize < 2 ^ 32)
    {t t' : LocalsTable} (ht : t.localsSize < 2 ^ 32) (h : as.foldlM f t = .ok t') :
    as.foldlM exact t = .ok t' ∧ t'.localsSize < 2 ^ 32 := by
  induction as generalizing t with
  | nil =>
      cases h
      exact ⟨rfl, ht⟩
  | cons a as ih =>
      rw [List.foldlM_cons, Outcome.bind_eq_ok] at h
      obtain ⟨t₁, ht₁, h⟩ := h
      obtain ⟨hexact, hlt⟩ := hstep _ _ _ ht₁
      rw [List.foldlM_cons, hexact, Outcome.ok_bind]
      exact ih hlt h

/-- A layout by exact steps that stays in range: sizes only grow, so all of them
are in range if the last one is. -/
theorem foldlM_of_exact {α : Type} {f exact : LocalsTable → α → Outcome LocalsTable} {as : List α}
    (hstep : ∀ t a t', exact t a = .ok t' → t'.localsSize < 2 ^ 32 → f t a = .ok t')
    (hgrow : ∀ t a t', exact t a = .ok t' → t.localsSize ≤ t'.localsSize) {t t' : LocalsTable}
    (h : as.foldlM exact t = .ok t') :
    t.localsSize ≤ t'.localsSize ∧ (t'.localsSize < 2 ^ 32 → as.foldlM f t = .ok t') := by
  induction as generalizing t with
  | nil =>
      cases h
      exact ⟨le_rfl, fun _ => rfl⟩
  | cons a as ih =>
      rw [List.foldlM_cons, Outcome.bind_eq_ok] at h
      obtain ⟨t₁, ht₁, h⟩ := h
      obtain ⟨hle, hrest⟩ := ih h
      refine ⟨(hgrow _ _ _ ht₁).trans hle, fun hlt => ?_⟩
      rw [List.foldlM_cons, hstep _ _ _ ht₁ (lt_of_le_of_lt hle hlt), Outcome.ok_bind]
      exact hrest hlt

/-- A param makes the table no smaller, -/
theorem exactParam_grows {t t' : LocalsTable} {p : Ty} (h : exactParam t p = .ok t') :
    t.localsSize ≤ t'.localsSize := by
  simp only [exactParam, Outcome.bind_eq_ok, Outcome.pure_eq_ok, Outcome.ok.injEq] at h
  obtain ⟨sz, -, rfl⟩ := h
  exact Nat.le_add_right _ _

/-- and neither does a group. -/
theorem exactGroup_grows {t t' : LocalsTable} {g : ℕ × Ty} (h : exactGroup t g = .ok t') :
    t.localsSize ≤ t'.localsSize := by
  simp only [exactGroup, Outcome.bind_eq_ok, Outcome.pure_eq_ok, Outcome.ok.injEq] at h
  obtain ⟨sz, -, rfl⟩ := h
  exact Nat.le_add_right _ _

/-- In any build, a table whose size is a `u32` is laid out exactly. -/
theorem layout_of_exact {params : List Ty} {groups : List (ℕ × Ty)} {t : LocalsTable}
    (h : exactLayout params groups = .ok t) (hlt : t.localsSize < 2 ^ 32) (c : Bool) :
    layout c params groups = .ok t := by
  rw [exactLayout, Outcome.bind_eq_ok] at h
  obtain ⟨t₀, ht₀, ht⟩ := h
  obtain ⟨hle, hgroups⟩ := foldlM_of_exact
    (fun _ _ _ hex hsmall => layoutGroup_of_exact hex hsmall c)
    (fun _ _ _ hex => exactGroup_grows hex) ht
  obtain ⟨-, hparams⟩ := foldlM_of_exact
    (fun _ _ _ hex hsmall => layoutParam_of_exact hex hsmall c)
    (fun _ _ _ hex => exactParam_grows hex) ht₀
  rw [layout, hparams (lt_of_le_of_lt hle hlt), Outcome.ok_bind, hgroups hlt]

/-- **The table with overflow checks is the exact one, if that is in range.** -/
theorem layoutLocals_eq_ok {params : List Ty} {groups : List (ℕ × Ty)} {t : LocalsTable} :
    layoutLocals params groups = .ok t ↔
      exactLayout params groups = .ok t ∧ t.localsSize < 2 ^ 32 := by
  constructor
  · intro h
    rw [layoutLocals, layout, Outcome.bind_eq_ok] at h
    obtain ⟨t₀, ht₀, ht⟩ := h
    obtain ⟨hparams, hlt₀⟩ := exact_of_foldlM (fun _ _ _ => exact_of_layoutParam)
      (by decide) ht₀
    obtain ⟨hgroups, hlt⟩ := exact_of_foldlM (fun _ _ _ => exact_of_layoutGroup) hlt₀ ht
    exact ⟨by rw [exactLayout, hparams, Outcome.ok_bind, hgroups], hlt⟩
  · rintro ⟨h, hlt⟩
    exact layout_of_exact h hlt true

/-! ## The pieces

A body is compiled in one go and in four pieces: the registers for its params, the
table of locals, the code in front, inside and behind.  Each of them has a lemma
with what it is when it is there. -/

variable {V : Validator} {ctx : Context} {ty : FuncType}

/-- The types `encoding_size` has a number for.  For the others it panics, and
params and locals of such types are never laid out. -/
def Sized (t : Ty) : Prop := t ∈ [Ty.i32, .i64, .f32, .f64, .v128]

instance : DecidablePred Sized := fun _ => inferInstanceAs (Decidable (_ ∈ _))

/-- That number. -/
def bytesOf : Ty → ℕ
  | .i32 => 4
  | .i64 => 8
  | .f32 => 4
  | .f64 => 8
  | .v128 => 16
  | _ => 0

/-- It returns that number, -/
theorem encodingSize_of_sized {t : Ty} (h : Sized t) : encodingSize t = .ok (bytesOf t) := by
  cases t <;> first | rfl | exact absurd h (by decide)

/-- and panics for the others. -/
theorem encodingSize_of_not_sized {t : Ty} (h : ¬ Sized t) : encodingSize t = .panic := by
  cases t <;> first | rfl | exact absurd (by decide) h

/-- No type takes more than sixteen bytes. -/
theorem encodingSize_le {t : Ty} {sz : ℕ} (h : encodingSize t = .ok sz) : sz ≤ 16 := by
  cases t <;> cases h <;> decide

/-- What has been laid out is well below `2 ^ 32` and stays so while at most
`maxFunctionLocals` locals are declared. -/
def Roomy (t : LocalsTable) (declared : ℕ) : Prop :=
  t.localsSize + 16 * (maxFunctionLocals - declared) < 2 ^ 31

/-- **Declared locals that are let through are laid out exactly.**  A group is laid
out before the validator sees its count; but one that takes the table out of range
has a count the validator then refuses. -/
theorem compileLocals_eq_ok {φ φ' : V.FuncSt} {t t' : LocalsTable} {gs : List (ℕ × Ty)}
    (hroom : Roomy t (V.declared φ)) (h : compileLocals V φ t gs = .ok (φ', t')) :
    gs.foldlM exactGroup t = .ok t' ∧ Roomy t' (V.declared φ') := by
  induction gs generalizing φ t with
  | nil =>
      cases h
      exact ⟨rfl, hroom⟩
  | cons g gs ih =>
      simp only [compileLocals, Outcome.bind_eq_ok, Outcome.ofReader_eq_ok] at h
      obtain ⟨t₁, ht₁, φ₁, hφ₁, hgs⟩ := h
      obtain ⟨hdeclared, hlimit⟩ := V.limit _ _ _ _ hφ₁
      cases hsz : encodingSize g.2 with
      | err e => simp [layoutGroup, hsz] at ht₁
      | panic => simp [layoutGroup, hsz] at ht₁
      | ok sz =>
          have hexact : exactGroup t g = .ok ⟨t.locals ++ (List.range g.1).map fun i =>
              t.localsSize + sz * i, t.localsSize + sz * g.1⟩ := by
            rw [exactGroup, hsz, Outcome.ok_bind]
            rfl
          have hle : sz * g.1 ≤ 16 * g.1 := Nat.mul_le_mul_right _ (encodingSize_le hsz)
          unfold Roomy at hroom
          rw [layoutGroup_of_exact hexact (by dsimp only; omega)] at ht₁
          cases ht₁
          have hroom₁ : t.localsSize + sz * g.1 +
              16 * (maxFunctionLocals - V.declared φ₁) < 2 ^ 31 := by omega
          rw [List.foldlM_cons, hexact, Outcome.ok_bind]
          exact ih hroom₁ hgs

/-- The params of a function with registers for all of them are laid out exactly. -/
theorem layoutParams_exact {c : Bool} {params : List Ty} {t t' : LocalsTable}
    (hroom : t.localsSize + 16 * params.length < 2 ^ 32)
    (h : params.foldlM (layoutParam c) t = .ok t') :
    params.foldlM exactParam t = .ok t' ∧ t'.localsSize ≤ t.localsSize + 16 * params.length := by
  induction params generalizing t with
  | nil =>
      cases h
      exact ⟨rfl, by omega⟩
  | cons p params ih =>
      rw [List.foldlM_cons, Outcome.bind_eq_ok] at h
      obtain ⟨t₁, ht₁, h⟩ := h
      rw [List.length_cons] at hroom ⊢
      cases hsz : encodingSize p with
      | err e => simp [layoutParam, hsz] at ht₁
      | panic => simp [layoutParam, hsz] at ht₁
      | ok sz =>
          have hexact : exactParam t p = .ok ⟨t.locals ++ [t.localsSize + sz], t.localsSize + sz⟩ := by
            rw [exactParam, hsz, Outcome.ok_bind]
            rfl
          have hle := encodingSize_le hsz
          rw [layoutParam_of_exact hexact (by dsimp only; omega)] at ht₁
          cases ht₁
          obtain ⟨hrest, hsize⟩ := ih (by dsimp only; omega) h
          rw [List.foldlM_cons, hexact, Outcome.ok_bind]
          dsimp only at hsize
          exact ⟨hrest, by omega⟩

/-- The queue of registers for up to six params. -/
theorem drainTo_eq_ok {n : ℕ} {order : List Reg} :
    drainTo n = .ok order ↔ n ≤ 6 ∧ order = integerOrder.take n := by
  rw [drainTo]
  split_ifs with h
  · simp [eq_comm, show n ≤ 6 from h]
  · simp [show ¬ n ≤ 6 from h]

/-- **The table of a body that is compiled is in range**, in any build: the queue
of registers bounds its params and the validator its declared locals. -/
theorem layoutLocals_of_compile {φ φ' : V.FuncSt} {params : List Ty} {groups : List (ℕ × Ty)}
    {t₀ t : LocalsTable} {order : List Reg} (horder : drainTo params.length = .ok order)
    (ht₀ : params.foldlM (layoutParam V.overflowChecks) ⟨[], 0⟩ = .ok t₀)
    (ht : compileLocals V φ t₀ groups = .ok (φ', t)) : layoutLocals params groups = .ok t := by
  have hn := (drainTo_eq_ok.mp horder).1
  obtain ⟨hparams, hsize₀⟩ := layoutParams_exact (by dsimp only; omega) ht₀
  have hroom : Roomy t₀ (V.declared φ) := by
    have hlimit : maxFunctionLocals = 50000 := rfl
    dsimp only at hsize₀
    unfold Roomy
    omega
  obtain ⟨hgroups, hroom'⟩ := compileLocals_eq_ok hroom ht
  unfold Roomy at hroom'
  rw [layoutLocals_eq_ok, exactLayout, hparams, Outcome.ok_bind]
  exact ⟨hgroups, by omega⟩

/-- The validator decides whether operators are translated, and not how. -/
theorem compileOps_eq_ok {locals : List ℕ} {φ φ' : V.FuncSt} {height height' : ℕ}
    {ops : List Operator} {code : List Instr}
    (h : compileOps V ctx locals φ height ops = .ok (φ', height', code)) :
    handleInstructions ctx locals ops = .ok code := by
  induction ops generalizing φ φ' height height' code with
  | nil =>
      cases h
      rfl
  | cons op ops ih =>
      simp only [compileOps, Outcome.bind_eq_ok, Outcome.pure_eq_ok, Outcome.ok.injEq,
        Prod.mk.injEq] at h
      obtain ⟨φ₁, -, c, hc, ⟨φ₂, h₂, r⟩, hr, -, -, rfl⟩ := h
      exact handleInstructions_cons.mpr ⟨c, r, hc, ih hr, rfl⟩

/-- **The code of a body**: prologue, operators, epilogue.  This is the lemma by
which everything else about the code of a body is proved. -/
theorem compileBody_eq_ok {φ : V.FuncSt} {body : FunctionBody} {out : List Instr × ℕ}
    (h : compileBody V ctx ty φ body = .ok out) :
    ∃ order t before code after, drainTo ty.params.length = .ok order ∧
      layoutLocals ty.params body.locals.items = .ok t ∧
      prologue ty.params order t = .ok before ∧
      handleInstructions ctx t.locals body.operators.items = .ok code ∧
      epilogue ty.returns t.localsSize = .ok after ∧ out.1 = before ++ code ++ after := by
  simp only [compileBody, Outcome.bind_eq_ok, Outcome.pure_eq_ok, Outcome.ok.injEq] at h
  obtain ⟨-, -, order, horder, t₀, ht₀, ⟨φ₁, t⟩, ht, before, hbefore, ⟨φ₂, height, code⟩, hcode,
    -, -, -, -, after, hafter, rfl⟩ := h
  exact ⟨order, t, before, code, after, horder, layoutLocals_of_compile horder ht₀ ht, hbefore,
    compileOps_eq_ok hcode, hafter, rfl⟩

/-! ## Closed forms

For functions that only have `i64` in them the pieces are lists that can be written
down. -/

/-- Every type in the list is `i64`. -/
abbrev AllI64 (ts : List Ty) : Prop := ∀ t ∈ ts, t = Ty.i64

/-- The register queue of a function with at most six params, back to front. -/
theorem length_take_integerOrder {n : ℕ} (h : n ≤ 6) : (integerOrder.take n).length = n := by
  rw [List.length_take]
  exact min_eq_left h

/-- The arguments of a call are popped, each into a register of the queue. -/
theorem popArgs_eq_ok {params : List Ty} {order : List Reg} {args : List Instr}
    (h : popArgs params order = .ok args) :
    ∃ rs : List Reg, args = rs.map .pop ∧ rs.length = params.length ∧ ∀ r ∈ rs, r ∈ order := by
  induction params generalizing order args with
  | nil =>
      cases h
      exact ⟨[], rfl, rfl, by simp⟩
  | cons p params ih =>
      have hstep : ∀ {reg : Reg}, order.getLast? = some reg →
          (do let rest ← popArgs params order.dropLast; return .pop reg :: rest) =
            Outcome.ok args →
          ∃ rs : List Reg, args = rs.map .pop ∧ rs.length = params.length + 1 ∧
            ∀ r ∈ rs, r ∈ order := by
        intro reg hreg hargs
        simp only [Outcome.bind_eq_ok, Outcome.pure_eq_ok, Outcome.ok.injEq] at hargs
        obtain ⟨rest, hrest, rfl⟩ := hargs
        obtain ⟨rs, rfl, hlen, hmem⟩ := ih hrest
        refine ⟨reg :: rs, rfl, by simp [hlen], List.forall_mem_cons.mpr ⟨?_, fun r hr => ?_⟩⟩
        · exact List.mem_of_getLast? hreg
        · exact List.dropLast_subset _ (hmem r hr)
      cases p with
      | i64 =>
          rw [popArgs] at h
          split at h
          · exact hstep ‹_› h
          · cases h
      | i32 =>
          rw [popArgs] at h
          split at h
          · exact hstep ‹_› h
          · cases h
      | _ => cases h

/-- Results are moved by one kind of instruction, as many as there are registers. -/
theorem moveResults_eq_ok {emit : Reg → Instr} {returns : List Ty} {order : List Reg}
    {results : List Instr} (h : moveResults emit returns order = .ok results) :
    results = (order.take returns.length).map emit := by
  induction returns generalizing order results with
  | nil =>
      cases h
      rfl
  | cons p returns ih =>
      have hstep : ∀ {reg : Reg} {order' : List Reg},
          (do let rest ← moveResults emit returns order'; return emit reg :: rest) =
            Outcome.ok results →
          results = ((reg :: order').take (returns.length + 1)).map emit := by
        intro reg order' hresults
        simp only [Outcome.bind_eq_ok, Outcome.pure_eq_ok, Outcome.ok.injEq] at hresults
        obtain ⟨rest, hrest, rfl⟩ := hresults
        rw [ih hrest]
        rfl
      have hnil : moveResults emit returns [] = .ok results →
          results = (([] : List Reg).take (returns.length + 1)).map emit := by
        intro hresults
        rw [ih hresults]
        simp
      cases p with
      | i64 =>
          cases order with
          | nil => exact hnil h
          | cons reg order => exact hstep h
      | i32 =>
          cases order with
          | nil => exact hnil h
          | cons reg order => exact hstep h
      | _ => cases h

/-- Of results as many are moved as there are registers, which are two. -/
theorem moveResults_i64 {emit : Reg → Instr} {returns : List Ty} (h : AllI64 returns)
    (order : List Reg) :
    moveResults emit returns order = .ok ((order.take returns.length).map emit) := by
  induction returns generalizing order with
  | nil => rfl
  | cons r returns ih =>
      obtain rfl := h r List.mem_cons_self
      have ih := ih fun t ht => h t (List.mem_cons_of_mem _ ht)
      cases order with
      | nil => simp [moveResults, ih]
      | cons reg order => simp [moveResults, ih]

/-- The arguments of a call, each popped into its register. -/
theorem popArgs_i64 {params : List Ty} (h : AllI64 params) {rs : List Reg}
    (hlen : params.length ≤ rs.length) :
    popArgs params rs.reverse = .ok ((rs.take params.length).map .pop) := by
  induction params generalizing rs with
  | nil => rfl
  | cons p params ih =>
      obtain rfl := h p List.mem_cons_self
      have htail := fun t ht => h t (List.mem_cons_of_mem _ ht)
      cases rs with
      | nil => simp at hlen
      | cons r rs =>
          have hlen : params.length ≤ rs.length := by simpa using hlen
          have hrest := ih htail hlen
          simp [popArgs, hrest]

/-- The params of a function, each stored from its register. -/
theorem storeParams_i64 {params : List Ty} (h : AllI64 params) (offs : List ℕ) {rs : List Reg}
    (hrs : params.length = rs.length) (x : ℕ) :
    storeParams (params.zip offs) rs.reverse x = .ok (List.zipWith .store offs rs) := by
  induction params generalizing offs rs with
  | nil =>
      obtain rfl := List.length_eq_zero_iff.mp hrs.symm
      simp [storeParams]
  | cons p params ih =>
      obtain rfl := h p List.mem_cons_self
      have htail := fun t ht => h t (List.mem_cons_of_mem _ ht)
      cases rs with
      | nil => simp at hrs
      | cons r rs =>
          cases offs with
          | nil => rfl
          | cons off offs =>
              have hrs : params.length = rs.length := by simpa using hrs
              simp [storeParams, ih htail offs hrs]

/-- The number of declared locals. -/
def localCount (groups : List (ℕ × Ty)) : ℕ := (groups.map Prod.fst).sum

/-- A group and the rest. -/
theorem localCount_cons (g : ℕ × Ty) (groups : List (ℕ × Ty)) :
    localCount (g :: groups) = g.1 + localCount groups := rfl

/-- There are as many locals as are counted. -/
theorem length_declaredLocals (groups : List (ℕ × Ty)) :
    (declaredLocals groups).length = localCount groups := by
  rw [declaredLocals, localCount, List.length_flatMap]
  simp only [List.length_replicate]

/-- Groups that count nothing declare nothing. -/
theorem declaredLocals_of_localCount {groups : List (ℕ × Ty)} (h : localCount groups = 0) :
    declaredLocals groups = [] := by
  induction groups with
  | nil => rfl
  | cons g groups ih =>
      obtain ⟨hcount, hcounts⟩ := Nat.add_eq_zero_iff.mp ((localCount_cons g groups).symm.trans h)
      rw [declaredLocals, List.flatMap_cons, hcount]
      exact ih hcounts

/-- They leave the table as it is, unless `encoding_size` panics. -/
theorem exactGroups_of_localCount {groups : List (ℕ × Ty)} {t t' : LocalsTable}
    (h : localCount groups = 0) :
    groups.foldlM exactGroup t = .ok t' ↔ (∀ g ∈ groups, Sized g.2) ∧ t' = t := by
  induction groups with
  | nil => simp [eq_comm]
  | cons g groups ih =>
      obtain ⟨hcount, hcounts⟩ := Nat.add_eq_zero_iff.mp ((localCount_cons g groups).symm.trans h)
      rw [List.foldlM_cons, exactGroup, List.forall_mem_cons]
      by_cases hg : Sized g.2
      · rw [encodingSize_of_sized hg, Outcome.ok_bind, hcount, Nat.mul_zero, Nat.add_zero,
          List.range_zero, List.map_nil, List.append_nil, Outcome.pure_eq_ok, Outcome.ok_bind,
          ih hcounts]
        exact and_congr_left fun _ => ⟨fun hgroups => ⟨hg, hgroups⟩, And.right⟩
      · rw [encodingSize_of_not_sized hg, Outcome.panic_bind, Outcome.panic_bind]
        exact ⟨nofun, fun hgroups => absurd hgroups.1.1 hg⟩

/-- The table is then that of the params. -/
theorem layoutLocals_of_localCount {params : List Ty} {groups : List (ℕ × Ty)} {t : LocalsTable}
    (h : localCount groups = 0) (ht : layoutLocals params groups = .ok t) :
    (∀ g ∈ groups, Sized g.2) ∧ layoutLocals params [] = .ok t := by
  rw [layoutLocals_eq_ok, exactLayout, Outcome.bind_eq_ok] at ht
  obtain ⟨⟨t₀, ht₀, hgroups⟩, hlt⟩ := ht
  obtain ⟨hsized, rfl⟩ := (exactGroups_of_localCount h).mp hgroups
  refine ⟨hsized, layoutLocals_eq_ok.mpr ⟨?_, hlt⟩⟩
  rw [exactLayout, ht₀, Outcome.ok_bind]
  rfl

/-- The slots of `n` params and `m` declared locals, all `i64`.  A param's slot
begins below what is laid out so far and a declared local's at it, so the lists
overlap by one slot. -/
def frameOffsets (n m : ℕ) : List ℕ :=
  (List.range n).map (fun i => 8 * (i + 1)) ++ (List.range m).map (fun i => 8 * n + 8 * i)

/-- The slots of params, from any table on, -/
theorem exactParams_i64 {params : List Ty} (h : AllI64 params) (t : LocalsTable) :
    params.foldlM exactParam t = .ok
      ⟨t.locals ++ (List.range params.length).map (fun i => t.localsSize + 8 * (i + 1)),
        t.localsSize + 8 * params.length⟩ := by
  induction params generalizing t with
  | nil => simp
  | cons p params ih =>
      obtain rfl := h p List.mem_cons_self
      rw [List.foldlM_cons, exactParam, encodingSize, Outcome.ok_bind, Outcome.pure_eq_ok,
        Outcome.ok_bind, ih fun t ht => h t (List.mem_cons_of_mem _ ht)]
      simp only [List.length_cons, List.range_succ_eq_map, List.map_cons, List.map_map,
        List.append_assoc, List.singleton_append, Outcome.ok.injEq, LocalsTable.mk.injEq]
      refine ⟨congrArg _ (congrArg₂ _ (by omega) (List.map_congr_left fun i _ => ?_)), by omega⟩
      simp only [Function.comp_apply]
      omega

/-- and those of declared locals. -/
theorem exactGroups_i64 {groups : List (ℕ × Ty)} (h : AllI64 (groups.map Prod.snd))
    (t : LocalsTable) :
    groups.foldlM exactGroup t = .ok
      ⟨t.locals ++ (List.range (localCount groups)).map (fun i => t.localsSize + 8 * i),
        t.localsSize + 8 * localCount groups⟩ := by
  induction groups generalizing t with
  | nil => simp [localCount]
  | cons g groups ih =>
      obtain ⟨n, ty⟩ := g
      obtain rfl : ty = .i64 := h ty List.mem_cons_self
      rw [List.foldlM_cons, exactGroup, encodingSize, Outcome.ok_bind, Outcome.pure_eq_ok,
        Outcome.ok_bind, ih fun t ht => h t (List.mem_cons_of_mem _ ht)]
      have hcount : localCount ((n, .i64) :: groups) = n + localCount groups := rfl
      rw [hcount, List.range_add, List.map_append, List.map_map]
      simp only [List.append_assoc, Outcome.ok.injEq, LocalsTable.mk.injEq]
      refine ⟨congrArg _ (congrArg _ (List.map_congr_left fun i _ => ?_)), by omega⟩
      simp only [Function.comp_apply]
      omega

/-- Declared locals of any type come after what is in the table already. -/
theorem exactGroups_eq_ok {groups : List (ℕ × Ty)} {t t' : LocalsTable}
    (h : groups.foldlM exactGroup t = .ok t') :
    ∃ more extra, t' = ⟨t.locals ++ more, t.localsSize + extra⟩ ∧
      more.length = localCount groups := by
  induction groups generalizing t with
  | nil =>
      cases h
      exact ⟨[], 0, by simp, rfl⟩
  | cons g groups ih =>
      simp only [List.foldlM_cons, exactGroup, Outcome.bind_eq_ok, Outcome.pure_eq_ok,
        Outcome.ok.injEq] at h
      obtain ⟨_, ⟨sz, -, rfl⟩, hrest⟩ := h
      obtain ⟨more, extra, rfl, hlen⟩ := ih hrest
      refine ⟨(List.range g.1).map (fun i => t.localsSize + sz * i) ++ more, sz * g.1 + extra,
        by rw [List.append_assoc, Nat.add_assoc], ?_⟩
      rw [List.length_append, hlen, List.length_map, List.length_range]
      rfl

/-- **The frame of an `i64` function**: where params and declared locals are. -/
theorem frame_i64 {params : List Ty} {groups : List (ℕ × Ty)} (hp : AllI64 params)
    (hg : AllI64 (groups.map Prod.snd)) :
    exactLayout params groups = .ok
      ⟨frameOffsets params.length (localCount groups),
        8 * params.length + 8 * localCount groups⟩ := by
  rw [exactLayout, exactParams_i64 hp, Outcome.ok_bind, exactGroups_i64 hg]
  simp [frameOffsets]

/-- So the table of a body with such locals is known. -/
theorem eq_frame_of_layoutLocals {params : List Ty} {groups : List (ℕ × Ty)} {t : LocalsTable}
    (hp : AllI64 params) (hg : AllI64 (groups.map Prod.snd))
    (h : layoutLocals params groups = .ok t) :
    t = ⟨frameOffsets params.length (localCount groups),
      8 * params.length + 8 * localCount groups⟩ :=
  Outcome.ok.inj ((layoutLocals_eq_ok.mp h).1.symm.trans (frame_i64 hp hg))

/-- The stack is moved by an amount that fits, or not at all. -/
theorem moveStack_eq_ok {emit : ℕ → Instr} {size : ℕ} {code : List Instr}
    (h : moveStack emit size = .ok code) :
    size < 2 ^ 31 ∧ code = if size = 0 then [] else [emit size] := by
  rw [moveStack] at h
  split_ifs at h with hpos hlt
  · cases h
    exact ⟨hlt, by rw [if_neg (by omega)]⟩
  · cases h
    exact ⟨by omega, by rw [if_pos (by omega)]⟩

/-- The prologue of a function with `i64` params. -/
theorem prologue_i64 {params : List Ty} (hp : AllI64 params) {t : LocalsTable}
    {order : List Reg} {before : List Instr} (horder : drainTo params.length = .ok order)
    (h : prologue params order t = .ok before) :
    t.localsSize < 2 ^ 31 ∧ before = [.push .rbp, .mov .rbp .rsp] ++
      (if t.localsSize = 0 then [] else [.subRsp t.localsSize]) ++
      List.zipWith .store t.locals order.reverse := by
  obtain ⟨hn, rfl⟩ := drainTo_eq_ok.mp horder
  simp only [prologue, Outcome.bind_eq_ok, Outcome.pure_eq_ok, Outcome.ok.injEq] at h
  obtain ⟨alloc, halloc, stores, hstores, rfl⟩ := h
  obtain ⟨hlt, rfl⟩ := moveStack_eq_ok halloc
  have hlen : params.length = (integerOrder.take params.length).reverse.length := by
    rw [List.length_reverse, length_take_integerOrder hn]
  have hs := storeParams_i64 hp t.locals hlen 8
  rw [List.reverse_reverse] at hs
  rw [hs] at hstores
  cases hstores
  exact ⟨hlt, rfl⟩

/-- The epilogue of a function with `i64` results. -/
theorem epilogue_i64 {returns : List Ty} (hr : AllI64 returns) {size : ℕ} {after : List Instr}
    (h : epilogue returns size = .ok after) :
    size < 2 ^ 31 ∧ after = (returnOrder.take returns.length).map .pop ++
      (if size = 0 then [] else [.addRsp size]) ++ [.mov .rsp .rbp, .pop .rbp, .ret] := by
  simp only [epilogue, Outcome.bind_eq_ok, Outcome.pure_eq_ok, Outcome.ok.injEq] at h
  obtain ⟨results, hresults, free, hfree, rfl⟩ := h
  rw [moveResults_i64 hr] at hresults
  cases hresults
  obtain ⟨hlt, rfl⟩ := moveStack_eq_ok hfree
  exact ⟨hlt, rfl⟩

end ParaOS.Parawasm
