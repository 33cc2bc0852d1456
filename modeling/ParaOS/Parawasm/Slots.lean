import Mathlib.Order.CompletePartialOrder
import Mathlib.Order.Interval.Set.Defs
import Mathlib.Order.Interval.Set.Disjoint
import ParaOS.Parawasm.Body

/-!
# The layout of locals

Params and declared locals are laid out by two loops.  The first records for a
param the running size *behind* it and the second for a declared local the one
*before* it, so the offset of the first declared local is that of the last param;
sizes are four or eight bytes while the code reads and writes eight from
`rbp - offset` on.

In both cases an offset is less than eight above the one before it, or above zero
where there is none before it (`not_frameLayout_of_close`).  This is the only way
for slots to overlap or to leave the frame (`frame_layout_iff`).

### What is load-bearing

The limit of 50000 locals is the validator's, and what it is needed for is `u32`:
with it, every size here is below `2 ^ 32` and the table is the same in a build with
overflow checks and in one without.

The frame has to fit below `rbp`.  A slot is an address, and an address below zero
would wrap around; the bytes of two slots could then be apart for the wrong reason.

Only `i32` and `i64` are considered, as there is no code for values of other types.
Types without a size are a panic and have no table.
-/

namespace ParaOS.Parawasm

open Machine X86 Wasm

/-- The bytes that `LocalGet`, `LocalSet` and the stores of the prologue access
for a local with this offset. -/
def slotBytes (s : X86.State) (off : ℕ) : Set ℕ := Set.Ico (s.slot off) (s.slot off + 8)

/-- One slot for each local, all of them inside the frame and no two overlapping,
and every offset a `u32`.  A slot is what the code accesses, eight bytes, and not
what the type would take. -/
structure FrameLayout (s : X86.State) (params : List Ty) (groups : List (ℕ × Ty))
    (t : LocalsTable) : Prop where
  entries : t.locals.length = params.length + localCount groups
  inside : ∀ off ∈ t.locals, slotBytes s off ⊆ Set.Ico (s.bp - t.localsSize) s.bp
  disjoint : ∀ (i j off off' : ℕ), i ≠ j → t.locals[i]? = some off → t.locals[j]? = some off' →
    Disjoint (slotBytes s off) (slotBytes s off')
  fits : t.localsSize < 2 ^ 32 ∧ ∀ off ∈ t.locals, off < 2 ^ 32

/-- The types that have an integer register. -/
abbrev AllIntegers (ts : List Ty) : Prop := ∀ t ∈ ts, t = Ty.i32 ∨ t = Ty.i64

/-- The bytes of an integer. -/
def width : Ty → ℕ
  | .i32 => 4
  | _ => 8

variable {s : X86.State} {params : List Ty} {groups : List (ℕ × Ty)} {t : LocalsTable}

/-! ## The two loops

Offsets as lists.  Of declared locals it is enough to know how many there are and
where the first of them is. -/

/-- Integers have a size. -/
theorem encodingSize_eq {ty : Ty} (h : ty = .i32 ∨ ty = .i64) :
    encodingSize ty = .ok (width ty) := by
  rcases h with rfl | rfl <;> rfl

/-- The offsets of params behind what is there already. -/
def paramOffsets : ℕ → List Ty → List ℕ
  | _, [] => []
  | n, p :: params => (n + width p) :: paramOffsets (n + width p) params

/-- The bytes of params. -/
def paramsSize (params : List Ty) : ℕ := (params.map width).sum

/-- No integer takes more than eight bytes. -/
theorem paramsSize_le (h : AllIntegers params) : paramsSize params ≤ 8 * params.length := by
  induction params with
  | nil => exact Nat.zero_le _
  | cons p params ih =>
      have h := List.forall_mem_cons.mp h
      have hsize : paramsSize (p :: params) = width p + paramsSize params := rfl
      have hwidth : width p ≤ 8 := by rcases h.1 with rfl | rfl <;> decide
      have := ih h.2
      rw [hsize, List.length_cons]
      omega

/-- Params behind other params. -/
theorem paramOffsets_append (n : ℕ) (params params' : List Ty) :
    paramOffsets n (params ++ params') =
      paramOffsets n params ++ paramOffsets (n + paramsSize params) params' := by
  induction params generalizing n with
  | nil => rfl
  | cons p params ih =>
      have hsize : paramsSize (p :: params) = width p + paramsSize params := rfl
      rw [List.cons_append, paramOffsets, ih, paramOffsets, List.cons_append, hsize, Nat.add_assoc]

/-- The last offset is the size of everything. -/
theorem getLast?_paramOffsets (params : List Ty) :
    (paramOffsets 0 params).getLast?.getD 0 = paramsSize params := by
  rcases List.eq_nil_or_concat params with rfl | ⟨init, p, rfl⟩
  · rfl
  · rw [List.concat_eq_append, paramOffsets_append]
    simp [paramOffsets, paramsSize]

/-- No offset lies beyond the size of everything. -/
theorem le_of_mem_paramOffsets {n off : ℕ} (h : off ∈ paramOffsets n params) :
    off ≤ n + paramsSize params := by
  induction params generalizing n with
  | nil => cases h
  | cons p params ih =>
      have hsize : paramsSize (p :: params) = width p + paramsSize params := rfl
      rcases List.mem_cons.mp h with rfl | h
      · omega
      · have := ih h
        omega

/-- What the first loop makes of integer params. -/
theorem exactParams_eq (h : AllIntegers params) (t : LocalsTable) :
    params.foldlM exactParam t = .ok
      ⟨t.locals ++ paramOffsets t.localsSize params, t.localsSize + paramsSize params⟩ := by
  induction params generalizing t with
  | nil => simp [paramOffsets, paramsSize]
  | cons p params ih =>
      have h := List.forall_mem_cons.mp h
      rw [List.foldlM_cons, exactParam, encodingSize_eq h.1, Outcome.ok_bind, Outcome.pure_eq_ok,
        Outcome.ok_bind, ih h.2]
      simp [paramOffsets, paramsSize, Nat.add_assoc]

/-- The declared locals, of which the first starts where the params end. -/
theorem exactGroups_eq (h : AllIntegers (groups.map Prod.snd)) (t : LocalsTable) :
    ∃ more size, groups.foldlM exactGroup t = .ok ⟨t.locals ++ more, t.localsSize + size⟩ ∧
      more.length = localCount groups ∧ size ≤ 8 * localCount groups ∧
      (∀ off ∈ more, off ≤ t.localsSize + size) ∧
      (more = [] ∧ size = 0 ∨ more.head? = some t.localsSize) := by
  induction groups generalizing t with
  | nil => exact ⟨[], 0, by simp, rfl, by simp, by simp, .inl ⟨rfl, rfl⟩⟩
  | cons g groups ih =>
      obtain ⟨n, ty⟩ := g
      have h : (ty = .i32 ∨ ty = .i64) ∧ AllIntegers (groups.map Prod.snd) :=
        List.forall_mem_cons.mp h
      have hwidth : width ty ≤ 8 := by rcases h.1 with rfl | rfl <;> decide
      obtain ⟨more, size, hrest, hlen, hsize, hle, hhead⟩ :=
        ih h.2 ⟨t.locals ++ (List.range n).map fun i => t.localsSize + width ty * i,
          t.localsSize + width ty * n⟩
      have hcount : localCount ((n, ty) :: groups) = n + localCount groups := rfl
      have hmul : width ty * n ≤ 8 * n := Nat.mul_le_mul_right n hwidth
      refine ⟨((List.range n).map fun i => t.localsSize + width ty * i) ++ more,
        width ty * n + size, ?_, ?_, ?_, ?_, ?_⟩
      · rw [List.foldlM_cons, exactGroup, encodingSize_eq h.1, Outcome.ok_bind,
          Outcome.pure_eq_ok, Outcome.ok_bind, hrest, List.append_assoc, Nat.add_assoc]
      · rw [List.length_append, hlen, hcount, List.length_map, List.length_range]
      · rw [hcount, Nat.mul_add]
        omega
      · intro off hoff
        rcases List.mem_append.mp hoff with hoff | hoff
        · obtain ⟨i, hi, rfl⟩ := List.mem_map.mp hoff
          have := Nat.mul_le_mul_left (width ty) (List.mem_range.mp hi).le
          omega
        · have := hle off hoff
          dsimp only at this
          omega
      · cases n with
        | zero => simpa using hhead
        | succ n =>
            refine .inr ?_
            rw [List.range_succ_eq_map]
            simp

/-- The table of integer params and locals. -/
theorem exactLayout_eq (hp : AllIntegers params) (hg : AllIntegers (groups.map Prod.snd)) :
    ∃ more size, exactLayout params groups = .ok
        ⟨paramOffsets 0 params ++ more, paramsSize params + size⟩ ∧
      more.length = localCount groups ∧ size ≤ 8 * localCount groups ∧
      (∀ off ∈ more, off ≤ paramsSize params + size) ∧
      (more = [] ∧ size = 0 ∨ more.head? = some (paramsSize params)) := by
  obtain ⟨more, size, hgroups, hlen, hsize, hle, hhead⟩ :=
    exactGroups_eq hg ⟨paramOffsets 0 params, paramsSize params⟩
  refine ⟨more, size, ?_, hlen, hsize, hle, hhead⟩
  rw [exactLayout, exactParams_eq hp, Outcome.ok_bind, List.nil_append, Nat.zero_add]
  exact hgroups

/-! ## Where slots overlap

An overlap is found at one place: the first `i32` param if there is one, otherwise
the first declared local.  What comes behind it need not be looked at. -/

/-- A slot within the frame is eight bytes from its offset below `rbp` upwards. -/
theorem slotBytes_eq {off : ℕ} (h : off ≤ s.bp) :
    slotBytes s off = Set.Ico (s.bp - off) (s.bp - off + 8) := by
  rw [slotBytes, State.slot_eq h]

/-- An offset less than eight above the one before it, or above zero if there is
none before it: the two slots share a byte, or the one reaches above `rbp`. -/
theorem not_frameLayout_of_close {pre post : List ℕ} {off : ℕ}
    (hlocals : t.locals = pre ++ off :: post) (hle : ∀ off ∈ t.locals, off ≤ s.bp)
    (hlow : pre.getLast?.getD 0 ≤ off) (hhigh : off < pre.getLast?.getD 0 + 8) :
    ¬ FrameLayout s params groups t := by
  intro h
  have hoff : off ≤ s.bp := hle off (by simp [hlocals])
  rcases List.eq_nil_or_concat pre with rfl | ⟨init, last, rfl⟩
  · -- the slot reaches up to the saved `rbp`
    have hin := h.inside off (by simp [hlocals])
    rw [slotBytes_eq hoff] at hin
    have hmem : s.bp - off + 7 ∈ Set.Ico (s.bp - t.localsSize) s.bp :=
      hin ⟨by omega, by omega⟩
    have := hmem.2
    simp only [List.getLast?_nil, Option.getD_none] at hhigh
    omega
  · rw [List.concat_eq_append] at hlocals hlow hhigh
    rw [List.getLast?_concat, Option.getD_some] at hlow hhigh
    have hlast : last ≤ s.bp := hle last (by simp [hlocals])
    have hdisj := h.disjoint init.length (init.length + 1) last off (by omega)
      (by simp [hlocals]) (by simp [hlocals])
    rw [slotBytes_eq hoff, slotBytes_eq hlast] at hdisj
    have hmem : s.bp - last ∈ Set.Ico (s.bp - last) (s.bp - last + 8) := ⟨le_rfl, by omega⟩
    exact Set.disjoint_left.mp hdisj hmem ⟨by omega, by omega⟩

/-- An `i32` param is too close to what is before it. -/
theorem allI64_of_frameLayout {more : List ℕ} {size : ℕ} (hp : AllIntegers params)
    (hle : ∀ off ∈ paramOffsets 0 params ++ more, off ≤ s.bp)
    (h : FrameLayout s params groups ⟨paramOffsets 0 params ++ more, size⟩) : AllI64 params := by
  intro p hmem
  rcases hp p hmem with rfl | rfl
  · obtain ⟨pre, post, rfl⟩ := List.append_of_mem hmem
    have hlocals : paramOffsets 0 (pre ++ .i32 :: post) ++ more = paramOffsets 0 pre ++
        (paramsSize pre + 4) :: (paramOffsets (paramsSize pre + 4) post ++ more) := by
      rw [paramOffsets_append, Nat.zero_add, List.append_assoc]
      rfl
    have hlast := getLast?_paramOffsets pre
    exact absurd h (not_frameLayout_of_close hlocals hle (by omega) (by omega))
  · rfl

/-- With `i64` params alone the offsets are the multiples of eight. -/
theorem paramOffsets_i64 (h : AllI64 params) :
    paramOffsets 0 params = (List.range params.length).map (fun i => 8 * (i + 1)) ∧
      paramsSize params = 8 * params.length := by
  have hints : AllIntegers params := fun p hp => .inr (h p hp)
  have heq := (exactParams_eq hints ⟨[], 0⟩).symm.trans (exactParams_i64 h ⟨[], 0⟩)
  simpa using heq

/-- `i64` params alone fill their frame. -/
theorem frameLayout_i64 (hzero : localCount groups = 0) (hcount : params.length ≤ 50000)
    (hbp : 8 * params.length ≤ s.bp) :
    FrameLayout s params groups
      ⟨(List.range params.length).map fun i => 8 * (i + 1), 8 * params.length⟩ := by
  have hmem : ∀ {i off : ℕ}, ((List.range params.length).map fun i => 8 * (i + 1))[i]? = some off →
      i < params.length ∧ off = 8 * (i + 1) := by
    intro i off h
    rw [List.getElem?_map, Option.map_eq_some_iff] at h
    obtain ⟨k, hk, rfl⟩ := h
    obtain ⟨hlt, rfl⟩ := List.getElem?_eq_some_iff.mp hk
    rw [List.length_range] at hlt
    exact ⟨hlt, by rw [List.getElem_range]⟩
  refine ⟨by simp [hzero], fun off hoff x hx => ?_, fun i j off off' hij hi hj => ?_, ?_, ?_⟩
  · obtain ⟨i, hi⟩ := List.mem_iff_getElem?.mp hoff
    obtain ⟨hlt, rfl⟩ := hmem hi
    rw [slotBytes_eq (by omega)] at hx
    have hlow := hx.1
    have hhigh := hx.2
    exact ⟨by dsimp only; omega, by omega⟩
  · obtain ⟨hlt, rfl⟩ := hmem hi
    obtain ⟨hlt', rfl⟩ := hmem hj
    rw [slotBytes_eq (by omega), slotBytes_eq (by omega), Set.disjoint_left]
    intro x hx hx'
    have := hx.1
    have := hx.2
    have := hx'.1
    have := hx'.2
    omega
  · dsimp only
    omega
  · intro off hoff
    obtain ⟨i, hi⟩ := List.mem_iff_getElem?.mp hoff
    obtain ⟨hlt, rfl⟩ := hmem hi
    omega

/-- **Slots are apart exactly when there are only `i64` params and no declared
locals.**  The table exists in every case, and is the same in both kinds of build.

The limit on the number of locals is that of the validator.  It is what keeps the
sums from overflowing, and with it the table does not depend on how the crate is
built.  Slots have to be inside the address space for being apart to mean anything,
so `rbp` is asked to be above them. -/
theorem frame_layout_iff {params : List Ty} {groups : List (ℕ × Ty)} (hp : AllIntegers params)
    (hg : AllIntegers (groups.map Prod.snd)) (hcount : params.length + localCount groups ≤ 50000) :
    ∃ t, (∀ overflowChecks, layout overflowChecks params groups = .ok t) ∧
      ∀ s : X86.State, t.localsSize ≤ s.bp →
        (FrameLayout s params groups t ↔ AllI64 params ∧ localCount groups = 0) := by
  obtain ⟨more, size, htable, hlen, hsize, hmore, hhead⟩ := exactLayout_eq hp hg
  have hparams := paramsSize_le hp
  refine ⟨_, fun c => layout_of_exact htable (by dsimp only; omega) c, fun s hbp => ?_⟩
  have hle : ∀ off ∈ paramOffsets 0 params ++ more, off ≤ paramsSize params + size := by
    intro off hoff
    rcases List.mem_append.mp hoff with hoff | hoff
    · have := le_of_mem_paramOffsets hoff
      omega
    · exact hmore off hoff
  have hle' : ∀ off ∈ paramOffsets 0 params ++ more, off ≤ s.bp :=
    fun off hoff => (hle off hoff).trans hbp
  constructor
  · intro h
    refine ⟨allI64_of_frameLayout hp hle' h, ?_⟩
    rw [← hlen, List.length_eq_zero_iff]
    rcases hhead with ⟨hnil, -⟩ | hhead
    · exact hnil
    · -- the first declared local is where the last param is
      obtain ⟨rest, rfl⟩ : ∃ rest, more = paramsSize params :: rest := by
        cases more with
        | nil => cases hhead
        | cons off rest =>
            cases hhead
            exact ⟨rest, rfl⟩
      refine absurd h (not_frameLayout_of_close rfl hle' ?_ ?_)
      · exact (getLast?_paramOffsets params).le
      · rw [getLast?_paramOffsets]
        omega
  · rintro ⟨hi64, hzero⟩
    obtain rfl : more = [] := List.length_eq_zero_iff.mp (hlen.trans hzero)
    obtain rfl : size = 0 := by omega
    obtain ⟨hoffs, htotal⟩ := paramOffsets_i64 hi64
    rw [List.append_nil, Nat.add_zero, hoffs, htotal]
    refine frameLayout_i64 hzero (by omega) ?_
    rwa [Nat.add_zero, htotal] at hbp

/-- Two `i64` params. -/
theorem frame_layout_iff_instance :
    ∃ t, layoutLocals [.i64, .i64] [] = .ok t ∧
      FrameLayout (X86.State.ofStack 64 128 []) [.i64, .i64] [] t := by
  obtain ⟨t, ht, h⟩ := @frame_layout_iff [.i64, .i64] [] (by decide)
    (by decide) (by decide)
  cases ht true
  exact ⟨_, rfl, (h _ (by decide)).mpr ⟨by decide, rfl⟩⟩

/-- A param and a declared local are in one place. -/
theorem frame_layout_overlaps : ¬ ∀ (params : List Ty) (groups : List (ℕ × Ty)) (t : LocalsTable)
    (s : X86.State), AllIntegers params → AllIntegers (groups.map Prod.snd) →
    params.length + localCount groups ≤ 50000 → layoutLocals params groups = .ok t →
    t.localsSize ≤ s.bp → FrameLayout s params groups t := by
  intro h
  have hlayout := h [.i64] [(1, .i64)] ⟨[8, 8], 16⟩ (X86.State.ofStack 64 128 []) (by decide)
    (by decide) (by decide) rfl (by decide)
  have hdisj := hlayout.disjoint 0 1 8 8 (by decide) rfl rfl
  exact Set.disjoint_left.mp hdisj (show 120 ∈ _ from ⟨by decide, by decide⟩)
    ⟨by decide, by decide⟩

end ParaOS.Parawasm
