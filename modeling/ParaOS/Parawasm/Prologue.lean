import ParaOS.Parawasm.CallConvention
import ParaOS.Parawasm.Slots

/-!
# Any number of params

The queue of argument registers is cut to the number of params with
`drain(0..n)` on a vector of six, which panics for more than six.  So the branch
for params that have no register left, which would read them off the stack, is
never taken: `params_stored_iff`.

### Why six is the exact bound

The condition of the theorem is on the number of params and on nothing else.  Up to
six the queue is long enough and every store is emitted, whatever locals are
declared, as long as their slots can be addressed; from seven on there is no code at
all, for any function, so that the property fails for want of a prologue and not
because an argument is in the wrong place.  That the branch for the stack would read
the wrong words, starting eight bytes too low, makes no difference: nothing comes to
it.
-/

namespace ParaOS.Parawasm

open Machine X86 Wasm

/-- A function finds its arguments in the slots of its params, each of them in
one: those in registers, and from the seventh on the words above the return
address. -/
def ParamsStored (ty : FuncType) (groups : List (ℕ × Ty)) (s : X86.State) : Prop :=
  ∃ t before s', entryCode ty groups = .ok (t, before) ∧ execList before s = some s' ∧
    ((t.locals.take ty.params.length).map fun off => s'.mem.load (s'.slot off)).Perm
      ((integerOrder.take ty.params.length).map s.regs ++
        (List.range (ty.params.length - 6)).map fun i => s.mem.load (s.sp + 8 + 8 * i))

variable {ty : FuncType} {groups : List (ℕ × Ty)}

/-- Up to six params the prologue is emitted. -/
theorem exists_entryCode (hp : AllI64 ty.params) (hg : AllIntegers (groups.map Prod.snd))
    (hcount : ty.params.length + localCount groups ≤ 50000) (hn : ty.params.length ≤ 6) :
    ∃ t before, entryCode ty groups = .ok (t, before) ∧
      t.localsSize ≤ 8 * (ty.params.length + localCount groups) := by
  have hints : AllIntegers ty.params := fun p hp' => .inr (hp p hp')
  obtain ⟨more, size, hexact, -, hsize, -, -⟩ := exactLayout_eq hints hg
  have htotal := (paramOffsets_i64 hp).2
  have htable := layoutLocals_eq_ok.mpr ⟨hexact, by dsimp only; omega⟩
  have hle : paramsSize ty.params + size ≤ 8 * (ty.params.length + localCount groups) := by omega
  have hmove : ∃ alloc, moveStack .subRsp (paramsSize ty.params + size) = .ok alloc := by
    rw [moveStack]
    split_ifs with hpos hlt
    · exact ⟨_, rfl⟩
    · omega
    · exact ⟨_, rfl⟩
  obtain ⟨alloc, halloc⟩ := hmove
  have hlen : ty.params.length = (integerOrder.take ty.params.length).reverse.length := by
    rw [List.length_reverse, length_take_integerOrder hn]
  have hstores := storeParams_i64 hp (paramOffsets 0 ty.params ++ more) hlen 8
  rw [List.reverse_reverse] at hstores
  refine ⟨⟨paramOffsets 0 ty.params ++ more, paramsSize ty.params + size⟩,
    [.push .rbp, .mov .rbp .rsp] ++ alloc ++ List.zipWith .store (paramOffsets 0 ty.params ++ more)
      (integerOrder.take ty.params.length).reverse, ?_, hle⟩
  rw [entryCode, drainTo_eq_ok.mpr ⟨hn, rfl⟩, Outcome.ok_bind, htable, Outcome.ok_bind, prologue,
    halloc, Outcome.ok_bind, hstores]
  rfl

/-- **Arguments are stored exactly when there are at most six params.**  The
hypotheses are those of the validator, at most 50000 locals, and room on the stack
for the frame.

With seven params `drain(0..7)` of six registers panics, and nothing is stored
because nothing is compiled.  Up to six each is stored from its register, whatever
locals are declared. -/
theorem params_stored_iff {ty : FuncType} {groups : List (ℕ × Ty)} {s : X86.State}
    (hp : AllI64 ty.params) (hg : AllIntegers (groups.map Prod.snd))
    (hcount : ty.params.length + localCount groups ≤ 50000)
    (hroom : 8 + 8 * (ty.params.length + localCount groups) ≤ s.sp) :
    ParamsStored ty groups s ↔ ty.params.length ≤ 6 := by
  constructor
  · rintro ⟨t, before, s', hentry, -⟩
    exact (entryCode_i64 hp hentry).1
  · intro hn
    obtain ⟨t, before, hentry, hsize⟩ := exists_entryCode hp hg hcount hn
    obtain ⟨-, ⟨more, hmore⟩, -⟩ := entryCode_i64 hp hentry
    obtain ⟨s', hs', -, hslots, -⟩ := exec_prologue (s := s) hp hentry (by omega)
    refine ⟨t, before, s', hentry, hs', ?_⟩
    rw [hmore, List.take_left' (length_paramSlots _), hslots, Nat.sub_eq_zero_of_le hn,
      List.range_zero, List.map_nil, List.append_nil]
    exact (List.reverse_perm _).map _

/-- Two arguments and a declared local. -/
theorem params_stored_iff_instance :
    ParamsStored ⟨[.i64, .i64], []⟩ [(1, .i32)] (X86.State.ofStack 128 256 [7]) :=
  (params_stored_iff (by decide) (by decide) (by decide) (by decide)).mpr (by decide)

/-- With seven params there is no prologue. -/
theorem params_not_stored : ¬ ∀ (ty : FuncType) (groups : List (ℕ × Ty)) (s : X86.State),
    AllI64 ty.params → AllIntegers (groups.map Prod.snd) →
    ty.params.length + localCount groups ≤ 50000 →
    8 + 8 * (ty.params.length + localCount groups) ≤ s.sp → ParamsStored ty groups s := by
  intro h
  obtain ⟨t, before, s', hentry, -⟩ := h ⟨List.replicate 7 .i64, []⟩ []
    (X86.State.ofStack 128 256 [7]) (by decide) (by decide) (by decide) (by decide)
  cases hentry

end ParaOS.Parawasm
