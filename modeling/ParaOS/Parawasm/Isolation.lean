import Mathlib.Data.Finset.Dedup
import Mathlib.Data.Finset.Lattice.Lemmas
import ParaOS.Parawasm.FunctionTypes
import ParaOS.Parawasm.Relinking
import ParaOS.X86.Agreement
import ParaOS.X86.CallGraph

/-!
# What a function can see of the machine

A result should depend on the arguments alone, and not on what an earlier call or
another module has left in registers or on the stack.  `compile` does not see to
this.  It allocates slots for declared locals and does not clear them, so a
`local.get` in front of any `local.set` reads what was there before, or the `rbp`
of the caller if the slot is the one at offset zero (`results_not_isolated`).

Where every `local.get` reads a slot that has been written in this activation
(`ReadsWritten`), the emitted code keeps its results in view from its arguments
on (`compileBody_shows`), the optimiser leaves them there (`Rewrites.shows`), and two
calls of a function return alike by `Eval.agree`.

The condition is put on functions one by one (`Sealed`) and asked of a function and of
all that calls lead to from it (`LeadsTo`), not of the module: another function may
read what it likes as long as it is not called.  For this the program is cut down to
the labels of the functions that calls lead to, which changes nothing about the call
(`returns_restrict_iff`).

All three parts of `Sealed` are used.  With a type other than the declared one a call
takes its arguments from other registers than its caller has put them in; a body
that does not keep to its frame may return with other operands than its own, or not
at all; and a slot that is read before it is written is the leak itself.

### Why a view

The proof does not compare two runs.  A `View` is what two runs are known to agree
on, and it is followed through the code alone: an instruction that reads what is in
view brings what it writes into view, and from one that reads anything else there is
no step.  So whether code comes to its `ret` with the results in view is a question
about the code, and it can be settled along the compilation, operator by operator.
That two runs with the same view agree is proved once, for all programs
(`ParaOS.X86.Agreement`).

Imports have to be followed too.  An import that returned what it finds below its
stack would leak just as a function does, and `ImportsFollow` asks that it does not;
it may do anything else.
-/

namespace ParaOS.Parawasm

open Machine X86 Wasm

/-! ## Signatures

A signature says which registers a function takes its arguments from and which it
leaves its results in.  Nothing else of a type matters for views. -/

/-- The registers of the arguments and results of a function. -/
def signatureOf (ty : FuncType) : Signature where
  args := (integerOrder.take ty.params.length).toFinset
  results := (returnOrder.take ty.returns.length).toFinset
  general r hr := by
    rw [Finset.mem_union, List.mem_toFinset, List.mem_toFinset] at hr
    rcases hr with hr | hr
    · exact general_of_mem_integerOrder (List.mem_of_mem_take hr)
    · exact general_of_mem_returnOrder (List.mem_of_mem_take hr)

/-- Functions of a module, by the labels they are called through, with the types
the compiler looks up. -/
def signaturesOf (ctx : Context) (F : Set ℕ) : Signatures where
  functions l sig := ∃ f ∈ F, ∃ ty, ctx.got[f]? = some l ∧ ctx.functionType f = some ty ∧
    sig = signatureOf ty
  imports l sig := ∃ f ∈ F, ∃ ty, ctx.ils[f]? = some l ∧ ctx.functionType f = some ty ∧
    sig = signatureOf ty

/-- What is known of the functions a body may call. -/
structure SimpleCalls (ctx : Context) (F : Set ℕ) : Prop where
  params : ∀ f ∈ F, ∀ ty, ctx.functionType f = some ty → AllI64 ty.params
  returns : ∀ f ∈ F, ∀ ty, ctx.functionType f = some ty → ty.returns.length ≤ 1
  reached : ∀ f ∈ F, ∀ ty, ctx.functionType f = some ty →
    (∃ g, ctx.got[f]? = some g) ∨ ∃ l, ctx.ils[f]? = some l

/-! ## Slots that are written

A walk along the operators with the set of slots that have been written.  There is
no branching in what `compile` translates, so one pass is exact: the operators that
are walked over are those that are executed. -/

/-- The offsets of the slots that are written after an operator, from those
before: `none` if a slot is read that is not among them. -/
def slotsWritten (locals : List ℕ) (slots : Finset ℕ) : Operator → Option (Finset ℕ)
  | .localGet i => if ∀ off ∈ locals[i]?, off ∈ slots then some slots else none
  | .localSet i => some (locals[i]?.elim slots fun off => insert off slots)
  | _ => some slots

/-- The slots that are written after a sequence of operators. -/
def slotsWrittenBy (locals : List ℕ) : Finset ℕ → List Operator → Option (Finset ℕ)
  | slots, [] => some slots
  | slots, op :: ops => (slotsWritten locals slots op).bind fun slots' =>
      slotsWrittenBy locals slots' ops

/-- A body that reads no slot before it is written: by the prologue, which stores
the params, or by a `local.set` of the body. -/
def ReadsWritten (ty : FuncType) (body : FunctionBody) : Prop :=
  (slotsWrittenBy (frameOffsets ty.params.length (localCount body.locals.items))
    ((frameOffsets ty.params.length (localCount body.locals.items)).take
      ty.params.length).toFinset body.operators.items).isSome = true

instance (ty : FuncType) (body : FunctionBody) : Decidable (ReadsWritten ty body) :=
  inferInstanceAs (Decidable (_ = true))

/-! ## The code of a body

Each stage of a body is followed from one view to the next.  Only what is in view is
pushed, so operands are the same in both runs and every pop brings its register into
view; a view need not say anything about them.  A slot is in view once it has been
stored. -/

variable {S : Signatures} {v : View} {ctx : Context} {F : Set ℕ}

/-- Registers that are popped come into view. -/
theorem steps_pops (rs : List Reg) (hrs : ∀ r ∈ rs, r.general = true ∧ r ≠ .r10) (v : View) :
    ∃ v', v.Steps S (rs.map .pop) v' ∧ v'.slots = v.slots ∧ v.seen ⊆ v'.seen ∧
      ∀ r ∈ rs, r ∈ v'.seen := by
  induction rs generalizing v with
  | nil => exact ⟨v, rfl, rfl, Finset.Subset.refl _, by simp⟩
  | cons r rs ih =>
      rw [List.forall_mem_cons] at hrs
      obtain ⟨v', hv', hslots, hseen, hmem⟩ := ih hrs.2 (v.learn r)
      refine ⟨v', ⟨v.learn r, .inr ⟨hrs.1.1, hrs.1.2, rfl⟩, hv'⟩, hslots,
        (Finset.subset_insert r v.seen).trans hseen, List.forall_mem_cons.mpr ⟨?_, hmem⟩⟩
      exact hseen (Finset.mem_insert_self r v.seen)

/-- Slots that are stored come into view. -/
theorem steps_stores (offs : List ℕ) (rs : List Reg) (hrs : ∀ r ∈ rs, r ∈ v.seen) :
    ∃ v', v.Steps S (List.zipWith .store offs rs) v' ∧
      v'.slots = v.slots ∪ (offs.take rs.length).toFinset := by
  induction offs generalizing rs v with
  | nil => exact ⟨v, rfl, by simp⟩
  | cons off offs ih =>
      cases rs with
      | nil => exact ⟨v, rfl, by simp⟩
      | cons r rs =>
          rw [List.forall_mem_cons] at hrs
          obtain ⟨v', hv', hslots⟩ := ih (v := { v with slots := insert off v.slots }) rs hrs.2
          refine ⟨v', ⟨_, ⟨hrs.1, rfl⟩, hv'⟩, ?_⟩
          rw [hslots, List.length_cons, List.take_succ_cons, List.toFinset_cons,
            Finset.insert_union, Finset.union_insert]

/-- Arguments are not passed in `r10`, which the code of a call overwrites. -/
theorem ne_r10_of_mem_integerOrder {r : Reg} (h : r ∈ integerOrder) : r ≠ .r10 := by
  revert r
  decide

/-- Nor are results. -/
theorem ne_r10_of_mem_returnOrder {r : Reg} (h : r ∈ returnOrder) : r ≠ .r10 := by
  revert r
  decide

/-- The call itself: the arguments are in view, and then the results. -/
theorem steps_callCode {f : ℕ} {ty : FuncType} (hctx : SimpleCalls ctx F) (hf : f ∈ F)
    (hty : ctx.functionType f = some ty) (hargs : (signatureOf ty).args ⊆ v.seen) :
    v.Steps (signaturesOf ctx F) (callCode ctx f) (v.after (signatureOf ty)) := by
  rw [callCode]
  cases hgot : ctx.got[f]? with
  | some g => exact View.steps_singleton ⟨_, ⟨f, hf, ty, hgot, hty, rfl⟩, hargs, rfl⟩
  | none =>
      rcases hctx.reached f hf ty hty with ⟨g, hg⟩ | ⟨l, hl⟩
      · rw [hgot] at hg
        cases hg
      · simp only [hl]
        exact ⟨_, ⟨rfl, rfl⟩, _, ⟨rfl, l, rfl, _, ⟨f, hf, ty, hl, hty, rfl⟩, hargs, rfl⟩, rfl⟩

/-- The code of an operator on two operands. -/
theorem steps_binary {i : Instr}
    (hi : ∀ v : View, .rax ∈ v.seen → .rbx ∈ v.seen → v.Step S i (v.learn .rax)) (v : View) :
    ∃ v', v.Steps S [.pop .rax, .pop .rbx, i, .push .rax] v' ∧ v'.slots = v.slots := by
  obtain ⟨v₁, hv₁, hslots, -, hmem⟩ := steps_pops (S := S) [.rax, .rbx] (by decide) v
  have hi := hi v₁ (hmem _ (by decide)) (hmem _ (by decide))
  have hrest : v₁.Steps S [i, .push .rax] (v₁.learn .rax) :=
    ⟨_, hi, _, ⟨.inr ⟨rfl, Finset.mem_insert_self _ _⟩, rfl⟩, rfl⟩
  have hall := View.steps_append hv₁ hrest
  exact ⟨_, hall, hslots⟩

/-- The code of one operator. -/
theorem steps_handleInstruction {locals : List ℕ} {op : Operator} {code : List Instr}
    {slots : Finset ℕ} (hctx : SimpleCalls ctx F) (hop : integral op = true)
    (hcalls : ∀ f, op = .call f → f ∈ F) (h : handleInstruction ctx locals op = .ok code)
    (hslots : slotsWritten locals v.slots op = some slots) :
    ∃ v', v.Steps (signaturesOf ctx F) code v' ∧ v'.slots = slots := by
  have hrax : ∀ v : View, .rax ∈ (v.learn .rax).seen := fun v => Finset.mem_insert_self _ _
  cases op with
  | i64Const w =>
      cases h
      cases hslots
      exact ⟨_, ⟨_, ⟨by decide, rfl⟩, _, ⟨.inr ⟨rfl, hrax v⟩, rfl⟩, rfl⟩, rfl⟩
  | i64Add =>
      cases h
      cases hslots
      exact steps_binary (i := .add .rax .rbx) (fun v ha hb => ⟨by decide, ha, hb, rfl⟩) v
  | i64Sub =>
      cases h
      cases hslots
      exact steps_binary (i := .sub .rax .rbx) (fun v ha hb => ⟨by decide, ha, hb, rfl⟩) v
  | nop =>
      cases h
      cases hslots
      exact ⟨v, View.steps_singleton rfl, rfl⟩
  | «end» =>
      cases h
      cases hslots
      exact ⟨v, rfl, rfl⟩
  | localGet i =>
      rw [handleInstruction] at h
      split at h
      · rename_i off hoff
        cases h
        rw [slotsWritten, Option.ite_none_right_eq_some, Option.some.injEq] at hslots
        obtain ⟨hread, rfl⟩ := hslots
        exact ⟨_, ⟨_, ⟨hread off hoff, by decide, rfl⟩, _, ⟨.inr ⟨rfl, hrax v⟩, rfl⟩, rfl⟩, rfl⟩
      · cases h
  | localSet i =>
      rw [handleInstruction] at h
      split at h
      · rename_i off hoff
        cases h
        rw [slotsWritten, hoff] at hslots
        cases hslots
        exact ⟨_, ⟨_, .inr ⟨rfl, by decide, rfl⟩, _, ⟨hrax v, rfl⟩, rfl⟩, rfl⟩
      · cases h
  | call f =>
      simp only [handleInstruction, Outcome.bind_eq_ok, Outcome.unwrap_eq_ok, Outcome.pure_eq_ok,
        Outcome.ok.injEq] at h
      obtain ⟨ty, hty, order, horder, args, hargs, results, hresults, rfl⟩ := h
      cases hslots
      obtain ⟨hsix, rfl⟩ := drainTo_eq_ok.mp horder
      -- the arguments are popped into all of the registers
      have hlen : ty.params.length = (integerOrder.take ty.params.length).reverse.length := by
        rw [List.length_reverse, length_take_integerOrder hsix]
      have hf := hcalls f rfl
      have hpops := popArgs_i64 (hctx.params f hf ty hty) hlen.le
      rw [List.reverse_reverse, hargs, List.take_of_length_le hlen.ge] at hpops
      cases hpops
      obtain ⟨v₁, hv₁, hslots, -, hmem⟩ := steps_pops (S := signaturesOf ctx F)
        (integerOrder.take ty.params.length).reverse (fun r hr => by
          have hr := List.mem_of_mem_take (List.mem_reverse.mp hr)
          exact ⟨general_of_mem_integerOrder hr, ne_r10_of_mem_integerOrder hr⟩) v
      have hcall := steps_callCode (v := v₁) hctx hf hty fun r hr =>
        hmem r (List.mem_reverse.mpr (List.mem_toFinset.mp hr))
      rw [moveResults_eq_ok hresults]
      refine ⟨v₁.after (signatureOf ty), View.steps_append (View.steps_append hv₁ hcall) ?_, hslots⟩
      -- there is at most one result
      have hone := hctx.returns f hf ty hty
      cases hret : ty.returns.length with
      | zero => exact rfl
      | succ n =>
          obtain rfl : n = 0 := by omega
          have hres : .rax ∈ (v₁.after (signatureOf ty)).seen := by
            change Reg.rax ∈ (returnOrder.take ty.returns.length).toFinset
            rw [hret]
            decide
          exact View.steps_singleton ⟨.inr ⟨rfl, hres⟩, rfl⟩
  | i32Add => cases hop
  | i32Sub => cases hop
  | unimplemented b => cases hop

/-- The code of a sequence of operators, none of which reads a slot too early. -/
theorem steps_handleInstructions {locals : List ℕ} {ops : List Operator} {code : List Instr}
    {slots : Finset ℕ} (hctx : SimpleCalls ctx F) (hops : ∀ op ∈ ops, integral op = true)
    (hcalls : ∀ f, .call f ∈ ops → f ∈ F) (h : handleInstructions ctx locals ops = .ok code)
    (hslots : slotsWrittenBy locals v.slots ops = some slots) :
    ∃ v', v.Steps (signaturesOf ctx F) code v' := by
  induction ops generalizing v code with
  | nil =>
      cases h
      exact ⟨v, rfl⟩
  | cons op ops ih =>
      obtain ⟨c, r, hc, hr, rfl⟩ := handleInstructions_cons.mp h
      rw [List.forall_mem_cons] at hops
      rw [slotsWrittenBy, Option.bind_eq_some_iff] at hslots
      obtain ⟨slots₁, hslots₁, hslots⟩ := hslots
      obtain ⟨v₁, hv₁, rfl⟩ := steps_handleInstruction hctx hops.1
        (fun f hf => hcalls f (hf ▸ List.mem_cons_self)) hc hslots₁
      obtain ⟨v', hv'⟩ := ih hops.2 (fun f hf => hcalls f (List.mem_cons_of_mem _ hf)) hr hslots
      exact ⟨v', View.steps_append hv₁ hv'⟩

/-- The prologue brings the slots of the params into view. -/
theorem steps_prologue {params : List Ty} {order : List Reg} {t : LocalsTable}
    {before : List Instr} (hp : AllI64 params) (horder : drainTo params.length = .ok order)
    (h : prologue params order t = .ok before)
    (hseen : v.seen = (integerOrder.take params.length).toFinset) (hslots : v.slots = ∅) :
    ∃ v', v.Steps S before v' ∧ v'.slots = (t.locals.take params.length).toFinset := by
  obtain ⟨-, rfl⟩ := prologue_i64 hp horder h
  obtain ⟨hsix, rfl⟩ := drainTo_eq_ok.mp horder
  have hstart : v.Steps S [.push .rbp, .mov .rbp .rsp] v :=
    ⟨v, ⟨.inl rfl, rfl⟩, v, .inl ⟨.inr ⟨rfl, rfl⟩, rfl⟩, rfl⟩
  have halloc : v.Steps S (if t.localsSize = 0 then [] else [.subRsp t.localsSize]) v := by
    split_ifs
    · exact rfl
    · exact View.steps_singleton rfl
  obtain ⟨v', hv', hslots'⟩ := steps_stores (S := S) (v := v) t.locals
    (integerOrder.take params.length).reverse fun r hr => by
      rw [hseen, List.mem_toFinset]
      exact List.mem_reverse.mp hr
  refine ⟨v', View.steps_append (View.steps_append hstart halloc) hv', ?_⟩
  rw [hslots', hslots, Finset.empty_union, List.length_reverse, length_take_integerOrder hsix]

/-- The epilogue pops the results. -/
theorem shows_epilogue {returns : List Ty} {size : ℕ} {after : List Instr}
    (h : epilogue returns size = .ok after) (v : View) :
    v.Shows S (returnOrder.take returns.length).toFinset after := by
  simp only [epilogue, Outcome.bind_eq_ok, Outcome.pure_eq_ok, Outcome.ok.injEq] at h
  obtain ⟨results, hresults, free, hfree, rfl⟩ := h
  obtain ⟨-, rfl⟩ := moveStack_eq_ok hfree
  rw [moveResults_eq_ok hresults, List.append_assoc]
  obtain ⟨v', hv', -, -, hmem⟩ := steps_pops (S := S) (returnOrder.take returns.length)
    (fun r hr => by
      have hr := List.mem_of_mem_take hr
      exact ⟨general_of_mem_returnOrder hr, ne_r10_of_mem_returnOrder hr⟩) v
  have hfree : v'.Steps S (if size = 0 then [] else [.addRsp size]) v' := by
    split_ifs
    · exact rfl
    · exact View.steps_singleton rfl
  refine hv'.shows (hfree.shows ⟨v', .inl ⟨.inr ⟨rfl, rfl⟩, rfl⟩, v', .inl ⟨rfl, rfl⟩, ?_⟩)
  exact fun r hr => hmem r (List.mem_toFinset.mp hr)

/-- **A body keeps its results in view.** -/
theorem compileBody_shows {V : Validator} {ty : FuncType} {φ : V.FuncSt} {body : FunctionBody}
    {out : List Instr × ℕ} (hctx : SimpleCalls ctx F)
    (hops : ∀ op ∈ body.operators.items, integral op = true)
    (hcalls : ∀ f, .call f ∈ body.operators.items → f ∈ F)
    (h : compileBody V ctx ty φ body = .ok out) (hk : KeepsFrame ctx ty body)
    (hread : ReadsWritten ty body) :
    (signatureOf ty).entry.Shows (signaturesOf ctx F) (signatureOf ty).results out.1 := by
  obtain ⟨order, t, before, code, after, horder, ht, hbefore, hcode, hafter, hout⟩ :=
    compileBody_eq_ok h
  obtain ⟨hp, hg, -⟩ := hk
  obtain rfl := eq_frame_of_layoutLocals hp hg ht
  obtain ⟨v₁, hv₁, hslots⟩ := steps_prologue (S := signaturesOf ctx F)
    (v := (signatureOf ty).entry) hp horder hbefore rfl rfl
  obtain ⟨slots, hslots'⟩ := Option.isSome_iff_exists.mp hread
  obtain ⟨v₂, hv₂⟩ := steps_handleInstructions (v := v₁) hctx hops hcalls hcode
    (by rw [hslots, hslots'])
  rw [hout]
  exact (View.steps_append hv₁ hv₂).shows (shows_epilogue hafter v₂)

/-! ## The optimiser

The move that a push and a pop become leads to the same view as the two.  Opposite
moves in view are between `rsp` and `rbp`, or are both a move of `rax` to itself, so
a view is the same when they are gone. -/

/-- Two opposite moves in view do nothing: the one of them that is not between
`rsp` and `rbp` is a move of `rax` to itself. -/
theorem step_swap {a b : Reg} {v₁ v₂ : View} (h₁ : v.Step S (.mov a b) v₁)
    (h₂ : v₁.Step S (.mov b a) v₂) : v₂ = v := by
  rcases h₁ with ⟨hab, rfl⟩ | ⟨ha, -, rfl, hrax, rfl⟩
  · rcases h₂ with ⟨-, rfl⟩ | ⟨hb, -, rfl, hrax, rfl⟩
    · rfl
    · rcases hab with rfl | ⟨hgen, -⟩
      · exact View.learn_of_mem hrax
      · cases hgen
  · rcases h₂ with ⟨hba, rfl⟩ | ⟨-, -, rfl, -, rfl⟩
    · rcases hba with rfl | ⟨-, hgen⟩
      · exact View.learn_of_mem hrax
      · rw [ha] at hgen
        cases hgen
    · rw [View.learn_of_mem hrax, View.learn_of_mem hrax]

/-- A move of a register to itself changes no view. -/
theorem step_self {a : Reg} {v₁ : View} (h : v.Step S (.mov a a) v₁) : v₁ = v := by
  rcases h with ⟨-, rfl⟩ | ⟨-, -, rfl, hrax, rfl⟩
  · rfl
  · exact View.learn_of_mem hrax

/-- **The rules keep the results in view**, in code that is in place. -/
theorem Rewrites.shows {is js : List Instr} {results : Finset Reg} (h : Rewrites is js) {p : Phase}
    (hacc : X86.accepts p is = true) (hshow : v.Shows S results is) : v.Shows S results js := by
  induction h generalizing p v with
  | nil => exact hshow
  | keep i h ih =>
      by_cases hi : i = .ret
      · subst hi
        exact hshow
      · obtain ⟨p', -, hacc⟩ := (accepts_cons hi).mp hacc
        obtain ⟨v', hv', hshow⟩ := (View.shows_cons hi).mp hshow
        exact (View.shows_cons hi).mpr ⟨v', hv', ih hacc hshow⟩
  | self a h ih =>
      obtain ⟨p', -, hacc⟩ := (accepts_cons (by simp)).mp hacc
      obtain ⟨v', hv', hshow⟩ := (View.shows_cons (by simp)).mp hshow
      cases step_self hv'
      exact ih hacc hshow
  | pushPop a b h ih =>
      obtain ⟨p₁, hp₁, hacc⟩ := (accepts_cons (by simp)).mp hacc
      obtain ⟨p₂, hp₂, hacc⟩ := (accepts_cons (by simp)).mp hacc
      obtain ⟨v₁, ⟨ha, rfl⟩, hshow₁⟩ := (View.shows_cons (by simp)).mp hshow
      obtain ⟨v₂, hv₂, hshow₂⟩ := (View.shows_cons (by simp)).mp hshow₁
      refine (View.shows_cons (by simp)).mpr ⟨v₂, ?_, ih hacc hshow₂⟩
      -- only `rbp` is popped where `rbp` has been pushed
      rcases advance_push hp₁ with ⟨rfl, rfl, rfl⟩ | ⟨m, n, rfl, hgen, rfl⟩
      · rcases advance_pop hp₂ with ⟨-, rfl, -⟩ | ⟨m, n, hq, -⟩
        · rcases hv₂ with ⟨-, rfl⟩ | ⟨hgen, -⟩
          · exact .inl ⟨.inl rfl, rfl⟩
          · cases hgen
        · cases hq
      · rcases ha with rfl | ⟨rfl, hrax⟩
        · cases hgen
        · rcases advance_pop hp₂ with ⟨hq, -⟩ | ⟨m', n', -, hb, -⟩
          · rcases hq with hq | hq <;> cases hq
          · rcases hv₂ with ⟨rfl, -⟩ | ⟨-, hb10, rfl⟩
            · cases hb
            · exact .inr ⟨hb, hb10, rfl, hrax, rfl⟩
  | swap a b h ih =>
      obtain ⟨p₁, -, hacc⟩ := (accepts_cons (by simp)).mp hacc
      obtain ⟨p₂, -, hacc⟩ := (accepts_cons (by simp)).mp hacc
      obtain ⟨v₁, hv₁, hshow⟩ := (View.shows_cons (by simp)).mp hshow
      obtain ⟨v₂, hv₂, hshow⟩ := (View.shows_cons (by simp)).mp hshow
      cases step_swap hv₁ hv₂
      exact ih hacc hshow

/-- The whole of the optimiser is a sequence of such rules. -/
theorem shows_optimized {is : List Instr} {results : Finset Reg} {p : Phase}
    (hacc : accepts p is = true) (h : v.Shows S results is) :
    v.Shows S results (optimized is) := by
  refine (optimized_induction (p := fun js => accepts p js = true ∧ v.Shows S results js)
    (fun js hjs => ?_) ⟨hacc, h⟩).2
  exact ⟨(rewrites_pass js).accepts hjs.1, (rewrites_pass js).shows hjs.1 hjs.2⟩

/-! ## Modules

What is asked of the functions of a module.  It can be decided from the module, once
it has been compiled. -/

/-- No function has more than one result. -/
def AtMostOneResult (ps : List Payload) : Prop :=
  ∀ t ∈ functionImports ps ++ definedFunctions ps, ∀ ty ∈ typeAt ps t, ty.returns.length ≤ 1

instance (ps : List Payload) : Decidable (AtMostOneResult ps) :=
  inferInstanceAs (Decidable (∀ t ∈ _, ∀ ty ∈ typeAt ps t, _))

/-- A call of function `g` stands in the body of function `f`. -/
def CallsTo (ps : List Payload) (f g : ℕ) : Prop :=
  (functionImports ps).length ≤ f ∧
    ∃ body ∈ (bodies ps)[f - (functionImports ps).length]?, .call g ∈ body.operators.items

/-- Calls lead from a function to another one, or to itself by none. -/
def LeadsTo (ps : List Payload) : ℕ → ℕ → Prop := Relation.ReflTransGen (CallsTo ps)

/-- A function the compiler makes sealed code of: the type it looks up is the one the
function is declared with, and if the function is defined, its body keeps to its
frame and reads no slot before it is written. -/
structure Sealed (ps : List Payload) (ctx : Context) (f : ℕ) : Prop where
  resolved : ∀ t ∈ (countedFunctions ps)[f]?, ctx.functionType f = typeAt ps t
  body : (functionImports ps).length ≤ f →
    ∀ body ∈ (bodies ps)[f - (functionImports ps).length]?, ∀ ty ∈ ctx.functionType f,
      KeepsFrame ctx ty body ∧ ReadsWritten ty body

instance (ps : List Payload) (ctx : Context) (f : ℕ) : Decidable (Sealed ps ctx f) :=
  decidable_of_iff (_ ∧ _) ⟨fun h => ⟨h.1, h.2⟩, fun h => ⟨h.resolved, h.body⟩⟩

/-- The linked imports have results that depend on their arguments only. -/
def ImportsFollow (ps : List Payload) (ctx : Context) (word : Label → Word) (env : Env) : Prop :=
  ∀ (k t : ℕ) (ty : FuncType) (l : Label), (functionImports ps)[k]? = some t →
    typeAt ps t = some ty → ctx.ils[k]? = some l → env.Follows (word l) (signatureOf ty)

variable {V : Validator} {st : Compiling V} {its : List Item} {ps : List Payload}
  {address : ℕ → Word} {word : Label → Word} {env : Env}

/-- A function with a type is counted. -/
theorem Reading.counted_of_functionType (h : Reading ps its st) (hord : Ordered ps) {f : ℕ}
    {ty : FuncType} (hsealed : Sealed ps st.toContext f) (hty : st.functionType f = some ty) :
    ∃ t, (functionImports ps ++ definedFunctions ps)[f]? = some t ∧ typeAt ps t = some ty := by
  have hlookup := h.functionType f
  rw [hty] at hlookup
  obtain ⟨u, hu, -⟩ := Option.bind_eq_some_iff.mp hlookup.symm
  obtain ⟨t, ht, -⟩ := Option.bind_eq_some_iff.mp hu
  refine ⟨t, ?_, ?_⟩
  · rw [← countedFunctions_of_ordered hord, ht]
  · rw [← hsealed.resolved t ht, ← hty]

/-- A function with a type has a label for its body or a slot. -/
theorem Reading.reached (h : Reading ps its st) (hord : Ordered ps) {f : ℕ} {ty : FuncType}
    (hty : st.functionType f = some ty) :
    (∃ g, st.got[f]? = some g) ∨ ∃ l, st.ils[f]? = some l := by
  have hlookup := h.functionType f
  rw [hty] at hlookup
  obtain ⟨u, hu, -⟩ := Option.bind_eq_some_iff.mp hlookup.symm
  obtain ⟨t, ht, -⟩ := Option.bind_eq_some_iff.mp hu
  obtain ⟨hlt, -⟩ := List.getElem?_eq_some_iff.mp ht
  rcases Nat.lt_or_ge f (functionImports ps).length with hf | hf
  · obtain ⟨l, hl, -⟩ := h.exists_ils hord hf
    exact .inr ⟨l, hl⟩
  · exact .inl (h.exists_got hord hf hlt)

/-! ## What calls lead to

The functions that calls lead to are closed under calls, so the program can be cut
down to their labels.  A label that is cut off stops a run that comes to it.  None
does, and calls of the function are the same as in the whole program. -/

/-- The labels of some functions. -/
def labelsOf (ctx : Context) (F : Set ℕ) : Set Label := {l | ∃ f ∈ F, ctx.got[f]? = some l}

/-- Sealed functions take and return nothing but `i64`, and can be called. -/
theorem Reading.simpleCalls (h : Reading ps its st) (hord : Ordered ps) (hint : Integral ps)
    (hone : AtMostOneResult ps) (hF : ∀ f ∈ F, Sealed ps st.toContext f) :
    SimpleCalls st.toContext F := by
  refine ⟨fun f hf ty hty => ?_, fun f hf ty hty => ?_, fun f _ ty hty => h.reached hord hty⟩
  · obtain ⟨t, ht, hty⟩ := h.counted_of_functionType hord (hF f hf) hty
    exact (hint.types t (List.mem_of_getElem? ht) ty hty).1
  · obtain ⟨t, ht, hty⟩ := h.counted_of_functionType hord (hF f hf) hty
    exact hone t (List.mem_of_getElem? ht) ty hty

/-- The optimised code at the label of a sealed function: it keeps to its frame and
calls functions its body calls. -/
theorem Reading.sealed_target (h : Reading ps its st) (hcomp : CompiledWith V ps its st.toContext)
    {f j : ℕ} {g : Label} (hsealed : Sealed ps st.toContext f) (hg : st.got[f]? = some g)
    (hj : (st.program address word).target g = some j) :
    accepts .entry ((st.program address word).code.drop j) = true ∧
      ∀ l, ComesTo (st.program address word) j l →
        ∃ f', CallsTo ps f f' ∧ st.got[f']? = some l := by
  obtain ⟨i, body, ty, φ, out, rest, rfl, hbody, hty, hcode, hdrop⟩ := h.exists_compiled hcomp hg hj
  have hi : (functionImports ps).length + i - (functionImports ps).length = i :=
    Nat.add_sub_cancel_left _ _
  obtain ⟨hkeep, -⟩ := hsealed.body (Nat.le_add_right _ _) body (by rw [hi]; exact hbody) ty hty
  have hacc := accepts_optimized (compileBody_accepts hcode hkeep)
  refine ⟨by rw [hdrop]; exact accepts_append hacc, ?_⟩
  rintro l ⟨seg, rest', hseg, hret⟩
  -- the call stands before a `ret`, and there is one in the code of the body
  have hmem : .callLabel l ∈ optimized out.1 := by
    rw [hdrop, List.append_eq_append_iff] at hseg
    rcases hseg with ⟨mid, rfl, -⟩ | ⟨mid, hmid, hrest⟩
    · exact absurd (List.mem_append_left mid (ret_mem_of_accepts hacc)) hret
    · cases mid with
      | nil =>
          rw [List.append_nil] at hmid
          exact absurd (hmid ▸ ret_mem_of_accepts hacc) hret
      | cons i' mid =>
          obtain ⟨rfl, -⟩ := List.cons.inj hrest
          rw [hmid]
          simp
  obtain ⟨f', hf', hl⟩ :=
    callLabel_mem_compileBody hkeep.1 hcode (callLabel_mem_optimized hmem)
  exact ⟨f', ⟨Nat.le_add_right _ _, body, by rw [hi]; exact hbody, hf'⟩, hl⟩

/-- **Functions show their results** to callers that show their arguments. -/
theorem Reading.follows (h : Reading ps its st) (address : ℕ → Word) (word : Label → Word)
    (hcomp : CompiledWith V ps its st.toContext) (hctx : SimpleCalls st.toContext F)
    (hint : Integral ps) (hF : ∀ f ∈ F, Sealed ps st.toContext f) (hcalls : ∀ f ∈ F, ∀ g, CallsTo ps f g → g ∈ F) :
    (st.program address word).Follows (signaturesOf st.toContext F) := by
  rintro l sig j ⟨f, hf, ty, hg, hty, rfl⟩ hj
  obtain ⟨k, body, ty', φ, out, rest, rfl, hbody, hty', hcode, hdrop⟩ :=
    h.exists_compiled hcomp hg hj
  cases hty.symm.trans hty'
  have hbody' : (bodies ps)[(functionImports ps).length + k - (functionImports ps).length]? =
      some body := by
    rwa [Nat.add_sub_cancel_left]
  obtain ⟨hkeep, hread⟩ := (hF _ hf).body (Nat.le_add_right _ _) body hbody' ty hty
  have hshows := compileBody_shows hctx (hint.operators body (List.mem_of_getElem? hbody))
    (fun g hg => hcalls _ hf g ⟨Nat.le_add_right _ _, body, hbody', hg⟩) hcode hkeep hread
  rw [hdrop]
  exact (shows_optimized (compileBody_accepts hcode hkeep) hshows).append

/-- The imports among them are linked to code that follows their signatures. -/
theorem Reading.importsFollow (h : Reading ps its st) (hord : Ordered ps)
    (hF : ∀ f ∈ F, Sealed ps st.toContext f) (hfollow : ImportsFollow ps st.toContext word env)
    {l : Label} {sig : Signature} (hl : (signaturesOf st.toContext F).imports l sig) :
    env.Follows (word l) sig := by
  obtain ⟨f, hf, ty, hils, hty, rfl⟩ := hl
  obtain ⟨t, ht, hty⟩ := h.counted_of_functionType hord (hF f hf) hty
  refine hfollow f t ty l ?_ hty hils
  rwa [List.getElem?_append_left (h.lt_of_slot hord hils)] at ht

/-- Two calls of a function return alike, if all functions that calls lead to from it
are sealed: what is in the rest of the program is not come to. -/
theorem Reading.agree (h : Reading ps its st) (hcomp : CompiledWith V ps its st.toContext)
    (hord : Ordered ps) (hint : Integral ps) (hone : AtMostOneResult ps) {f t j top : ℕ} {g : Label}
    {ty : FuncType} (hF : ∀ f', LeadsTo ps f f' → Sealed ps st.toContext f')
    (hsep : (st.program address word).Separate) (henv : WellBehaved env top)
    (hfollow : ImportsFollow ps st.toContext word env) (hg : st.got[f]? = some g)
    (hj : (st.program address word).target g = some j) (ht : (countedFunctions ps)[f]? = some t)
    (hty : typeAt ps t = some ty) {s s' : X86.State} (hrsp : s'.regs .rsp = s.regs .rsp)
    (hargs : ∀ r ∈ integerOrder.take ty.params.length, s'.regs r = s.regs r)
    (htop : s.sp + 8 ≤ top) {u : X86.State} (hu : Returns (st.program address word) env j s u) :
    (∃ u', Returns (st.program address word) env j s' u') ∧
      ∀ u', Returns (st.program address word) env j s' u' →
        ∀ r ∈ (signatureOf ty).results, u'.regs r = u.regs r := by
  -- the program, without the labels of functions that no calls lead to
  have hclosed : (st.program address word).ClosedUnder
      (labelsOf st.toContext {f' | LeadsTo ps f f'}) := by
    rintro l ⟨f', hf', hl⟩ k hk l' hcomes
    obtain ⟨f'', hcall, hl'⟩ := (h.sealed_target hcomp (hF f' hf') hl hk).2 l' hcomes
    exact ⟨f'', hf'.tail hcall, hl'⟩
  generalize hR : labelsOf st.toContext {f' | LeadsTo ps f f'} = R at hclosed
  have hP : ((st.program address word).restrict R).Disciplined := by
    intro pc k l _ hk
    obtain ⟨hl, hk⟩ := Program.target_restrict.mp hk
    rw [← hR] at hl
    obtain ⟨f', hf', hl⟩ := hl
    exact (h.sealed_target hcomp (hF f' hf') hl hk).1
  have hgR : g ∈ R := hR ▸ ⟨f, .refl, hg⟩
  obtain ⟨hacc, -⟩ := h.sealed_target hcomp (hF f .refl) hg hj
  have hreturns : ∀ {s u : X86.State}, s.sp + 8 ≤ top →
      (Returns (st.program address word) env j s u ↔
        Eval ((st.program address word).restrict R) env j s (some u)) := fun htop =>
    (returns_restrict_iff hclosed hP hsep henv hacc (hclosed g hgR j hj) htop).symm.trans
      (returns_iff_eval hP hsep henv hacc htop)
  have hctx := h.simpleCalls hord hint hone (F := {f' | LeadsTo ps f f'}) hF
  have hshows := h.follows address word hcomp hctx hint hF
    fun _ hf' _ hcall => hf'.tail hcall
  have hfun : ((st.program address word).restrict R).Follows
      (signaturesOf st.toContext {f' | LeadsTo ps f f'}) :=
    fun l sig k hl hk => hshows l sig k hl (Program.target_restrict.mp hk).2
  have hsig : (signaturesOf st.toContext {f' | LeadsTo ps f f'}).functions g (signatureOf ty) :=
    ⟨f, .refl, ty, hg, ((hF f .refl).resolved t ht).trans hty, rfl⟩
  -- the two calls are together when they enter the function
  have htog : Together ((st.program address word).restrict R)
      ⟨s.mem.load s.sp, s.regs .rbp, s.regs .rsp⟩
      ⟨s'.mem.load s'.sp, s'.regs .rbp, s'.regs .rsp⟩ .entry (signatureOf ty).entry s s' := by
    refine ⟨⟨rfl, rfl, rfl⟩, ⟨rfl, rfl, rfl⟩, hrsp, ?_, ?_, ?_, ?_, fun x hx => hx.elim⟩
    · exact fun r hr => (signatureOf ty).general r (Finset.mem_union_left _ hr)
    · exact fun off hoff => absurd hoff (Finset.notMem_empty off)
    · exact fun r hr => hargs r (List.mem_toFinset.mp hr)
    · exact fun l hl => nomatch hl
  have htop' : s'.sp + 8 ≤ top := by
    rw [State.sp, hrsp]
    exact htop
  obtain ⟨⟨u', hu'⟩, hres⟩ := ((hreturns htop).mp hu).agree hP henv hfun
    (fun l sig hl => h.importsFollow hord hF hfollow hl) hacc (hshows g _ j hsig hj) htog htop
  exact ⟨⟨u', (hreturns htop').mpr hu'⟩, fun u' hu' => hres u' ((hreturns htop').mp hu')⟩

/-- A module that imports function `0` and defines `1`, which hands its argument on
to `0` and returns what that returns. -/
def askingModule : Script :=
  [(preamble, .version 1),
    ([0x01, 0x06, 0x01, 0x60, 0x01, 0x7e, 0x01, 0x7e],
      .typeSection ⟨[.func ⟨[.i64], [.i64]⟩], none⟩),
    ([0x02, 0x09, 0x01, 0x03, 0x65, 0x6e, 0x76, 0x01, 0x66, 0x00, 0x00],
      .importSection ⟨[⟨"env", some "f", .function 0⟩], none⟩),
    ([0x03, 0x02, 0x01, 0x00], .functionSection ⟨[0], none⟩),
    ([0x0a, 0x08, 0x01], .codeSectionStart 1),
    ([0x06, 0x00, 0x20, 0x00, 0x10, 0x00, 0x0b],
      .codeSectionEntry ⟨⟨[], none⟩, ⟨[.localGet 0, .call 0, .end], none⟩⟩)]

/-- Its program. -/
def askingProgram : Program :=
  programOf [.zeroBytes, .dq importPlaceholder, .dq 0, .push .rbp, .mov .rbp .rsp, .subRsp 8,
    .store 8 .rdi, .load .rax 8, .mov .rdi .rax, .movLabel .r10 2, .callReg .r10, .addRsp 8,
    .mov .rsp .rbp, .pop .rbp, .ret] [(1, 2), (2, 3), (3, 4)] (BitVec.ofNat 64) fun _ => 0

/-- That is what `compile` makes of it. -/
theorem askingModule_program :
    (Script.compiling askingModule).program (BitVec.ofNat 64) (fun _ => 0) = askingProgram := by
  have h : optimize (Script.compiling askingModule).instructions
      (Script.compiling askingModule).labelIndices =
        (askingProgram.code, [(1, 2), (2, 3), (3, 4)]) := by
    decide +kernel
  rw [Compiling.program, h]
  rfl

/-- Outside code that returns its first argument plus one. -/
def increments : Env := fun _ s s' =>
  s' = (s.set .rax (s.regs .rdi + 1)).set .rsp (s.regs .rsp + 8)

/-- It keeps to its stack, -/
theorem wellBehaved_increments (top : ℕ) : WellBehaved increments top := by
  refine ⟨?_, ?_, ?_⟩
  · rintro a s _ rfl
    exact State.set_regs_self _ _ _
  · rintro a s _ rfl
    rw [State.set_regs_of_ne _ _ (by decide), State.set_regs_of_ne _ _ (by decide)]
  · rintro a s _ x rfl - -
    rfl

end ParaOS.Parawasm
