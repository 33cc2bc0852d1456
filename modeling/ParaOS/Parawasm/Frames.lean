import ParaOS.Parawasm.EntryPoints
import ParaOS.X86.Frame

/-!
# Compiled bodies keep to their frames

The code of a body goes through the phases of an activation from its first
instruction to its `ret` (`compileBody_accepts`), provided two things that the
compiler does not see to itself: the operands an operator pops have been pushed
in this body, counted with the types the compiler looks up, and no `local.set`
goes to a slot at offset zero, which is where `rbp` is saved.  `operandDepth`
follows both.

The rules of the optimiser keep code in place (`Rewrites.accepts`).  Taking out
`mov rbp, rsp; mov rsp, rbp` leaves an activation in an earlier phase than it was
in, from which the same instructions are in place (`accepts_mono`).

### What is load-bearing

`KeepsFrame` has two parts, one for each way in which compiled code could leave its
frame.

**Operands.**  The compiler pops what an operator consumes without asking whether it
was pushed.  It counts operands with the types that `functionType` looks up, and
these are not always the declared ones (`ParaOS.Parawasm.FunctionTypes`).  So a body
that the validator lets through may still pop the saved `rbp` or the return address.
`operandDepth` therefore counts with the types looked up: what decides is how many
words the emitted code moves, and not how many WebAssembly says there are.

**Slots.**  The first declared local of a function without params has a slot with
the offset zero, which is where `rbp` is saved.  Reading it does no harm to the
frame, so only `local.set` is restricted.

Of a call's results at most two are counted, since the code pushes `rax` and `rdx`
and drops the others.

### What is not asked

Nothing is asked of the operands left at the end beyond the results: `add rsp, n`
and `mov rsp, rbp` free them with the locals, however many there are.
-/

namespace ParaOS.Parawasm

open Machine X86 Wasm

/-! ## The optimiser

A rule may change the phase the rest of the list is entered in: with `mov rbp, rsp;
mov rsp, rbp` gone, the rest starts from `saved` and not from `reset`.  That it is
in place there too is the content of this section. -/

/-- The phases from which what is in place in the first is in place in the second:
`reset` and `saved`, `popped` and `entry`.  In both pairs the words on the stack are
the same, and the second allows more to be done. -/
inductive Phase.Precedes : Phase → Phase → Prop where
  | reset : Phase.Precedes .reset .saved
  | popped : Phase.Precedes .popped .entry

/-- One step from the earlier phase of a pair: the later one does the same, or the
instruction was a self-move and both stay. -/
theorem Phase.Precedes.advance {p q p' : Phase} {i : Instr} (h : Phase.Precedes p q)
    (hp : advance p i = some p') :
    advance q i = some p' ∨ (p' = p ∧ advance q i = some q) := by
  cases i with
  | nop =>
      cases hp
      exact .inr ⟨rfl, rfl⟩
  | mov dst src =>
      rcases advance_mov hp with ⟨rfl, rfl⟩ | ⟨rfl, -⟩ | ⟨hq, -⟩ | ⟨a, n, rfl, -⟩
      · exact .inr ⟨rfl, by simp [X86.advance]⟩
      · cases h
      · cases h <;> rcases hq with hq | ⟨a, n, hq⟩ <;> cases hq
      · cases h
  | _ => cases h <;> first | exact .inl hp | cases hp

/-- A list in place in the earlier phase of a pair is in place in the later. -/
theorem accepts_mono {p q : Phase} {is : List Instr} (h : Phase.Precedes p q)
    (his : accepts p is = true) : accepts q is = true := by
  induction is with
  | nil => cases his
  | cons i is ih =>
      by_cases hi : i = .ret
      · subst hi
        cases h with
        | reset => cases his
        | popped => rfl
      · obtain ⟨p', hp', hrest⟩ := (accepts_cons hi).mp his
        rcases h.advance hp' with hq | ⟨rfl, hq⟩
        · rw [accepts_of_advance hq]
          exact hrest
        · rw [accepts_of_advance hq]
          exact ih hrest

/-- Moves between general registers are in place inside a frame. -/
theorem advance_framed_mov {a n : ℕ} {dst src : Reg} (hdst : dst.general = true)
    (hsrc : src.general = true) : advance (.framed a n) (.mov dst src) = some (.framed a n) := by
  simp [advance, hdst, hsrc]

/-- **The rules keep code in place.**  One rule at a time, at any place in the list,
and from any phase: this is the step lemma for `accepts_optimized`. -/
theorem Rewrites.accepts {is js : List Instr} (h : Rewrites is js) {p : Phase}
    (his : X86.accepts p is = true) : X86.accepts p js = true := by
  induction h generalizing p with
  | nil => cases his
  | keep i h ih =>
      by_cases hi : i = .ret
      · subst hi
        exact his
      · obtain ⟨p', hp', his⟩ := (accepts_cons hi).mp his
        rw [accepts_of_advance hp']
        exact ih his
  | self a h ih =>
      rw [accepts_of_advance (advance_self p a)] at his
      exact ih his
  | pushPop a b h ih =>
      obtain ⟨p₁, hp₁, his⟩ := (accepts_cons (by simp)).mp his
      obtain ⟨p₂, hp₂, his⟩ := (accepts_cons (by simp)).mp his
      rcases advance_push hp₁ with ⟨rfl, rfl, rfl⟩ | ⟨m, n, rfl, ha, rfl⟩
      · rcases advance_pop hp₂ with ⟨-, rfl, rfl⟩ | ⟨m, n, hq, -⟩
        · rw [accepts_of_advance (advance_self _ _)]
          exact accepts_mono .popped (ih his)
        · cases hq
      · rcases advance_pop hp₂ with ⟨hq, -⟩ | ⟨m', n', hq, hb, rfl⟩
        · rcases hq with hq | hq <;> cases hq
        · cases hq
          rw [accepts_of_advance (advance_framed_mov hb ha)]
          exact ih his
  | swap a b h ih =>
      obtain ⟨p₁, hp₁, his⟩ := (accepts_cons (by simp)).mp his
      obtain ⟨p₂, hp₂, his⟩ := (accepts_cons (by simp)).mp his
      rcases advance_mov hp₁ with ⟨rfl, rfl⟩ | ⟨rfl, rfl, rfl, rfl⟩ | ⟨-, rfl, rfl, rfl⟩ |
        ⟨m, n, rfl, ⟨ha, -⟩, rfl⟩
      · rw [advance_self] at hp₂
        cases hp₂
        exact ih his
      · -- the frame is set up and torn down again
        cases hp₂
        exact accepts_mono .reset (ih his)
      · cases hp₂
      · rcases advance_mov hp₂ with ⟨-, rfl⟩ | ⟨hq, -⟩ | ⟨-, -, rfl, -⟩ | ⟨-, -, -, -, rfl⟩
        · exact ih his
        · cases hq
        · cases ha
        · exact ih his

/-- So the optimiser as a whole keeps code in place.  Phases need not be followed
through its passes: each of them is a sequence of single rewrites. -/
theorem accepts_optimized {is : List Instr} {p : Phase} (h : accepts p is = true) :
    accepts p (optimized is) = true :=
  optimized_induction (p := fun js => accepts p js = true)
    (fun js hjs => (rewrites_pass js).accepts hjs) h

/-! ## Operands in a body -/

/-- The number of operands after an operator, from their number before: `none` if
one is popped that was not pushed, or a local is set whose slot holds the saved
`rbp`.  Operators there is no code for have no number; a body with one of them is
not compiled in the first place. -/
def operandDepth (ctx : Context) (locals : List ℕ) (n : ℕ) : Operator → Option ℕ
  | .i64Const _ => some (n + 1)
  | .i64Add => if 2 ≤ n then some (n - 1) else none
  | .i64Sub => if 2 ≤ n then some (n - 1) else none
  | .localGet _ => some (n + 1)
  | .localSet i => if 1 ≤ n ∧ ∀ off ∈ locals[i]?, 8 ≤ off then some (n - 1) else none
  | .call f =>
      (ctx.functionType f).bind fun ty =>
        if ty.params.length ≤ n then some (n - ty.params.length + min 2 ty.returns.length) else none
  | .nop => some n
  | .end => some n
  | .i32Add => none
  | .i32Sub => none
  | .unimplemented _ => none

/-- The number of operands after a sequence of operators. -/
def operandDepths (ctx : Context) (locals : List ℕ) : ℕ → List Operator → Option ℕ
  | n, [] => some n
  | n, op :: ops => (operandDepth ctx locals n op).bind fun n' => operandDepths ctx locals n' ops

/-- A body that pops only its own operands, those of its results included, and
leaves the saved `rbp` alone.  The types of params and of declared locals are `i64`
here, so that the offsets of the slots are known. -/
def KeepsFrame (ctx : Context) (ty : FuncType) (body : FunctionBody) : Prop :=
  AllI64 ty.params ∧ AllI64 (body.locals.items.map Prod.snd) ∧
    ∃ n, operandDepths ctx (frameOffsets ty.params.length (localCount body.locals.items)) 0
      body.operators.items = some n ∧ min 2 ty.returns.length ≤ n

instance (ctx : Context) (ty : FuncType) (body : FunctionBody) :
    Decidable (KeepsFrame ctx ty body) :=
  inferInstanceAs (Decidable (AllI64 ty.params ∧ AllI64 (body.locals.items.map Prod.snd) ∧
    ∃ n ∈ operandDepths ctx (frameOffsets ty.params.length (localCount body.locals.items)) 0
      body.operators.items, min 2 ty.returns.length ≤ n))

/-! ## The phases of a body

The pieces a body is compiled to, in their order: prologue, operators, epilogue.
For each of them there is one lemma with the phases it goes through, and
`compileBody_accepts` puts them together. -/

/-- Popping operands into general registers, as a call does with its arguments. -/
theorem advances_pops {a n : ℕ} {rs : List Reg} (hrs : ∀ r ∈ rs, r.general = true) :
    advances (.framed a (rs.length + n)) (rs.map .pop) = some (.framed a n) := by
  induction rs with
  | nil => simp [advances]
  | cons r rs ih =>
      rw [List.forall_mem_cons] at hrs
      rw [List.map_cons, advances, List.length_cons,
        show rs.length + 1 + n = rs.length + n + 1 by omega]
      simp only [advance, hrs.1, if_true, Option.bind_some]
      exact ih hrs.2

/-- Pushing general registers as operands, as is done with the results of a call. -/
theorem advances_pushes {a n : ℕ} {rs : List Reg} (hrs : ∀ r ∈ rs, r.general = true) :
    advances (.framed a n) (rs.map .push) = some (.framed a (n + rs.length)) := by
  induction rs generalizing n with
  | nil => rfl
  | cons r rs ih =>
      rw [List.forall_mem_cons] at hrs
      simp only [List.map_cons, advances, advance, hrs.1, if_true, Option.bind_some]
      rw [ih hrs.2, List.length_cons, show n + 1 + rs.length = n + (rs.length + 1) by omega]

/-- Storing registers in slots, as the prologue does with the params. -/
theorem advances_stores {a n : ℕ} {offs : List ℕ} (hoffs : ∀ off ∈ offs, 8 ≤ off ∧ off ≤ a)
    (rs : List Reg) :
    advances (.framed a n) (List.zipWith .store offs rs) = some (.framed a n) := by
  induction offs generalizing rs with
  | nil => rfl
  | cons off offs ih =>
      rw [List.forall_mem_cons] at hoffs
      cases rs with
      | nil => rfl
      | cons r rs =>
          rw [List.zipWith_cons_cons, advances, advance]
          simp only [if_pos hoffs.1, Option.bind_some]
          exact ih hoffs.2 rs

/-- No argument is passed in `rsp` or `rbp`. -/
theorem general_of_mem_integerOrder {r : Reg} (h : r ∈ integerOrder) : r.general = true := by
  revert r
  decide

/-- No result is passed in them either. -/
theorem general_of_mem_returnOrder {r : Reg} (h : r ∈ returnOrder) : r.general = true := by
  revert r
  decide

/-- A call of any function, of this module or imported, leaves the caller's phase as
it is.  What the callee does is not in question here: calls are in place, and it is
for `ParaOS.Parawasm.Integrity` to follow them. -/
theorem advances_callCode {ctx : Context} {f a n : ℕ} :
    advances (.framed a n) (callCode ctx f) = some (.framed a n) := by
  rw [callCode]
  split
  · split <;> rfl
  · rfl

/-- An operand may be popped if there is one. -/
theorem advance_pop_framed {a n : ℕ} {r : Reg} (h : r.general = true) :
    advance (.framed a (n + 1)) (.pop r) = some (.framed a n) := by
  simp [advance, h]

/-- The code of an operator on two operands: two are popped and their result is
pushed. -/
theorem advances_binary {a n n' : ℕ} {i : Instr}
    (hi : ∀ m, advance (.framed a m) i = some (.framed a m))
    (hn : (if 2 ≤ n then some (n - 1) else none) = some n') :
    advances (.framed a n) [.pop .rax, .pop .rbx, i, .push .rax] = some (.framed a n') := by
  simp only [Option.ite_none_right_eq_some, Option.some.injEq] at hn
  obtain ⟨h2, rfl⟩ := hn
  obtain ⟨m, rfl⟩ : ∃ m, n = m + 2 := ⟨n - 2, by omega⟩
  rw [advances, advance_pop_framed rfl, Option.bind_some, advances, advance_pop_framed rfl,
    Option.bind_some, advances, hi, Option.bind_some]
  rfl

/-- **The code of one operator**, one case for each operator there is code for.
`operandDepth` counts what the code pushes and pops, and the code stays inside the
frame throughout. -/
theorem advances_handleInstruction {ctx : Context} {locals : List ℕ} {a n n' : ℕ} {op : Operator}
    {code : List Instr} (hlocals : ∀ off ∈ locals, off ≤ a)
    (h : handleInstruction ctx locals op = .ok code)
    (hn : operandDepth ctx locals n op = some n') :
    advances (.framed a n) code = some (.framed a n') := by
  cases op with
  | i64Const v =>
      cases h
      cases hn
      rfl
  | i64Add =>
      cases h
      exact advances_binary (fun m => rfl) hn
  | i64Sub =>
      cases h
      exact advances_binary (fun m => rfl) hn
  | nop =>
      cases h
      cases hn
      rfl
  | «end» =>
      cases h
      cases hn
      rfl
  | localGet i =>
      rw [handleInstruction] at h
      split at h
      · rename_i off hoff
        cases h
        cases hn
        have hle := hlocals off (List.mem_of_getElem? hoff)
        have hrax : Reg.rax.general = true := rfl
        simp only [advances, advance, if_pos (And.intro hrax hle), if_pos hrax, Option.bind_some]
      · cases h
  | localSet i =>
      rw [handleInstruction] at h
      split at h
      · rename_i off hoff
        cases h
        rw [operandDepth, Option.ite_none_right_eq_some, Option.some.injEq] at hn
        obtain ⟨⟨h1, h8⟩, hn⟩ := hn
        have h8 := h8 off hoff
        obtain ⟨m, hm⟩ : ∃ m, n = m + 1 := ⟨n - 1, by omega⟩
        have hle := hlocals off (List.mem_of_getElem? hoff)
        rw [hm, advances, advance_pop_framed rfl, Option.bind_some]
        simp only [advances, advance, if_pos (And.intro h8 hle), Option.bind_some]
        rw [← hn, hm, Nat.add_sub_cancel]
      · cases h
  | call f =>
      simp only [handleInstruction, Outcome.bind_eq_ok, Outcome.unwrap_eq_ok, Outcome.pure_eq_ok,
        Outcome.ok.injEq] at h
      obtain ⟨ty, hty, order, horder, args, hargs, results, hresults, rfl⟩ := h
      rw [operandDepth, hty, Option.bind_some, Option.ite_none_right_eq_some,
        Option.some.injEq] at hn
      obtain ⟨hle, hn⟩ := hn
      obtain ⟨-, rfl⟩ := drainTo_eq_ok.mp horder
      obtain ⟨rs, rfl, hlen, hrs⟩ := popArgs_eq_ok hargs
      obtain ⟨m, hm⟩ : ∃ m, n = rs.length + m := ⟨n - rs.length, by omega⟩
      rw [moveResults_eq_ok hresults, hm]
      refine advances_append (advances_append (advances_pops fun r hr => ?_) advances_callCode) ?_
      · exact general_of_mem_integerOrder (List.mem_of_mem_take (hrs r hr))
      · have hlen' : (returnOrder.take ty.returns.length).length = min 2 ty.returns.length := by
          rw [List.length_take, min_comm]
          rfl
        have hgen : ∀ r ∈ returnOrder.take ty.returns.length, r.general = true :=
          fun r hr => general_of_mem_returnOrder (List.mem_of_mem_take hr)
        rw [advances_pushes hgen, hlen', ← hn, hm, ← hlen, Nat.add_sub_cancel_left]
  | i32Add => cases hn
  | i32Sub => cases hn
  | unimplemented b => cases h

/-- The code of a sequence of operators, by induction over the sequence. -/
theorem advances_handleInstructions {ctx : Context} {locals : List ℕ} {a n n' : ℕ}
    {ops : List Operator} {code : List Instr} (hlocals : ∀ off ∈ locals, off ≤ a)
    (h : handleInstructions ctx locals ops = .ok code)
    (hn : operandDepths ctx locals n ops = some n') :
    advances (.framed a n) code = some (.framed a n') := by
  induction ops generalizing n code with
  | nil =>
      cases h
      cases hn
      rfl
  | cons op ops ih =>
      obtain ⟨c, r, hc, hr, rfl⟩ := handleInstructions_cons.mp h
      rw [operandDepths, Option.bind_eq_some_iff] at hn
      obtain ⟨m, hm, hn⟩ := hn
      exact advances_append (advances_handleInstruction hlocals hc hm) (ih hr hn)

/-- Slots lie within what is allocated. -/
theorem le_of_mem_frameOffsets {n m off : ℕ} (h : off ∈ frameOffsets n m) :
    off ≤ 8 * n + 8 * m := by
  rw [frameOffsets, List.mem_append, List.mem_map, List.mem_map] at h
  rcases h with ⟨i, hi, rfl⟩ | ⟨i, hi, rfl⟩ <;> rw [List.mem_range] at hi <;> omega

/-- Only as many stores as there are registers, whatever the number of slots:
declared locals have slots too, and nothing is stored in these. -/
theorem zipWith_store_take (offs : List ℕ) (rs : List Reg) :
    List.zipWith .store offs rs = List.zipWith Instr.store (offs.take rs.length) rs := by
  induction offs generalizing rs with
  | nil => simp
  | cons off offs ih =>
      cases rs with
      | nil => rfl
      | cons r rs => simp only [List.zipWith_cons_cons, List.length_cons, List.take_succ_cons, ← ih]

/-- The prologue saves `rbp`, sets up the frame, allocates the locals and stores the
params. -/
theorem advances_prologue {params : List Ty} {groups : List (ℕ × Ty)} {order : List Reg}
    {before : List Instr} (hp : AllI64 params) (horder : drainTo params.length = .ok order)
    (h : prologue params order ⟨frameOffsets params.length (localCount groups),
      8 * params.length + 8 * localCount groups⟩ = .ok before) :
    advances .entry before =
      some (.framed (8 * params.length + 8 * localCount groups) 0) := by
  obtain ⟨-, rfl⟩ := prologue_i64 hp horder h
  obtain ⟨hsix, rfl⟩ := drainTo_eq_ok.mp horder
  have hlen : (integerOrder.take params.length).reverse.length = params.length := by
    rw [List.length_reverse, length_take_integerOrder hsix]
  have hstart : advances .entry ([.push .rbp, .mov .rbp .rsp] : List Instr) = some (.framed 0 0) :=
    rfl
  have halloc : ∀ size, advances (.framed 0 0) (if size = 0 then [] else [.subRsp size]) =
      some (.framed size 0) := by
    intro size
    split_ifs with hzero
    · rw [hzero]
      rfl
    · rfl
  refine advances_append (advances_append hstart (halloc _)) ?_
  rw [zipWith_store_take, hlen]
  refine advances_stores (fun off hoff => ?_) _
  rw [frameOffsets, List.take_left' (by simp), List.mem_map] at hoff
  obtain ⟨i, hi, rfl⟩ := hoff
  rw [List.mem_range] at hi
  dsimp only
  omega

/-- The epilogue goes from inside the frame to a `ret` in place.  It pops at most
two results, which have to be there; whatever else is left on the stack is freed. -/
theorem accepts_epilogue {returns : List Ty} {size a n : ℕ} {after : List Instr}
    (h : epilogue returns size = .ok after) (hn : min 2 returns.length ≤ n) :
    accepts (.framed a n) after = true := by
  simp only [epilogue, Outcome.bind_eq_ok, Outcome.pure_eq_ok, Outcome.ok.injEq] at h
  obtain ⟨results, hresults, free, hfree, rfl⟩ := h
  rw [moveResults_eq_ok hresults, List.append_assoc]
  have hlen : (returnOrder.take returns.length).length = min 2 returns.length := by
    rw [List.length_take, min_comm]
    rfl
  obtain ⟨m, hm⟩ : ∃ m, n = (returnOrder.take returns.length).length + m :=
    ⟨n - (returnOrder.take returns.length).length, by omega⟩
  have hgen : ∀ r ∈ returnOrder.take returns.length, r.general = true :=
    fun r hr => general_of_mem_returnOrder (List.mem_of_mem_take hr)
  rw [hm, accepts_of_advances (advances_pops hgen)]
  obtain ⟨-, rfl⟩ := moveStack_eq_ok hfree
  split_ifs <;> rfl

/-- **The code of a body keeps to its frame.**  The body need not be valid, only
keep its frame in the sense above; and it is about the code as it is emitted, the
optimiser coming after it (`accepts_optimized`). -/
theorem compileBody_accepts {V : Validator} {ctx : Context} {ty : FuncType} {φ : V.FuncSt}
    {body : FunctionBody} {out : List Instr × ℕ} (h : compileBody V ctx ty φ body = .ok out)
    (hk : KeepsFrame ctx ty body) : accepts .entry out.1 = true := by
  obtain ⟨order, t, before, code, after, horder, ht, hbefore, hcode, hafter, hout⟩ :=
    compileBody_eq_ok h
  obtain ⟨hp, hg, n, hn, hle⟩ := hk
  obtain rfl := eq_frame_of_layoutLocals hp hg ht
  have hops := advances_handleInstructions (fun off hoff => le_of_mem_frameOffsets hoff) hcode hn
  rw [hout, accepts_of_advances (advances_append (advances_prologue hp horder hbefore) hops)]
  exact accepts_epilogue hafter hle

end ParaOS.Parawasm
