import Mathlib.Data.List.Nodup
import ParaOS.Parawasm.Body

/-!
# Arguments and results across a call

A call moves its arguments from the caller's operand stack into registers, the
callee's prologue moves them from there into the slots of its params; the
callee's epilogue pops its results into registers, and the code after the call
pushes them.  Each of the four pieces walks a queue of registers.

* **Arguments.**  The pops take the queue from the back while the operands come
  last argument first, so register `i` receives argument `i`.  The prologue takes
  the queue from the back as well, while it walks the params from the first: the
  slot of param `i` receives the last register but `i`.  The callee sees its
  arguments in reverse (`arguments_reversed`), which is what WebAssembly asks for
  exactly when the list of arguments reads the same both ways.
* **Results.**  The epilogue pops into `rax`, then `rdx`, and the caller pushes
  `rax`, then `rdx`: two results change places, and a third and further ones are
  left behind in the callee's frame (`results_swapped`).

### The design decisions

**A call is four pieces, run one after the other.**  What happens in the callee's
body is not part of it: the first statement ends where the body begins, and the
second starts where it is over.  So they hold of every body.

**Equivalences.**  Each of the two statements is an `↔`.  That a property fails for
some list of arguments is shown by the list; that it holds exactly for palindromes
is what says which callers may rely on it.

### What is load-bearing

The room on the stack is a condition of the result and not only of its proof: with
too little of it the callee's prologue does not get through (`enterCall_eq_none`),
and there is no slot to find anything in.

Locals may be declared, in any groups.  Their slots overlap those of the params, but
the prologue does not write them, so what a callee finds in its params is not
affected.
-/

namespace ParaOS.Parawasm

open Machine X86 Wasm

variable {s : X86.State}

/-! ## Runs of pops, pushes and stores

Loops of the compiler are lists of instructions of one kind.  What such a list does
is proved once for any registers, with whatever is needed of these as a hypothesis. -/

/-- Pops load the operands into the registers, in order. -/
theorem exec_pops {rs : List Reg} {ws : List Word} (hnd : rs.Nodup) (hsp : .rsp ∉ rs)
    (hlen : rs.length = ws.length) (hws : s.mem.WordsAt s.sp ws)
    (hlt : s.sp + 8 * ws.length < 2 ^ 64) :
    ∃ s', execList (rs.map .pop) s = some s' ∧ s'.sp = s.sp + 8 * ws.length ∧
      s'.mem = s.mem ∧ rs.map s'.regs = ws ∧
      ∀ q, q ≠ Reg.rsp → q ∉ rs → s'.regs q = s.regs q := by
  induction rs generalizing s ws with
  | nil =>
      obtain rfl := List.length_eq_zero_iff.mp hlen.symm
      exact ⟨s, rfl, rfl, rfl, rfl, fun _ _ _ => rfl⟩
  | cons r rs ih =>
      cases ws with
      | nil => simp at hlen
      | cons w ws =>
          rw [List.nodup_cons] at hnd
          rw [List.mem_cons, not_or] at hsp
          simp only [List.length_cons] at hlen hlt
          obtain ⟨s₁, h₁, hsp₁, hmem₁, hr₁, hregs₁⟩ :=
            exec_pop (s := s) (Ne.symm hsp.1) (by omega)
          have hws₁ : s₁.mem.WordsAt s₁.sp ws := by
            rw [hmem₁, hsp₁]
            exact hws.2
          obtain ⟨s', h', hsp', hmem', hrs', hregs'⟩ :=
            ih hnd.2 hsp.2 (by omega) hws₁ (by omega)
          refine ⟨s', by simp [execList_cons, h₁, h'], by simp only [List.length_cons]; omega,
            hmem'.trans hmem₁, ?_, ?_⟩
          · rw [List.map_cons, hrs', hregs' r (Ne.symm hsp.1) hnd.1, hr₁, hws.1]
          · intro q hq hqrs
            rw [List.mem_cons, not_or] at hqrs
            rw [hregs' q hq hqrs.2, hregs₁ q hq hqrs.1]

/-- Stores put the registers into the slots, and touch nothing else.  The slots must
be apart, since a later store would overwrite an earlier one. -/
theorem exec_stores (offs : List ℕ) (rs : List Reg) (hlen : rs.length ≤ offs.length)
    (hoff : ∀ off ∈ offs.take rs.length, 8 ≤ off ∧ off ≤ s.bp)
    (hapart : (offs.take rs.length).Pairwise fun a b => a + 8 ≤ b ∨ b + 8 ≤ a) :
    ∃ s', execList (List.zipWith .store offs rs) s = some s' ∧ s'.regs = s.regs ∧
      (offs.take rs.length).map (fun off => s'.mem.load (s.bp - off)) = rs.map s.regs ∧
      ∀ x, (∀ off ∈ offs.take rs.length, x < s.bp - off ∨ s.bp - off + 8 ≤ x) →
        s'.mem x = s.mem x := by
  induction rs generalizing s offs with
  | nil => exact ⟨s, by simp, rfl, by simp, fun _ _ => rfl⟩
  | cons r rs ih =>
      cases offs with
      | nil => simp at hlen
      | cons off offs =>
          simp only [List.length_cons, List.take_succ_cons, List.mem_cons, forall_eq_or_imp,
            List.pairwise_cons] at hlen hoff hapart ⊢
          have hbp := s.bp_lt
          have h₁ := exec_store r hoff.1.2 (s := s) (by omega)
          obtain ⟨s', h', hregs', hslots', hmem'⟩ :=
            ih (s := { s with mem := s.mem.store (s.bp - off) (s.regs r) }) offs (by omega)
              hoff.2 hapart.2
          refine ⟨s', by simp [execList_cons, h₁, h'], hregs', ?_, ?_⟩
          · rw [List.map_cons, List.map_cons]
            refine congrArg₂ _ ?_ hslots'
            rw [← Mem.load_store_self s.mem (s.bp - off) (s.regs r)]
            refine Mem.load_congr fun x hx hx' => ?_
            refine hmem' x fun off' hoff' => ?_
            have hle := (hoff.2 off' hoff').2
            change x < s.bp - off' ∨ s.bp - off' + 8 ≤ x
            have := hapart.1 off' hoff'
            omega
          · rintro x ⟨hx, hxs⟩
            rw [hmem' x hxs]
            rcases hx with hx | hx
            · exact Mem.store_of_lt hx
            · exact Mem.store_of_ge hx

/-- Pushes put the registers on the stack, the last of them on top. -/
theorem exec_pushes {rs : List Reg} (hsp : .rsp ∉ rs) (hroom : 8 * rs.length ≤ s.sp) :
    ∃ s', execList (rs.map .push) s = some s' ∧ s'.sp + 8 * rs.length = s.sp ∧
      s'.mem.WordsAt s'.sp (rs.map s.regs).reverse ∧
      (∀ x, s.sp ≤ x → s'.mem x = s.mem x) ∧ ∀ q, q ≠ Reg.rsp → s'.regs q = s.regs q := by
  induction rs generalizing s with
  | nil => exact ⟨s, rfl, rfl, trivial, fun _ _ => rfl, fun _ _ => rfl⟩
  | cons r rs ih =>
      rw [List.mem_cons, not_or] at hsp
      simp only [List.length_cons] at hroom ⊢
      obtain ⟨s₁, h₁, hsp₁, hmem₁, hregs₁⟩ := exec_push (s := s) r (by omega)
      obtain ⟨s', h', hsp', hws', hmem', hregs'⟩ := ih (s := s₁) hsp.2 (by omega)
      refine ⟨s', by simp [execList_cons, h₁, h'], by omega, ?_, ?_, ?_⟩
      · rw [List.map_cons, List.reverse_cons, Mem.wordsAt_append]
        have hrs : rs.map s.regs = rs.map s₁.regs := by
          refine List.map_congr_left fun q hq => (hregs₁ q ?_).symm
          rintro rfl
          exact hsp.2 hq
        rw [hrs]
        refine ⟨hws', ?_, trivial⟩
        rw [List.length_reverse, List.length_map, hsp',
          ← Mem.load_store_self s.mem (s.sp - 8) (s.regs r), ← hmem₁, hsp₁]
        exact Mem.load_congr fun x hx _ => hmem' x (by omega)
      · intro x hx
        rw [hmem' x (by omega), hmem₁]
        exact Mem.store_of_ge (by omega)
      · intro q hq
        rw [hregs' q hq, hregs₁ q hq]

/-! ## Arguments

The pops of the caller and the stores of the callee walk queues from the same end,
while what they are for goes in opposite directions. -/

/-- Operands on the machine stack: the words from `rsp` upwards, inside the
address space. -/
structure OperandsAt (s : X86.State) (ws : List Word) : Prop where
  words : s.mem.WordsAt s.sp ws
  bound : s.sp + 8 * ws.length < 2 ^ 64

/-- The table of locals and the prologue of a body of a type with the given declared
locals.  It is what `compileBody` puts in front of a body (`compileBody_entryCode`).
-/
def entryCode (ty : FuncType) (groups : List (ℕ × Ty)) : Outcome (LocalsTable × List Instr) := do
  let order ← drainTo ty.params.length
  let t ← layoutLocals ty.params groups
  let before ← prologue ty.params order t
  return (t, before)

/-- The code of a body starts with its prologue. -/
theorem compileBody_entryCode {V : Validator} {ctx : Context} {ty : FuncType} {φ : V.FuncSt}
    {body : FunctionBody} {out : List Instr × ℕ} (h : compileBody V ctx ty φ body = .ok out) :
    ∃ t before, entryCode ty body.locals.items = .ok (t, before) ∧ before <+: out.1 := by
  obtain ⟨order, t, before, code, after, horder, ht, hbefore, -, -, hout⟩ := compileBody_eq_ok h
  refine ⟨t, before, by simp [entryCode, horder, ht, hbefore], ?_⟩
  rw [hout, List.append_assoc]
  exact List.prefix_append _ _

/-- The code that loads the arguments of a call. -/
def argumentCode (ty : FuncType) : Outcome (List Instr) := do
  let order ← drainTo ty.params.length
  popArgs ty.params order

/-- The code of a call starts with the loading of the arguments. -/
theorem handleInstruction_argumentCode {ctx : Context} {locals : List ℕ} {f : ℕ} {ty : FuncType}
    {code : List Instr} (hty : ctx.functionType f = some ty)
    (h : handleInstruction ctx locals (.call f) = .ok code) :
    ∃ args results, argumentCode ty = .ok args ∧ pushResults ty.returns = .ok results ∧
      code = args ++ callCode ctx f ++ results := by
  simp only [handleInstruction, hty, Outcome.bind_eq_ok, Outcome.pure_eq_ok,
    Outcome.unwrap_eq_ok, Option.some.injEq, Outcome.ok.injEq] at h
  obtain ⟨_, rfl, order, horder, args, hargs, results, hresults, rfl⟩ := h
  exact ⟨args, results, by simp [argumentCode, horder, hargs], hresults, rfl⟩

/-- A call of a function: its arguments are loaded, the return address is pushed
and its prologue runs. -/
def enterCall (args before : List Instr) (ra : Word) (s : X86.State) : Option X86.State :=
  (execList args s).bind fun s => (s.push ra).bind (execList before)

/-- The callee finds argument `i` in the slot of its local `i`, and the operands
under the arguments are where they were. -/
def ArgumentsArrive (ty : FuncType) (groups : List (ℕ × Ty)) (ra : Word) (s : X86.State)
    (arguments rest : List Word) : Prop :=
  ∃ args t before s', argumentCode ty = .ok args ∧ entryCode ty groups = .ok (t, before) ∧
    enterCall args before ra s = some s' ∧
    (t.locals.take ty.params.length).map (fun off => s'.mem.load (s'.slot off)) = arguments ∧
    s'.mem.WordsAt (s.sp + 8 * ty.params.length) rest

variable {ty : FuncType} {groups : List (ℕ × Ty)} {t : LocalsTable} {before : List Instr}

/-- Arguments are not passed in the registers of the frame. -/
theorem mem_integerOrder : ∀ r ∈ integerOrder, r ≠ .rsp ∧ r ≠ .rbp := by
  decide

/-- The slots of `n` params, all `i64`. -/
def paramSlots (n : ℕ) : List ℕ := (List.range n).map fun i => 8 * (i + 1)

/-- One slot for each param, -/
@[simp] theorem length_paramSlots (n : ℕ) : (paramSlots n).length = n := by
  simp [paramSlots]

/-- eight bytes apart, -/
theorem pairwise_paramSlots (n : ℕ) :
    (paramSlots n).Pairwise fun a b => a + 8 ≤ b ∨ b + 8 ≤ a := by
  rw [paramSlots, List.pairwise_map]
  refine List.pairwise_lt_range.imp fun h => ?_
  omega

/-- below the saved `rbp`. -/
theorem mem_paramSlots {n off : ℕ} (h : off ∈ paramSlots n) : 8 ≤ off ∧ off ≤ 8 * n := by
  obtain ⟨i, hi, rfl⟩ := List.mem_map.mp h
  rw [List.mem_range] at hi
  omega

/-- What the entry of a function with `i64` params looks like. -/
theorem entryCode_i64 (hp : AllI64 ty.params) (h : entryCode ty groups = .ok (t, before)) :
    ty.params.length ≤ 6 ∧
      (∃ more, t.locals = paramSlots ty.params.length ++ more) ∧
      8 * ty.params.length ≤ t.localsSize ∧ t.localsSize < 2 ^ 31 ∧
      before = [.push .rbp, .mov .rbp .rsp] ++
        (if t.localsSize = 0 then [] else [.subRsp t.localsSize]) ++
        List.zipWith .store t.locals (integerOrder.take ty.params.length).reverse := by
  simp only [entryCode, layoutLocals_eq_ok, exactLayout, exactParams_i64 hp, Outcome.bind_eq_ok,
    Outcome.pure_eq_ok, Outcome.ok.injEq, Prod.mk.injEq] at h
  obtain ⟨order, horder, _, ⟨⟨_, rfl, ht⟩, -⟩, _, hbefore, rfl, rfl⟩ := h
  obtain ⟨hlt, hbefore⟩ := prologue_i64 hp horder hbefore
  obtain ⟨hn, rfl⟩ := drainTo_eq_ok.mp horder
  obtain ⟨more, extra, ht, -⟩ := exactGroups_eq_ok ht
  refine ⟨hn, ⟨more, ?_⟩, ?_, hlt, hbefore⟩
  · rw [ht]
    simp [paramSlots]
  · rw [ht]
    simp

/-- Allocation of a frame for which there is room. -/
theorem exec_alloc {size : ℕ} (h : size ≤ s.sp) :
    ∃ s', execList (if size = 0 then [] else [.subRsp size]) s = some s' ∧
      s'.sp = s.sp - size ∧ s'.mem = s.mem ∧ ∀ q, q ≠ Reg.rsp → s'.regs q = s.regs q := by
  by_cases h0 : size = 0
  · exact ⟨s, by rw [if_pos h0]; rfl, by omega, rfl, fun _ _ => rfl⟩
  · refine ⟨s.set .rsp (s.regs .rsp - BitVec.ofNat 64 size), ?_, s.sp_set_sub h, rfl,
      fun q hq => by simp [hq]⟩
    rw [if_neg h0, execList_singleton, exec, if_pos h]

/-- Without room there is no frame. -/
theorem exec_alloc_eq_none {size : ℕ} (h : ¬ size ≤ s.sp) :
    execList (if size = 0 then [] else [.subRsp size]) s = none := by
  rw [if_neg (by omega), execList_singleton, exec, if_neg h]

/-- **What a prologue does**: `rbp` points at the saved `rbp`, the params are the
register queue from the back, and everything above the return address is as it
was. -/
theorem exec_prologue (hp : AllI64 ty.params) (h : entryCode ty groups = .ok (t, before))
    (hroom : 8 + t.localsSize ≤ s.sp) :
    ∃ s', execList before s = some s' ∧ s'.bp + 8 = s.sp ∧
      (paramSlots ty.params.length).map (fun off => s'.mem.load (s'.slot off)) =
        (integerOrder.take ty.params.length).reverse.map s.regs ∧
      ∀ x, s.sp ≤ x → s'.mem x = s.mem x := by
  obtain ⟨hn, ⟨more, hmore⟩, hsize, -, rfl⟩ := entryCode_i64 hp h
  obtain ⟨s₁, h₁, hsp₁, hmem₁, hregs₁⟩ := exec_push (s := s) .rbp (by omega)
  have h₂ : exec (.mov .rbp .rsp) s₁ = some (s₁.set .rbp (s₁.regs .rsp)) := rfl
  have hbp₂ : (s₁.set .rbp (s₁.regs .rsp)).bp = s₁.sp := by simp [State.bp, State.sp]
  have hsp₂ : (s₁.set .rbp (s₁.regs .rsp)).sp = s₁.sp := State.set_sp _ _ (by decide)
  have hsize₂ : t.localsSize ≤ (s₁.set .rbp (s₁.regs .rsp)).sp := by omega
  obtain ⟨s₃, h₃, -, hmem₃, hregs₃⟩ := exec_alloc hsize₂
  have hbp₃ : s₃.bp = s₁.sp := by rw [← hbp₂, State.bp, State.bp, hregs₃ _ (by decide)]
  have hlen : (integerOrder.take ty.params.length).reverse.length = ty.params.length := by
    rw [List.length_reverse, length_take_integerOrder hn]
  have htake : t.locals.take (integerOrder.take ty.params.length).reverse.length =
      paramSlots ty.params.length := by
    rw [hlen, hmore, List.take_left' (length_paramSlots _)]
  have hslot : ∀ off ∈ paramSlots ty.params.length, 8 ≤ off ∧ off ≤ s₃.bp := fun off hoff => by
    have := mem_paramSlots hoff
    omega
  obtain ⟨s', h', hregs', hslots', hmem'⟩ := exec_stores (s := s₃) t.locals
    (integerOrder.take ty.params.length).reverse
    (by rw [hlen, hmore, List.length_append, length_paramSlots]; omega) (by rwa [htake])
    (by rw [htake]; exact pairwise_paramSlots _)
  rw [htake] at hslots' hmem'
  have hbp' : s'.bp = s₃.bp := by rw [State.bp, State.bp, hregs']
  refine ⟨s', ?_, by omega, ?_, ?_⟩
  · rw [execList_append, execList_append, execList_cons, h₁, Option.bind_some, execList_singleton,
      h₂, Option.bind_some, h₃, Option.bind_some, h']
  · rw [List.map_congr_left (g := fun off => s'.mem.load (s₃.bp - off)), hslots']
    · refine List.map_congr_left fun q hq => ?_
      obtain ⟨hsp, hbp⟩ := mem_integerOrder q (List.mem_of_mem_take (List.mem_reverse.mp hq))
      rw [hregs₃ q hsp, State.set_regs_of_ne _ _ hbp, hregs₁ q hsp]
    · intro off hoff
      rw [State.slot_eq (by rw [hbp']; exact (hslot off hoff).2), hbp']
  · intro x hx
    rw [hmem' x fun off hoff => by have := hslot off hoff; omega, hmem₃, State.set_mem, hmem₁,
      Mem.store_of_ge (by omega)]

/-- Without room for the saved `rbp` and the locals a prologue does not get
through. -/
theorem exec_prologue_eq_none (hp : AllI64 ty.params) (h : entryCode ty groups = .ok (t, before))
    (hroom : ¬ 8 + t.localsSize ≤ s.sp) : execList before s = none := by
  obtain ⟨-, -, -, -, rfl⟩ := entryCode_i64 hp h
  rw [execList_append, execList_append, execList_cons, exec]
  by_cases h8 : 8 ≤ s.sp
  · obtain ⟨s₁, h₁, hsp₁, -, -⟩ := exec_push (s := s) .rbp h8
    have hsp₂ : (s₁.set .rbp (s₁.regs .rsp)).sp = s₁.sp := State.set_sp _ _ (by decide)
    rw [exec] at h₁
    rw [h₁, Option.bind_some, execList_singleton, exec, Option.bind_some,
      exec_alloc_eq_none (by omega), Option.bind_none]
  · rw [State.push, if_neg h8, Option.bind_none, Option.bind_none, Option.bind_none]

/-- The argument code of a function with `i64` params. -/
theorem argumentCode_i64 (hp : AllI64 ty.params) (hn : ty.params.length ≤ 6) :
    argumentCode ty = .ok ((integerOrder.take ty.params.length).reverse.map .pop) := by
  have hlen : (integerOrder.take ty.params.length).reverse.length = ty.params.length := by
    rw [List.length_reverse, length_take_integerOrder hn]
  have hpops := popArgs_i64 hp hlen.ge
  rw [List.reverse_reverse] at hpops
  rw [argumentCode, drainTo_eq_ok.mpr ⟨hn, rfl⟩, Outcome.ok_bind, hpops]
  nth_rewrite 1 [← hlen]
  rw [List.take_length]

/-- No register is used for two arguments. -/
theorem nodup_integerOrder_take (n : ℕ) : (integerOrder.take n).reverse.Nodup :=
  List.nodup_reverse.mpr (List.Nodup.sublist (List.take_sublist _ _) (by decide))

variable {arguments rest : List Word}

/-- Loading the arguments empties the stack down to the remaining operands. -/
theorem exec_arguments (hp : AllI64 ty.params) (hn : ty.params.length ≤ 6)
    (hlen : arguments.length = ty.params.length)
    (hops : OperandsAt s (arguments.reverse ++ rest)) :
    ∃ args s', argumentCode ty = .ok args ∧ execList args s = some s' ∧
      s'.sp = s.sp + 8 * ty.params.length ∧ s'.mem = s.mem ∧
      (integerOrder.take ty.params.length).reverse.map s'.regs = arguments.reverse := by
  have hwords := (Mem.wordsAt_append.mp hops.words).1
  have hbound := hops.bound
  have hargs : arguments.reverse.length = ty.params.length := by rw [List.length_reverse, hlen]
  rw [List.length_append, hargs] at hbound
  have hrs : (integerOrder.take ty.params.length).reverse.length = arguments.reverse.length := by
    rw [List.length_reverse, length_take_integerOrder hn, hargs]
  have hrsp : .rsp ∉ (integerOrder.take ty.params.length).reverse := fun hmem =>
    (mem_integerOrder _ (List.mem_of_mem_take (List.mem_reverse.mp hmem))).1 rfl
  obtain ⟨s₁, h₁, hsp₁, hmem₁, hregs₁, -⟩ :=
    exec_pops (nodup_integerOrder_take ty.params.length) hrsp hrs hwords (by omega)
  exact ⟨_, s₁, argumentCode_i64 hp hn, h₁, by rw [hsp₁, hargs], hmem₁, hregs₁⟩

/-- **The callee sees its arguments in reverse.**  The operands below the arguments
are untouched, and the callee's frame lies where the arguments were and below. -/
theorem arguments_reversed (hp : AllI64 ty.params) (h : entryCode ty groups = .ok (t, before))
    (hlen : arguments.length = ty.params.length) (hops : OperandsAt s (arguments.reverse ++ rest))
    (hroom : 16 + t.localsSize ≤ s.sp + 8 * ty.params.length) (ra : Word) :
    ∃ args s', argumentCode ty = .ok args ∧ enterCall args before ra s = some s' ∧
      (paramSlots ty.params.length).map (fun off => s'.mem.load (s'.slot off)) =
        arguments.reverse ∧
      s'.mem.WordsAt (s.sp + 8 * ty.params.length) rest := by
  obtain ⟨args, s₁, hargs, h₁, hsp₁, hmem₁, hregs₁⟩ :=
    exec_arguments hp (entryCode_i64 hp h).1 hlen hops
  have hrest := (Mem.wordsAt_append.mp hops.words).2
  rw [List.length_reverse, hlen] at hrest
  obtain ⟨-, hsp₂, hmem₂, hregs₂⟩ := State.push_spec (State.push_eq (s := s₁) (v := ra) (by omega))
  obtain ⟨s', h', -, hslots, hmem'⟩ := exec_prologue hp h (s := _) (by rw [hsp₂]; omega)
  refine ⟨args, s', hargs, ?_, ?_, ?_⟩
  · rw [enterCall, h₁, Option.bind_some, State.push_eq (by omega), Option.bind_some, h']
  · rw [hslots, ← hregs₁]
    refine List.map_congr_left fun q hq => hregs₂ q ?_
    exact (mem_integerOrder q (List.mem_of_mem_take (List.mem_reverse.mp hq))).1
  · refine hrest.congr fun x hx _ => ?_
    rw [hmem' x (by rw [hsp₂]; omega), hmem₂, Mem.store_of_ge (by omega), hmem₁]

/-- Without room a call does not get as far as the body. -/
theorem enterCall_eq_none (hp : AllI64 ty.params) (h : entryCode ty groups = .ok (t, before))
    (hlen : arguments.length = ty.params.length) (hops : OperandsAt s (arguments.reverse ++ rest))
    (hroom : ¬ 16 + t.localsSize ≤ s.sp + 8 * ty.params.length) {args : List Instr}
    (hargs : argumentCode ty = .ok args) (ra : Word) : enterCall args before ra s = none := by
  obtain ⟨args', s₁, hargs', h₁, hsp₁, -⟩ := exec_arguments hp (entryCode_i64 hp h).1 hlen hops
  rw [hargs] at hargs'
  cases hargs'
  rw [enterCall, h₁, Option.bind_some]
  cases hpush : s₁.push ra with
  | none => rfl
  | some s₂ =>
      obtain ⟨h8, hsp₂, -⟩ := State.push_spec hpush
      exact exec_prologue_eq_none hp h (by omega)

/-- **When caller and callee agree on the arguments.**  A call with at least as many
operands as `ty` has params, all `i64`, puts argument `i` into the slot of local `i`
of the callee exactly when there is room for the callee's frame and the list of
arguments is its own reverse.

The caller pops into registers from the first param on, and the last argument is the
first to be popped; the callee stores the registers in the same order.  Neither of
the two is wrong by itself, and nothing turns the arguments round. -/
theorem arguments_arrive_iff {ty : FuncType} {groups : List (ℕ × Ty)} {t : LocalsTable}
    {before : List Instr} {s : X86.State} {arguments rest : List Word} {ra : Word}
    (hp : AllI64 ty.params) (h : entryCode ty groups = .ok (t, before))
    (hlen : arguments.length = ty.params.length)
    (hops : OperandsAt s (arguments.reverse ++ rest)) :
    ArgumentsArrive ty groups ra s arguments rest ↔
      16 + t.localsSize ≤ s.sp + 8 * ty.params.length ∧ arguments.reverse = arguments := by
  obtain ⟨-, ⟨more, hmore⟩, -⟩ := entryCode_i64 hp h
  have htake : t.locals.take ty.params.length = paramSlots ty.params.length := by
    rw [hmore, List.take_left' (length_paramSlots _)]
  constructor
  · rintro ⟨args, t', before', s', hargs, h', hrun, hslots, hrest⟩
    rw [h] at h'
    cases h'
    rw [htake] at hslots
    have hroom : 16 + t.localsSize ≤ s.sp + 8 * ty.params.length := by
      by_contra hno
      rw [enterCall_eq_none hp h hlen hops hno hargs ra] at hrun
      cases hrun
    obtain ⟨args', s'', hargs', hrun', hslots', -⟩ :=
      arguments_reversed hp h hlen hops hroom ra
    rw [hargs] at hargs'
    cases hargs'
    rw [hrun] at hrun'
    cases hrun'
    exact ⟨hroom, hslots'.symm.trans hslots⟩
  · rintro ⟨hroom, hrev⟩
    obtain ⟨args, s', hargs, hrun, hslots, hrest⟩ := arguments_reversed hp h hlen hops hroom ra
    exact ⟨args, t, before, s', hargs, h, hrun, by rw [htake, hslots, hrev], hrest⟩

/-- Two equal arguments on top of a third operand. -/
theorem arguments_arrive_iff_instance :
    ArgumentsArrive ⟨[.i64, .i64], []⟩ [(1, .i64)] 0 (X86.State.ofStack 128 256 [7, 7, 5])
      [7, 7] [5] := by
  have hp : AllI64 (FuncType.mk [.i64, .i64] []).params := by decide
  have hops : OperandsAt (X86.State.ofStack 128 256 [7, 7, 5]) ([7, 7].reverse ++ [5]) :=
    ⟨⟨by decide, by decide, by decide, trivial⟩, by decide⟩
  exact (arguments_arrive_iff hp rfl rfl hops).mpr ⟨by decide, rfl⟩

/-- The callee of `f(1, 2)` finds `2` in the slot of its local `0`. -/
theorem arguments_do_not_arrive : ¬ ∀ (ty : FuncType) (groups : List (ℕ × Ty)) (t : LocalsTable)
    (before : List Instr) (s : X86.State) (arguments rest : List Word) (ra : Word),
    AllI64 ty.params → entryCode ty groups = .ok (t, before) →
    arguments.length = ty.params.length → OperandsAt s (arguments.reverse ++ rest) →
    16 + t.localsSize ≤ s.sp + 8 * ty.params.length →
    ArgumentsArrive ty groups ra s arguments rest := by
  intro h
  obtain ⟨args, t, before, s', hargs, hentry, hrun, hslots, -⟩ :=
    h ⟨[.i64, .i64], []⟩ [] _ _ (X86.State.ofStack 128 256 [2, 1]) [1, 2] [] 0 (by decide) rfl rfl
      ⟨⟨by decide, by decide, trivial⟩, by decide⟩ (by decide)
  cases hargs
  cases hentry
  cases hrun
  exact absurd hslots (by decide)

/-! ## Results

The state in front of an epilogue is described from the callee's side and that
behind the call from the caller's. -/

/-- A callee about to return: its results are its operands, the last on top; the
saved `rbp` is at `rbp`, the return address above it, and above that the
operands the caller has left. -/
structure Returning (s : X86.State) (ra : Word) (results rest : List Word) : Prop where
  operands : s.mem.WordsAt s.sp results.reverse
  frame : s.sp + 8 * results.length ≤ s.bp
  returnAddress : s.mem.load (s.bp + 8) = ra
  caller : s.mem.WordsAt (s.bp + 16) rest
  bound : s.bp + 16 + 8 * rest.length < 2 ^ 64

/-- The return from a call: the epilogue up to its `ret`, the `ret`, which gives
the address returned to, and the code that follows the call. -/
def leaveCall (after pushes : List Instr) (s : X86.State) : Option (Word × X86.State) :=
  (execList after.dropLast s).bind fun s =>
    s.pop.bind fun p => (execList pushes p.2).map fun s' => (p.1, s')

/-- The caller's operands are the ones it had left and, on top of them, the
results in order. -/
def ResultsArrive (returns : List Ty) (size : ℕ) (s : X86.State) (ra : Word)
    (results rest : List Word) : Prop :=
  ∃ after pushes s', epilogue returns size = .ok after ∧ pushResults returns = .ok pushes ∧
    leaveCall after pushes s = some (ra, s') ∧ s'.sp + 8 * results.length = s.bp + 16 ∧
    s'.mem.WordsAt s'.sp (results.reverse ++ rest)

variable {returns : List Ty} {size : ℕ} {after : List Instr} {results : List Word} {ra : Word}

/-- Results are not passed in the registers of the frame. -/
theorem mem_returnOrder : ∀ r ∈ returnOrder, r ≠ .rsp ∧ r ≠ .rbp := by
  decide

/-- Freeing the frame moves `rsp` only.  By how much makes no difference, as `rsp`
is set from `rbp` right behind it. -/
theorem exec_free (size : ℕ) (s : X86.State) :
    ∃ s', execList (if size = 0 then [] else [.addRsp size]) s = some s' ∧
      s'.mem = s.mem ∧ ∀ q, q ≠ Reg.rsp → s'.regs q = s.regs q := by
  by_cases h0 : size = 0
  · exact ⟨s, by rw [if_pos h0]; rfl, rfl, fun _ _ => rfl⟩
  · refine ⟨s.set .rsp (s.regs .rsp + BitVec.ofNat 64 size), ?_, rfl, fun q hq => by simp [hq]⟩
    rw [if_neg h0]
    rfl

/-- `mov rsp, rbp; pop rbp` gives the caller its frame back. -/
theorem exec_leave (h : s.bp + 8 < 2 ^ 64) :
    ∃ s', execList [.mov .rsp .rbp, .pop .rbp] s = some s' ∧ s'.sp = s.bp + 8 ∧
      s'.mem = s.mem ∧ ∀ q, q ≠ Reg.rsp → q ≠ Reg.rbp → s'.regs q = s.regs q := by
  have hsp : (s.set .rsp (s.regs .rbp)).sp = s.bp := by simp [State.sp, State.bp]
  obtain ⟨s', h', hsp', hmem', -, hregs'⟩ :=
    exec_pop (s := s.set .rsp (s.regs .rbp)) (r := .rbp) (by decide) (by omega)
  refine ⟨s', ?_, by omega, hmem', fun q hq hq' => ?_⟩
  · rw [execList_cons, exec, Option.bind_some, execList_singleton, h']
  · rw [hregs' q hq hq', State.set_regs_of_ne _ _ hq]

/-- An epilogue without its `ret`. -/
theorem dropLast_epilogue (code : List Instr) :
    (code ++ [Instr.mov .rsp .rbp, .pop .rbp, .ret]).dropLast =
      code ++ [.mov .rsp .rbp, .pop .rbp] := by
  simp

/-- **The first two results change places, the others are lost.**  `rsp` after the
return is where the arguments ended, however many results there were. -/
theorem results_swapped (hr : AllI64 returns) (h : epilogue returns size = .ok after)
    (hlen : results.length = returns.length) {rest : List Word}
    (hret : Returning s ra results rest) :
    ∃ pushes s', pushResults returns = .ok pushes ∧ leaveCall after pushes s = some (ra, s') ∧
      s'.sp + 8 * min 2 results.length = s.bp + 16 ∧
      s'.mem.WordsAt s'.sp ((results.reverse.take 2).reverse ++ rest) := by
  obtain ⟨-, rfl⟩ := epilogue_i64 hr h
  have hbound := hret.bound
  have hframe := hret.frame
  have hk : (returnOrder.take returns.length).length = min 2 results.length := by
    rw [List.length_take, hlen, Nat.min_comm]
    rfl
  have htop : (results.reverse.take 2).length = min 2 results.length := by simp
  have hnd : (returnOrder.take returns.length).Nodup :=
    List.Nodup.sublist (List.take_sublist _ _) (by decide)
  have hrsp : .rsp ∉ returnOrder.take returns.length := fun hmem =>
    (mem_returnOrder _ (List.mem_of_mem_take hmem)).1 rfl
  have hwords : s.mem.WordsAt s.sp (results.reverse.take 2) := by
    have := hret.operands
    rw [← List.take_append_drop 2 results.reverse, Mem.wordsAt_append] at this
    exact this.1
  -- the epilogue: pops, the frame is freed, the caller's `rbp` comes back
  obtain ⟨s₁, h₁, hsp₁, hmem₁, hregs₁, hother₁⟩ :=
    exec_pops hnd hrsp (hk.trans htop.symm) hwords (by omega)
  obtain ⟨s₂, h₂, hmem₂, hregs₂⟩ := exec_free size s₁
  have hbp₂ : s₂.bp = s.bp := by
    have hrbp : .rbp ∉ returnOrder.take returns.length := fun hmem =>
      (mem_returnOrder _ (List.mem_of_mem_take hmem)).2 rfl
    rw [State.bp, State.bp, hregs₂ _ (by decide), hother₁ _ (by decide) hrbp]
  obtain ⟨s₃, h₃, hsp₃, hmem₃, hregs₃⟩ := exec_leave (s := s₂) (by omega)
  -- the return
  have hpop := State.pop_eq (s := s₃) (by omega)
  have hsp₄ : (s₃.set .rsp (s₃.regs .rsp + 8)).sp = s.bp + 16 := by
    have := s₃.sp_set_add (n := 8) (by omega)
    rw [hsp₃, hbp₂] at this
    exact this
  -- the pushes
  obtain ⟨s', h', hsp', hwords', hmem', -⟩ :=
    exec_pushes (s := s₃.set .rsp (s₃.regs .rsp + 8)) hrsp (by omega)
  refine ⟨_, s', by rw [pushResults, moveResults_i64 hr], ?_, by omega, ?_⟩
  · have hra : s₃.mem.load s₃.sp = ra := by
      rw [hmem₃, hmem₂, hmem₁, hsp₃, hbp₂, hret.returnAddress]
    rw [leaveCall, dropLast_epilogue, execList_append, execList_append, h₁, Option.bind_some, h₂,
      Option.bind_some, h₃, Option.bind_some, hpop, Option.bind_some, h', hra]
    rfl
  · have hregs : (returnOrder.take returns.length).map (s₃.set .rsp (s₃.regs .rsp + 8)).regs =
        results.reverse.take 2 := by
      rw [← hregs₁]
      refine List.map_congr_left fun q hq => ?_
      obtain ⟨hq₁, hq₂⟩ := mem_returnOrder q (List.mem_of_mem_take hq)
      rw [State.set_regs_of_ne _ _ hq₁, hregs₃ q hq₁ hq₂, hregs₂ q hq₁]
    rw [hregs] at hwords'
    refine Mem.wordsAt_append.mpr ⟨hwords', ?_⟩
    rw [List.length_reverse, htop, ← hk, hsp', hsp₄]
    refine hret.caller.congr fun x hx _ => ?_
    rw [hmem' x (by omega), State.set_mem, hmem₃, hmem₂, hmem₁]

/-- **When caller and callee agree on the results.**  From the end of a body with
`i64` results the caller's operands grow by exactly the results, in order, exactly
when there are at most two of them and their list is its own reverse: none, one, or
two equal ones.

The body leaves its results as operands, the last of them on top.  The epilogue pops
the first register first, and the caller pushes the first register first, so two
results change places; from the third on there is no register, and what was on the
stack stays there. -/
theorem results_arrive_iff {returns : List Ty} {size : ℕ} {after : List Instr} {s : X86.State}
    {ra : Word} {results rest : List Word} (hr : AllI64 returns)
    (h : epilogue returns size = .ok after) (hlen : results.length = returns.length)
    (hret : Returning s ra results rest) :
    ResultsArrive returns size s ra results rest ↔
      results.length ≤ 2 ∧ results.reverse = results := by
  obtain ⟨pushes, s', hpushes, hrun, hsp, hwords⟩ := results_swapped hr h hlen hret
  constructor
  · rintro ⟨after', pushes', s'', h', hpushes', hrun', hsp', hwords'⟩
    rw [h] at h'
    cases h'
    rw [hpushes] at hpushes'
    cases hpushes'
    rw [hrun] at hrun'
    cases hrun'
    have htwo : results.length ≤ 2 := by omega
    refine ⟨htwo, ?_⟩
    rw [List.take_of_length_le (by simpa using htwo), List.reverse_reverse] at hwords
    have heq := Mem.wordsAt_unique hwords hwords' (by simp)
    exact (List.append_cancel_right heq).symm
  · rintro ⟨htwo, hrev⟩
    refine ⟨after, pushes, s', h, hpushes, hrun, by omega, ?_⟩
    rw [List.take_of_length_le (by simpa using htwo), List.reverse_reverse] at hwords
    rwa [hrev]

/-- One result. -/
theorem results_arrive_iff_instance :
    ResultsArrive [.i64] 0 (X86.State.ofStack 64 72 [7, 0, 3]) 3 [7] [] := by
  have hret : Returning (X86.State.ofStack 64 72 [7, 0, 3]) 3 [7] [] :=
    ⟨⟨by decide, trivial⟩, by decide, by decide, trivial, by decide⟩
  exact (results_arrive_iff (by decide) rfl rfl hret).mpr ⟨by decide, rfl⟩

/-- Two different results change places. -/
theorem results_do_not_arrive : ¬ ∀ (returns : List Ty) (size : ℕ) (after : List Instr)
    (s : X86.State) (ra : Word) (results rest : List Word), AllI64 returns →
    epilogue returns size = .ok after → results.length = returns.length →
    Returning s ra results rest → ResultsArrive returns size s ra results rest := by
  intro h
  obtain ⟨after, pushes, s', hafter, hpushes, hrun, -, hwords⟩ :=
    h [.i64, .i64] 0 _ (X86.State.ofStack 64 80 [2, 1, 0, 3]) 3 [1, 2] [] (by decide) rfl rfl
      ⟨⟨by decide, by decide, trivial⟩, by decide, by decide, trivial, by decide⟩
  cases hafter
  cases hpushes
  cases hrun
  exact absurd hwords.1 (by decide)

end ParaOS.Parawasm
