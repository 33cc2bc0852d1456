import Mathlib.Order.WellFounded
import ParaOS.Parawasm.Correctness
import ParaOS.Wasm.StackNeed
import ParaOS.X86.CallGraph

/-!
# Which calls return

The compiler knows no branches and no loops, so whether a call returns does not
depend on its arguments.  As emitted it returns exactly if there is as much stack as
`takes` adds up for the function (`stack_need_exact`), and as optimised it returns
then as well.  A function from which calls lead back to itself takes more than any
amount: it never returns, whatever the optimiser makes of it; and one from which
they do not takes a number of bytes that `takes` adds up, and returns with that much
(`recursion_never_returns`).

What is asked of outside code differs from one half to the other.  That recursion does
not return needs imports only to be `WellBehaved` and `Indifferent` to the addresses of
the program, since all they can do for a recursive function is to return to it.  That
other functions return needs imports that do (`Behaves`, `Total`), each with an amount
of stack of its own (`outside`).

### What is load-bearing

`Total` asks that every import returns something whatever its arguments are, if it
has the stack it takes.  Without it a call could fail to return for a reason that
has nothing to do with compiled code.  For recursion it is not asked: there the
conclusion is that a call does not return, and an import that does not return either
is no counterexample.

The second half of `recursion_never_returns` has a number `n` that `takes` gives,
and that is the point of it: for some number there is always the empty reason that
no stack is as large.  `takes` is computed from operators, and `stack_need_exact`
says that as emitted the call returns with that much and not with less.

### Two directions, two inductions

That a call which returns has no recursion below it is read off the machine, by
induction on what it does (`Eval.acc`), and then carried to functions
(`acc_calledBy`).  That a function without recursion takes a number is by induction
along the calls, on the side of WebAssembly (`exists_takes_of_acc`).
-/

namespace ParaOS.Parawasm

open Machine X86 Wasm

variable {V : Validator} {E : Encoder} {its : List Item} {ps : List Payload} {σ : Compiling V}
  {ctx : Context} {address address' : ℕ → Word} {word : Label → Word} {env : Env} {f k top : ℕ}
  {ty : FuncType} {body : FunctionBody} {locals : List ℕ} {ops : List Operator}
  {code : List Instr} {l : Label}

/-! ## Heights

Valid functions are executed with the operands there are, so `takes` fails for want
of depth only. -/

/-- Reversing a list does not change its length. -/
theorem convention_lengths : convention.Lengths :=
  ⟨fun _ => List.length_reverse, fun _ => List.length_reverse⟩

/-- A typed operator is executed with the operands there are. -/
theorem operatorTakes_of_typeOp {F : Functions} {C : TypeContext} {st st' : List Ty}
    {op : Operator} (hcalls : ∀ f ty, C.func f = some ty → F.type f = some ty)
    (hop : integral op = true) (h : typeOp C st op = some st') :
    ∃ bytes, operatorTakes F (fun _ => some 0) C.locals.length st.length op =
      some (st'.length, bytes) := by
  have hbinary : ∀ {ts : List Ty}, popTypes [.i64, .i64] st = some ts →
      (if 2 ≤ st.length then some (st.length - 1) else none) = some (ts.length + 1) := by
    intro ts hts
    have hlen := popTypes_length hts
    simp only [List.length_cons, List.length_nil] at hlen
    rw [if_pos (by omega)]
    exact congrArg some (by omega)
  cases op with
  | call f =>
      obtain ⟨ty, hty, h⟩ := Option.bind_eq_some_iff.mp h
      obtain ⟨ts, hts, rfl⟩ := Option.map_eq_some_iff.mp h
      have hlen := popTypes_length hts
      rw [List.length_reverse] at hlen
      have hcall : operatorTakes F (fun _ => some 0) C.locals.length st.length (.call f) =
          some (ty.returns.length + (st.length - ty.params.length), _) :=
        operatorTakes_call (hcalls f ty hty) rfl (by omega)
      have hheight : ty.returns.length + (st.length - ty.params.length) =
          (ty.returns.reverse ++ ts).length := by
        rw [List.length_append, List.length_reverse]
        omega
      rw [hheight] at hcall
      exact ⟨_, hcall⟩
  | i64Const v =>
      cases h
      exact ⟨_, rfl⟩
  | nop =>
      cases h
      exact ⟨_, rfl⟩
  | i64Add =>
      obtain ⟨ts, hts, rfl⟩ := Option.map_eq_some_iff.mp h
      exact ⟨_, operatorTakes_of_height (hbinary hts)⟩
  | i64Sub =>
      obtain ⟨ts, hts, rfl⟩ := Option.map_eq_some_iff.mp h
      exact ⟨_, operatorTakes_of_height (hbinary hts)⟩
  | localGet i =>
      obtain ⟨t, ht, rfl⟩ := Option.map_eq_some_iff.mp h
      obtain ⟨hi, -⟩ := List.getElem?_eq_some_iff.mp ht
      exact ⟨_, operatorTakes_of_height (if_pos hi)⟩
  | localSet i =>
      obtain ⟨t, ht, hts⟩ := Option.bind_eq_some_iff.mp h
      obtain ⟨hi, -⟩ := List.getElem?_eq_some_iff.mp ht
      have hlen := popTypes_length hts
      simp only [List.length_singleton] at hlen
      have hheight : height C.locals.length st.length (.localSet i) = some st'.length :=
        (if_pos ⟨by omega, hi⟩).trans (congrArg some (by omega))
      exact ⟨_, operatorTakes_of_height hheight⟩
  | «end» => cases h
  | i32Add => cases hop
  | i32Sub => cases hop
  | unimplemented b => cases hop

/-- So is a typed sequence. -/
theorem stackOf_of_typeOps {F : Functions} {C : TypeContext} {st st' : List Ty}
    (hcalls : ∀ f ty, C.func f = some ty → F.type f = some ty)
    (hops : ∀ op ∈ ops, integral op = true) (h : typeOps C st ops = some st') :
    ∃ bytes, stackOf F (fun _ => some 0) C.locals.length st.length (ops ++ [.end]) =
      some (st'.length, bytes) := by
  induction ops generalizing st with
  | nil =>
      cases h
      exact ⟨_, rfl⟩
  | cons op ops ih =>
      obtain ⟨st₁, hop, h⟩ := Option.bind_eq_some_iff.mp h
      rw [List.forall_mem_cons] at hops
      obtain ⟨bytes, hrest⟩ := ih hops.2 h
      obtain ⟨bytes', hone⟩ := operatorTakes_of_typeOp hcalls hops.1 hop
      refine ⟨max bytes' bytes, ?_⟩
      rw [List.cons_append, stackOf, hone, Option.bind_some, hrest]
      rfl

/-- **Valid functions are well formed.** -/
theorem Compiled.wellFormed (h : Compiled V E ps σ) : WellFormed (functionsOf ps) := by
  intro f d hd
  obtain ⟨k, body, ty, rfl, hbody, hty, rfl⟩ := exists_body_of_definition h.noAliases hd
  obtain ⟨ty', hty', -, init, hops, htyped⟩ := h.simple.typed h.valid hbody
  cases (h.simple.resolved.called _ ty hty).symm.trans hty'
  have hoperators := h.simple.integral.operators body (List.mem_of_getElem? hbody)
  rw [hops] at hoperators
  obtain ⟨bytes, hx⟩ := stackOf_of_typeOps (F := functionsOf ps) (fun f ty hf => hf)
    (fun op hop => hoperators op (List.mem_append_left _ hop)) htyped
  rw [← hops, List.length_append, length_declaredLocals, List.length_reverse] at hx
  exact ⟨ty, bytes, hty, hx⟩

/-! ## Room

That code does not stop is shown at the points where it could: in front of a call,
for its return address, and wherever something is pushed. -/

variable {P : Program} {F : Functions} {fr : Frame} {returns : List Ty} {size n pc depth : ℕ}
  {s s' s₁ t : X86.State} {w : Wasm.State} {take outside : ℕ → Option ℕ} {x : ℕ × ℕ}
  {i i' : Instr} {seg seg' rest rest' front : List Instr}

/-- What has been performed had room. -/
theorem room_le_of_perform (h : P.perform i s = some s') : room i ≤ s.sp := by
  cases i with
  | push r => exact (State.push_spec h).1
  | subRsp m =>
      by_contra hlt
      have hexec : (if m ≤ s.sp then _ else none) = some s' := h
      rw [if_neg (show ¬ m ≤ s.sp from hlt)] at hexec
      cases hexec
  | callLabel l => cases h
  | callReg r => cases h
  | _ => exact Nat.zero_le _

/-- Code that can be run through does not stop inside. -/
theorem stop_outside (hcode : seg ++ i :: rest = seg' ++ i' :: rest')
    (hseg : ∀ j ∈ seg, plain j = true) (hi' : plain i' = false) (hrun' : P.run seg' s = some s')
    (hrun : P.run seg s = some s₁) (hlt : s₁.sp < room i) : i = i' ∧ s₁ = s' := by
  rw [List.append_eq_append_iff] at hcode
  rcases hcode with ⟨mid, rfl, hmid⟩ | ⟨mid, rfl, hmid⟩
  · rw [Program.run_append, hrun, Option.bind_some] at hrun'
    cases mid with
    | nil =>
        cases hrun'
        exact ⟨(List.cons.inj hmid).1, rfl⟩
    | cons j mid =>
        obtain ⟨rfl, -⟩ := List.cons.inj hmid
        obtain ⟨s₂, hs₂, -⟩ := Option.bind_eq_some_iff.mp hrun'
        exact absurd (room_le_of_perform hs₂) (Nat.not_le.mpr hlt)
  · cases mid with
    | nil =>
        rw [List.append_nil, hrun'] at hrun
        cases hrun
        exact ⟨(List.cons.inj hmid).1.symm, rfl⟩
    | cons j mid =>
        obtain ⟨rfl, -⟩ := List.cons.inj hmid
        rw [hseg i' (by simp)] at hi'
        cases hi'

/-- What the code of a body comes to first, if there is what it takes of the stack:
its `ret` or a call, with room for the call and for its results. -/
theorem Remains.comes (hP : Implements P ctx F) (hfront : ∀ i ∈ front, plain i = true)
    (hpre : ∃ js, P.code.drop pc = front ++ js)
    (hrem : Remains P ctx F returns locals size ops w.stack.length (pc + front.length))
    (hrun : P.run front s = some s') (hactive : Active fr locals size s' w)
    (hx : stackOf F take locals.length w.stack.length ops = some x) (hle : x.2 ≤ base fr size)
    (htop : fr.top + 8 ≤ 2 ^ 64) :
    ∃ seg i rest s₁, P.code.drop pc = seg ++ i :: rest ∧ (∀ j ∈ seg, plain j = true) ∧
      plain i = false ∧ P.run seg s = some s₁ ∧
      (i = .ret ∨ ∃ g ops' ty below ls js callee y, Callable F ctx g ty ∧
        take g = some callee ∧ Active fr locals size s₁ ⟨below, ls⟩ ∧
        8 * below.length + 8 + callee ≤ base fr size ∧
        8 * (ty.returns.length + below.length) ≤ base fr size ∧
        stackOf F take locals.length (ty.returns.length + below.length) ops' = some y ∧
        y.2 ≤ base fr size ∧ rest = pushes ty ++ js ∧
        Remains P ctx F returns locals size ops' (ty.returns.length + below.length)
          (pc + seg.length + 1 + (pushes ty).length) ∧
        ((∃ d l, F.definition g = some d ∧ ctx.got[g]? = some l ∧ i = .callLabel l) ∨
          i = .callReg .r10)) := by
  obtain ⟨js, hjs⟩ := hpre
  obtain ⟨post, c, m, hplain, ⟨js', hjs'⟩, hpost, hkind, hsteps⟩ :=
    hrem.straight F (fun _ _ _ _ => False) take fr
  rw [drop_add hjs] at hjs'
  rw [Nat.add_assoc, ← List.length_append] at hpost
  obtain ⟨hruns, hfits⟩ := hsteps s' w rfl hactive
  obtain ⟨s₁, x₁, hs₁, hx₁, hle₁⟩ := hfits x hx hle
  obtain ⟨w₁, hlen, hactive₁, -⟩ := hruns s₁ hs₁
  have hrun₁ : P.run (front ++ c) s = some s₁ := by
    rw [Program.run_append, hrun, Option.bind_some, hs₁]
  obtain ⟨seg, i, rest, hcode, hseg, hi, hnext⟩ :=
    hpost.next hP (List.forall_mem_append.mpr ⟨hfront, hplain⟩)
      (by rw [hjs, hjs', List.append_assoc]) hkind
  rcases hnext with ⟨rfl, rfl, hafter⟩ |
    ⟨g, ops', ty, below, js, rfl, hcallable, hsix, hm, rfl, hrest, hcall⟩
  · obtain ⟨is, s₂, v, t, his, hrun₂, -⟩ :=
      hactive₁.epilogue (P := P) hpost.integral hafter hpost.two (hlen.trans hpost.nil.1) htop
    obtain rfl := List.append_cancel_right his
    refine ⟨front ++ c ++ seg, .ret, rest, s₂, hcode, hseg, rfl, ?_, .inl rfl⟩
    rw [Program.run_append, hrun₁, Option.bind_some, hrun₂]
  · obtain ⟨y, hy, hx₁⟩ := Option.bind_eq_some_iff.mp hx₁
    obtain ⟨z, hz, rfl⟩ := Option.map_eq_some_iff.mp hx₁
    obtain ⟨ty', hty', hy⟩ := Option.bind_eq_some_iff.mp hy
    cases hcallable.declared.symm.trans hty'
    obtain ⟨callee, hcallee, hy⟩ := Option.bind_eq_some_iff.mp hy
    rw [Option.ite_none_right_eq_some, Option.some.injEq] at hy
    obtain ⟨-, rfl⟩ := hy
    obtain ⟨st, ls⟩ := w₁
    obtain ⟨args, rest, rfl, hargs, rfl⟩ := exists_arguments (hlen.trans hm)
    have hbelow : m - ty.params.length = rest.length := by omega
    rw [hbelow] at hz hle₁
    simp only [Nat.max_le] at hle₁
    obtain ⟨s₂, hrun₂, hactive₂, -⟩ := hactive₁.arguments (P := P) hsix hargs
    rcases hcall with ⟨d, l, hd, hl, rfl, rfl⟩ | ⟨l, hd, hl, rfl, rfl⟩
    · refine ⟨_, _, _, s₂, hcode, hseg, hi, ?_, .inr ⟨g, ops', ty, rest, ls, js, callee, z,
        hcallable, hcallee, hactive₂, hle₁.1.1, hle₁.1.2, hz, hle₁.2, rfl, hrest,
        .inl ⟨d, l, hd, hl, rfl⟩⟩⟩
      rw [Program.run_append, hrun₁, Option.bind_some, loads, hrun₂]
    · refine ⟨_, _, _, s₂.set .r10 (P.word l), hcode, hseg, hi, ?_, .inr ⟨g, ops', ty, rest, ls,
        js, callee, z, hcallable, hcallee, hactive₂.set rfl _, hle₁.1.1, hle₁.1.2, hz, hle₁.2,
        rfl, hrest, .inr rfl⟩⟩
      rw [Program.run_append, hrun₁, Option.bind_some, Program.run_append, loads, hrun₂]
      rfl

/-- **Code does not stop where there is what it takes of the stack.** -/
theorem ne_none_of_eval (hP : Implements P ctx F) (hdisc : P.Disciplined)
    (henv : WellBehaved env top) (htop : top ≤ 2 ^ 64) {o : Option X86.State}
    (h : Eval P env pc s o) (hfront : ∀ i ∈ front, plain i = true)
    (hpre : ∃ js, P.code.drop pc = front ++ js)
    (hrem : Remains P ctx F returns locals size ops w.stack.length (pc + front.length))
    (hrun : P.run front s = some s') (hactive : Active fr locals size s' w)
    (hx : stackOf F (takes F outside depth) locals.length w.stack.length ops = some x)
    (hle : x.2 ≤ base fr size) (hbelow : fr.top + 8 ≤ top) : o ≠ none := by
  induction h generalizing returns locals size ops fr w front s' x depth with
  | ret hcode hrun' hpop => exact Option.some_ne_none _
  | @stop pc s s₁ seg rest i hcode hrun' hroom =>
      obtain ⟨seg', i', rest', s₂, hcode', hseg', hi', hrun₂, hkind⟩ :=
        hrem.comes hP hfront hpre hrun hactive hx hle (by omega)
      obtain ⟨rfl, rfl⟩ := stop_outside (hcode.symm.trans hcode') (plain_of_run hrun') hi' hrun₂
        hrun' hroom
      rcases hkind with rfl | ⟨g, ops', ty, below, ls, js, callee, y, -, -, hactive₂, hcall,
        -, -, -, -, -, hkind⟩
      · exact absurd hroom (Nat.not_lt_zero _)
      · have hsp := (room_of_phase hactive₂.phase).2.2
        simp only at hsp
        have hroom8 : room i = 8 := by
          rcases hkind with ⟨d, l, -, -, rfl⟩ | rfl
          · rfl
          · rfl
        omega
  | @call pc k s s₁ s₂ s₃ seg rest l o hcode hrun' hk hpush hcallee _ _ ihrest =>
      obtain ⟨seg', i', rest', s₂', hcode', hseg', hi', hrun₂, hkind⟩ :=
        hrem.comes hP hfront hpre hrun hactive hx hle (by omega)
      obtain ⟨rfl, rfl, rfl⟩ :=
        segment_unique (hcode.symm.trans hcode') (plain_of_run hrun') hseg' rfl hi'
      cases hrun'.symm.trans hrun₂
      rcases hkind with hret | ⟨g, ops', ty, below, ls, js, callee, y, hcallable, -, hactive₂, -,
        hres, hy, hle', rfl, hrest, hkind⟩
      · cases hret
      · rcases hkind with ⟨d, l', hd, hl, hi'⟩ | hi'
        · cases hi'
          obtain ⟨ty', l', j, hty', hl', hj, -, -, hbody⟩ := hP.defined g d hd
          cases hl.symm.trans hl'
          cases hk.symm.trans hj
          obtain ⟨-, hsp₁, -⟩ := State.push_spec hpush
          have htop₁ := (room_of_phase hactive₂.phase).2
          simp only at htop₁
          have hkept := Restored.kept hpush (hcallee.restored hdisc henv hbody.accepts
            (inPhase_entry hpush) (show s₂.sp + 8 ≤ top by omega))
          obtain ⟨hexists, hactive₃⟩ := (hactive₂.kept (fun off hoff => (hrem.slots off hoff).1)
            hbelow hkept).returned (P := P) hcallable.two rfl
          obtain ⟨s₄, hs₄⟩ := hexists hres
          have hlen : ((resultsOf s₃ ty.returns.length).reverse ++ below).length =
              ty.returns.length + below.length := by
            rw [List.length_append, List.length_reverse, length_resultsOf hcallable.two]
          rw [← hlen] at hrest hy
          exact ihrest plain_pushes ⟨js, (drop_of_split hcode).2⟩ hrest hs₄ (hactive₃ s₄ hs₄).2 hy
            hle' hbelow
        · cases hi'
  | @callStop pc k s s₁ s₂ seg rest l hcode hrun' hk hpush _ ihcallee =>
      obtain ⟨seg', i', rest', s₂', hcode', hseg', hi', hrun₂, hkind⟩ :=
        hrem.comes hP hfront hpre hrun hactive hx hle (by omega)
      obtain ⟨rfl, rfl, rfl⟩ :=
        segment_unique (hcode.symm.trans hcode') (plain_of_run hrun') hseg' rfl hi'
      cases hrun'.symm.trans hrun₂
      rcases hkind with hret | ⟨g, ops', ty, below, ls, js, callee, y, hcallable, htake, hactive₂,
        hcall, -, -, -, -, -, hkind⟩
      · cases hret
      · rcases hkind with ⟨d, l', hd, hl, hi'⟩ | hi'
        · cases hi'
          obtain ⟨ty', l', j, hty', hl', hj, hlocals, hframe, hbody⟩ := hP.defined g d hd
          cases hcallable.declared.symm.trans hty'
          cases hl.symm.trans hl'
          cases hk.symm.trans hj
          obtain ⟨-, hsp₁, -⟩ := State.push_spec hpush
          have htop₁ := (room_of_phase hactive₂.phase).2
          simp only at htop₁
          cases depth with
          | zero =>
              rw [takes, hd] at htake
              cases htake
          | succ depth =>
              obtain ⟨bytes, hbytes, rfl⟩ := (takes_definition hcallable.declared hd).mp htake
              obtain ⟨before, js₂, hbefore, hplain, hrem₂, hexists, henter⟩ :=
                hbody.enter (inPhase_entry hpush)
              obtain ⟨s₃, hs₃⟩ := hexists (by omega)
              obtain ⟨hbase, hactive₃⟩ := henter s₃ hs₃
              rw [hlocals, Nat.add_zero] at hbytes
              exact ihcallee hplain ⟨js₂, hbefore⟩ hrem₂ hs₃ hactive₃
                (by rw [length_paramSlots]; exact hbytes) (by omega)
                (show s₂.sp + 8 ≤ top by omega)
        · cases hi'
  | @outside pc s s₁ s₂ s₃ seg rest r o hcode hrun' hpush hout _ ihrest =>
      obtain ⟨seg', i', rest', s₂', hcode', hseg', hi', hrun₂, hkind⟩ :=
        hrem.comes hP hfront hpre hrun hactive hx hle (by omega)
      obtain ⟨rfl, rfl, rfl⟩ :=
        segment_unique (hcode.symm.trans hcode') (plain_of_run hrun') hseg' rfl hi'
      cases hrun'.symm.trans hrun₂
      rcases hkind with hret | ⟨g, ops', ty, below, ls, js, callee, y, hcallable, -, hactive₂, -,
        hres, hy, hle', rfl, hrest, hkind⟩
      · cases hret
      · obtain ⟨hexists, hactive₃⟩ := (hactive₂.kept (fun off hoff => (hrem.slots off hoff).1)
          hbelow (henv.kept hpush hout)).returned (P := P) hcallable.two rfl
        obtain ⟨s₄, hs₄⟩ := hexists hres
        have hlen : ((resultsOf s₃ ty.returns.length).reverse ++ below).length =
            ty.returns.length + below.length := by
          rw [List.length_append, List.length_reverse, length_resultsOf hcallable.two]
        rw [← hlen] at hrest hy
        exact ihrest plain_pushes ⟨js, (drop_of_split hcode).2⟩ hrest hs₄ (hactive₃ s₄ hs₄).2 hy
          hle' hbelow

/-! ## How much stack compiled code takes -/

variable {R : ℕ → List Word → List Word → Prop}

/-- The code of a body does not stop where there is what the function takes. -/
theorem Compiled.eval_ne_none (h : Compiled V E ps σ) (henv : WellBehaved env top)
    (htop : top ≤ 2 ^ 64) (hbody : (bodies ps)[k]? = some body) {i : ℕ}
    (hi : StandsAt ps σ.toContext (σ.emittedProgram address word)
      ((functionImports ps).length + k) ty i)
    (hle : s.sp + 8 ≤ top)
    (hfits : Enough (functionsOf ps) outside ((functionImports ps).length + k) s.sp) :
    ¬ Eval (σ.emittedProgram address word) env i s none := by
  obtain ⟨ty', i', hi', hat⟩ := h.exists_bodyAt address word hbody
  obtain ⟨rfl, rfl⟩ := hi.unique hi'
  obtain ⟨depth, n, hn, hroom⟩ := hfits
  have hd := definition_of_body h.noAliases hbody hi.type
  have hnone := h.simple.noLocals body (List.mem_of_getElem? hbody)
  have hin : InPhase ⟨s.mem.load s.sp, s.regs .rbp, s.regs .rsp⟩ .entry s := ⟨rfl, rfl, rfl⟩
  cases depth with
  | zero =>
      rw [takes, hd] at hn
      cases hn
  | succ depth =>
      obtain ⟨bytes, hbytes, rfl⟩ := (takes_definition hi.type hd).mp hn
      simp only [hnone, Nat.add_zero] at hbytes hroom
      obtain ⟨before, js, hbefore, hplain, hrem, hexists, henter⟩ := hat.enter hin
      obtain ⟨s₁, hs₁⟩ := hexists (by omega)
      obtain ⟨hbase, hactive⟩ := henter s₁ hs₁
      rw [← length_paramSlots ty.params.length] at hbytes
      intro heval
      exact ne_none_of_eval (w := ⟨[], (argumentsOf s ty.params.length).reverse⟩)
        (h.implements address word) (h.disciplined address word).1 henv htop heval hplain
        ⟨js, hbefore⟩ hrem hs₁ hactive hbytes (show bytes ≤ _ by omega) hle rfl

/-- What emitted code returns, and when it does. -/
theorem Compiled.emitted_returns (h : Compiled V E ps σ)
    (hsep : (σ.emittedProgram address word).Separate) (henv : WellBehaved env top)
    (htop : top ≤ 2 ^ 64) (hI : Behaves ps σ.toContext word env top (bounded outside R))
    (hR : Total (functionsOf ps) outside R) (hk : k < (bodies ps).length) :
    ∃ ty i, StandsAt ps σ.toContext (σ.emittedProgram address word)
        ((functionImports ps).length + k) ty i ∧
      ReturnsAs (σ.emittedProgram address word) env top i ty fun n args results =>
        Enough (functionsOf ps) outside ((functionImports ps).length + k) n ∧
          Computes (functionsOf ps) convention R ((functionImports ps).length + k) args
            results := by
  obtain ⟨ty, i, -, hi, hreturns⟩ :=
    h.returnsAs hsep henv htop hI (List.getElem?_eq_getElem hk)
  exact ⟨ty, i, hi, fun s results hle =>
    (hreturns s results hle).trans (calls_bounded_iff convention_lengths hR)⟩

/-- What optimised code returns where there is what the function takes. -/
theorem Compiled.optimised_returns (h : Compiled V E ps σ)
    (hsep : (σ.emittedProgram address word).Separate)
    (hsep' : (σ.program address' word).Separate) (henv : WellBehaved env top)
    (hind : env.Indifferent (Set.range address ∪ Set.range address')) (htop : top ≤ 2 ^ 64)
    (hI : Behaves ps σ.toContext word env top (bounded outside R))
    (hR : Total (functionsOf ps) outside R) (hk : k < (bodies ps).length) :
    ∃ ty j, StandsAt ps σ.toContext (σ.program address' word)
        ((functionImports ps).length + k) ty j ∧
      ∀ (s : X86.State) (results : List Word), s.sp + 8 ≤ top →
        Enough (functionsOf ps) outside ((functionImports ps).length + k) s.sp →
        ((∃ t, Returns (σ.program address' word) env j s t ∧
            resultsOf t ty.returns.length = results) ↔
          Computes (functionsOf ps) convention R ((functionImports ps).length + k)
            (argumentsOf s ty.params.length) results) := by
  obtain ⟨ty, i, hi, hreturns⟩ := h.emitted_returns hsep henv htop hI hR hk
  obtain ⟨j, hj, hrefines⟩ := h.refines hsep hsep' henv hind hi
  refine ⟨ty, j, hj, fun s results hle hfits => ⟨?_, fun hcomputes => ?_⟩⟩
  · rintro ⟨t', ht', rfl⟩
    rcases (hrefines s hle).2 t' ht' with ⟨t, ht, hregs⟩ | hstop
    · exact ((hreturns s _ hle).mp ⟨t, ht, (resultsOf_congr hregs _).symm⟩).2
    · exact absurd hstop
        (h.eval_ne_none henv htop (List.getElem?_eq_getElem hk) hi hle hfits)
  · obtain ⟨t, ht, rfl⟩ := (hreturns s results hle).mpr ⟨hfits, hcomputes⟩
    obtain ⟨t', ht', hregs⟩ := (hrefines s hle).1 t ht
    exact ⟨t', ht', resultsOf_congr hregs _⟩

/-- **How much stack compiled code takes.**  What functions take is added up from
their operators alone.  As emitted, a call returns results exactly if there is as
much below `rsp` as its function takes and the function computes them, on a stack
without bounds; as optimised it returns then the same results and no others.

The need is exact from both sides: with a byte less there is no result.  `hR` says
that imports return something for every argument if they have the stack they take,
for a call would otherwise have enough and still not return. -/
theorem stack_need_exact (h : Compiled V E ps σ)
    (hsep : (σ.emittedProgram address word).Separate)
    (hsep' : (σ.program address' word).Separate) (henv : WellBehaved env top)
    (hind : env.Indifferent (Set.range address ∪ Set.range address')) (htop : top ≤ 2 ^ 64)
    (hI : Behaves ps σ.toContext word env top (bounded outside R))
    (hR : Total (functionsOf ps) outside R) (hk : k < (bodies ps).length) :
    ∃ ty i j,
      StandsAt ps σ.toContext (σ.emittedProgram address word)
        ((functionImports ps).length + k) ty i ∧
      StandsAt ps σ.toContext (σ.program address' word) ((functionImports ps).length + k) ty j ∧
      ∀ (s : X86.State) (results : List Word), s.sp + 8 ≤ top →
        ((∃ t, Returns (σ.emittedProgram address word) env i s t ∧
            resultsOf t ty.returns.length = results) ↔
          Enough (functionsOf ps) outside ((functionImports ps).length + k) s.sp ∧
            Computes (functionsOf ps) convention R ((functionImports ps).length + k)
              (argumentsOf s ty.params.length) results) ∧
        (Enough (functionsOf ps) outside ((functionImports ps).length + k) s.sp →
          ((∃ t, Returns (σ.program address' word) env j s t ∧
              resultsOf t ty.returns.length = results) ↔
            Computes (functionsOf ps) convention R ((functionImports ps).length + k)
              (argumentsOf s ty.params.length) results)) := by
  obtain ⟨ty, i, hi, hemitted⟩ := h.emitted_returns hsep henv htop hI hR hk
  obtain ⟨ty', j, hj, hoptimised⟩ := h.optimised_returns hsep hsep' henv hind htop hI hR hk
  cases hi.type.symm.trans hj.type
  exact ⟨ty, i, j, hi, hj, fun s results hle =>
    ⟨hemitted s results hle, hoptimised s results hle⟩⟩

/-- The function of `askingModule` takes 24 bytes: with these below `rsp` it returns
`6` for `5` as emitted and as optimised, and with 16 it does not return as emitted. -/
theorem stack_need_exact_instance :
    (∃ t, Returns emittedAskingProgram increments 3 ((State.ofStack 24 100 [0]).set .rdi 5) t ∧
      resultsOf t 1 = [6]) ∧
    (∃ t, Returns askingProgram increments 3 ((State.ofStack 24 100 [0]).set .rdi 5) t ∧
      resultsOf t 1 = [6]) ∧
    ¬ ∃ t, Returns emittedAskingProgram increments 3 ((State.ofStack 16 100 [0]).set .rdi 5) t ∧
      resultsOf t 1 = [6] := by
  obtain ⟨ty, i, j, hi, hj, hreturns⟩ := stack_need_exact askingModule_compiled
    askingModule_separate.1 askingModule_separate.2 (wellBehaved_increments _)
    (indifferent_increments _) (by decide) askingModule_behaves askingModule_total (k := 0)
    (by decide)
  rw [askingModule_emittedProgram] at hi hreturns
  rw [askingModule_program] at hj hreturns
  obtain ⟨rfl, hi'⟩ := askingModule_standsAt hi
  obtain ⟨-, hj'⟩ := askingModule_standsAt hj
  cases hi'
  cases hj'
  have hcomputes : Computes (functionsOf (Script.payloads askingModule)) convention incremented 1
      [5] [6] :=
    ⟨24, _, _, 8, _, rfl, rfl, rfl, by decide,
      askingModule_runs (m := 0) (Nat.le_refl 8) rfl ⟨5, rfl, rfl⟩, rfl, rfl⟩
  have henough : Enough (functionsOf (Script.payloads askingModule)) (fun _ => some 0) 1 24 :=
    ⟨1, 24, rfl, Nat.le_refl 24⟩
  obtain ⟨hemitted, hoptimised⟩ := hreturns ((State.ofStack 24 100 [0]).set .rdi 5) [6] (by decide)
  refine ⟨hemitted.mpr ⟨henough, hcomputes⟩, (hoptimised henough).mpr hcomputes, fun hless => ?_⟩
  obtain ⟨⟨depth, n, hn, hle⟩, -⟩ :=
    (hreturns ((State.ofStack 16 100 [0]).set .rdi 5) [6] (by decide)).1.mp hless
  have h24 : takes (functionsOf (Script.payloads askingModule)) (fun _ => some 0) (max depth 1) 1 =
      some 24 := takes_mono (Nat.le_max_right _ _) rfl
  cases (takes_mono (Nat.le_max_left depth 1) hn).symm.trans h24
  exact absurd hle (by decide)

/-! ## Recursion

Calls between functions and calls in code, and that the optimiser drops none of the
latter. -/

/-- The code of a call has its instruction. -/
theorem exists_call_handleInstruction {c : List Instr} {g : ℕ} (hl : ctx.got[g]? = some l)
    (hc : handleInstruction ctx locals (.call g) = .ok c) : .callLabel l ∈ c := by
  simp only [handleInstruction, Outcome.bind_eq_ok, Outcome.pure_eq_ok, Outcome.ok.injEq] at hc
  obtain ⟨ty, -, order, -, args, -, results, -, rfl⟩ := hc
  rw [callCode, hl]
  simp

/-- No operator returns. -/
theorem ret_not_mem_handleInstruction {c : List Instr} {op : Operator}
    (hc : handleInstruction ctx locals op = .ok c) : .ret ∉ c := by
  by_cases hop : ∃ g, op = .call g
  · obtain ⟨g, rfl⟩ := hop
    intro hret
    rcases mem_call hc hret with ⟨r, h⟩ | h | ⟨r, h⟩
    · cases h
    · rw [callCode] at h
      split at h
      · split at h
        · simp at h
        · cases h
      · simp at h
    · cases h
  · exact ret_not_mem (plain_handleInstruction (fun g hg => hop ⟨g, hg⟩) hc)

/-- So has that of a sequence with a call in it. -/
theorem exists_call_handleInstructions {g : ℕ} (hl : ctx.got[g]? = some l)
    (hg : .call g ∈ ops) (hc : handleInstructions ctx locals ops = .ok code) :
    .callLabel l ∈ code := by
  induction ops generalizing code with
  | nil => cases hg
  | cons op ops ih =>
      obtain ⟨c, r, hone, hrest, rfl⟩ := handleInstructions_cons.mp hc
      rcases List.mem_cons.mp hg with rfl | hg
      · exact List.mem_append_left _ (exists_call_handleInstruction hl hone)
      · exact List.mem_append_right _ (ih hg hrest)

/-- Nor does a sequence. -/
theorem ret_not_mem_handleInstructions (hc : handleInstructions ctx locals ops = .ok code) :
    .ret ∉ code := by
  induction ops generalizing code with
  | nil =>
      cases hc
      exact List.not_mem_nil
  | cons op ops ih =>
      obtain ⟨c, r, hone, hrest, rfl⟩ := handleInstructions_cons.mp hc
      exact fun hret => (List.mem_append.mp hret).elim (ret_not_mem_handleInstruction hone)
        (ih hrest)

/-- The optimiser adds no `ret`. -/
theorem ret_of_optimized {is : List Instr} (h : .ret ∈ optimized is) : .ret ∈ is := by
  have hpass := optimized_induction (p := fun js => .ret ∈ js → .ret ∈ is) (fun js ih hret => by
    rcases (rewrites_pass js).mem hret with hmem | ⟨a, b, hmov⟩
    · exact ih hmem
    · cases hmov) id
  exact hpass h

/-- A call that is not behind a `ret` is still there after optimisation. -/
theorem exists_optimized_callLabel (X Y : List Instr) (l : Label) (hret : .ret ∉ X) :
    ∃ X', optimized (X ++ .callLabel l :: Y) = X' ++ .callLabel l :: optimized Y ∧ .ret ∉ X' := by
  have hstops : Stops (X ++ [.callLabel l]) := stops_concat rfl
  have hlast : (optimized (X ++ [.callLabel l])).getLast? = some (.callLabel l) := by
    rw [optimized_getLast? hstops, List.getLast?_append]
    rfl
  obtain ⟨X', hX'⟩ := List.getLast?_eq_some_iff.mp hlast
  refine ⟨X', ?_, fun hmem => ?_⟩
  · rw [List.append_cons, optimized_append _ hstops, hX', List.append_assoc]
    rfl
  · have hmem' : .ret ∈ X ++ [.callLabel l] := by
      refine ret_of_optimized ?_
      rw [hX']
      exact List.mem_append_left _ hmem
    rcases List.mem_append.mp hmem' with h | h
    · exact hret h
    · cases List.mem_singleton.mp h

/-- The code of a body comes to the calls of its operators. -/
theorem exists_callLabel_of_compileBody {φ : V.FuncSt} {out : List Instr × ℕ} {g : ℕ}
    (hp : AllI64 ty.params) (hcode : compileBody V ctx ty φ body = .ok out)
    (hg : .call g ∈ body.operators.items) (hl : ctx.got[g]? = some l) :
    ∃ X Y, out.1 = X ++ .callLabel l :: Y ∧ .ret ∉ X := by
  obtain ⟨order, t, before, ops, after, horder, ht, hbefore, hops, -, hout⟩ :=
    compileBody_eq_ok hcode
  have hentry : entryCode ty body.locals.items = .ok (t, before) := by
    rw [entryCode, horder, Outcome.ok_bind, ht, Outcome.ok_bind, hbefore]
    rfl
  obtain ⟨X, Y, rfl⟩ := List.append_of_mem (exists_call_handleInstructions hl hg hops)
  refine ⟨before ++ X, Y ++ after, ?_, fun hret => ?_⟩
  · rw [hout]
    simp only [List.append_assoc, List.cons_append]
  · rcases List.mem_append.mp hret with h | h
    · exact ret_not_mem (plain_entryCode hp hentry) h
    · exact ret_not_mem_handleInstructions hops (List.mem_append_left _ h)

/-- A function stands at an index of a program. -/
def At (ctx : Context) (P : Program) (f i : ℕ) : Prop :=
  ∃ l, ctx.got[f]? = some l ∧ P.target l = some i

/-- In both programs the code of a function comes to the calls that stand in its
body. -/
theorem Compiled.calledFrom (h : Compiled V E ps σ) (address address' : ℕ → Word)
    (word : Label → Word) {f g : ℕ} {d d' : Definition}
    (hd : (functionsOf ps).definition f = some d) (hg : .call g ∈ d.operators)
    (hd' : (functionsOf ps).definition g = some d') :
    (∃ i i', At σ.toContext (σ.emittedProgram address word) f i ∧
        At σ.toContext (σ.emittedProgram address word) g i' ∧
        CalledFrom (σ.emittedProgram address word) i' i) ∧
      ∃ j j', At σ.toContext (σ.program address' word) f j ∧
        At σ.toContext (σ.program address' word) g j' ∧
        CalledFrom (σ.program address' word) j' j := by
  obtain ⟨its, hread, hcomp⟩ := h.exists_items
  obtain ⟨k, body, ty, rfl, hbody, hty, rfl⟩ := exists_body_of_definition h.noAliases hd
  obtain ⟨k', body', ty', rfl, hbody', hty', rfl⟩ := exists_body_of_definition h.noAliases hd'
  obtain ⟨hk, -⟩ := List.getElem?_eq_some_iff.mp hbody
  obtain ⟨⟨f, l, code⟩, hget⟩ : ∃ x, (its.filterMap Item.body?)[k]? = some x :=
    ⟨_, List.getElem?_eq_getElem (hread.length_bodies ▸ hk)⟩
  obtain ⟨rfl, hl, body₁, ty₁, φ, height, hbody₁, hty₁, hcode⟩ := hcomp k f l code hget
  cases hbody.symm.trans hbody₁
  cases (h.simple.resolved.called _ ty hty).symm.trans hty₁
  obtain ⟨i, j, rest, rest', hi, hj, hdrop, hdrop'⟩ :=
    hread.exists_targets hcomp address address' word (mem_of_body? hget)
  obtain ⟨hk', -⟩ := List.getElem?_eq_some_iff.mp hbody'
  obtain ⟨l', -, hl', -⟩ := hread.exists_target hcomp address word hk'
  obtain ⟨i', j', hi', hj', -⟩ :=
    h.simple.exists_faithful h.valid hread hcomp address address' word hl'
  have hp := (h.simple.callable h.valid.ordered h.noAliases hty).params
  obtain ⟨X, Y, hsplit, hret⟩ := exists_callLabel_of_compileBody hp hcode hg hl'
  obtain rfl : code = X ++ .callLabel l' :: Y := hsplit
  obtain ⟨X', hX', hret'⟩ := exists_optimized_callLabel X Y l' hret
  refine ⟨⟨i, i', ⟨l, hl, hi⟩, ⟨l', hl', hi'⟩, l', ⟨X, Y ++ rest, ?_, hret⟩, hi'⟩,
    ⟨j, j', ⟨l, hl, hj⟩, ⟨l', hl', hj'⟩, l', ⟨X', optimized Y ++ rest', ?_, hret'⟩, hj'⟩⟩
  · rw [hdrop, List.append_assoc, List.cons_append]
  · rw [hdrop', hX', List.append_assoc, List.cons_append]

/-- What is well-founded in the code is so among the functions. -/
theorem acc_calledBy (hcalls : ∀ f g d d', F.definition f = some d → .call g ∈ d.operators →
      F.definition g = some d' → ∃ i i', At ctx P f i ∧ At ctx P g i' ∧ CalledFrom P i' i)
    {i : ℕ} (hacc : Acc (CalledFrom P) i) (hi : At ctx P f i) : Acc (CalledBy F) f := by
  induction hacc generalizing f with
  | intro i _ ih =>
      refine ⟨f, ?_⟩
      rintro g ⟨d, hd, hg⟩
      cases hd' : F.definition g with
      | none =>
          refine ⟨g, ?_⟩
          rintro g' ⟨d', hd'', -⟩
          rw [hd'] at hd''
          cases hd''
      | some d' =>
          obtain ⟨i₁, i', ⟨l, hl, hi₁⟩, hat', hcall⟩ := hcalls f g d d' hd hg hd'
          obtain ⟨l₁, hl₁, hi⟩ := hi
          cases hl.symm.trans hl₁
          cases hi.symm.trans hi₁
          exact ih i' hcall hat'

/-- **Recursion never returns, and nothing else fails to**: a call returns, as
emitted or as optimised, only if no calls lead from its function to itself or on
without end, whatever well-behaved imports do.  Where none do, and only there, what
the function takes of the stack is a number; and with that much below `rsp` it
returns, whatever the arguments.

There is no conditional and no loop in what is compiled, so a call in a body is a
call in every run of it.  The first part asks of imports only that they are
well-behaved.  For the second they have to take a number of bytes and to return, and
the need of a function is then a sum over what its calls lead to. -/
theorem recursion_never_returns (h : Compiled V E ps σ)
    (hsep : (σ.emittedProgram address word).Separate)
    (hsep' : (σ.program address' word).Separate) (henv : WellBehaved env top)
    (hind : env.Indifferent (Set.range address ∪ Set.range address'))
    (hk : k < (bodies ps).length) :
    ∃ ty i j,
      StandsAt ps σ.toContext (σ.emittedProgram address word)
        ((functionImports ps).length + k) ty i ∧
      StandsAt ps σ.toContext (σ.program address' word) ((functionImports ps).length + k) ty j ∧
      (∀ s t, s.sp + 8 ≤ top → (Returns (σ.emittedProgram address word) env i s t ∨
          Returns (σ.program address' word) env j s t) →
        Acc (CalledBy (functionsOf ps)) ((functionImports ps).length + k)) ∧
      ∀ outside : ℕ → Option ℕ,
        (∀ f ty, (functionsOf ps).type f = some ty → (functionsOf ps).definition f = none →
          ∃ n, outside f = some n) →
        (Acc (CalledBy (functionsOf ps)) ((functionImports ps).length + k) ↔
          ∃ depth n, takes (functionsOf ps) outside depth ((functionImports ps).length + k) =
            some n) ∧
        ∀ R, top ≤ 2 ^ 64 → Behaves ps σ.toContext word env top (bounded outside R) →
          Total (functionsOf ps) outside R →
          ∀ depth n, takes (functionsOf ps) outside depth ((functionImports ps).length + k) =
              some n →
            ∀ s : X86.State, n ≤ s.sp → s.sp + 8 ≤ top →
              (∃ t, Returns (σ.emittedProgram address word) env i s t) ∧
                ∃ t, Returns (σ.program address' word) env j s t := by
  obtain ⟨ty, i, hi, -⟩ := h.exists_bodyAt address word (List.getElem?_eq_getElem hk)
  obtain ⟨j, hj, hrefines⟩ := h.refines hsep hsep' henv hind hi
  obtain ⟨g, hg, hi'⟩ := hi.label
  obtain ⟨g', hg', hj'⟩ := hj.label
  cases hg.symm.trans hg'
  obtain ⟨i₁, j₁, hi₁, hj₁, hacc, hacc', -⟩ := h.exists_faithful address address' word hg
  cases hi'.symm.trans hi₁
  cases hj'.symm.trans hj₁
  have hset := h.setting henv hind word
  refine ⟨ty, i, j, hi, hj, ?_, fun outside hout => ⟨⟨fun hacc => ?_, ?_⟩, ?_⟩⟩
  · rintro s t hle (ht | ht)
    · have heval := ht.eval hset.disciplined hsep henv hacc hle
      exact acc_calledBy (fun f g d d' hd hg hd' =>
        (h.calledFrom address address' word hd hg hd').1) heval.acc_entry ⟨g, hg, hi'⟩
    · have heval := ht.eval hset.disciplined' hsep' henv hacc' hle
      exact acc_calledBy (fun f g d d' hd hg hd' =>
        (h.calledFrom address address' word hd hg hd').2) heval.acc_entry ⟨g, hg, hj'⟩
  · exact exists_takes_of_acc h.wellFormed hout hacc hi.type
  · rintro ⟨depth, n, hn⟩
    exact acc_of_takes hn
  · intro R htop hI hR depth n hn s hroom hle
    obtain ⟨ty', i', hsix, hi', hreturns⟩ :=
      h.returnsAs hsep henv htop hI (List.getElem?_eq_getElem hk)
    obtain ⟨rfl, rfl⟩ := hi.unique hi'
    have hd := definition_of_body h.noAliases (List.getElem?_eq_getElem hk) hi.type
    obtain ⟨results, hcalls⟩ := suffices_takes convention_lengths hR.exactlyTakes depth _ _ _
      (argumentsOf s ty.params.length) s.sp n hi.type hd (length_argumentsOf hsix) hn hroom
    obtain ⟨t, ht, -⟩ := (hreturns s results hle).mpr hcalls
    obtain ⟨t', ht', -⟩ := (hrefines s hle).1 t ht
    exact ⟨⟨t, ht⟩, t', ht'⟩

/-- A function that calls itself. -/
def recursiveModule : Script :=
  [(preamble, .version 1),
    ([0x01, 0x04, 0x01, 0x60, 0x00, 0x00], .typeSection ⟨[.func ⟨[], []⟩], none⟩),
    ([0x03, 0x02, 0x01, 0x00], .functionSection ⟨[0], none⟩),
    ([0x0a, 0x06, 0x01], .codeSectionStart 1),
    ([0x04, 0x00, 0x10, 0x00, 0x0b], .codeSectionEntry ⟨⟨[], none⟩, ⟨[.call 0, .end], none⟩⟩)]

/-- Its program, in which there is nothing to optimise. -/
def recursiveProgram : Program :=
  programOf [.dq 0, .push .rbp, .mov .rbp .rsp, .callLabel 2, .mov .rsp .rbp, .pop .rbp, .ret]
    [(0, 1), (1, 2)] (BitVec.ofNat 64) fun _ => 0

/-- This is what `compile` makes of it, before and after the optimiser. -/
theorem recursiveModule_program :
    (Script.compiling recursiveModule).emittedProgram (BitVec.ofNat 64) (fun _ => 0) =
        recursiveProgram ∧
      (Script.compiling recursiveModule).program (BitVec.ofNat 64) (fun _ => 0) =
        recursiveProgram := by
  have h : (Script.compiling recursiveModule).instructions = recursiveProgram.code ∧
      (Script.compiling recursiveModule).labelIndices = [(0, 1), (1, 2)] := by
    decide +kernel
  have h' : optimize (Script.compiling recursiveModule).instructions
      (Script.compiling recursiveModule).labelIndices =
        (recursiveProgram.code, [(0, 1), (1, 2)]) := by
    decide +kernel
  rw [Compiling.emittedProgram, Compiling.program, h', h.1, h.2]
  exact ⟨rfl, rfl⟩

/-- It is compiled, and all conditions are met. -/
theorem recursiveModule_compiled : Compiled Validator.reference Encoder.reference
    (Script.payloads recursiveModule) (Script.compiling recursiveModule) where
  sound := Validator.reference_sound
  flat := of_decide_eq_true rfl
  compiled := rfl
  simple := ⟨⟨of_decide_eq_true rfl, of_decide_eq_true rfl, of_decide_eq_true rfl⟩,
    of_decide_eq_true rfl, of_decide_eq_true rfl, by decide +kernel⟩
  noAliases := of_decide_eq_true rfl

/-- The function of `recursiveModule` does not return, however much stack there is; the
function of `askingModule` does, with 24 bytes below `rsp`, whatever it is called
with. -/
theorem recursion_never_returns_instance :
    (∀ s t : X86.State, s.sp + 8 ≤ 2 ^ 32 → ¬ Returns recursiveProgram increments 1 s t) ∧
    ∀ s : X86.State, 24 ≤ s.sp → s.sp + 8 ≤ 2 ^ 32 →
      (∃ t, Returns emittedAskingProgram increments 3 s t) ∧
        ∃ t, Returns askingProgram increments 3 s t := by
  constructor
  · have hsep : recursiveProgram.Separate := separate_ofNat (by decide)
    obtain ⟨ty, i, j, hi, -, hacc, -⟩ := recursion_never_returns recursiveModule_compiled
      (recursiveModule_program.1 ▸ hsep) (recursiveModule_program.2 ▸ hsep)
      (wellBehaved_increments (2 ^ 32)) (indifferent_increments _) (k := 0) (by decide)
    obtain ⟨g, hg, hi⟩ := hi.label
    have hg' : (Script.compiling recursiveModule).got[0]? = some 2 := by decide +kernel
    obtain rfl : g = 2 := Option.some.inj (hg.symm.trans hg')
    rw [recursiveModule_program.1] at hi hacc
    cases hi
    intro s t hle ht
    have hself : CalledBy (functionsOf (Script.payloads recursiveModule)) 0 0 :=
      ⟨_, rfl, List.mem_cons_self⟩
    exact not_acc_iff_exists_descending_chain.mpr ⟨fun _ => 0, rfl, fun _ => hself⟩
      (hacc s t hle (.inl ht))
  · obtain ⟨ty, i, j, hi, hj, -, hreturns⟩ := recursion_never_returns askingModule_compiled
      askingModule_separate.1 askingModule_separate.2 (wellBehaved_increments (2 ^ 32))
      (indifferent_increments _) (k := 0) (by decide)
    rw [askingModule_emittedProgram] at hi hreturns
    rw [askingModule_program] at hj hreturns
    obtain ⟨rfl, hi'⟩ := askingModule_standsAt hi
    obtain ⟨-, hj'⟩ := askingModule_standsAt hj
    cases hi'
    cases hj'
    exact (hreturns (fun _ => some 0) fun _ _ _ _ => ⟨0, rfl⟩).2 incremented (by decide)
      askingModule_behaves askingModule_total 1 24 rfl

end ParaOS.Parawasm
