import ParaOS.Parawasm.CallConvention
import ParaOS.Parawasm.OperandStack
import ParaOS.Parawasm.StackHeight
import ParaOS.Wasm.Calls
import ParaOS.X86.Evaluation

/-!
# What an activation does

The code of a body, piece by piece: the prologue, the operators, the moving of
arguments and results around a call, and the epilogue.  An activation is `Active`
for a WebAssembly state if its operands are the words from `rsp` to the end of its
frame and its locals are in their slots.  Each piece takes it from there to where
the operator goes, as the `convention` of the emitted code has it: differences are
taken the other way round, and arguments and results come in reverse.

There is nothing more to say of the room a piece needs than that the activation is
in its frame when it is through (`room_of_run`).

### What is load-bearing

`Active` has two halves.  One is the simulation of `ParaOS.Parawasm.OperandStack`,
the other the phase of `ParaOS.X86.Frame`; they agree on where `rsp` is, and each
has what the other lacks, the values of operands and the words above the frame.  A
call needs both: `Kept` says that memory above is as it was, and that operands and
locals are above.

Params are the only locals.  A declared local shares a slot with a param, so that
`SlotsAbove` fails, and it starts with whatever was left there; functions with
declared locals are for `ParaOS.Parawasm.Isolation`.
-/

namespace ParaOS.Parawasm

open Machine X86 Wasm

/-- How emitted code passes values: differences are taken of the top and the operand
below it, arguments and results come in reverse.  At most six arguments and two
results are passed, and this is not for the convention to say. -/
def convention : Convention := ⟨fun a b => b - a, List.reverse, List.reverse⟩

/-- One operator by that convention is what the emitted code does. -/
theorem convention_step (op : Operator) (w : Wasm.State) :
    convention.step op w = emittedStep op w := by
  unfold Convention.step emittedStep
  cases op with
  | i64Sub =>
      obtain ⟨st, ls⟩ := w
      cases st with
      | nil => rfl
      | cons b st =>
          cases st with
          | nil => rfl
          | cons a st => rfl
  | _ => rfl

/-- The first arguments, as they are passed. -/
def argumentsOf (s : X86.State) (n : ℕ) : List Word := (integerOrder.take n).map s.regs

/-- The first results, as they are passed. -/
def resultsOf (s : X86.State) (n : ℕ) : List Word := (returnOrder.take n).map s.regs

variable {P : Program} {env : Env} {ctx : Context} {f : Frame} {locals : List ℕ}
  {size n n' : ℕ} {s s' : X86.State} {w w' : Wasm.State} {st ls : List Word} {op : Operator}
  {code : List Instr} {ty : FuncType}

/-- As many as there are registers for, -/
@[simp] theorem length_argumentsOf (hn : n ≤ 6) : (argumentsOf s n).length = n := by
  rw [argumentsOf, List.length_map, length_take_integerOrder hn]

/-- and the same of results. -/
@[simp] theorem length_resultsOf (hn : n ≤ 2) : (resultsOf s n).length = n := by
  rw [resultsOf, List.length_map, length_take_returnOrder, min_eq_left hn]

/-! ## Activations

An activation is entered with its arguments in registers and left with its results
there.  In between it is `Active`. -/

/-- Where the operands of an activation end. -/
def base (f : Frame) (size : ℕ) : ℕ := f.top - (size + 8)

/-- An activation with a frame of so many bytes for its locals, in a WebAssembly
state. -/
structure Active (f : Frame) (locals : List ℕ) (size : ℕ) (s : X86.State) (w : Wasm.State) :
    Prop where
  sim : Sim locals (base f size) s w
  phase : InPhase f (.framed size w.stack.length) s

/-- Whoever is in a frame has room for it. -/
theorem room_of_phase (h : InPhase f (.framed size n) s) :
    8 * n ≤ base f size ∧ base f size + (size + 8) = f.top ∧ s.sp + 8 * n = base f size := by
  have htop := h.2.2.2
  simp only [base]
  omega

/-- Code that has been run through had room for what it leaves. -/
theorem room_of_run {p : Phase} {is : List Instr}
    (hp : advances p is = some (.framed size n)) (h : InPhase f p s)
    (hrun : P.run is s = some s') : 8 * n ≤ base f size ∧ base f size + (size + 8) = f.top :=
  ⟨(room_of_phase (inPhase_run hp h hrun).1).1, (room_of_phase (inPhase_run hp h hrun).1).2.1⟩

/-- What code that simulates does, it does in phase. -/
theorem Active.of_exec {p : Phase} {is : List Instr} (hp : advances p is = some (.framed size n))
    (h : InPhase f p s) (hn : w.stack.length = n) (hexec : execList is s = some s')
    (hsim : Sim locals (base f size) s' w) : P.run is s = some s' ∧ Active f locals size s' w := by
  have hrun := Program.run_of_execList (P := P) hexec
  refine ⟨hrun, hsim, ?_⟩
  rw [hn]
  exact (inPhase_run hp h hrun).1

/-- **One operator that is not a call.** -/
theorem Active.operator (hlocals : ∀ off ∈ locals, off ≤ size) (hop : ∀ g, op ≠ .call g)
    (hcode : handleInstruction ctx locals op = .ok code)
    (hn : operandDepth ctx locals w.stack.length op = some n') (h : Active f locals size s w) :
    ∃ w', convention.step op w = some w' ∧ w'.stack.length = n' ∧
      advances (.framed size w.stack.length) code = some (.framed size n') ∧
      (8 * n' ≤ base f size → ∃ s', P.run code s = some s' ∧ Active f locals size s' w') := by
  have hadv := advances_handleInstruction hlocals hcode hn
  have hexists : ∃ w', emittedStep op w = some w' ∧ w'.stack.length = n' := by
    obtain ⟨st, ls⟩ := w
    have hlen := h.sim.rep.length
    have htwo : (if 2 ≤ st.length then some (st.length - 1) else none) = some n' →
        ∃ b a st', st = b :: a :: st' ∧ st'.length + 1 = n' := by
      intro hif
      rw [Option.ite_none_right_eq_some, Option.some.injEq] at hif
      obtain ⟨hle, rfl⟩ := hif
      cases st with
      | nil => simp at hle
      | cons b st =>
          cases st with
          | nil => simp at hle
          | cons a st' => exact ⟨b, a, st', rfl, rfl⟩
    cases op with
    | i64Const v =>
        cases hn
        exact ⟨_, rfl, rfl⟩
    | i64Add =>
        obtain ⟨b, a, st', rfl, rfl⟩ := htwo hn
        exact ⟨_, rfl, rfl⟩
    | i64Sub =>
        obtain ⟨b, a, st', rfl, rfl⟩ := htwo hn
        exact ⟨_, rfl, rfl⟩
    | localGet i =>
        cases hn
        rw [handleInstruction] at hcode
        cases hoff : locals[i]? with
        | none =>
            rw [hoff] at hcode
            cases hcode
        | some off =>
            obtain ⟨hi, -⟩ := List.getElem?_eq_some_iff.mp hoff
            have hlt : i < ls.length := by
              simp only at hlen
              omega
            obtain ⟨v, hv⟩ : ∃ v, ls[i]? = some v := ⟨_, List.getElem?_eq_getElem hlt⟩
            exact ⟨⟨v :: st, ls⟩, Option.map_eq_some_iff.mpr ⟨v, hv, rfl⟩, rfl⟩
    | localSet i =>
        rw [operandDepth, Option.ite_none_right_eq_some, Option.some.injEq] at hn
        obtain ⟨⟨hle, -⟩, rfl⟩ := hn
        rw [handleInstruction] at hcode
        cases hoff : locals[i]? with
        | none =>
            rw [hoff] at hcode
            cases hcode
        | some off =>
            obtain ⟨hi, -⟩ := List.getElem?_eq_some_iff.mp hoff
            cases st with
            | nil => simp at hle
            | cons v st =>
                refine ⟨⟨st, ls.set i v⟩, if_pos ?_, rfl⟩
                simp only at hlen
                omega
    | nop =>
        cases hn
        exact ⟨_, rfl, rfl⟩
    | «end» =>
        cases hn
        exact ⟨_, rfl, rfl⟩
    | call g => exact absurd rfl (hop g)
    | i32Add => cases hn
    | i32Sub => cases hn
    | unimplemented c => cases hn
  obtain ⟨w', hstep, hlen⟩ := hexists
  refine ⟨w', by rw [convention_step, hstep], hlen, hadv, fun hroom => ?_⟩
  obtain ⟨code', s', hcode', hexec, hsim⟩ :=
    sim_emittedStep ctx h.sim hstep (by rw [hlen]; exact hroom)
  cases hcode.symm.trans hcode'
  exact ⟨s', Active.of_exec hadv h.phase hlen hexec hsim⟩

/-! ## Around a call

Arguments are taken off the operands before a call and results put on behind it.
What the callee does in between is `Kept`, and what it returns is for the caller of
these lemmas to know. -/

/-- A general register is not one of the pointers. -/
theorem general_ne {r : Reg} (h : r.general = true) : r ≠ .rsp ∧ r ≠ .rbp := Reg.general_iff.mp h

/-- Pops take operands off. -/
theorem Sim.pops {base : ℕ} {rs : List Reg} {ws : List Word} (hnd : rs.Nodup)
    (hrs : ∀ r ∈ rs, r.general = true) (hlen : rs.length = ws.length)
    (h : Sim locals base s ⟨ws ++ st, ls⟩) :
    ∃ s', execList (rs.map .pop) s = some s' ∧ Sim locals base s' ⟨st, ls⟩ ∧
      rs.map s'.regs = ws ∧ ∀ q, q ≠ Reg.rsp → q ∉ rs → s'.regs q = s.regs q := by
  induction rs generalizing s ws with
  | nil =>
      obtain rfl := List.length_eq_zero_iff.mp hlen.symm
      exact ⟨s, rfl, h, rfl, fun _ _ _ => rfl⟩
  | cons r rs ih =>
      cases ws with
      | nil => simp at hlen
      | cons v ws =>
          rw [List.nodup_cons] at hnd
          rw [List.forall_mem_cons] at hrs
          obtain ⟨hsp, hbp⟩ := general_ne hrs.1
          obtain ⟨s₁, h₁, hsim₁, hr₁, hregs₁⟩ := h.pop hsp hbp
          obtain ⟨s', h', hsim', hrs', hregs'⟩ :=
            ih hnd.2 hrs.2 (by simpa using hlen) hsim₁
          refine ⟨s', by simp [execList_cons, h₁, h'], hsim', ?_, fun q hq hqrs => ?_⟩
          · rw [List.map_cons, hrs', hregs' r hsp hnd.1, hr₁]
          · rw [List.mem_cons, not_or] at hqrs
            rw [hregs' q hq hqrs.2, hregs₁ q hq hqrs.1]

/-- Pushes put operands on, the last of them on top. -/
theorem Sim.pushes {base : ℕ} {rs : List Reg} (hrs : ∀ r ∈ rs, r.general = true)
    (hroom : 8 * (rs.length + st.length) ≤ base) (h : Sim locals base s ⟨st, ls⟩) :
    ∃ s', execList (rs.map .push) s = some s' ∧
      Sim locals base s' ⟨(rs.map s.regs).reverse ++ st, ls⟩ := by
  induction rs generalizing s st with
  | nil => exact ⟨s, rfl, h⟩
  | cons r rs ih =>
      rw [List.forall_mem_cons] at hrs
      rw [List.length_cons] at hroom
      have htop := h.top
      simp only at htop
      obtain ⟨s₁, h₁, hsim₁⟩ := h.push r (by omega)
      obtain ⟨s', h', hsim'⟩ := ih hrs.2 (by rw [List.length_cons]; omega) hsim₁
      obtain ⟨s₂, h₂, -, -, hregs⟩ := exec_push (s := s) r (by omega)
      cases h₁.symm.trans h₂
      have heq : rs.map s₁.regs = rs.map s.regs :=
        List.map_congr_left fun q hq => hregs q (general_ne (hrs.2 q hq)).1
      refine ⟨s', by simp [execList_cons, h₁, h'], ?_⟩
      rw [heq] at hsim'
      simpa using hsim'

/-- **The arguments of a call** are taken off and passed. -/
theorem Active.arguments {args rest : List Word} (hn : ty.params.length ≤ 6)
    (hlen : args.length = ty.params.length)
    (h : Active f locals size s ⟨args.reverse ++ rest, ls⟩) :
    ∃ s', P.run ((integerOrder.take ty.params.length).reverse.map .pop) s = some s' ∧
      Active f locals size s' ⟨rest, ls⟩ ∧ argumentsOf s' ty.params.length = args := by
  have hgen : ∀ r ∈ (integerOrder.take ty.params.length).reverse, r.general = true :=
    fun r hr => general_of_mem_integerOrder (List.mem_of_mem_take (List.mem_reverse.mp hr))
  have hrs : (integerOrder.take ty.params.length).reverse.length = args.reverse.length := by
    rw [List.length_reverse, length_take_integerOrder hn, List.length_reverse, hlen]
  obtain ⟨s', hexec, hsim, hregs, -⟩ := Sim.pops (nodup_integerOrder_take _) hgen hrs h.sim
  have hadv := advances_pops (a := size) (n := rest.length) hgen
  have hphase := h.phase
  rw [List.length_append, ← hrs] at hphase
  obtain ⟨hrun, hactive⟩ := Active.of_exec (P := P) hadv hphase rfl hexec hsim
  refine ⟨s', hrun, hactive, ?_⟩
  rw [List.map_reverse, List.reverse_inj] at hregs
  exact hregs

/-- **The results of a call** are put on. -/
theorem Active.results (htwo : n ≤ 2) (hroom : 8 * (n + st.length) ≤ base f size)
    (h : Active f locals size s ⟨st, ls⟩) :
    ∃ s', P.run ((returnOrder.take n).map .push) s = some s' ∧
      Active f locals size s' ⟨(resultsOf s n).reverse ++ st, ls⟩ := by
  have hgen : ∀ r ∈ returnOrder.take n, r.general = true :=
    fun r hr => general_of_mem_returnOrder (List.mem_of_mem_take hr)
  have hlen : (returnOrder.take n).length = n := by
    rw [length_take_returnOrder, min_eq_left htwo]
  obtain ⟨s', hexec, hsim⟩ := Sim.pushes hgen (by rw [hlen]; exact hroom) h.sim
  have hadv := advances_pushes (a := size) (n := st.length) hgen
  refine ⟨s', Active.of_exec hadv h.phase ?_ hexec hsim⟩
  rw [List.length_append, List.length_reverse, length_resultsOf htwo, hlen, Nat.add_comm]

/-- The pushes of results, in phase. -/
theorem advances_results (htwo : n ≤ 2) (m : ℕ) :
    advances (.framed size m) ((returnOrder.take n).map .push) = some (.framed size (n + m)) := by
  have hgen : ∀ r ∈ returnOrder.take n, r.general = true :=
    fun r hr => general_of_mem_returnOrder (List.mem_of_mem_take hr)
  have hlen : (returnOrder.take n).length = n := by
    rw [length_take_returnOrder, min_eq_left htwo]
  rw [advances_pushes hgen, hlen, Nat.add_comm]

/-- A call that has returned leaves the caller in its state. -/
theorem Active.kept {top : ℕ} (hlocals : ∀ off ∈ locals, 8 ≤ off) (htop : f.top + 8 ≤ top)
    (hk : Kept top s s') (h : Active f locals size s w) : Active f locals size s' w := by
  have hbp := h.phase.2.2.1
  have hbase := h.sim.top
  have hslot : ∀ off, s'.slot off = s.slot off := fun off => by
    rw [State.slot, State.slot, hk.rbp]
  refine ⟨⟨⟨?_, h.sim.rep.length, fun i off v hi hv => ?_⟩, ?_, ?_⟩, hk.inPhase htop h.phase⟩
  · rw [hk.sp]
    refine h.sim.rep.stack.congr fun x hx hx' => (hk.mem x hx ?_).symm
    have := h.sim.frame.below
    omega
  · have hmem := List.mem_of_getElem? hi
    obtain ⟨hle, hin, -⟩ := h.sim.frame.inFrame off hmem
    have h8 := hlocals off hmem
    rw [hslot, ← h.sim.rep.slots i off v hi hv]
    rw [State.slot_eq hle]
    exact Mem.load_congr fun x hx hx' => hk.mem x (by omega) (by omega)
  · rw [hk.sp]
    exact hbase
  · rw [hk.bp]
    exact h.sim.frame

/-! ## Into a body and out of it

The prologue and the epilogue, with the registers on one side and the locals and
operands on the other. -/

/-- **The prologue** makes an activation with the arguments as its locals, in
reverse. -/
theorem active_prologue {groups : List (ℕ × Ty)} {t : LocalsTable} {before : List Instr}
    (hp : AllI64 ty.params) (h : entryCode ty groups = .ok (t, before))
    (hlocals : t.locals = paramSlots ty.params.length)
    (hadv : advances .entry before = some (.framed t.localsSize 0)) (hin : InPhase f .entry s)
    (hroom : 8 + t.localsSize ≤ s.sp) :
    ∃ s', P.run before s = some s' ∧
      Active f t.locals t.localsSize s' ⟨[], (argumentsOf s ty.params.length).reverse⟩ := by
  obtain ⟨s', hexec, hbp, hslots, -⟩ := exec_prologue hp h hroom
  obtain ⟨hn, -, hsize, -, -⟩ := entryCode_i64 hp h
  have hrun := Program.run_of_execList (P := P) hexec
  have hphase := (inPhase_run hadv hin hrun).1
  obtain ⟨-, htop, hsp⟩ := room_of_phase hphase
  have hbelow : base f t.localsSize + t.localsSize = s'.bp := by
    have := hphase.2.2.1
    omega
  have hbound := s'.bp_lt
  refine ⟨s', hrun, ⟨⟨trivial, ?_, fun i off v hi hv => ?_⟩, hsp, ⟨by omega, ?_, ?_⟩⟩, hphase⟩
  · rw [hlocals, length_paramSlots, List.length_reverse, argumentsOf, List.length_map,
      length_take_integerOrder hn]
  · have hget := congrArg (fun l => l[i]?) hslots
    simp only [List.getElem?_map] at hget
    rw [← hlocals, hi, ← List.getElem?_map, List.map_reverse] at hget
    have hv' : ((integerOrder.take ty.params.length).map s.regs).reverse[i]? = some v := hv
    rw [hv'] at hget
    exact Option.some.inj hget
  · intro off hoff
    rw [hlocals] at hoff
    have := mem_paramSlots hoff
    omega
  · rw [hlocals]
    exact pairwise_paramSlots _

/-- **The epilogue** returns the operands, the one on top first. -/
theorem Active.epilogue {returns : List Ty} {after : List Instr} (hr : AllI64 returns)
    (h : Parawasm.epilogue returns size = .ok after) (htwo : returns.length ≤ 2)
    (hlen : st.length = returns.length) (htop : f.top + 8 ≤ 2 ^ 64)
    (hactive : Active f locals size s ⟨st, ls⟩) :
    ∃ is s' v t, after = is ++ [.ret] ∧ P.run is s = some s' ∧ s'.pop = some (v, t) ∧
      resultsOf t returns.length = st := by
  obtain ⟨-, rfl⟩ := epilogue_i64 hr h
  have hgen : ∀ r ∈ returnOrder.take returns.length, r.general = true :=
    fun r hr => general_of_mem_returnOrder (List.mem_of_mem_take hr)
  have hnd : (returnOrder.take returns.length).Nodup :=
    List.Nodup.sublist (List.take_sublist _ _) (by decide)
  have hrs : (returnOrder.take returns.length).length = st.length := by
    rw [hlen, length_take_returnOrder, min_eq_left htwo]
  have hsim : Sim locals (base f size) s ⟨st ++ [], ls⟩ := by
    rw [List.append_nil]
    exact hactive.sim
  obtain ⟨s₁, h₁, -, hregs₁, hother₁⟩ := Sim.pops hnd hgen hrs hsim
  obtain ⟨s₂, h₂, -, hregs₂⟩ := exec_free size s₁
  have hbp : s₂.bp + 8 = f.top := by
    have hrbp : Reg.rbp ∉ returnOrder.take returns.length :=
      fun hmem => absurd (hgen _ hmem) (by decide)
    rw [State.bp, hregs₂ _ (by decide), hother₁ _ (by decide) hrbp]
    exact hactive.phase.2.2.1
  obtain ⟨s₃, h₃, hsp₃, -, hregs₃⟩ := exec_leave (s := s₂) (by have := f.top_lt; omega)
  refine ⟨(returnOrder.take returns.length).map .pop ++
    (if size = 0 then [] else [.addRsp size]) ++ [.mov .rsp .rbp, .pop .rbp], s₃, _, _, by simp,
    Program.run_of_execList ?_, State.pop_eq (by omega), ?_⟩
  · rw [execList_append, execList_append, h₁, Option.bind_some, h₂, Option.bind_some, h₃]
  · rw [resultsOf, ← hregs₁]
    refine List.map_congr_left fun q hq => ?_
    obtain ⟨hsp, hbp⟩ := general_ne (hgen q hq)
    rw [State.set_regs_of_ne _ _ hsp, hregs₃ q hsp hbp, hregs₂ q hsp]

end ParaOS.Parawasm
