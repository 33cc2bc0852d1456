import ParaOS.X86.Program

/-!
# Calls that return

`Eval P env pc s o` evaluates the code at `pc` up to the `ret` that belongs to
it: stretches of straight-line code one after the other, and the evaluation of
the callee for a call.  The outcome is the state behind the `ret`, or `none` if
an instruction on the way needs more of the stack than there is.

For programs with the frame discipline this is what the machine does
(`returns_iff_eval`): a call returns in a state exactly when it is evaluated to
it, since every `ret` goes back to its call.  Properties of calls that return can
then be proved by induction on the evaluation, without frames and addresses.
`Eval.restored` is the first of them: such a call leaves `rbp`, `rsp` and the stack
above as they were.

### Why a second semantics

The machine's runs are sequences of steps, and a call inside a call is a stretch of
such a sequence, found by looking for the `ret` that belongs to it.  In `Eval` it is
a premise of its own.  The price is that `Eval` takes for granted what has to be
proved of the machine, namely that a `ret` goes back to its call; this is why
`returns_iff_eval` needs programs that keep to their frames, and outside code that
does.

### What is load-bearing

Straight-line code is taken in stretches and not instruction by instruction, so that
an induction over `Eval` has one case for each call and each `ret`, as many as the
code has phases of interest, and the code between them is dealt with by `P.run`.

The outcome `none` is there for one reason: the stack.  An instruction in place in
its phase stops for want of room and for nothing else (`room_of_perform`), so that
an evaluation to `none` is a run that comes to the end of the stack, and the
theorems about optimised code can say so.
-/

namespace ParaOS.X86

open Machine

/-! ## Straight-line code -/

/-- Instructions that neither call nor return.  A list of these is run through from
its first to its last. -/
def plain : Instr → Bool
  | .callLabel _ => false
  | .callReg _ => false
  | .ret => false
  | _ => true

/-- The meaning of an instruction that neither calls nor returns.  The word at a
label is the program's, and not looked up in memory. -/
def Program.perform (P : Program) : Instr → State → Option State
  | .movLabel r l, s => some (s.set r (P.word l))
  | i, s => exec i s

/-- One instruction after the other, without regard to where in a program they
stand. -/
def Program.run (P : Program) : List Instr → State → Option State
  | [], s => some s
  | i :: is, s => (P.perform i s).bind (P.run is)

/-- How much of the stack an instruction needs. -/
def room : Instr → ℕ
  | .push _ => 8
  | .subRsp n => n
  | .callLabel _ => 8
  | .callReg _ => 8
  | _ => 0

variable {P : Program} {env : Env} {i : Instr} {is js : List Instr} {s s' t : State} {f : Frame}
  {p p' : Phase}

theorem Program.run_cons : P.run (i :: is) s = (P.perform i s).bind (P.run is) := rfl

/-- Two stretches one after the other. -/
theorem Program.run_append : P.run (is ++ js) s = (P.run is s).bind (P.run js) := by
  induction is generalizing s with
  | nil => rfl
  | cons i is ih =>
      rw [List.cons_append, run_cons, run_cons, Option.bind_assoc]
      exact congrArg (Option.bind (P.perform i s)) (funext fun t => ih)

/-- What can be performed is plain: calls and returns have no meaning for one
activation alone. -/
theorem plain_of_perform (h : P.perform i s = some s') : plain i = true := by
  cases i with
  | callLabel l => cases h
  | callReg r => cases h
  | ret => cases h
  | _ => rfl

theorem plain_of_run (h : P.run is s = some s') : ∀ i ∈ is, plain i = true := by
  induction is generalizing s with
  | nil => simp
  | cons i is ih =>
      rw [Program.run_cons, Option.bind_eq_some_iff] at h
      obtain ⟨s₁, hs₁, h⟩ := h
      exact List.forall_mem_cons.mpr ⟨plain_of_perform hs₁, ih h⟩

theorem ret_not_mem (h : ∀ i ∈ is, plain i = true) : .ret ∉ is :=
  fun hret => absurd (h _ hret) (by decide)

/-- A plain instruction is one step of the machine, in whatever activation it is. -/
theorem step_perform {pc : ℕ} {fs : List Frame} (hi : P.code[pc]? = some i)
    (h : P.perform i s = some s') : Step P env ⟨pc, s, fs⟩ ⟨pc + 1, s', fs⟩ := by
  cases i with
  | movLabel r l =>
      cases h
      exact .word hi
  | _ => exact .prim hi h

/-- What needs no label is the same in every program. -/
theorem perform_of_exec (h : exec i s = some s') : P.perform i s = some s' := by
  cases i with
  | movLabel r l => cases h
  | _ => exact h

theorem Program.run_of_execList (h : execList is s = some s') : P.run is s = some s' := by
  induction is generalizing s with
  | nil => exact h
  | cons i is ih =>
      rw [execList_cons, Option.bind_eq_some_iff] at h
      obtain ⟨s₁, hs₁, h⟩ := h
      rw [run_cons, perform_of_exec hs₁, Option.bind_some]
      exact ih h

/-- A stretch of straight-line code is run through, by any kind of step that has
a step for each of its instructions. -/
theorem reflTransGen_of_run {γ : Type} {R : γ → γ → Prop} {c : ℕ → State → γ}
    (hstep : ∀ pc i s s', P.code[pc]? = some i → P.perform i s = some s' →
      R (c pc s) (c (pc + 1) s')) {pc : ℕ} (hcode : is <+: P.code.drop pc)
    (h : P.run is s = some s') : Relation.ReflTransGen R (c pc s) (c (pc + is.length) s') := by
  induction is generalizing pc s with
  | nil =>
      cases h
      exact .refl
  | cons i is ih =>
      rw [Program.run_cons, Option.bind_eq_some_iff] at h
      obtain ⟨s₁, hs₁, h⟩ := h
      obtain ⟨rest, hrest⟩ := hcode
      have hi : P.code[pc]? = some i := by
        rw [← List.head?_drop, ← hrest]
        rfl
      have htail : is <+: P.code.drop (pc + 1) := by
        rw [← List.tail_drop, ← hrest]
        exact List.prefix_append _ _
      rw [List.length_cons, Nat.add_comm is.length, ← Nat.add_assoc]
      exact .head (hstep pc i s s₁ hi hs₁) (ih htail h)

/-- A stretch of straight-line code is a run of the machine, with the frames it
started with. -/
theorem reach_of_run {pc : ℕ} {fs : List Frame} (hcode : is <+: P.code.drop pc)
    (h : P.run is s = some s') : Reach P env ⟨pc, s, fs⟩ ⟨pc + is.length, s', fs⟩ :=
  reflTransGen_of_run (R := Step P env) (c := fun pc s => Cfg.mk pc s fs)
    (fun _ _ _ _ => step_perform) hcode h

/-- What `inPhase_exec` states, for instructions that name a label as well. -/
theorem inPhase_perform (hp : advance p i = some p') (h : InPhase f p s)
    (hi : P.perform i s = some s') : InPhase f p' s' ∧ SameAbove f.top s s' := by
  cases i with
  | movLabel r l =>
      cases hi
      obtain ⟨a, n, rfl, hr, rfl⟩ := writes_eq_some hp
      exact ⟨h.set hr, sameAbove_of_mem rfl⟩
  | _ => exact inPhase_exec hp h hi

/-- A stretch of straight-line code goes through its phases. -/
theorem inPhase_run (hp : advances p is = some p') (h : InPhase f p s)
    (hs : P.run is s = some s') : InPhase f p' s' ∧ SameAbove f.top s s' := by
  induction is generalizing p s with
  | nil =>
      cases hp
      cases hs
      exact ⟨h, sameAbove_of_mem rfl⟩
  | cons i is ih =>
      rw [advances, Option.bind_eq_some_iff] at hp
      obtain ⟨q, hq, hp⟩ := hp
      rw [Program.run_cons, Option.bind_eq_some_iff] at hs
      obtain ⟨s₁, hs₁, hs⟩ := hs
      obtain ⟨h₁, habove₁⟩ := inPhase_perform hq h hs₁
      obtain ⟨h', habove⟩ := ih hp h₁ hs
      exact ⟨h', fun x hx => (habove x hx).trans (habove₁ x hx)⟩

/-- Where an instruction in place stops, there is no room for it.  Loads and stores
do not stop here: their slots lie within the frame. -/
theorem room_of_perform (hp : advance p i = some p') (h : InPhase f p s) (hplain : plain i = true)
    (hi : P.perform i s = none) : s.sp < room i := by
  have htop := f.top_lt
  cases i with
  | push r =>
      by_contra hroom
      change s.push _ = none at hi
      rw [State.push_eq (by simpa [room] using hroom)] at hi
      cases hi
  | pop r =>
      have hle : s.sp + 8 ≤ 2 ^ 64 := by
        rcases advance_pop hp with ⟨hq, -⟩ | ⟨a, n, rfl, -⟩
        · have hsp : s.sp + 8 = f.top := by
            clear hp
            rcases hq with rfl | rfl <;> exact h.2.2
          omega
        · have := h.2.2.2
          omega
      change s.pop.map _ = none at hi
      rw [State.pop_eq hle] at hi
      cases hi
  | load r off =>
      obtain ⟨a, n, rfl, ⟨-, hoff⟩, -⟩ := advance_load hp
      obtain ⟨-, -, hbp, hsp⟩ := h
      change exec (.load r off) s = none at hi
      rw [exec_load r (by omega) (by omega)] at hi
      cases hi
  | store off r =>
      obtain ⟨a, n, rfl, ⟨-, hoff⟩, -⟩ := advance_store hp
      obtain ⟨-, -, hbp, hsp⟩ := h
      change exec (.store off r) s = none at hi
      rw [exec_store r (by omega) (by omega)] at hi
      cases hi
  | subRsp n =>
      by_contra hroom
      change (if n ≤ s.sp then _ else none) = none at hi
      rw [if_pos (by simpa [room] using hroom)] at hi
      cases hi
  | callLabel l => cases hplain
  | callReg r => cases hplain
  | ret => cases hplain
  | nop => cases hi
  | mov dst src => cases hi
  | movImm r v => cases hi
  | movLabel r l => cases hi
  | add dst src => cases hi
  | sub dst src => cases hi
  | addRsp n => cases hi
  | _ => cases hp

/-- Where code in place stops, there is no room for one of its instructions. -/
theorem room_of_run (hp : advances p is = some p') (h : InPhase f p s)
    (hplain : ∀ i ∈ is, plain i = true) (hs : P.run is s = none) :
    ∃ pre i post s₁, is = pre ++ i :: post ∧ P.run pre s = some s₁ ∧ s₁.sp < room i := by
  induction is generalizing p s with
  | nil => cases hs
  | cons i is ih =>
      rw [advances, Option.bind_eq_some_iff] at hp
      obtain ⟨q, hq, hp⟩ := hp
      rw [List.forall_mem_cons] at hplain
      cases hs₁ : P.perform i s with
      | none => exact ⟨[], i, is, s, rfl, rfl, room_of_perform hq h hplain.1 hs₁⟩
      | some s₁ =>
          rw [Program.run_cons, hs₁, Option.bind_some] at hs
          obtain ⟨pre, j, post, s₂, rfl, hpre, hroom⟩ :=
            ih hp (inPhase_perform hq h hs₁).1 hplain.2 hs
          refine ⟨i :: pre, j, post, s₂, rfl, ?_, hroom⟩
          rw [Program.run_cons, hs₁, Option.bind_some, hpre]

/-! ## Calls that return

Whether a call returns is a question about the machine, and asked with its steps.
`Returns` looks for a configuration in front of a `ret` with the frames of the call,
so that the `ret` is the one of the activation that was called and not one of an
activation further in. -/

/-- A call comes to its `ret`, which goes back to the caller in a state.  That state
has the return address popped; the caller's own `ret`, if it is one of the program,
is another matter. -/
def Returns (P : Program) (env : Env) (pc : ℕ) (s t : State) : Prop :=
  ∃ c w, Reach P env (.call pc s) c ∧ c.frames = (Cfg.call pc s).frames ∧
    P.code[c.pc]? = some .ret ∧ c.state.pop = some (w, t)

theorem getElem?_of_drop {pc k : ℕ} {rest : List Instr} (h : P.code.drop pc = is ++ rest) :
    P.code[pc + k]? = (is ++ rest)[k]? := by
  rw [← h, List.getElem?_drop]

/-- Straight-line code is run through instruction by instruction. -/
theorem run_of_reach {pc : ℕ} {rest : List Instr} {c : Cfg}
    (hcode : P.code.drop pc = is ++ .ret :: rest) (hplain : ∀ i ∈ is, plain i = true)
    (h : Reach P env ⟨pc, s, [f]⟩ c) :
    ∃ k ≤ is.length, c.pc = pc + k ∧ c.frames = [f] ∧ P.run (is.take k) s = some c.state := by
  induction h with
  | refl => exact ⟨0, Nat.zero_le _, rfl, rfl, rfl⟩
  | @tail c c' _ hstep ih =>
      obtain ⟨k, hk, hpc, hframes, hrun⟩ := ih
      have hget : P.code[c.pc]? = (is ++ .ret :: rest)[k]? := by
        rw [hpc, getElem?_of_drop hcode]
      rcases Nat.lt_or_eq_of_le hk with hlt | rfl
      · rw [List.getElem?_append_left hlt, List.getElem?_eq_getElem hlt] at hget
        have hi := hplain _ (List.getElem_mem hlt)
        have hnext : ∀ {s' : State}, P.perform is[k] c.state = some s' →
            P.run (is.take (k + 1)) s = some s' := by
          intro s' hs'
          rw [List.take_add_one, List.getElem?_eq_getElem hlt, Option.toList_some,
            Program.run_append, hrun, Option.bind_some, Program.run_cons, hs', Option.bind_some]
          rfl
        cases hstep with
        | prim hi' hs' =>
            rw [hget] at hi'
            cases hi'
            exact ⟨k + 1, hlt, congrArg (· + 1) hpc, hframes, hnext (perform_of_exec hs')⟩
        | word hi' =>
            rw [hget] at hi'
            refine ⟨k + 1, hlt, congrArg (· + 1) hpc, hframes, hnext ?_⟩
            rw [Option.some.inj hi']
            rfl
        | call hi' _ _ =>
            rw [hget] at hi'
            rw [Option.some.inj hi'] at hi
            cases hi
        | outside hi' _ _ =>
            rw [hget] at hi'
            rw [Option.some.inj hi'] at hi
            cases hi
        | ret hi' _ _ => cases hframes
      · rw [List.getElem?_append_right le_rfl, Nat.sub_self, List.getElem?_cons_zero] at hget
        cases hstep with
        | prim hi' hs' =>
            rw [hget] at hi'
            cases hi'
            cases hs'
        | word hi' =>
            rw [hget] at hi'
            cases hi'
        | call hi' _ _ =>
            rw [hget] at hi'
            cases hi'
        | outside hi' _ _ =>
            rw [hget] at hi'
            cases hi'
        | ret hi' _ _ => cases hframes

/-- **Straight-line code returns in the state it runs to.**  There is no call in it,
so nothing is asked of the program or of the code around it. -/
theorem returns_iff_run {pc : ℕ} {rest : List Instr} (hcode : P.code.drop pc = is ++ .ret :: rest)
    (hplain : ∀ i ∈ is, plain i = true) :
    Returns P env pc s t ↔ ∃ s' w, P.run is s = some s' ∧ s'.pop = some (w, t) := by
  constructor
  · rintro ⟨c, w, hreach, -, hret, hpop⟩
    obtain ⟨k, hk, hpc, -, hrun⟩ := run_of_reach hcode hplain hreach
    rw [hpc, getElem?_of_drop hcode] at hret
    rcases Nat.lt_or_eq_of_le hk with hlt | rfl
    · rw [List.getElem?_append_left hlt] at hret
      exact absurd (List.mem_of_getElem? hret) (ret_not_mem hplain)
    · rw [List.take_length] at hrun
      exact ⟨c.state, w, hrun, hpop⟩
  · rintro ⟨s', w, hrun, hpop⟩
    refine ⟨⟨pc + is.length, s', _⟩, w, reach_of_run ⟨_, hcode.symm⟩ hrun, rfl, ?_, hpop⟩
    rw [getElem?_of_drop hcode]
    simp

/-! ## Evaluation -/

/-- The evaluation of the code at an index up to its `ret`.  A callee that is
evaluated to a state goes on behind the call; one that runs out of room takes its
caller with it; and outside code returns or is not there. -/
inductive Eval (P : Program) (env : Env) : ℕ → State → Option State → Prop where
  | ret {pc : ℕ} {s s₁ t : State} {seg rest : List Instr} {w : Word} :
      P.code.drop pc = seg ++ .ret :: rest → P.run seg s = some s₁ → s₁.pop = some (w, t) →
      Eval P env pc s (some t)
  | stop {pc : ℕ} {s s₁ : State} {seg rest : List Instr} {i : Instr} :
      P.code.drop pc = seg ++ i :: rest → P.run seg s = some s₁ → s₁.sp < room i →
      Eval P env pc s none
  | call {pc k : ℕ} {s s₁ s₂ s₃ : State} {seg rest : List Instr} {l : Label} {o : Option State} :
      P.code.drop pc = seg ++ .callLabel l :: rest → P.run seg s = some s₁ →
      P.target l = some k → s₁.push (P.address (pc + seg.length + 1)) = some s₂ →
      Eval P env k s₂ (some s₃) → Eval P env (pc + seg.length + 1) s₃ o → Eval P env pc s o
  | callStop {pc k : ℕ} {s s₁ s₂ : State} {seg rest : List Instr} {l : Label} :
      P.code.drop pc = seg ++ .callLabel l :: rest → P.run seg s = some s₁ →
      P.target l = some k → s₁.push (P.address (pc + seg.length + 1)) = some s₂ →
      Eval P env k s₂ none → Eval P env pc s none
  | outside {pc : ℕ} {s s₁ s₂ s₃ : State} {seg rest : List Instr} {r : Reg} {o : Option State} :
      P.code.drop pc = seg ++ .callReg r :: rest → P.run seg s = some s₁ →
      s₁.push (P.address (pc + seg.length + 1)) = some s₂ → env (s₁.regs r) s₂ s₃ →
      Eval P env (pc + seg.length + 1) s₃ o → Eval P env pc s o

theorem drop_eq_cons {pc : ℕ} (hi : P.code[pc]? = some i) :
    P.code.drop pc = i :: P.code.drop (pc + 1) := by
  obtain ⟨hlt, rfl⟩ := List.getElem?_eq_some_iff.mp hi
  exact List.drop_eq_getElem_cons hlt

/-- The stretch of no instructions in front of one. -/
theorem drop_eq_nil_append {pc : ℕ} (hi : P.code[pc]? = some i) :
    P.code.drop pc = [] ++ i :: P.code.drop (pc + 1) := drop_eq_cons hi

/-- An instruction in front of evaluated code.  `Eval` has no such rule, as its
rules take whole stretches: the stretch that was there becomes one longer. -/
theorem Eval.cons {pc : ℕ} {o : Option State} (hi : P.code[pc]? = some i)
    (hs : P.perform i s = some s') (h : Eval P env (pc + 1) s' o) : Eval P env pc s o := by
  have hdrop := drop_eq_cons hi
  have hrun : ∀ {seg : List Instr} {s₁ : State}, P.run seg s' = some s₁ →
      P.run (i :: seg) s = some s₁ := by
    intro seg s₁ h
    rw [Program.run_cons, hs, Option.bind_some, h]
  have hpc : ∀ seg : List Instr, pc + 1 + seg.length + 1 = pc + (i :: seg).length + 1 := by
    intro seg
    rw [List.length_cons]
    omega
  cases h with
  | ret hseg hs₁ hpop => exact .ret (by rw [hdrop, hseg]; rfl) (hrun hs₁) hpop
  | stop hseg hs₁ hroom => exact .stop (by rw [hdrop, hseg]; rfl) (hrun hs₁) hroom
  | call hseg hs₁ hk hpush hcallee hrest =>
      rw [hpc] at hpush hrest
      exact .call (by rw [hdrop, hseg]; rfl) (hrun hs₁) hk hpush hcallee hrest
  | callStop hseg hs₁ hk hpush hcallee =>
      rw [hpc] at hpush
      exact .callStop (by rw [hdrop, hseg]; rfl) (hrun hs₁) hk hpush hcallee
  | outside hseg hs₁ hpush henv hrest =>
      rw [hpc] at hpush hrest
      exact .outside (by rw [hdrop, hseg]; rfl) (hrun hs₁) hpush henv hrest

/-- Straight-line code up to a call or a `ret` is the same, however code is taken
apart.  With this an evaluation can be inverted by code that is known, whatever
stretches its rules were used with. -/
theorem segment_unique {seg seg' rest rest' : List Instr} {i i' : Instr}
    (h : seg ++ i :: rest = seg' ++ i' :: rest') (hseg : ∀ i ∈ seg, plain i = true)
    (hseg' : ∀ i ∈ seg', plain i = true) (hi : plain i = false) (hi' : plain i' = false) :
    seg = seg' ∧ i = i' ∧ rest = rest' := by
  induction seg generalizing seg' with
  | nil =>
      cases seg' with
      | nil =>
          cases h
          exact ⟨rfl, rfl, rfl⟩
      | cons j seg' =>
          cases h
          rw [hseg' i List.mem_cons_self] at hi
          cases hi
  | cons j seg ih =>
      cases seg' with
      | nil =>
          cases h
          rw [hseg i' List.mem_cons_self] at hi'
          cases hi'
      | cons j' seg' =>
          obtain ⟨rfl, htail⟩ := List.cons.inj h
          obtain ⟨rfl, hrest⟩ := ih htail (List.forall_mem_cons.mp hseg).2
            (List.forall_mem_cons.mp hseg').2
          exact ⟨rfl, hrest⟩

section Inversion

variable {pc : ℕ} {seg rest : List Instr}

/-- What evaluated code comes to, by what it comes to first. -/
theorem Eval.of_ret (h : Eval P env pc s (some t)) (hcode : P.code.drop pc = seg ++ .ret :: rest)
    (hplain : ∀ i ∈ seg, plain i = true) :
    ∃ s₁ w, P.run seg s = some s₁ ∧ s₁.pop = some (w, t) := by
  cases h with
  | ret hcode' hrun hpop =>
      obtain ⟨rfl, -, -⟩ :=
        segment_unique (hcode.symm.trans hcode') hplain (plain_of_run hrun) rfl rfl
      exact ⟨_, _, hrun, hpop⟩
  | call hcode' hrun =>
      obtain ⟨-, hi, -⟩ :=
        segment_unique (hcode.symm.trans hcode') hplain (plain_of_run hrun) rfl rfl
      cases hi
  | outside hcode' hrun =>
      obtain ⟨-, hi, -⟩ :=
        segment_unique (hcode.symm.trans hcode') hplain (plain_of_run hrun) rfl rfl
      cases hi

/-- At a call of a label: the callee was evaluated to a state, and the code behind
the call from there. -/
theorem Eval.of_call {l : Label} (h : Eval P env pc s (some t))
    (hcode : P.code.drop pc = seg ++ .callLabel l :: rest) (hplain : ∀ i ∈ seg, plain i = true) :
    ∃ k s₁ s₂ s₃, P.run seg s = some s₁ ∧ P.target l = some k ∧
      s₁.push (P.address (pc + seg.length + 1)) = some s₂ ∧ Eval P env k s₂ (some s₃) ∧
      Eval P env (pc + seg.length + 1) s₃ (some t) := by
  cases h with
  | ret hcode' hrun =>
      obtain ⟨-, hi, -⟩ :=
        segment_unique (hcode.symm.trans hcode') hplain (plain_of_run hrun) rfl rfl
      cases hi
  | call hcode' hrun hk hpush hcallee hrest =>
      obtain ⟨rfl, hi, -⟩ :=
        segment_unique (hcode.symm.trans hcode') hplain (plain_of_run hrun) rfl rfl
      cases hi
      exact ⟨_, _, _, _, hrun, hk, hpush, hcallee, hrest⟩
  | outside hcode' hrun =>
      obtain ⟨-, hi, -⟩ :=
        segment_unique (hcode.symm.trans hcode') hplain (plain_of_run hrun) rfl rfl
      cases hi

/-- At a call through a register: outside code returned, and the code behind the
call was evaluated from there. -/
theorem Eval.of_outside {r : Reg} (h : Eval P env pc s (some t))
    (hcode : P.code.drop pc = seg ++ .callReg r :: rest) (hplain : ∀ i ∈ seg, plain i = true) :
    ∃ s₁ s₂ s₃, P.run seg s = some s₁ ∧
      s₁.push (P.address (pc + seg.length + 1)) = some s₂ ∧ env (s₁.regs r) s₂ s₃ ∧
      Eval P env (pc + seg.length + 1) s₃ (some t) := by
  cases h with
  | ret hcode' hrun =>
      obtain ⟨-, hi, -⟩ :=
        segment_unique (hcode.symm.trans hcode') hplain (plain_of_run hrun) rfl rfl
      cases hi
  | call hcode' hrun =>
      obtain ⟨-, hi, -⟩ :=
        segment_unique (hcode.symm.trans hcode') hplain (plain_of_run hrun) rfl rfl
      cases hi
  | outside hcode' hrun hpush hout hrest =>
      obtain ⟨rfl, hi, -⟩ :=
        segment_unique (hcode.symm.trans hcode') hplain (plain_of_run hrun) rfl rfl
      cases hi
      exact ⟨_, _, _, hrun, hpush, hout, hrest⟩

end Inversion

/-! ## Calls that are evaluated keep the frame

This is `Running` told again for evaluation.  Since a callee is a premise of the
rule for its call, it is an ordinary induction, and neither suspended activations
nor their return addresses have to be followed. -/

variable {top : ℕ}

/-- The instruction behind a stretch of code, and what comes after it. -/
theorem drop_of_split {pc : ℕ} {seg rest : List Instr} (h : P.code.drop pc = seg ++ i :: rest) :
    P.code[pc + seg.length]? = some i ∧ P.code.drop (pc + seg.length + 1) = rest := by
  constructor
  · rw [← List.getElem?_drop, h]
    simp
  · rw [Nat.add_assoc, ← List.drop_drop, h, List.append_cons, List.drop_left' (by simp)]

/-- Accepted code is in phase at the end of a stretch of it. -/
theorem inPhase_segment {pc : ℕ} {seg rest : List Instr} {s₁ : State}
    (hcode : P.code.drop pc = seg ++ i :: rest) (hrun : P.run seg s = some s₁)
    (hacc : accepts p (P.code.drop pc) = true) (hin : InPhase f p s) :
    ∃ p', advances p seg = some p' ∧ accepts p' (i :: rest) = true ∧ InPhase f p' s₁ ∧
      SameAbove f.top s s₁ := by
  rw [hcode] at hacc
  obtain ⟨p', hp', hacc⟩ := exists_advances (ret_not_mem (plain_of_run hrun)) hacc
  exact ⟨p', hp', hacc, inPhase_run hp' hin hrun⟩

/-- A call in accepted code leaves the phase as it is. -/
theorem accepts_callLabel {l : Label} (h : accepts p (.callLabel l :: is) = true) :
    ∃ a n, p = .framed a n ∧ accepts p is = true := by
  obtain ⟨p', hp', h⟩ := (accepts_cons (by simp)).mp h
  obtain ⟨a, n, rfl, rfl⟩ := advance_callLabel hp'
  exact ⟨a, n, rfl, h⟩

theorem accepts_callReg {r : Reg} (h : accepts p (.callReg r :: is) = true) :
    ∃ a n, p = .framed a n ∧ accepts p is = true := by
  obtain ⟨p', hp', h⟩ := (accepts_cons (by simp)).mp h
  obtain ⟨a, n, rfl, rfl⟩ := advance_callReg hp'
  exact ⟨a, n, rfl, h⟩

/-- What a call that is evaluated leaves as it was.  It is stated with the frame of
the call, so that it holds from any phase on, and not only of whole functions. -/
structure Restored (top : ℕ) (f : Frame) (s t : State) : Prop where
  rsp : t.regs .rsp = f.rsp + 8
  rbp : t.regs .rbp = f.rbp
  mem : ∀ x, f.top ≤ x → x < top → t.mem x = s.mem x

/-- From the caller's side: what `Kept` says of any call that has returned. -/
theorem Restored.kept {w : Word} {s₁ : State} (hs : s.push w = some s₁)
    (h : Restored top ⟨w, s.regs .rbp, s₁.regs .rsp⟩ s₁ t) : Kept top s t := by
  obtain ⟨-, -, -, hregs⟩ := State.push_spec hs
  refine .of_call hs h.rsp (h.rbp.trans (hregs _ (by decide)).symm) fun x hx hx' => ?_
  exact h.mem x (le_trans (Nat.le_add_right _ _) hx) hx'

/-- **Evaluation keeps the frame**: a call that is evaluated to a state restores
`rbp` and `rsp`, and the stack above is as it was. -/
theorem Eval.restored (hP : P.Disciplined) (henv : WellBehaved env top) {pc : ℕ}
    (h : Eval P env pc s (some t)) (hacc : accepts p (P.code.drop pc) = true)
    (hin : InPhase f p s) (htop : f.top + 8 ≤ top) : Restored top f s t := by
  generalize ho : some t = o at h
  induction h generalizing p f t with
  | @ret pc s s₁ t' seg rest w hcode hrun hpop =>
      cases ho
      obtain ⟨p', -, hacc, hin, habove⟩ := inPhase_segment hcode hrun hacc hin
      obtain ⟨-, hsp, hrbp⟩ := inPhase_returns hacc hin
      obtain ⟨-, -, rfl⟩ := State.pop_spec hpop
      refine ⟨?_, ?_, fun x hx _ => habove x hx⟩
      · rw [State.set_regs_self, BitVec.eq_of_toNat_eq hsp]
      · rw [State.set_regs_of_ne _ _ (by decide), hrbp]
  | stop => cases ho
  | @call pc k s s₁ s₂ s₃ seg rest l o hcode hrun hk hpush _ _ ihcallee ihrest =>
      obtain ⟨p', -, hacc, hin, habove⟩ := inPhase_segment hcode hrun hacc hin
      obtain ⟨a, n, rfl, hacc⟩ := accepts_callLabel hacc
      obtain ⟨hcall, hrest⟩ := drop_of_split hcode
      have hle : s₁.sp ≤ top := by
        have := hin.2.2.2
        omega
      obtain ⟨hroom, hsp, -⟩ := State.push_spec hpush
      have hkept := Restored.kept hpush <| ihcallee (hP _ _ _ hcall hk) (inPhase_entry hpush)
        (by change s₂.sp + 8 ≤ top; omega) rfl
      have hres := ihrest (hrest ▸ hacc) (hkept.inPhase htop hin) htop ho
      refine ⟨hres.rsp, hres.rbp, fun x hx hx' => ?_⟩
      have := hin.2.2.2
      rw [hres.mem x hx hx', hkept.mem x (by omega) hx', habove x hx]
  | callStop => cases ho
  | @outside pc s s₁ s₂ s₃ seg rest r o hcode hrun hpush hout _ ihrest =>
      obtain ⟨p', -, hacc, hin, habove⟩ := inPhase_segment hcode hrun hacc hin
      obtain ⟨a, n, rfl, hacc⟩ := accepts_callReg hacc
      obtain ⟨-, hrest⟩ := drop_of_split hcode
      have hkept := henv.kept hpush hout
      have hres := ihrest (hrest ▸ hacc) (hkept.inPhase htop hin) htop ho
      refine ⟨hres.rsp, hres.rbp, fun x hx hx' => ?_⟩
      have := hin.2.2.2
      rw [hres.mem x hx hx', hkept.mem x (by omega) hx', habove x hx]

/-! ## Evaluation is what the machine does

One direction takes a run and evaluates it from its end, the other builds a run from
an evaluation.  In the first the run may be inside any number of calls, so what is
evaluated there is the whole list of activations (`Unwinds`), one after the other. -/

/-- The activations of a list return one after the other, the last of them in a
state.  Each is gone on with at the address it was called from, as the machine
would. -/
def Unwinds (P : Program) (env : Env) : List Frame → ℕ → State → State → Prop
  | [], _, _, _ => False
  | [_], pc, s, t => Eval P env pc s (some t)
  | f :: g :: fs, pc, s, t =>
      ∃ s' k, Eval P env pc s (some s') ∧ P.indexAt f.ret = some k ∧
        Unwinds P env (g :: fs) k s' t

/-- Code in front of what the innermost activation still has to do. -/
theorem Unwinds.of_eval {pc pc' : ℕ} {fs : List Frame} (h : Unwinds P env fs pc' s' t)
    (heval : ∀ t, Eval P env pc' s' (some t) → Eval P env pc s (some t)) :
    Unwinds P env fs pc s t := by
  match fs, h with
  | [_], h => exact heval t h
  | _ :: _ :: _, ⟨s₁, k, hs₁, hk, h⟩ => exact ⟨s₁, k, heval s₁ hs₁, hk, h⟩

/-- A call in a run goes on behind itself: its return address is that of an
instruction, since code that keeps to its frame does not end with a call. -/
theorem Running.indexAt_next {fs : List Frame} {c : Cfg} (hsep : P.Separate)
    (h : Running P top c f fs p) {l : Label} (hi : P.code[c.pc]? = some (.callLabel l)) :
    P.indexAt (P.address (c.pc + 1)) = some (c.pc + 1) := by
  rcases h.exists_advance hi with ⟨hret, -⟩ | ⟨p', hp'⟩
  · cases hret
  · obtain ⟨j, hj, -, hdata⟩ := exists_of_accepts (h.accepts_next hi hp')
    exact hsep.indexAt hj hdata

/-- One step back from a run that comes to its end. -/
theorem Unwinds.step {fs : List Frame} {c c' : Cfg} (hsep : P.Separate)
    (hrun : Running P top c f fs p) (hstep : Step P env c c')
    (h : Unwinds P env c'.frames c'.pc c'.state t) : Unwinds P env c.frames c.pc c.state t := by
  cases hstep with
  | prim hi hs => exact h.of_eval fun t => .cons hi (perform_of_exec hs)
  | word hi => exact h.of_eval fun t => .cons hi rfl
  | @call pc k s s₁ _ l hi hk hs =>
      cases hrun.frames
      obtain ⟨s₃, k', hcallee, hk', h⟩ := h
      rw [hrun.indexAt_next hsep hi] at hk'
      cases hk'
      exact h.of_eval fun t ht => .call (drop_eq_nil_append hi) rfl hk hs hcallee ht
  | outside hi hs hout =>
      exact h.of_eval fun t ht => .outside (drop_eq_nil_append hi) rfl hs hout ht
  | ret hi hs hk =>
      obtain ⟨f', fs', hframes, rfl, -⟩ := hrun.intact hi _ _ hs
      cases hframes
      exact ⟨_, _, .ret (drop_eq_nil_append hi) rfl hs, hk, h⟩

/-- **A call that returns is evaluated to the state it returns in.**  The induction
is over the run from its end, with `Unwinds` for the statement about a configuration
in the middle of it. -/
theorem Returns.eval (hP : P.Disciplined) (hsep : P.Separate) (henv : WellBehaved env top) {k : ℕ}
    (hk : accepts .entry (P.code.drop k) = true) (htop : s.sp + 8 ≤ top)
    (h : Returns P env k s t) : Eval P env k s (some t) := by
  obtain ⟨c₁, w, hreach, hframes, hret, hpop⟩ := h
  -- back from the end of the run, with the frames that are left at each configuration
  have hback : ∀ c, Reach P env (.call k s) c → Reach P env c c₁ →
      Unwinds P env c.frames c.pc c.state t := by
    intro c hc hto
    induction hto using Relation.ReflTransGen.head_induction_on with
    | refl =>
        rw [hframes]
        exact .ret (drop_eq_nil_append hret) rfl hpop
    | head hstep _ ih =>
        obtain ⟨f, fs, p, hrun⟩ := running_of_reach hP hsep henv hk htop hc
        exact (ih (hc.tail hstep)).step hsep hrun hstep
  exact hback _ .refl hreach

/-- Where an activation comes to in a run: to its `ret`, or to an instruction for
which there is no room. -/
def Ends (P : Program) (env : Env) (pc : ℕ) (s : State) (f : Frame) (fs : List Frame) :
    Option State → Prop
  | some t => ∃ c, Reach P env ⟨pc, s, f :: fs⟩ c ∧ c.frames = f :: fs ∧
      P.code[c.pc]? = some .ret ∧ c.state.pop = some (f.ret, t)
  | none => ∃ c i, Reach P env ⟨pc, s, f :: fs⟩ c ∧ P.code[c.pc]? = some i ∧ c.state.sp < room i

/-- What an activation comes to it comes to from any configuration that leads there.
-/
theorem Ends.of_reach {pc pc' : ℕ} {fs : List Frame} {o : Option State}
    (h : Ends P env pc' s' f fs o) (hreach : Reach P env ⟨pc, s, f :: fs⟩ ⟨pc', s', f :: fs⟩) :
    Ends P env pc s f fs o := by
  match o, h with
  | some t, ⟨c, hc, h⟩ => exact ⟨c, hreach.trans hc, h⟩
  | none, ⟨c, i, hc, h⟩ => exact ⟨c, i, hreach.trans hc, h⟩

/-- **The machine does what is evaluated**, to a state or up to where there is no
room.  The frames of the callers play no part in it and may be any. -/
theorem Eval.ends (hP : P.Disciplined) (hsep : P.Separate) (henv : WellBehaved env top) {pc : ℕ}
    {o : Option State} (h : Eval P env pc s o) (hacc : accepts p (P.code.drop pc) = true)
    (hin : InPhase f p s) (htop : f.top + 8 ≤ top) (fs : List Frame) : Ends P env pc s f fs o := by
  induction h generalizing p f fs with
  | @ret pc s s₁ t seg rest w hcode hrun hpop =>
      obtain ⟨p', -, hacc, hin, -⟩ := inPhase_segment hcode hrun hacc hin
      obtain ⟨hload, hsp, -⟩ := inPhase_returns hacc hin
      obtain ⟨-, hw, -⟩ := State.pop_spec hpop
      refine ⟨_, reach_of_run ⟨_, hcode.symm⟩ hrun, rfl, (drop_of_split hcode).1, ?_⟩
      rw [hpop, hw, hsp, hload]
  | @stop pc s s₁ seg rest i hcode hrun hroom =>
      exact ⟨_, i, reach_of_run ⟨_, hcode.symm⟩ hrun, (drop_of_split hcode).1, hroom⟩
  | @call pc k s s₁ s₂ s₃ seg rest l o hcode hrun hk hpush hcallee _ ihcallee ihrest =>
      obtain ⟨p', -, hacc, hin, -⟩ := inPhase_segment hcode hrun hacc hin
      obtain ⟨a, n, rfl, hacc⟩ := accepts_callLabel hacc
      obtain ⟨hcall, hrest⟩ := drop_of_split hcode
      rw [← hrest] at hacc
      obtain ⟨-, hsp, -⟩ := State.push_spec hpush
      have hle : s₂.sp + 8 ≤ top := by
        have := hin.2.2.2
        omega
      have hentry := inPhase_entry hpush
      have hk' := hP _ _ _ hcall hk
      have hkept := Restored.kept hpush (hcallee.restored hP henv hk' hentry hle)
      -- into the callee, to its `ret`, and back behind the call
      obtain ⟨⟨pc', s', _⟩, hc, rfl, hret, hpop⟩ := ihcallee hk' hentry hle (f :: fs)
      obtain ⟨i, hi, -, hdata⟩ := exists_of_accepts hacc
      refine (ihrest hacc (hkept.inPhase htop hin) htop fs).of_reach ?_
      exact (((reach_of_run ⟨_, hcode.symm⟩ hrun).tail (.call hcall hk hpush)).trans hc).tail
        (.ret hret hpop (hsep.indexAt hi hdata))
  | @callStop pc k s s₁ s₂ seg rest l hcode hrun hk hpush _ ihcallee =>
      obtain ⟨p', -, hacc, hin, -⟩ := inPhase_segment hcode hrun hacc hin
      obtain ⟨a, n, rfl, hacc⟩ := accepts_callLabel hacc
      obtain ⟨hcall, -⟩ := drop_of_split hcode
      obtain ⟨-, hsp, -⟩ := State.push_spec hpush
      have hle : s₂.sp + 8 ≤ top := by
        have := hin.2.2.2
        omega
      obtain ⟨c, i, hc, h⟩ := ihcallee (hP _ _ _ hcall hk) (inPhase_entry hpush) hle (f :: fs)
      exact ⟨c, i, ((reach_of_run ⟨_, hcode.symm⟩ hrun).tail (.call hcall hk hpush)).trans hc, h⟩
  | @outside pc s s₁ s₂ s₃ seg rest r o hcode hrun hpush hout _ ihrest =>
      obtain ⟨p', -, hacc, hin, -⟩ := inPhase_segment hcode hrun hacc hin
      obtain ⟨a, n, rfl, hacc⟩ := accepts_callReg hacc
      obtain ⟨hcall, hrest⟩ := drop_of_split hcode
      have hkept := henv.kept hpush hout
      refine (ihrest (hrest ▸ hacc) (hkept.inPhase htop hin) htop fs).of_reach ?_
      exact (reach_of_run ⟨_, hcode.symm⟩ hrun).tail (.outside hcall hpush hout)

/-- A call comes to an instruction for which there is no room on the stack.  It may
be one of its own or one of an activation further in. -/
def RunsOut (P : Program) (env : Env) (pc : ℕ) (s : State) : Prop :=
  ∃ c i, Reach P env (.call pc s) c ∧ P.code[c.pc]? = some i ∧ c.state.sp < room i

/-- **Returning is being evaluated to a state.**  From here on, what is said of
calls that return is proved by induction on their evaluation. -/
theorem returns_iff_eval (hP : P.Disciplined) (hsep : P.Separate) (henv : WellBehaved env top)
    {k : ℕ} (hk : accepts .entry (P.code.drop k) = true) (htop : s.sp + 8 ≤ top) :
    Returns P env k s t ↔ Eval P env k s (some t) := by
  refine ⟨Returns.eval hP hsep henv hk htop, fun h => ?_⟩
  obtain ⟨c, hc, hframes, hret, hpop⟩ := h.ends hP hsep henv hk
    (f := ⟨s.mem.load s.sp, s.regs .rbp, s.regs .rsp⟩) ⟨rfl, rfl, rfl⟩ htop []
  exact ⟨c, _, hc, hframes, hret, hpop⟩

/-- Code that is evaluated to nothing has run out of room. -/
theorem Eval.runsOut (hP : P.Disciplined) (hsep : P.Separate) (henv : WellBehaved env top) {k : ℕ}
    (hk : accepts .entry (P.code.drop k) = true) (htop : s.sp + 8 ≤ top)
    (h : Eval P env k s none) : RunsOut P env k s :=
  h.ends hP hsep henv hk (f := ⟨s.mem.load s.sp, s.regs .rbp, s.regs .rsp⟩) ⟨rfl, rfl, rfl⟩ htop []

end ParaOS.X86
