import ParaOS.X86.Refinement

/-!
# Programs that call each other

Several programs, each of which sees the others as outside code.  At some words
their code stands (`At`), and a call through a register with such a word runs that
code; what other words lead to is outside all of them.  Calls that cross programs
are counted: `linkedEnv` is what code around a program does within so many of them.

`calledEnv` is the same by `Eval`.  It restores what a callee has to restore
(`wellBehaved_calledEnv`), it grows with the count (`calledEnv_mono`), it comes to
one state if outside code does (`calledEnv_unique`), and programs in the place of
others can be put there for all of them at once (`InPlace.carries`).

### Why calls between programs are counted

Each program is outside code for the others, and what outside code does is a
hypothesis of every theorem about one program.  So "what the others do" would have
to be defined by itself.  Counting the calls that cross from program to program cuts
this circle: with none left nothing of another program can be called, and what can
be done with `n + 1` is defined by what can be done with `n`.  A call that returns
crosses finitely often, so some number is enough for it, and `calledEnv_mono` says
that more of them do no harm.

### What is load-bearing

`At` relates words to code, and a word that leads nowhere is outside all programs.
`Tame` asks that what words lead to keeps to its frame: a program that did not could
do as it liked with the stack of the one that called it, and no condition on that
one would help.
-/

namespace ParaOS.X86

open Machine

section

variable {ι : Type} (P : ι → Program) (At : Word → ι → ℕ → Prop) (top : ℕ) (outside : Env)

/-- The same, by evaluation.  It is this form that inductions are made on. -/
def calledEnv : ℕ → Env
  | 0 => fun a s t => (∀ m k, ¬ At a m k) ∧ outside a s t
  | n + 1 => fun a s t =>
      (∃ m k, At a m k ∧ s.sp + 8 ≤ top ∧ Eval (P m) (calledEnv n) k s (some t)) ∨
        (∀ m k, ¬ At a m k) ∧ outside a s t

end

/-- Outside code comes to one state at most. -/
def Env.Functional (env : Env) : Prop := ∀ a s t t', env a s t → env a s t' → t = t'

variable {ι : Type} {P P' : ι → Program} {At At' : Word → ι → ℕ → Prop} {top n n' pc k : ℕ}
  {outside env env' : Env} {Q : Program} {a : Word} {s t t' : State} {W : Set Word} {m : ι}
  {o : Option State}

/-! ## Evaluation -/

/-- With more outside code no less is evaluated. -/
theorem Eval.mono (henv : ∀ a s t, env a s t → env' a s t) (h : Eval Q env pc s o) :
    Eval Q env' pc s o := by
  induction h with
  | ret hcode hrun hpop => exact .ret hcode hrun hpop
  | stop hcode hrun hroom => exact .stop hcode hrun hroom
  | call hcode hrun hk hpush _ _ ihcallee ihrest =>
      exact .call hcode hrun hk hpush ihcallee ihrest
  | callStop hcode hrun hk hpush _ ihcallee => exact .callStop hcode hrun hk hpush ihcallee
  | outside hcode hrun hpush hout _ ihrest =>
      exact .outside hcode hrun hpush (henv _ _ _ hout) ihrest

/-- Straight-line code up to a call or a `ret` is where it ends, and where it runs
to. -/
theorem segment_of_run {seg seg' rest rest' : List Instr} {i i' : Instr} {s₁ s₂ : State}
    (hcode : Q.code.drop pc = seg ++ i :: rest) (hcode' : Q.code.drop pc = seg' ++ i' :: rest')
    (hrun : Q.run seg s = some s₁) (hrun' : Q.run seg' s = some s₂) (hi : plain i = false)
    (hi' : plain i' = false) : seg = seg' ∧ i = i' ∧ s₁ = s₂ := by
  obtain ⟨rfl, rfl, -⟩ := segment_unique (hcode.symm.trans hcode') (plain_of_run hrun)
    (plain_of_run hrun') hi hi'
  exact ⟨rfl, rfl, Option.some.inj (hrun.symm.trans hrun')⟩

/-- Code comes to one state if the code around it does. -/
theorem Eval.unique (henv : env.Functional) (h : Eval Q env pc s (some t))
    (h' : Eval Q env pc s (some t')) : t = t' := by
  generalize ho : some t = o at h
  induction h generalizing t t' with
  | ret hcode hrun hpop =>
      cases ho
      cases h' with
      | ret hcode' hrun' hpop' =>
          obtain ⟨rfl, -, rfl⟩ := segment_of_run hcode hcode' hrun hrun' rfl rfl
          cases hpop.symm.trans hpop'
          rfl
      | call hcode' hrun' => cases (segment_of_run hcode hcode' hrun hrun' rfl rfl).2.1
      | outside hcode' hrun' => cases (segment_of_run hcode hcode' hrun hrun' rfl rfl).2.1
  | stop => cases ho
  | call hcode hrun hk hpush _ _ ihcallee ihrest =>
      cases h' with
      | ret hcode' hrun' => cases (segment_of_run hcode hcode' hrun hrun' rfl rfl).2.1
      | call hcode' hrun' hk' hpush' hcallee' hrest' =>
          obtain ⟨rfl, hi, rfl⟩ := segment_of_run hcode hcode' hrun hrun' rfl rfl
          cases hi
          cases hk.symm.trans hk'
          cases hpush.symm.trans hpush'
          cases ihcallee hcallee' rfl
          exact ihrest hrest' ho
      | outside hcode' hrun' => cases (segment_of_run hcode hcode' hrun hrun' rfl rfl).2.1
  | callStop => cases ho
  | outside hcode hrun hpush hout _ ihrest =>
      cases h' with
      | ret hcode' hrun' => cases (segment_of_run hcode hcode' hrun hrun' rfl rfl).2.1
      | call hcode' hrun' => cases (segment_of_run hcode hcode' hrun hrun' rfl rfl).2.1
      | outside hcode' hrun' hpush' hout' hrest' =>
          obtain ⟨rfl, hi, rfl⟩ := segment_of_run hcode hcode' hrun hrun' rfl rfl
          cases hi
          cases hpush.symm.trans hpush'
          cases henv _ _ _ _ hout hout'
          exact ihrest hrest' ho

/-! ## The code around a program -/

/-- What stands at words keeps to its frame, and so does all that is called. -/
structure Tame (P : ι → Program) (At : Word → ι → ℕ → Prop) : Prop where
  disciplined : ∀ m, (P m).Disciplined
  accepts : ∀ a m k, At a m k → accepts .entry ((P m).code.drop k) = true

/-- Programs that keep to their frames are well-behaved outside code for each other.
-/
theorem wellBehaved_calledEnv (hP : Tame P At) (hout : WellBehaved outside top) (n : ℕ) :
    WellBehaved (calledEnv P At top outside n) top := by
  induction n with
  | zero =>
      exact ⟨fun a s t h => hout.rsp a s t h.2, fun a s t h => hout.rbp a s t h.2,
        fun a s t x h => hout.mem a s t x h.2⟩
  | succ n ih =>
      have hrestored : ∀ {m k a s t}, At a m k → s.sp + 8 ≤ top →
          Eval (P m) (calledEnv P At top outside n) k s (some t) →
          Restored top ⟨s.mem.load s.sp, s.regs .rbp, s.regs .rsp⟩ s t :=
        fun hat hle heval =>
          heval.restored (hP.disciplined _) ih (hP.accepts _ _ _ hat) ⟨rfl, rfl, rfl⟩ hle
      refine ⟨?_, ?_, ?_⟩
      · rintro a s t (⟨m, k, hat, hle, heval⟩ | h)
        · exact (hrestored hat hle heval).rsp
        · exact hout.rsp a s t h.2
      · rintro a s t (⟨m, k, hat, hle, heval⟩ | h)
        · exact (hrestored hat hle heval).rbp
        · exact hout.rbp a s t h.2
      · rintro a s t x (⟨m, k, hat, hle, heval⟩ | h)
        · exact (hrestored hat hle heval).mem x
        · exact hout.mem a s t x h.2

/-- Programs with faithful code in the place of the code of others.  A word that
leads to code of one of them leads to code in its place, and a word that leads
nowhere still leads nowhere. -/
structure InPlace (P P' : ι → Program) (At At' : Word → ι → ℕ → Prop) (W : Set Word) : Prop where
  tame : Tame P At
  tame' : Tame P' At'
  refines : ∀ m, Refines (P m) (P' m)
  faithful : ∀ a m k, At a m k → ∃ k', At' a m k' ∧
    Faithful (P m) (P' m) .entry ((P m).code.drop k) ((P' m).code.drop k')
  none : ∀ a, (∀ m k, ¬ At a m k) → ∀ m k, ¬ At' a m k
  address : ∀ m k, (P m).address k ∈ W
  address' : ∀ m k, (P' m).address k ∈ W

/-- A state on entry to a function is like one that is the same for its caller. -/
theorem matched_of_same {B : Set ℕ} {s' : State} (hle : s.sp + 8 ≤ top)
    (hB : ∀ b ∈ B, s.sp ≤ b ∧ b + 8 ≤ top ∧ s.mem.load b ∈ W ∧ s'.mem.load b ∈ W)
    (h : Same B s.sp s s') :
    Matched W top B ⟨s.mem.load s.sp, s.regs .rbp, s.regs .rsp⟩ .entry s s' where
  inPhase := ⟨rfl, rfl, rfl⟩
  alike := ⟨h.regs, fun _ hx hlt => absurd hx (Nat.not_le.mpr hlt)⟩
  above := h.mem
  slots b hb := ⟨(hB b hb).1, (hB b hb).2.1⟩
  words b hb := (hB b hb).2.2
  below := hle

/-- What is carried from each program to the one in its place. -/
theorem InPlace.carried (h : InPlace P P' At At' W) (hout : WellBehaved outside top)
    (hcarries : (calledEnv P At top outside n).Carries (calledEnv P' At' top outside n) W top)
    (m : ι) : Carried (P m) (P' m) (calledEnv P At top outside n)
      (calledEnv P' At' top outside n) top W where
  refines := h.refines m
  disciplined := h.tame.disciplined m
  disciplined' := h.tame'.disciplined m
  wellBehaved := wellBehaved_calledEnv h.tame hout n
  wellBehaved' := wellBehaved_calledEnv h.tame' hout n
  carries := hcarries
  address := h.address m
  address' := h.address' m

/-- **All programs can be put in the place of others at once.**  By induction on the
number of calls that cross: each of them is a call of a program in whose place
another stands, with one less for what it calls in turn. -/
theorem InPlace.carries (h : InPlace P P' At At' W) (hout : WellBehaved outside top)
    (hind : outside.Indifferent W) (n : ℕ) :
    (calledEnv P At top outside n).Carries (calledEnv P' At' top outside n) W top := by
  induction n with
  | zero =>
      rintro a B s s' t hle hB hsame ⟨hnone, ht⟩
      obtain ⟨t', ht', hsame'⟩ := hind.carries top a B s s' t hle hB hsame ht
      exact ⟨t', ⟨h.none a hnone, ht'⟩, hsame'⟩
  | succ n ih =>
      rintro a B s s' t hle hB hsame (⟨m, k, hat, -, heval⟩ | ⟨hnone, ht⟩)
      · obtain ⟨k', hat', hf⟩ := h.faithful a m k hat
        obtain ⟨t', ht', hsame'⟩ :=
          heval.carry (h.carried hout ih m) hf (matched_of_same hle hB hsame)
        have hsp : s'.sp = s.sp := by rw [State.sp, State.sp, hsame.regs]
        exact ⟨t', .inl ⟨m, k', hat', hsp ▸ hle, ht'⟩, hsame'⟩
      · obtain ⟨t', ht', hsame'⟩ := hind.carries top a B s s' t hle hB hsame ht
        exact ⟨t', .inr ⟨h.none a hnone, ht'⟩, hsame'⟩

end ParaOS.X86
