import Mathlib.Algebra.Order.BigOperators.Group.Finset
import ParaOS.Machine.Interleaving

/-!
# `paraos::kernel`: `Kernel::run`

All cores run `Kernel::run` with one `StartBarrier`.  Whichever comes first makes
the barrier, for as many cores as there are; the bootstrap core initialises while
the others go on to `wait`.

The barrier is a `spin::Once<spin::Barrier>`, which is not part of the repository.
It is a parameter here, by what can be seen of it: calls of `call_once` and `wait`
and their returns (`BarrierEvent`).  `OnceBarrier.Documented` is what its
documentation says of sequences of these, and `OnceBarrier.reference` is one that
works like the crate's.

Why no core gets past `wait` before initialisation is over: a core calls `wait`
once, so the calls are as many as the cores that have got that far, and the
barrier opens only when that is all of them, the bootstrap core included
(`Booting.all_arrived`).

### What is load-bearing

`hcores` says that every core counts as many cores as there are.  It is a property
of the loader, and the barrier takes its size from whichever core comes first; if
that one counted too few, the barrier would open early.  `hboot` says that exactly
one core has the identifier of the bootstrap processor.  With none `bootstrap_init`
would never be invoked and with two it would be invoked twice; nothing in `run`
would notice either.

Nothing is asked about fairness or about the order of steps.  All of it is safety,
and the invariant `Booting` holds in any configuration that can be reached.
-/

namespace ParaOS.Paraos

open Machine

/-! ## The start barrier

A barrier is a machine that can be used in any way, and what its documentation
promises is a property of the sequences of calls and returns that it has.  It
promises nothing about who makes the barrier, or in which order cores are let
through. -/

/-- What can be seen of a `StartBarrier`. -/
inductive BarrierEvent (ι : Type) where
  /-- a core calls `call_once`, with a closure for a barrier of this size -/
  | callOnce (i : ι) (size : ℕ)
  /-- `call_once` returns -/
  | given (i : ι)
  /-- a core calls `wait` -/
  | wait (i : ι)
  /-- `wait` returns -/
  | pass (i : ι)

/-- A call of `wait`. -/
def BarrierEvent.isWait {ι : Type} : BarrierEvent ι → Bool
  | .wait _ => true
  | _ => false

/-- `spin::Once<spin::Barrier>` -/
structure OnceBarrier (ι : Type) where
  St : Type
  /-- `Once::new` -/
  new : St
  step : St → BarrierEvent ι → St → Prop

variable {ι : Type}

/-- What can be seen of a barrier from its creation on. -/
inductive OnceBarrier.Runs (B : OnceBarrier ι) : List (BarrierEvent ι) → B.St → Prop where
  | new : B.Runs [] B.new
  | step {es : List (BarrierEvent ι)} {e : BarrierEvent ι} {st st' : B.St} :
      B.Runs es st → B.step st e st' → B.Runs (es ++ [e]) st'

/-- What the documentation of `spin` says: there is one barrier, made by one of
the closures, and `wait` returns only after as many calls of it as the barrier is
for. -/
def OnceBarrier.Documented (B : OnceBarrier ι) : Prop :=
  ∀ es st i, B.Runs es st → .pass i ∈ es →
    ∃ j size, .callOnce j size ∈ es ∧ size ≤ es.countP BarrierEvent.isWait

/-! ## `Kernel::run`

The cores take turns in any order, one step each.  A step is a call of the barrier,
a return from it, or what a core does by itself between two of them. -/

/-- What the cores of a machine find, and `Kernel` has. -/
structure Cores (ι : Type) where
  /-- `num_cores()` on a core -/
  numCores : ι → ℕ
  /-- `initial_local_apic_id()` on a core -/
  localApic : ι → ℕ
  bootstrapProcessorId : ℕ
  quiet : Bool

/-- `local_apic == self.bootstrap_processor_id` -/
def Cores.isBootstrapCore (m : Cores ι) (i : ι) : Prop :=
  m.localApic i = m.bootstrapProcessorId

instance (m : Cores ι) (i : ι) : Decidable (m.isBootstrapCore i) :=
  inferInstanceAs (Decidable (_ = _))

/-- Where a core is in `run`. -/
inductive Stage where
  | entry
  /-- in `call_once` -/
  | calling
  /-- with the barrier -/
  | obtained
  /-- in `bootstrap_init` -/
  | initializing
  /-- before `wait` -/
  | ready
  /-- in `wait` -/
  | waiting
  /-- behind `wait` -/
  | passed
  /-- `run` has returned -/
  | finished
  deriving DecidableEq

/-- The core has called `wait`. -/
def Stage.arrived : Stage → Bool
  | .waiting => true
  | .passed => true
  | .finished => true
  | _ => false

/-- The core has got past `wait`. -/
def Stage.past : Stage → Bool
  | .passed => true
  | .finished => true
  | _ => false

/-- What the cores share: the barrier, with what has been seen of it, the cores
that have invoked `bootstrap_init`, those on which it has returned, and what has
been printed. -/
structure Shared (B : OnceBarrier ι) where
  barrier : B.St
  events : List (BarrierEvent ι)
  invoked : List ι
  returned : List ι
  printed : List String

variable {B : OnceBarrier ι}

/-- Something is seen of the barrier. -/
def Shared.see (sh : Shared B) (e : BarrierEvent ι) (st : B.St) : Shared B :=
  { sh with
    barrier := st
    events := sh.events ++ [e] }

/-- `run`, on one core. -/
inductive run (m : Cores ι) (B : OnceBarrier ι) : Processes ι Stage (Shared B) where
  | callOnce {i : ι} {sh : Shared B} {st : B.St} :
      B.step sh.barrier (.callOnce i (m.numCores i)) st →
      run m B i .entry sh .calling (sh.see (.callOnce i (m.numCores i)) st)
  | given {i : ι} {sh : Shared B} {st : B.St} :
      B.step sh.barrier (.given i) st →
      run m B i .calling sh .obtained (sh.see (.given i) st)
  /-- `port.init()`, and then `bootstrap_init` is invoked -/
  | invoke {i : ι} {sh : Shared B} :
      m.isBootstrapCore i →
      run m B i .obtained sh .initializing { sh with invoked := sh.invoked ++ [i] }
  | returns {i : ι} {sh : Shared B} :
      run m B i .initializing sh .ready { sh with returned := sh.returned ++ [i] }
  | skip {i : ι} {sh : Shared B} :
      ¬ m.isBootstrapCore i → run m B i .obtained sh .ready sh
  | wait {i : ι} {sh : Shared B} {st : B.St} :
      B.step sh.barrier (.wait i) st → run m B i .ready sh .waiting (sh.see (.wait i) st)
  | pass {i : ι} {sh : Shared B} {st : B.St} :
      B.step sh.barrier (.pass i) st → run m B i .waiting sh .passed (sh.see (.pass i) st)
  | greet {i : ι} {sh : Shared B} :
      m.isBootstrapCore i → m.quiet = false →
      run m B i .passed sh .finished { sh with
        printed := sh.printed ++ ["ParaOS [" ++ toString (m.numCores i) ++ " cores]\n"] }
  | finish {i : ι} {sh : Shared B} :
      ¬ (m.isBootstrapCore i ∧ m.quiet = false) → run m B i .passed sh .finished sh

/-- All cores before `run`. -/
def boot (B : OnceBarrier ι) : Config ι Stage (Shared B) := ⟨fun _ => .entry, B.new, [], [], [], []⟩

/-! ## The invariant

It ties what has been seen of the barrier to where the cores are.  The number of
calls of `wait` is the number of cores that have made one, and this is what the
documentation of the barrier can be used on. -/

/-- Where `bootstrap_init` has been invoked and where it has returned, by the
stage of the bootstrap core. -/
def Stage.log (b : ι) : Stage → List ι × List ι
  | .entry => ([], [])
  | .calling => ([], [])
  | .obtained => ([], [])
  | .initializing => ([b], [])
  | _ => ([b], [b])

/-- It is invoked once at most. -/
theorem Stage.log_fst (b : ι) (s : Stage) : (s.log b).1 = [] ∨ (s.log b).1 = [b] := by
  cases s <;> simp [Stage.log]

/-- A core that has arrived has initialised. -/
theorem Stage.log_of_arrived {s : Stage} (b : ι) (h : s.arrived = true) :
    s.log b = ([b], [b]) := by
  cases s <;> first | rfl | cases h

/-- What is known of a configuration if `b` is the bootstrap core. -/
structure Booting (m : Cores ι) [Fintype ι] (b : ι) (c : Config ι Stage (Shared B)) : Prop where
  runs : B.Runs c.shared.events c.shared.barrier
  sizes : ∀ j size, .callOnce j size ∈ c.shared.events → size = m.numCores j
  waits : c.shared.events.countP BarrierEvent.isWait = ∑ i, (c.own i).arrived.toNat
  passed : ∀ i, (c.own i).past = true → .pass i ∈ c.shared.events
  log : (c.shared.invoked, c.shared.returned) = (c.own b).log b
  initializing : ∀ i, c.own i = .initializing → i = b

section

variable [Fintype ι] {m : Cores ι} {b i : ι} {c c' : Config ι Stage (Shared B)}

/-- It holds before `run`. -/
theorem booting_boot (m : Cores ι) (b : ι) : Booting m b (boot B) := by
  refine ⟨.new, ?_, ?_, ?_, rfl, ?_⟩
  · intro j size h
    cases h
  · exact (Finset.sum_eq_zero fun i _ => rfl).symm
  · intro i h
    cases h
  · intro i h
    cases h

/-- **Once a core is past `wait`, all cores have called it.** -/
theorem Booting.all_arrived (hB : B.Documented) (hcores : ∀ i, m.numCores i = Fintype.card ι)
    (h : Booting m b c) (hi : (c.own i).past = true) (j : ι) : (c.own j).arrived = true := by
  obtain ⟨k, size, hsize, hle⟩ := hB _ _ _ h.runs (h.passed i hi)
  rw [h.sizes k size hsize, hcores, h.waits] at hle
  -- a sum of zeros and ones over all cores
  by_contra hj
  have hlt : ∑ i, (c.own i).arrived.toNat < ∑ _i : ι, 1 := by
    refine Finset.sum_lt_sum (fun i _ => Bool.toNat_le _) ⟨j, Finset.mem_univ j, ?_⟩
    rw [Bool.not_eq_true] at hj
    rw [hj]
    decide
  rw [← Fintype.card_eq_sum_ones] at hlt
  omega

variable [DecidableEq ι]

/-- What is to be checked of a step: the core that takes it accounts for what is
seen of the barrier, and the log is that of the bootstrap core. -/
theorem Booting.move {s s' : Stage} {sh : Shared B} (h : Booting m b c)
    (hs : (run m B).Step i c c') (hbefore : c.own i = s) (hafter : c'.own i = s')
    (hshared : c'.shared = sh) (es : List (BarrierEvent ι))
    (hevents : sh.events = c.shared.events ++ es) (hruns : B.Runs sh.events sh.barrier)
    (hsizes : ∀ j size, .callOnce j size ∈ es → size = m.numCores j)
    (hwaits : s.arrived.toNat + es.countP BarrierEvent.isWait = s'.arrived.toNat)
    (hpassed : s'.past = true → .pass i ∈ sh.events)
    (hlog : (sh.invoked, sh.returned) = (c'.own b).log b)
    (hinit : s' = .initializing → i = b) : Booting m b c' := by
  subst hbefore hafter hshared
  refine ⟨hruns, fun j size hmem => ?_, ?_, ?_, hlog, ?_⟩
  · rw [hevents] at hmem
    rcases List.mem_append.mp hmem with hmem | hmem
    · exact h.sizes j size hmem
    · exact hsizes j size hmem
  · have hsum := hs.sum_own fun s => s.arrived.toNat
    rw [hevents, List.countP_append, h.waits]
    omega
  · refine hs.forall_own (p := fun j s => s.past = true → .pass j ∈ c'.shared.events)
      (fun j hj => ?_) hpassed
    rw [hevents]
    exact List.mem_append_left _ (h.passed j hj)
  · exact hs.forall_own (p := fun j s => s = .initializing → j = b) h.initializing hinit

/-- The log of a step that leaves it as it is. -/
theorem Booting.log_step {s s' : Stage} (h : Booting m b c) (hs : (run m B).Step i c c')
    (hbefore : c.own i = s) (hafter : c'.own i = s') (hi : s'.log b = s.log b ∨ i ≠ b) :
    (c.shared.invoked, c.shared.returned) = (c'.own b).log b := by
  rw [h.log]
  by_cases hib : i = b
  · subst hib
    rw [hbefore, hafter, hi.resolve_right (fun hne => hne rfl)]
  · rw [hs.own_of_ne (Ne.symm hib)]

/-- **Every step keeps the invariant.** -/
theorem Booting.step (hboot : ∀ i, m.isBootstrapCore i ↔ i = b) (h : Booting m b c)
    (hs : (run m B).Step i c c') : Booting m b c' := by
  have hrun := hs.own_self
  generalize hbefore : c.own i = s, hafter : c'.own i = s', hshared : c'.shared = sh at hrun
  have hsame := h.log_step hs hbefore hafter
  have hlog := h.log
  cases hrun with
  | callOnce hst =>
      refine h.move hs hbefore hafter hshared [_] rfl (h.runs.step hst) ?_ rfl nofun
        (hsame (.inl rfl)) nofun
      intro j size hmem
      cases List.mem_singleton.mp hmem
      rfl
  | given hst =>
      exact h.move hs hbefore hafter hshared [_] rfl (h.runs.step hst) (by simp) rfl nofun
        (hsame (.inl rfl)) nofun
  | invoke hi =>
      obtain rfl := (hboot i).mp hi
      rw [hbefore, Stage.log, Prod.mk.injEq] at hlog
      refine h.move hs hbefore hafter hshared [] (by simp) h.runs (by simp) rfl nofun ?_
        fun _ => rfl
      simp [hafter, Stage.log, hlog]
  | returns =>
      obtain rfl := h.initializing i hbefore
      rw [hbefore, Stage.log, Prod.mk.injEq] at hlog
      refine h.move hs hbefore hafter hshared [] (by simp) h.runs (by simp) rfl nofun ?_ nofun
      simp [hafter, Stage.log, hlog]
  | skip hi =>
      exact h.move hs hbefore hafter hshared [] (by simp) h.runs (by simp) rfl nofun
        (hsame (.inr fun hib => hi ((hboot i).mpr hib))) nofun
  | wait hst =>
      exact h.move hs hbefore hafter hshared [_] rfl (h.runs.step hst) (by simp) rfl nofun
        (hsame (.inl rfl)) nofun
  | pass hst =>
      exact h.move hs hbefore hafter hshared [_] rfl (h.runs.step hst) (by simp) rfl
        (fun _ => List.mem_append_right _ List.mem_cons_self) (hsame (.inl rfl)) nofun
  | greet hi hquiet =>
      exact h.move hs hbefore hafter hshared [] (by simp) h.runs (by simp) rfl
        (fun _ => h.passed i (by rw [hbefore]; rfl)) (hsame (.inl rfl)) nofun
  | finish hi =>
      exact h.move hs hbefore hafter hshared [] (by simp) h.runs (by simp) rfl
        (fun _ => h.passed i (by rw [hbefore]; rfl)) (hsame (.inl rfl)) nofun

end

/-- **Boot rendezvous.**  Whatever the order in which the cores take their steps,
`bootstrap_init` is invoked at most once and on the bootstrap core only, and no core
is past `wait` before it has returned.

The barrier is any that does what the documentation of `spin` says.  A core that has
not got to the barrier may be anywhere, and need not ever get there. -/
theorem boot_rendezvous [Fintype ι] [DecidableEq ι] {m : Cores ι} {B : OnceBarrier ι}
    {c : Config ι Stage (Shared B)} (hB : B.Documented)
    (hcores : ∀ i, m.numCores i = Fintype.card ι) (hboot : ∃! i, m.isBootstrapCore i)
    (h : Processes.Reach (run m B) (fun _ _ => True) (boot B) c) :
    c.shared.invoked.length ≤ 1 ∧ (∀ i ∈ c.shared.invoked, m.isBootstrapCore i) ∧
      ((∃ i, (c.own i).past = true) →
        ∃ i, m.isBootstrapCore i ∧ c.shared.invoked = [i] ∧ c.shared.returned = [i]) := by
  obtain ⟨b, hb, hunique⟩ := hboot
  have hiff : ∀ i, m.isBootstrapCore i ↔ i = b := fun i => ⟨hunique i, fun h => h ▸ hb⟩
  have hinv : Booting m b c :=
    h.invariant (booting_boot m b) fun _ _ _ hc _ hs => hc.step hiff hs
  have hinvoked : c.shared.invoked = [] ∨ c.shared.invoked = [b] := by
    rw [show c.shared.invoked = ((c.own b).log b).1 from congrArg Prod.fst hinv.log]
    exact Stage.log_fst b _
  refine ⟨?_, ?_, ?_⟩
  · rcases hinvoked with h | h <;> simp [h]
  · intro i hi
    rcases hinvoked with h | h
    · rw [h] at hi
      cases hi
    · rw [h, List.mem_singleton] at hi
      exact hi ▸ hb
  · rintro ⟨i, hi⟩
    have hlog := hinv.log
    rw [Stage.log_of_arrived b (hinv.all_arrived hB hcores hi b), Prod.mk.injEq] at hlog
    exact ⟨b, hb, hlog⟩

/-! ## A barrier

One that works like the crate's: a generation is a number, cores that come wait for
it to change, and the last of them changes it.  It shows that what is asked of a
barrier can be met. -/

/-- The state of a `Once`. -/
inductive OnceStatus (ι : Type) where
  | incomplete
  /-- a core runs its closure -/
  | running (i : ι) (size : ℕ)
  | complete (size : ℕ)

/-- A core at a barrier. -/
inductive Presence where
  | absent
  /-- in the loop, since a generation -/
  | blocked (generation : ℕ)
  /-- the last to come -/
  | leader

/-- The state of a `Once<Barrier>`. -/
structure BarrierState (ι : Type) where
  status : OnceStatus ι
  count : ℕ
  generation : ℕ
  present : ι → Presence

/-- The cores that come before the last one are let through when the generation
has changed. -/
def barrierStep [DecidableEq ι] (st : BarrierState ι) : BarrierEvent ι → Option (BarrierState ι)
  | .callOnce i size =>
      match st.status with
      | .incomplete => some { st with status := .running i size }
      | _ => some st
  | .given i =>
      match st.status with
      | .incomplete => none
      | .running j size => if i = j then some { st with status := .complete size } else none
      | .complete _ => some st
  | .wait i =>
      match st.status with
      | .complete size =>
          if st.count + 1 < size then
            some { st with
              count := st.count + 1
              present := Function.update st.present i (.blocked st.generation) }
          else
            some { st with
              count := 0
              generation := st.generation + 1
              present := Function.update st.present i .leader }
      | _ => none
  | .pass i =>
      match st.status, st.present i with
      | .complete size, .blocked generation =>
          if generation ≠ st.generation ∨ size ≤ st.count then
            some { st with present := Function.update st.present i .absent }
          else none
      | .complete _, .leader => some { st with present := Function.update st.present i .absent }
      | _, _ => none

/-- `spin::Once<spin::Barrier>` -/
def OnceBarrier.reference (ι : Type) [DecidableEq ι] : OnceBarrier ι where
  St := BarrierState ι
  new := ⟨.incomplete, 0, 0, fun _ => .absent⟩
  step st e st' := barrierStep st e = some st'

/-- A core can be at a barrier in this generation. -/
def Presence.Within (generation : ℕ) : Presence → Prop
  | .absent => True
  | .blocked since => since ≤ generation
  | .leader => 1 ≤ generation

/-- Generations only grow. -/
theorem Presence.Within.mono {p : Presence} {generation generation' : ℕ} (h : p.Within generation)
    (hle : generation ≤ generation') : p.Within generation' := by
  cases p with
  | absent => trivial
  | blocked since => exact Nat.le_trans h hle
  | leader => exact Nat.le_trans h hle

/-- What is known of a barrier after some events: a generation takes as many
calls of `wait` as the barrier is for. -/
structure Spun (es : List (BarrierEvent ι)) (st : BarrierState ι) : Prop where
  made : ∀ size, (∃ i, st.status = .running i size) ∨ st.status = .complete size →
    ∃ j, .callOnce j size ∈ es
  unused : (∀ size, st.status ≠ .complete size) → st.generation = 0 ∧ st.count = 0
  counted : ∀ size, st.status = .complete size →
    st.generation * size + st.count ≤ es.countP BarrierEvent.isWait
  present : ∀ i, (st.present i).Within st.generation
  passed : ∀ i, .pass i ∈ es →
    ∃ j size, .callOnce j size ∈ es ∧ size ≤ es.countP BarrierEvent.isWait

section

variable {es : List (BarrierEvent ι)} {e : BarrierEvent ι} {st st' : BarrierState ι}

/-- An event that leaves the barrier as it is. -/
theorem Spun.see (h : Spun es st) (hpass : ∀ i, e = .pass i →
    ∃ j size, .callOnce j size ∈ es ∧ size ≤ es.countP BarrierEvent.isWait) :
    Spun (es ++ [e]) st := by
  have hle : es.countP BarrierEvent.isWait ≤ (es ++ [e]).countP BarrierEvent.isWait :=
    (List.sublist_append_left es [e]).countP_le
  refine ⟨fun size hsize => ?_, h.unused, fun size hsize => (h.counted size hsize).trans hle,
    h.present, fun i hi => ?_⟩
  · obtain ⟨j, hj⟩ := h.made size hsize
    exact ⟨j, List.mem_append_left _ hj⟩
  · have hpassed : ∃ j size, .callOnce j size ∈ es ∧ size ≤ es.countP BarrierEvent.isWait := by
      rcases List.mem_append.mp hi with hi | hi
      · exact h.passed i hi
      · exact hpass i (List.mem_singleton.mp hi).symm
    obtain ⟨j, size, hj, hsize⟩ := hpassed
    exact ⟨j, size, List.mem_append_left _ hj, hsize.trans hle⟩

/-- Whoever is let through comes after enough calls of `wait`. -/
theorem Spun.open (h : Spun es st) {size : ℕ} (hsize : st.status = .complete size)
    (hopen : 1 ≤ st.generation ∨ size ≤ st.count) :
    ∃ j size, .callOnce j size ∈ es ∧ size ≤ es.countP BarrierEvent.isWait := by
  obtain ⟨j, hj⟩ := h.made size (.inr hsize)
  refine ⟨j, size, hj, ?_⟩
  have hcounted := h.counted size hsize
  rcases hopen with hopen | hopen
  · have := Nat.mul_le_mul_right size hopen
    omega
  · omega

variable [DecidableEq ι]

/-- A core calls `call_once`: the first runs its closure. -/
theorem Spun.callOnce {i : ι} {size : ℕ} (h : Spun es st)
    (hst : barrierStep st (.callOnce i size) = some st') : Spun (es ++ [.callOnce i size]) st' := by
  have h' := h.see (e := .callOnce i size) nofun
  rw [barrierStep] at hst
  split at hst
  · rename_i hstatus
    cases hst
    have hnone : ∀ size, st.status ≠ .complete size := by
      intro size heq
      rw [hstatus] at heq
      cases heq
    refine ⟨?_, fun _ => h.unused hnone, nofun, h'.present, h'.passed⟩
    rintro size' (⟨j, heq⟩ | heq)
    · cases heq
      exact ⟨i, by simp⟩
    · cases heq
  · cases hst
    exact h'

/-- It returns, and then there is a barrier. -/
theorem Spun.given {i : ι} (h : Spun es st) (hst : barrierStep st (.given i) = some st') :
    Spun (es ++ [.given i]) st' := by
  have h' := h.see (e := .given i) nofun
  rw [barrierStep] at hst
  split at hst
  · cases hst
  · rename_i j size hstatus
    split_ifs at hst
    cases hst
    have hnone : ∀ size, st.status ≠ .complete size := by
      intro size heq
      rw [hstatus] at heq
      cases heq
    obtain ⟨hgen, hcount⟩ := h.unused hnone
    refine ⟨?_, fun hne => absurd rfl (hne size), ?_, h'.present, h'.passed⟩
    · rintro size' (⟨j', heq⟩ | heq)
      · cases heq
      · cases heq
        exact h'.made size (.inl ⟨j, hstatus⟩)
    · intro size' heq
      simp [hgen, hcount]
  · cases hst
    exact h'

/-- The presence of all cores after that of one has changed. -/
theorem Spun.present_update (h : Spun es st) {generation : ℕ} (hle : st.generation ≤ generation)
    (i : ι) {p : Presence} (hp : p.Within generation) (j : ι) :
    (Function.update st.present i p j).Within generation := by
  by_cases hj : j = i
  · subst hj
    rwa [Function.update_self]
  · rw [Function.update_of_ne hj]
    exact (h.present j).mono hle

/-- A core comes to the barrier, and if it is the last the generation changes. -/
theorem Spun.wait {i : ι} (h : Spun es st) (hst : barrierStep st (.wait i) = some st') :
    Spun (es ++ [.wait i]) st' := by
  have h' := h.see (e := .wait i) nofun
  have hcount : (es ++ [BarrierEvent.wait i]).countP BarrierEvent.isWait =
      es.countP BarrierEvent.isWait + 1 := by
    rw [List.countP_append]
    rfl
  rw [barrierStep] at hst
  split at hst
  · rename_i size hstatus
    have hcounted := h.counted size hstatus
    have hsize : ∀ size', st.status = .complete size' → size' = size := by
      intro size' heq
      rw [hstatus] at heq
      cases heq
      rfl
    split_ifs at hst with hlt
    · cases hst
      refine ⟨h'.made, fun hne => absurd hstatus (hne size), fun size' heq => ?_,
        h.present_update le_rfl i le_rfl, h'.passed⟩
      obtain rfl := hsize size' heq
      rw [hcount]
      dsimp only
      omega
    · -- the last one to come starts the next generation
      cases hst
      refine ⟨h'.made, fun hne => absurd hstatus (hne size), fun size' heq => ?_,
        h.present_update (Nat.le_succ _) i (Nat.succ_pos _), h'.passed⟩
      obtain rfl := hsize size' heq
      rw [hcount]
      dsimp only
      rw [Nat.succ_mul]
      omega
  · cases hst

/-- A core is let through if its generation is over. -/
theorem Spun.pass {i : ι} (h : Spun es st) (hst : barrierStep st (.pass i) = some st') :
    Spun (es ++ [.pass i]) st' := by
  have hpresent := h.present i
  have hleave : ∀ {size}, st.status = .complete size → (1 ≤ st.generation ∨ size ≤ st.count) →
      Spun (es ++ [.pass i]) { st with present := Function.update st.present i .absent } := by
    intro size hstatus hopen
    have h' := h.see (e := .pass i) fun _ _ => h.open hstatus hopen
    exact ⟨h'.made, h'.unused, h'.counted, h.present_update le_rfl i trivial, h'.passed⟩
  rw [barrierStep] at hst
  split at hst
  · rename_i size generation hstatus hblocked
    rw [hblocked] at hpresent
    split_ifs at hst with hopen
    cases hst
    refine hleave hstatus (hopen.imp_left fun hne => ?_)
    have : generation ≤ st.generation := hpresent
    omega
  · rename_i size hstatus hleader
    rw [hleader] at hpresent
    cases hst
    exact hleave hstatus (.inl hpresent)
  · cases hst

/-- **The barrier is as documented.** -/
theorem OnceBarrier.reference_documented : (OnceBarrier.reference ι).Documented := by
  intro es st i hruns hpass
  have hspun : Spun es st := by
    clear hpass
    induction hruns with
    | new =>
        exact ⟨nofun, fun _ => ⟨rfl, rfl⟩, nofun, fun _ => trivial, fun _ h => by cases h⟩
    | @step es e st st' _ hst ih =>
        cases e with
        | callOnce i size => exact ih.callOnce hst
        | given i => exact ih.given hst
        | wait i => exact ih.wait hst
        | pass i => exact ih.pass hst
  exact hspun.passed i hpass

end

/-- Two cores; core `0` is the bootstrap core. -/
def twoCores : Cores (Fin 2) := ⟨fun _ => 2, fun i => i, 0, true⟩

/-- Core `1` gets past `wait` after core `0` has initialised and arrived. -/
theorem boot_rendezvous_instance :
    ∃ c : Config (Fin 2) Stage (Shared (OnceBarrier.reference (Fin 2))),
      Processes.Reach (run twoCores (OnceBarrier.reference (Fin 2))) (fun _ _ => True) (boot _) c ∧
      c.own 1 = .passed ∧
      ∃ i, twoCores.isBootstrapCore i ∧ c.shared.invoked = [i] ∧ c.shared.returned = [i] := by
  have h₀ : Processes.Reach (run twoCores (OnceBarrier.reference (Fin 2))) (fun _ _ => True)
      (boot _) (boot _) := .refl
  have h₁ := h₀.step (i := 0) trivial ⟨_, _, .callOnce rfl, rfl⟩
  have h₂ := h₁.step (i := 1) trivial ⟨_, _, .callOnce rfl, rfl⟩
  have h₃ := h₂.step (i := 0) trivial ⟨_, _, .given rfl, rfl⟩
  have h₄ := h₃.step (i := 0) trivial ⟨_, _, .invoke rfl, rfl⟩
  have h₅ := h₄.step (i := 1) trivial ⟨_, _, .given rfl, rfl⟩
  have h₆ := h₅.step (i := 1) trivial ⟨_, _, .skip (by decide), rfl⟩
  have h₇ := h₆.step (i := 1) trivial ⟨_, _, .wait rfl, rfl⟩
  have h₈ := h₇.step (i := 0) trivial ⟨_, _, .returns, rfl⟩
  have h₉ := h₈.step (i := 0) trivial ⟨_, _, .wait rfl, rfl⟩
  have hreach := h₉.step (i := 1) trivial ⟨_, _, .pass rfl, rfl⟩
  have hboot : ∃! i, twoCores.isBootstrapCore i := ⟨0, rfl, of_decide_eq_true rfl⟩
  obtain ⟨-, -, hinit⟩ :=
    boot_rendezvous OnceBarrier.reference_documented (fun _ => rfl) hboot hreach
  exact ⟨_, hreach, rfl, hinit ⟨1, rfl⟩⟩

end ParaOS.Paraos
