import ParaOS.Paraos.Leader
import ParaOS.Paraos.Startup

/-!
# `paraos::test`: the test runner

In the test build all cores run all tests.  One of them, picked by `pick_leader_core`,
reports; when the tests are over a leader is picked again, and that core writes `0` to
the port at which QEMU exits.  A core on which a test panics writes `1` there.

That the run can be trusted rests on the second rendezvous.  A core gets there only when
it has returned from all tests, and nobody is let through before all cores are there.
So `0` is written by one core at most, and only when all tests have returned on all cores
and the report is complete (`success_reported`).  The two leaders need not be the same
core.  That there is one of each takes an argument: the barrier only promises one
leader for each rendezvous, and the rendezvous could overlap if a core got to the second
before all were through the first.

### What is load-bearing

`haccesses` says that no test writes `0` to the exit port itself.  A test may do
whatever it likes at any other port; but one that did this would end QEMU with
success by itself, and there is nothing the runner could do about it.  Tests may
also panic anywhere, or never return: `fails` is who does not return, and is not
asked to be decidable or the same on all cores.

`write_char` polls the transmitter before each byte.  How often it is found busy is
part of the suite (`busy`), a number for every byte that the runner writes with it;
that there is such a number, so that the loop ends, is what is known of the UART
(`ParaOS.Paraos.Uart`).  Polls write nothing, so the number makes no difference to
what is reported.

### Why two rendezvous are enough

At the second rendezvous all cores have called `wait` twice, so there have been two
rounds or more.  In the first round one leader at most has been let through and all
others were not leaders; with as many calls as there are cores, exactly one was.
Leaders of both rounds together are two at most, which leaves one for the second.
-/

namespace ParaOS.Paraos

open Machine

/-! ## The runner

The test build of `_start`, core by core and access by access.  A core is at a
place, knows whether it reports, and has a list of things to do at the port before
it goes on.  A test that panics is left at any time, with its list undone. -/

/-- The port at which QEMU exits. -/
def exitPort : UInt16 := 0x501

/-- `write_char`, when the transmitter is found busy so many times before it is empty. -/
def writeCharSteps (busy : ℕ) (c : Char) : List PortStep :=
  .lock :: .unlock :: (List.replicate (busy + 1) .poll ++ [.outb (com1 + 0) (asU8 c)])

/-- `panic` of the test build: `panic_print`, and exit with `1`. -/
def panicSteps (info : List String) : List PortStep :=
  initSteps ++ fmtSteps ("\n" :: info ++ ["\n"]) ++ [.outb exitPort 1]

/-- Tests, and the cores they run on. -/
structure TestSuite (ι : Type) where
  /-- `num_cores()` on a core -/
  numCores : ι → ℕ
  /-- `tests.len()` -/
  count : ℕ
  /-- what a test does at the port -/
  accesses : ι → ℕ → List PortStep
  /-- a test does not return on a core -/
  fails : ι → ℕ → Prop
  /-- the pieces of the `PanicInfo` of a test, or of `unreachable!()` -/
  panicInfo : ι → Option ℕ → List String
  /-- how often a core finds the transmitter busy after so many tests -/
  busy : ι → ℕ → ℕ

/-- Where a core is in `pick_leader_core`. -/
inductive Picking where
  | entry
  /-- in `call_once` -/
  | calling
  /-- with the barrier -/
  | obtained
  /-- in `wait` -/
  | waiting
  deriving DecidableEq

/-- Where a core is. -/
inductive Place where
  /-- in `pick_leader_core`, for the first time or again -/
  | picking (again : Bool) (p : Picking)
  /-- `test_runner`, after so many tests -/
  | between (k : ℕ)
  | inTest (k : ℕ)
  /-- the core that has been picked again -/
  | exiting
  /-- the others -/
  | looping
  /-- after a panic in a test, or at `unreachable!()` -/
  | panicking (test : Option ℕ)
  deriving DecidableEq

/-- A core: where it is, `leader` of `test_runner`, and what it has still to do at the
port. -/
structure Tester where
  place : Place
  leader : Bool
  todo : List PortStep

/-- What the cores share: the barrier, with what has been seen of it, and the port. -/
structure Harness {ι : Type} (B : LeaderBarrier ι) where
  barrier : B.St
  events : List (LeaderEvent ι)
  wire : Wire ι

variable {ι : Type} {B : LeaderBarrier ι}

/-- Something is seen of the barrier. -/
def Harness.see (h : Harness B) (e : LeaderEvent ι) (st : B.St) : Harness B :=
  { h with
    barrier := st
    events := h.events ++ [e] }

namespace TestSuite

variable (S : TestSuite ι)

/-- Before the first test. -/
def opening (leader : Bool) : List PortStep :=
  initSteps ++ if leader then fmtSteps ["Running ", toString S.count, " tests\n"] else []

/-- After a test. -/
def dot (i : ι) (k : ℕ) (leader : Bool) : List PortStep :=
  if leader then writeCharSteps (S.busy i k) '.' else []

/-- After all tests. -/
def closing (i : ι) (leader : Bool) : List PortStep :=
  if leader then writeCharSteps (S.busy i S.count) '\n' else []

/-- The test build, on one core. -/
inductive run (B : LeaderBarrier ι) : Processes ι Tester (Harness B) where
  | port {i : ι} {place : Place} {leader : Bool} {step : PortStep} {todo : List PortStep}
      {h : Harness B} {w : Wire ι} :
      step.Does i h.wire w →
      run B i ⟨place, leader, step :: todo⟩ h ⟨place, leader, todo⟩ { h with wire := w }
  | callOnce {i : ι} {again leader : Bool} {h : Harness B} {st : B.St} :
      B.step h.barrier (.callOnce i (S.numCores i)) st →
      run B i ⟨.picking again .entry, leader, []⟩ h ⟨.picking again .calling, leader, []⟩
        (h.see (.callOnce i (S.numCores i)) st)
  | given {i : ι} {again leader : Bool} {h : Harness B} {st : B.St} :
      B.step h.barrier (.given i) st →
      run B i ⟨.picking again .calling, leader, []⟩ h ⟨.picking again .obtained, leader, []⟩
        (h.see (.given i) st)
  | wait {i : ι} {again leader : Bool} {h : Harness B} {st : B.St} :
      B.step h.barrier (.wait i) st →
      run B i ⟨.picking again .obtained, leader, []⟩ h ⟨.picking again .waiting, leader, []⟩
        (h.see (.wait i) st)
  | begin {i : ι} {leader leader' : Bool} {h : Harness B} {st : B.St} :
      B.step h.barrier (.pass i leader') st →
      run B i ⟨.picking false .waiting, leader, []⟩ h ⟨.between 0, leader', S.opening leader'⟩
        (h.see (.pass i leader') st)
  | enter {i : ι} {k : ℕ} {leader : Bool} {h : Harness B} :
      k < S.count →
      run B i ⟨.between k, leader, []⟩ h ⟨.inTest k, leader, S.accesses i k⟩ h
  | returns {i : ι} {k : ℕ} {leader : Bool} {h : Harness B} :
      ¬ S.fails i k →
      run B i ⟨.inTest k, leader, []⟩ h ⟨.between (k + 1), leader, S.dot i k leader⟩ h
  | panics {i : ι} {k : ℕ} {leader : Bool} {todo : List PortStep} {h : Harness B} :
      run B i ⟨.inTest k, leader, todo⟩ h
        ⟨.panicking (some k), leader, panicSteps (S.panicInfo i (some k))⟩ h
  | finish {i : ι} {leader : Bool} {h : Harness B} :
      run B i ⟨.between S.count, leader, []⟩ h ⟨.picking true .entry, leader, S.closing i leader⟩ h
  | exit {i : ι} {leader : Bool} {h : Harness B} {st : B.St} :
      B.step h.barrier (.pass i true) st →
      run B i ⟨.picking true .waiting, leader, []⟩ h ⟨.exiting, leader, [.outb exitPort 0]⟩
        (h.see (.pass i true) st)
  | loop {i : ι} {leader : Bool} {h : Harness B} {st : B.St} :
      B.step h.barrier (.pass i false) st →
      run B i ⟨.picking true .waiting, leader, []⟩ h ⟨.looping, leader, []⟩
        (h.see (.pass i false) st)
  | unreachable {i : ι} {leader : Bool} {h : Harness B} :
      run B i ⟨.exiting, leader, []⟩ h
        ⟨.panicking none, leader, panicSteps (S.panicInfo i none)⟩ h

end TestSuite

/-- All cores before the tests. -/
def testStart (B : LeaderBarrier ι) : Config ι Tester (Harness B) :=
  ⟨fun _ => ⟨.picking false .entry, false, []⟩, ⟨B.new, [], ⟨none, []⟩⟩⟩

/-! ## Where cores are, in numbers

How often a core has called `wait` and has returned from it is known from its place,
and so is whether it has been picked.  Sums of these over all cores are what the
barrier has been seen to do. -/

namespace Place

/-- The calls of `wait` so far. -/
def waits : Place → ℕ
  | .picking false .waiting => 1
  | .picking false _ => 0
  | .picking true .waiting => 2
  | .exiting => 2
  | .looping => 2
  | .panicking none => 2
  | _ => 1

/-- The returns from it so far. -/
def passes : Place → ℕ
  | .picking false _ => 0
  | .exiting => 2
  | .looping => 2
  | .panicking none => 2
  | _ => 1

/-- The core has been picked to exit. -/
def exits : Place → Bool
  | .exiting => true
  | .panicking none => true
  | _ => false

/-- The core has been passed over. -/
def loops : Place → Bool
  | .looping => true
  | _ => false

/-- A core calls `wait` twice at most. -/
theorem waits_le (p : Place) : p.waits ≤ 2 := by
  cases p with
  | picking again p => cases again <;> cases p <;> decide
  | exiting => exact Nat.le_refl 2
  | looping => exact Nat.le_refl 2
  | panicking test => cases test <;> simp [waits]
  | _ => exact Nat.le_succ 1

/-- Who has called `wait` for the second time has returned from the first. -/
theorem passes_pos {p : Place} (h : p.waits = 2) : 0 < p.passes := by
  cases p with
  | picking again p => cases again <;> cases p <;> simp_all [waits, passes]
  | panicking test => cases test <;> simp [passes]
  | _ => simp [passes]

end Place

namespace Tester

/-- The core is the leader of the first rendezvous. -/
def led (t : Tester) : ℕ := (decide (0 < t.place.passes) && t.leader).toNat

/-- The core is another of the first rendezvous. -/
def followed (t : Tester) : ℕ := (decide (0 < t.place.passes) && !t.leader).toNat

/-- The returns from `wait` as the leader. -/
def leads (t : Tester) : ℕ := t.led + t.place.exits.toNat

/-- The other returns from it. -/
def follows (t : Tester) : ℕ := t.followed + t.place.loops.toNat

/-- Who has been let through was the leader or not. -/
theorem led_add_followed {t : Tester} (h : 0 < t.place.passes) : t.led + t.followed = 1 := by
  rw [led, followed, decide_eq_true h]
  cases t.leader <;> rfl

/-- It is the leader if it has been told so. -/
theorem led_eq {t : Tester} (h : 0 < t.place.passes) : t.led = t.leader.toNat := by
  rw [led, decide_eq_true h, Bool.true_and]

end Tester

section

variable [Fintype ι] {c : Config ι Tester (Harness B)}

/-- Two for every core. -/
theorem sum_two : ∑ _j : ι, 2 = 2 * Fintype.card ι := by
  rw [Finset.sum_const_nat fun _ _ => rfl, Finset.card_univ, Nat.mul_comm]

/-- All calls of `wait` together. -/
theorem sum_waits_le (c : Config ι Tester (Harness B)) :
    ∑ j, (c.own j).place.waits ≤ 2 * Fintype.card ι :=
  sum_two (ι := ι) ▸ Finset.sum_le_sum fun j _ => (c.own j).place.waits_le

/-- Leaders of the first rendezvous and of the second. -/
theorem sum_leads (c : Config ι Tester (Harness B)) :
    ∑ j, (c.own j).leads = ∑ j, (c.own j).led + ∑ j, (c.own j).place.exits.toNat :=
  Finset.sum_add_distrib

/-- A core that has been let through for the first time was the leader or not. -/
theorem sum_led_add_followed (hpasses : ∀ j, 0 < (c.own j).place.passes) :
    ∑ j, (c.own j).led + ∑ j, (c.own j).followed = Fintype.card ι := by
  rw [← Finset.sum_add_distrib, Fintype.card_eq_sum_ones]
  exact Finset.sum_congr rfl fun j _ => Tester.led_add_followed (hpasses j)

/-- When all have been let through for the first time, one of them was the leader. -/
theorem one_le_sum_led (i : ι) (hpasses : ∀ j, 0 < (c.own j).place.passes)
    (hfollowed : ∑ j, (c.own j).followed ≤ Fintype.card ι - 1) : 1 ≤ ∑ j, (c.own j).led := by
  have hsum := sum_led_add_followed hpasses
  have hpos : 0 < Fintype.card ι := Fintype.card_pos_iff.mpr ⟨i⟩
  omega

end

section

variable [DecidableEq ι] [Fintype ι] {S : TestSuite ι} {c c' : Config ι Tester (Harness B)} {i : ι}

/-- The barrier has seen what the cores have done. -/
structure Tallied (S : TestSuite ι) (c : Config ι Tester (Harness B)) : Prop where
  runs : B.Runs c.shared.events c.shared.barrier
  sizes : ∀ j size, .callOnce j size ∈ c.shared.events → size = S.numCores j
  waits : c.shared.events.countP LeaderEvent.isWait = ∑ j, (c.own j).place.waits
  passes : ∀ j, c.shared.events.countP (LeaderEvent.isPassOf j) = (c.own j).place.passes
  leads : c.shared.events.countP (LeaderEvent.isPass true) = ∑ j, (c.own j).leads
  follows : c.shared.events.countP (LeaderEvent.isPass false) = ∑ j, (c.own j).follows

/-- Nothing has been seen before the tests. -/
theorem tallied_testStart (S : TestSuite ι) : Tallied S (testStart B) where
  runs := .new
  sizes := nofun
  waits := (Finset.sum_eq_zero fun _ _ => rfl).symm
  passes _ := rfl
  leads := (Finset.sum_eq_zero fun _ _ => rfl).symm
  follows := (Finset.sum_eq_zero fun _ _ => rfl).symm

/-- A step, with what is seen of the barrier. -/
theorem Tallied.move (h : Tallied S c) (hs : (S.run B).Step i c c') (es : List (LeaderEvent ι))
    (hevents : c'.shared.events = c.shared.events ++ es)
    (hruns : B.Runs (c.shared.events ++ es) c'.shared.barrier)
    (hsizes : ∀ j size, .callOnce j size ∈ es → size = S.numCores j)
    (hnone : ∀ j, j ≠ i → es.countP (LeaderEvent.isPassOf j) = 0)
    (hwaits : (c'.own i).place.waits = (c.own i).place.waits + es.countP LeaderEvent.isWait)
    (hpasses : (c'.own i).place.passes =
      (c.own i).place.passes + es.countP (LeaderEvent.isPassOf i))
    (hleads : (c'.own i).leads = (c.own i).leads + es.countP (LeaderEvent.isPass true))
    (hfollows : (c'.own i).follows = (c.own i).follows + es.countP (LeaderEvent.isPass false)) :
    Tallied S c' where
  runs := by
    rw [hevents]
    exact hruns
  sizes j size hj := by
    rw [hevents] at hj
    exact (List.mem_append.mp hj).elim (h.sizes j size) (hsizes j size)
  waits := by
    have hsum := hs.sum_own fun t => t.place.waits
    have hold := h.waits
    rw [hevents, List.countP_append]
    omega
  passes j := by
    rw [hevents, List.countP_append, h.passes]
    by_cases hj : j = i
    · subst hj
      exact hpasses.symm
    · rw [hnone j hj, hs.own_of_ne hj]
      rfl
  leads := by
    have hsum := hs.sum_own Tester.leads
    have hold := h.leads
    rw [hevents, List.countP_append]
    omega
  follows := by
    have hsum := hs.sum_own Tester.follows
    have hold := h.follows
    rw [hevents, List.countP_append]
    omega

/-- A step in which nothing is seen of the barrier. -/
theorem Tallied.silent (h : Tallied S c) (hs : (S.run B).Step i c c') {t t' : Tester} {w : Wire ι}
    (hbefore : c.own i = t) (hafter : c'.own i = t')
    (hshared : c'.shared = { c.shared with wire := w })
    (hwaits : t'.place.waits = t.place.waits) (hpasses : t'.place.passes = t.place.passes)
    (hleads : t'.leads = t.leads) (hfollows : t'.follows = t.follows) : Tallied S c' := by
  subst hbefore hafter
  refine h.move hs [] ?_ ?_ nofun (fun _ _ => rfl) hwaits hpasses hleads hfollows
  · rw [hshared, List.append_nil]
  · rw [hshared, List.append_nil]
    exact h.runs

/-- A step in which something is seen of it, other than a return from `wait`. -/
theorem Tallied.see (h : Tallied S c) (hs : (S.run B).Step i c c') {t t' : Tester}
    {e : LeaderEvent ι} {st : B.St} (hbefore : c.own i = t) (hafter : c'.own i = t')
    (hshared : c'.shared = c.shared.see e st) (hst : B.step c.shared.barrier e st)
    (hsize : ∀ j size, e = .callOnce j size → size = S.numCores j)
    (hpass : ∀ j leader, e ≠ .pass j leader)
    (hwaits : t'.place.waits = t.place.waits + (e.isWait).toNat)
    (hpasses : t'.place.passes = t.place.passes) (hleads : t'.leads = t.leads)
    (hfollows : t'.follows = t.follows) : Tallied S c' := by
  have hruns : B.Runs (c.shared.events ++ [e]) c'.shared.barrier := by
    rw [hshared]
    exact h.runs.step hst
  have hof : ∀ j, [e].countP (LeaderEvent.isPassOf j) = 0 := by
    intro j
    cases e with
    | pass i leader => exact absurd rfl (hpass i leader)
    | _ => rfl
  have hnone : ∀ leader, [e].countP (LeaderEvent.isPass leader) = 0 := by
    intro leader
    cases e with
    | pass i leader => exact absurd rfl (hpass i leader)
    | _ => rfl
  subst hbefore hafter
  refine h.move hs [e] ?_ hruns ?_ (fun j _ => hof j) ?_ ?_ ?_ ?_
  · rw [hshared]
    rfl
  · exact fun j size hj => hsize j size (List.mem_singleton.mp hj).symm
  · rw [hwaits, List.countP_singleton]
    cases e.isWait <;> rfl
  · rw [hof, hpasses, Nat.add_zero]
  · rw [hnone, hleads, Nat.add_zero]
  · rw [hnone, hfollows, Nat.add_zero]

/-- A return from `wait`. -/
theorem Tallied.pass (h : Tallied S c) (hs : (S.run B).Step i c c') {t t' : Tester} {leader : Bool}
    {st : B.St} (hbefore : c.own i = t) (hafter : c'.own i = t')
    (hshared : c'.shared = c.shared.see (.pass i leader) st)
    (hst : B.step c.shared.barrier (.pass i leader) st)
    (hwaits : t'.place.waits = t.place.waits) (hpasses : t'.place.passes = t.place.passes + 1)
    (hleads : t'.leads = t.leads + leader.toNat)
    (hfollows : t'.follows = t.follows + (!leader).toNat) : Tallied S c' := by
  have hruns : B.Runs (c.shared.events ++ [.pass i leader]) c'.shared.barrier := by
    rw [hshared]
    exact h.runs.step hst
  subst hbefore hafter
  refine h.move hs [.pass i leader] ?_ hruns ?_ ?_ hwaits ?_ ?_ ?_
  · rw [hshared]
    rfl
  · intro j size hj
    cases List.mem_singleton.mp hj
  · intro j hj
    rw [List.countP_singleton]
    exact if_neg fun h => hj (of_decide_eq_true h).symm
  · rw [hpasses, List.countP_singleton]
    exact congrArg _ (if_pos (decide_eq_true rfl)).symm
  · rw [hleads]
    cases leader <;> rfl
  · rw [hfollows]
    cases leader <;> rfl

/-- **What is seen of the barrier is what the cores do.** -/
theorem Tallied.step (h : Tallied S c) (hs : (S.run B).Step i c c') : Tallied S c' := by
  have hown := hs.own_self
  generalize hbefore : c.own i = t, hafter : c'.own i = t', hshared₀ : c.shared = sh,
    hshared : c'.shared = sh' at hown
  subst hshared₀
  cases hown with
  | port hstep => exact h.silent hs hbefore hafter hshared rfl rfl rfl rfl
  | @callOnce _ again leader _ _ hst =>
      refine h.see hs hbefore hafter hshared hst ?_ nofun ?_ ?_ ?_ ?_
      · rintro j size ⟨⟩
        rfl
      all_goals cases again <;> rfl
  | @given _ again leader _ _ hst =>
      refine h.see hs hbefore hafter hshared hst nofun nofun ?_ ?_ ?_ ?_
      all_goals cases again <;> rfl
  | @wait _ again leader _ _ hst =>
      refine h.see hs hbefore hafter hshared hst nofun nofun ?_ ?_ ?_ ?_
      all_goals cases again <;> rfl
  | begin hst =>
      refine h.pass hs hbefore hafter hshared hst rfl rfl ?_ ?_
      · exact (Nat.zero_add _).symm
      · exact (Nat.zero_add _).symm
  | enter hk => exact h.silent hs hbefore hafter hshared rfl rfl rfl rfl
  | returns hk => exact h.silent hs hbefore hafter hshared rfl rfl rfl rfl
  | panics => exact h.silent hs hbefore hafter hshared rfl rfl rfl rfl
  | finish => exact h.silent hs hbefore hafter hshared rfl rfl rfl rfl
  | exit hst => exact h.pass hs hbefore hafter hshared hst rfl rfl rfl rfl
  | loop hst => exact h.pass hs hbefore hafter hshared hst rfl rfl rfl rfl
  | unreachable => exact h.silent hs hbefore hafter hshared rfl rfl rfl rfl

/-! ## One leader each time

By the documentation the rounds bound the leaders, and by the tally the calls of
`wait` bound the rounds.  A core that begins with the tests has called once, so
there is one round; a core that is picked again has called twice and all others have
too. -/

/-- A core that has been let through has been so in some of the rendezvous. -/
theorem Tallied.exists_rounds (h : Tallied S c) (hB : B.Documented)
    (hcores : ∀ j, S.numCores j = Fintype.card ι) (hi : 0 < (c.own i).place.passes) :
    ∃ rounds, (c.own i).place.passes ≤ rounds ∧
      rounds * Fintype.card ι ≤ ∑ j, (c.own j).place.waits ∧ ∑ j, (c.own j).leads ≤ rounds ∧
      ∑ j, (c.own j).follows ≤ rounds * (Fintype.card ι - 1) := by
  rw [← h.passes, List.countP_pos_iff] at hi
  obtain ⟨e, he, hpass⟩ := hi
  cases e with
  | pass j leader =>
      obtain ⟨j', size, rounds, hj', hrounds⟩ := hB _ _ _ _ h.runs he
      have hsize : size = Fintype.card ι := (h.sizes j' size hj').trans (hcores j')
      subst hsize
      refine ⟨rounds, ?_, ?_, ?_, ?_⟩
      · rw [← h.passes]
        exact hrounds.passes i
      · rw [← h.waits]
        exact hrounds.waits
      · rw [← h.leads]
        exact hrounds.leaders
      · rw [← h.follows]
        exact hrounds.others
  | _ => cases hpass

/-- **A core that is let through again comes after all cores have called again.** -/
theorem Tallied.waits_eq (h : Tallied S c) (hB : B.Documented)
    (hcores : ∀ j, S.numCores j = Fintype.card ι) (hi : (c.own i).place.passes = 2) (j : ι) :
    (c.own j).place.waits = 2 := by
  obtain ⟨rounds, hpasses, hwaits, -, -⟩ := h.exists_rounds hB hcores (by rw [hi]; decide)
  have htwo : 2 * Fintype.card ι ≤ ∑ j, (c.own j).place.waits :=
    (Nat.mul_le_mul_right _ (hi ▸ hpasses)).trans hwaits
  have heq := ((sum_waits_le c).antisymm htwo).trans sum_two.symm
  exact (Finset.sum_eq_sum_iff_of_le fun j _ => (c.own j).place.waits_le).mp heq j
    (Finset.mem_univ j)

/-- What is known of leaders. -/
structure Counted (S : TestSuite ι) (c : Config ι Tester (Harness B)) : Prop
    extends Tallied S c where
  led : ∑ j, (c.own j).led ≤ 1
  followed : ∑ j, (c.own j).followed ≤ Fintype.card ι - 1
  exits : ∑ j, (c.own j).place.exits.toNat ≤ 1

/-- There are no leaders before the tests. -/
theorem counted_testStart (S : TestSuite ι) : Counted S (testStart B) where
  toTallied := tallied_testStart S
  led := (Finset.sum_eq_zero fun _ _ => rfl).trans_le (Nat.zero_le 1)
  followed := (Finset.sum_eq_zero fun _ _ => rfl).trans_le (Nat.zero_le _)
  exits := (Finset.sum_eq_zero fun _ _ => rfl).trans_le (Nat.zero_le 1)

/-- A step after which there are no more leaders than before. -/
theorem Counted.kept (h : Counted S c) (hs : (S.run B).Step i c c') (htallied : Tallied S c')
    {t t' : Tester} (hbefore : c.own i = t) (hafter : c'.own i = t') (hled : t'.led = t.led)
    (hfollowed : t'.followed = t.followed) (hexits : t'.place.exits = t.place.exits) :
    Counted S c' where
  toTallied := htallied
  led := by
    have hsum := hs.sum_own Tester.led
    have hold := h.led
    rw [hbefore, hafter] at hsum
    omega
  followed := by
    have hsum := hs.sum_own Tester.followed
    have hold := h.followed
    rw [hbefore, hafter] at hsum
    omega
  exits := by
    have hsum := hs.sum_own fun t => t.place.exits.toNat
    have hold := h.exits
    rw [hbefore, hafter, hexits] at hsum
    omega

/-- Who begins with the tests has called `wait` once, so the second rendezvous has not
been: there is one leader at most. -/
theorem Counted.begun (h : Counted S c) (hs : (S.run B).Step i c c') (htallied : Tallied S c')
    (hB : B.Documented) (hcores : ∀ j, S.numCores j = Fintype.card ι) {t t' : Tester}
    (hbefore : c.own i = t) (hafter : c'.own i = t') (hwaits : t'.place.waits = 1)
    (hpasses : t'.place.passes = 1) (hexits : t'.place.exits = t.place.exits) :
    Counted S c' := by
  have hpos : 0 < (c'.own i).place.passes := by
    rw [hafter, hpasses]
    exact Nat.one_pos
  obtain ⟨rounds, -, hrounds, hleads, hfollows⟩ := htallied.exists_rounds hB hcores hpos
  have hlt : ∑ j, (c'.own j).place.waits < 2 * Fintype.card ι := by
    rw [← sum_two]
    refine Finset.sum_lt_sum (fun j _ => (c'.own j).place.waits_le) ⟨i, Finset.mem_univ i, ?_⟩
    rw [hafter, hwaits]
    exact Nat.one_lt_two
  have hone : rounds ≤ 1 :=
    Nat.le_of_lt_succ (Nat.lt_of_mul_lt_mul_right (hrounds.trans_lt hlt))
  rw [sum_leads] at hleads
  refine ⟨htallied, by omega, ?_, ?_⟩
  · have hfollowed : ∑ j, (c'.own j).followed ≤ ∑ j, (c'.own j).follows :=
      Finset.sum_le_sum fun j _ => Nat.le_add_right _ _
    exact (hfollowed.trans hfollows).trans ((Nat.mul_le_mul_right _ hone).trans (Nat.one_mul _).le)
  · have hsum := hs.sum_own fun t => t.place.exits.toNat
    have hold := h.exits
    rw [hbefore, hafter, hexits] at hsum
    omega

/-- Who is picked to exit comes after all cores have been let through for the first time,
one of them as the leader of that rendezvous: there is one leader at most in the other. -/
theorem Counted.exiting (h : Counted S c) (hs : (S.run B).Step i c c') (htallied : Tallied S c')
    (hB : B.Documented) (hcores : ∀ j, S.numCores j = Fintype.card ι) {t t' : Tester}
    (hbefore : c.own i = t) (hafter : c'.own i = t') (hpasses : t'.place.passes = 2)
    (hled : t'.led = t.led) (hfollowed : t'.followed = t.followed) : Counted S c' := by
  have htwo : (c'.own i).place.passes = 2 := by rw [hafter, hpasses]
  have hwaits := htallied.waits_eq hB hcores htwo
  have hpos : ∀ j, 0 < (c'.own j).place.passes := fun j => Place.passes_pos (hwaits j)
  obtain ⟨rounds, -, hrounds, hleads, -⟩ := htallied.exists_rounds hB hcores (hpos i)
  have hcard : 0 < Fintype.card ι := Fintype.card_pos_iff.mpr ⟨i⟩
  have hrounds_le : rounds ≤ 2 :=
    Nat.le_of_mul_le_mul_right (hrounds.trans (sum_waits_le c')) hcard
  have hsumLed := hs.sum_own Tester.led
  have hsumFollowed := hs.sum_own Tester.followed
  have holdLed := h.led
  have holdFollowed := h.followed
  rw [hbefore, hafter] at hsumLed hsumFollowed
  have hnewFollowed : ∑ j, (c'.own j).followed ≤ Fintype.card ι - 1 := by omega
  have hone := one_le_sum_led i hpos hnewFollowed
  rw [sum_leads] at hleads
  exact ⟨htallied, by omega, hnewFollowed, by omega⟩

/-- **There is one leader at most each time.** -/
theorem Counted.step (hB : B.Documented) (hcores : ∀ j, S.numCores j = Fintype.card ι)
    (h : Counted S c) (hs : (S.run B).Step i c c') : Counted S c' := by
  have htallied := h.toTallied.step hs
  have hown := hs.own_self
  generalize hbefore : c.own i = t, hafter : c'.own i = t', hshared₀ : c.shared = sh,
    hshared : c'.shared = sh' at hown
  cases hown with
  | begin => exact h.begun hs htallied hB hcores hbefore hafter rfl rfl rfl
  | exit => exact h.exiting hs htallied hB hcores hbefore hafter rfl rfl rfl
  | @callOnce _ again => cases again <;> exact h.kept hs htallied hbefore hafter rfl rfl rfl
  | @given _ again => cases again <;> exact h.kept hs htallied hbefore hafter rfl rfl rfl
  | @wait _ again => cases again <;> exact h.kept hs htallied hbefore hafter rfl rfl rfl
  | _ => exact h.kept hs htallied hbefore hafter rfl rfl rfl

end

/-! ## What cores write

Bytes of different cores are mixed at the port, so what is said of a report is said
of the bytes of one core (`writtenBy`).  For each core they are a function of its
place, as in `ParaOS.Paraos.Startup`, until a test panics. -/

/-- What a core has written. -/
def Wire.writtenBy [DecidableEq ι] (w : Wire ι) (i : ι) : List (UInt16 × UInt8) :=
  (w.written.filter fun x => decide (x.1 = i)).map Prod.snd

/-- What a core does at the port is written by it, -/
theorem PortStep.Does.writtenBy_self [DecidableEq ι] {i : ι} {step : PortStep} {w w' : Wire ι}
    (h : step.Does i w w') : w'.writtenBy i = w.writtenBy i ++ outbs [step] := by
  obtain ⟨new, hwritten, hwriter, hnew⟩ := h.exists_written
  have hall : new.filter (fun x => decide (x.1 = i)) = new :=
    List.filter_eq_self.mpr fun x hx => decide_eq_true (hwriter x hx)
  rw [Wire.writtenBy, hwritten, List.filter_append, hall, List.map_append, hnew]
  rfl

/-- and by nobody else. -/
theorem PortStep.Does.writtenBy_of_ne [DecidableEq ι] {i j : ι} {step : PortStep} {w w' : Wire ι}
    (h : step.Does i w w') (hj : j ≠ i) : w'.writtenBy j = w.writtenBy j := by
  obtain ⟨new, hwritten, hwriter, -⟩ := h.exists_written
  have hnone : new.filter (fun x => decide (x.1 = j)) = [] := by
    refine List.filter_eq_nil_iff.mpr fun x hx hx' => hj ?_
    exact (of_decide_eq_true hx').symm.trans (hwriter x hx)
  rw [Wire.writtenBy, hwritten, List.filter_append, hnone, List.append_nil]
  rfl

/-- Text goes to the data register. -/
theorem port_of_mem_fmtSteps {pieces : List String} {x : UInt16 × UInt8}
    (h : x ∈ outbs (fmtSteps pieces)) : x.1 = com1 := by
  obtain ⟨step, hstep, hx⟩ := List.mem_filterMap.mp h
  obtain ⟨s, -, hs⟩ := List.mem_flatMap.mp hstep
  simp only [writeStrSteps, List.mem_cons, List.mem_map] at hs
  rcases hs with rfl | rfl | ⟨byte, -, rfl⟩
  · cases hx
  · cases hx
  · cases hx
    rfl

/-- No text is written to the exit port. -/
theorem exit_notMem_fmtSteps (pieces : List String) : (exitPort, 0) ∉ outbs (fmtSteps pieces) :=
  fun h => absurd (port_of_mem_fmtSteps h) (by decide)

/-- The polls of `write_char` write nothing. -/
theorem outbs_writeCharSteps (busy : ℕ) (c : Char) :
    outbs (writeCharSteps busy c) = [(com1 + 0, asU8 c)] := by
  have hpolls : outbs (List.replicate (busy + 1) PortStep.poll) = [] :=
    List.filterMap_replicate_of_none rfl
  have happend := outbs_append (List.replicate (busy + 1) PortStep.poll) [.outb (com1 + 0) (asU8 c)]
  rw [hpolls] at happend
  exact happend

/-- Nor is a character. -/
theorem exit_notMem_writeCharSteps (busy : ℕ) (c : Char) :
    (exitPort, 0) ∉ outbs (writeCharSteps busy c) := by
  rw [outbs_writeCharSteps, List.mem_singleton]
  intro h
  have hport : exitPort = com1 + 0 := congrArg Prod.fst h
  exact absurd hport (by decide)

/-- A panic exits, but with `1`. -/
theorem exit_notMem_panicSteps (info : List String) : (exitPort, 0) ∉ outbs (panicSteps info) := by
  rw [panicSteps, outbs_append, outbs_append]
  intro h
  rcases List.mem_append.mp h with h | h
  · rcases List.mem_append.mp h with h | h
    · exact absurd h (by decide)
    · exact exit_notMem_fmtSteps _ h
  · exact absurd h (by decide)

/-- The tests a core has returned from, of so many. -/
def Place.returned (count : ℕ) : Place → ℕ
  | .picking false _ => 0
  | .between k => k
  | .inTest k => k
  | .panicking (some k) => k
  | _ => count

namespace TestSuite

variable (S : TestSuite ι)

/-- The first tests, on a core. -/
def tests (i : ι) (leader : Bool) (k : ℕ) : List PortStep :=
  (List.range k).flatMap fun k => S.accesses i k ++ S.dot i k leader

/-- `test_runner`, on a core. -/
def report (i : ι) (leader : Bool) : List PortStep :=
  S.opening leader ++ S.tests i leader S.count ++ S.closing i leader

/-- What a core does at the port when it gets to a place. -/
def toSay (i : ι) (leader : Bool) : Place → List PortStep
  | .between 0 => S.opening leader
  | .between (k + 1) => S.dot i k leader
  | .inTest k => S.accesses i k
  | .picking true .entry => S.closing i leader
  | .exiting => [.outb exitPort 0]
  | .panicking test => panicSteps (S.panicInfo i test)
  | _ => []

/-- What a core has written when it is through with a place, if no test has panicked. -/
def said (i : ι) (leader : Bool) : Place → List (UInt16 × UInt8)
  | .picking false _ => []
  | .between k => outbs (S.opening leader ++ S.tests i leader k)
  | .inTest k => outbs (S.opening leader ++ S.tests i leader k ++ S.accesses i k)
  | .exiting => outbs (S.report i leader ++ [.outb exitPort 0])
  | .panicking test =>
      outbs (S.report i leader ++ [.outb exitPort 0] ++ panicSteps (S.panicInfo i test))
  | _ => outbs (S.report i leader)

/-- One more test and its dot. -/
theorem tests_succ (i : ι) (leader : Bool) (k : ℕ) :
    S.tests i leader (k + 1) = S.tests i leader k ++ (S.accesses i k ++ S.dot i k leader) := by
  rw [tests, List.range_succ, List.flatMap_append, List.flatMap_singleton]
  rfl

/-- The runner writes nothing to the exit port before the tests, -/
theorem exit_notMem_opening (leader : Bool) : (exitPort, 0) ∉ outbs (S.opening leader) := by
  rw [opening, outbs_append]
  intro h
  rcases List.mem_append.mp h with h | h
  · exact absurd h (by decide)
  · cases leader with
    | false => cases h
    | true => exact exit_notMem_fmtSteps _ h

/-- between them, -/
theorem exit_notMem_dot (i : ι) (k : ℕ) (leader : Bool) :
    (exitPort, 0) ∉ outbs (S.dot i k leader) := by
  cases leader with
  | false => exact List.not_mem_nil
  | true => exact exit_notMem_writeCharSteps _ _

/-- or after them. -/
theorem exit_notMem_closing (i : ι) (leader : Bool) :
    (exitPort, 0) ∉ outbs (S.closing i leader) := by
  cases leader with
  | false => exact List.not_mem_nil
  | true => exact exit_notMem_writeCharSteps _ _

end TestSuite

/-- What is known of what a core has written. -/
structure Told (S : TestSuite ι) (i : ι) (t : Tester) (wrote : List (UInt16 × UInt8)) : Prop where
  said : (∀ k, t.place ≠ .panicking (some k)) → wrote ++ outbs t.todo = S.said i t.leader t.place
  pending : t.todo <:+ S.toSay i t.leader t.place
  exits : (wrote ++ outbs t.todo).count (exitPort, 0) = t.place.exits.toNat
  returned : ∀ k < t.place.returned S.count, ¬ S.fails i k

section

variable {S : TestSuite ι} {i : ι} {place place' : Place} {leader leader' : Bool}
  {step : PortStep} {todo : List PortStep} {wrote : List (UInt16 × UInt8)}

/-- A step at the port. -/
theorem Told.atPort (h : Told S i ⟨place, leader, step :: todo⟩ wrote) :
    Told S i ⟨place, leader, todo⟩ (wrote ++ outbs [step]) := by
  have houtbs : wrote ++ outbs [step] ++ outbs todo = wrote ++ outbs (step :: todo) := by
    rw [List.append_assoc, ← outbs_append]
    rfl
  refine ⟨fun hplace => ?_, (List.suffix_cons step todo).trans h.pending, ?_, h.returned⟩
  · rw [houtbs]
    exact h.said hplace
  · rw [houtbs]
    exact h.exits

/-- A core that has nothing left to do at the port gets to another place. -/
theorem Told.next (h : Told S i ⟨place, leader, []⟩ wrote)
    (hplace : ∀ k, place ≠ .panicking (some k))
    (hsaid : S.said i leader' place' = S.said i leader place ++ outbs (S.toSay i leader' place'))
    (hexits : (outbs (S.toSay i leader' place')).count (exitPort, 0) + place.exits.toNat =
      place'.exits.toNat)
    (hreturned : ∀ k < place'.returned S.count, k < place.returned S.count ∨ ¬ S.fails i k) :
    Told S i ⟨place', leader', S.toSay i leader' place'⟩ wrote := by
  have hwrote : wrote = S.said i leader place := (List.append_nil _).symm.trans (h.said hplace)
  have hcount : wrote.count (exitPort, 0) = place.exits.toNat := by
    have hexits := h.exits
    rwa [show outbs [] = [] from rfl, List.append_nil] at hexits
  refine ⟨fun _ => ?_, List.suffix_rfl, ?_, fun k hk => ?_⟩
  · rw [hsaid, hwrote]
  · rw [List.count_append, hcount, Nat.add_comm]
    exact hexits
  · exact (hreturned k hk).elim (h.returned k) id

/-- A test panics. -/
theorem Told.panics {k : ℕ} (h : Told S i ⟨.inTest k, leader, todo⟩ wrote) :
    Told S i ⟨.panicking (some k), leader, panicSteps (S.panicInfo i (some k))⟩ wrote := by
  have hexits := h.exits
  rw [List.count_append] at hexits
  refine ⟨fun hne => absurd rfl (hne k), List.suffix_rfl, ?_, h.returned⟩
  rw [List.count_append, List.count_eq_zero_of_not_mem (exit_notMem_panicSteps _)]
  exact (Nat.eq_zero_of_add_eq_zero hexits).1

end

/-- **Every step of a core is told.** -/
theorem Told.step [DecidableEq ι] {S : TestSuite ι} {i : ι} {t t' : Tester} {h h' : Harness B}
    (haccesses : ∀ k, (exitPort, 0) ∉ outbs (S.accesses i k)) (hrun : S.run B i t h t' h')
    (htold : Told S i t (h.wire.writtenBy i)) : Told S i t' (h'.wire.writtenBy i) := by
  have hzero : ∀ {steps : List PortStep}, (exitPort, 0) ∉ outbs steps →
      (outbs steps).count (exitPort, 0) + 0 = 0 :=
    fun hmem => List.count_eq_zero_of_not_mem hmem
  cases hrun with
  | port hstep =>
      rw [hstep.writtenBy_self]
      exact htold.atPort
  | @callOnce _ again leader =>
      cases again
      · exact htold.next nofun rfl rfl fun k hk => .inl hk
      · exact htold.next nofun (List.append_nil _).symm rfl fun k hk => .inl hk
  | @given _ again leader =>
      cases again
      · exact htold.next nofun rfl rfl fun k hk => .inl hk
      · exact htold.next nofun (List.append_nil _).symm rfl fun k hk => .inl hk
  | @wait _ again leader =>
      cases again
      · exact htold.next nofun rfl rfl fun k hk => .inl hk
      · exact htold.next nofun (List.append_nil _).symm rfl fun k hk => .inl hk
  | @begin _ leader leader' =>
      refine htold.next nofun ?_ (hzero (S.exit_notMem_opening leader')) fun k hk => .inl hk
      exact congrArg outbs (List.append_nil (S.opening leader'))
  | enter hk => exact htold.next nofun (outbs_append _ _) (hzero (haccesses _)) fun k hk => .inl hk
  | @returns _ k leader _ hreturns =>
      refine htold.next nofun ?_ (hzero (S.exit_notMem_dot i k leader)) fun k' hk' => ?_
      · rw [TestSuite.said, S.tests_succ, ← List.append_assoc, ← List.append_assoc, outbs_append]
        rfl
      · rcases Nat.lt_succ_iff_lt_or_eq.mp hk' with hlt | rfl
        · exact .inl hlt
        · exact .inr hreturns
  | panics => exact htold.panics
  | @finish _ leader =>
      have hclosing := hzero (S.exit_notMem_closing i leader)
      exact htold.next nofun (outbs_append _ _) hclosing fun k hk => .inl hk
  | exit => exact htold.next nofun (outbs_append _ _) rfl fun k hk => .inl hk
  | loop => exact htold.next nofun (List.append_nil _).symm rfl fun k hk => .inl hk
  | unreachable =>
      refine htold.next nofun (outbs_append _ _) ?_ fun k hk => .inl hk
      exact congrArg (· + 1) (List.count_eq_zero_of_not_mem (exit_notMem_panicSteps _))

/-- The others have written what they had. -/
theorem writtenBy_of_ne [DecidableEq ι] {S : TestSuite ι} {i : ι} {t t' : Tester} {h h' : Harness B}
    {j : ι} (hrun : S.run B i t h t' h') (hj : j ≠ i) :
    h'.wire.writtenBy j = h.wire.writtenBy j := by
  cases hrun with
  | port hstep => exact hstep.writtenBy_of_ne hj
  | _ => rfl

/-- Who has written `0` to the exit port has been picked to do so. -/
theorem Told.exits_of_mem {S : TestSuite ι} {i : ι} {t : Tester}
    {wrote : List (UInt16 × UInt8)} (h : Told S i t wrote) (hexit : (exitPort, 0) ∈ wrote) :
    t.place.exits = true ∧ wrote.count (exitPort, 0) = 1 := by
  have hpos := List.count_pos_iff.mpr hexit
  have hexits := h.exits
  rw [List.count_append] at hexits
  cases hplace : t.place.exits with
  | false =>
      rw [hplace, Bool.toNat_false] at hexits
      omega
  | true =>
      rw [hplace, Bool.toNat_true] at hexits
      exact ⟨rfl, by omega⟩

section

variable [DecidableEq ι] [Fintype ι] {S : TestSuite ι} {c c' : Config ι Tester (Harness B)} {i : ι}

/-- What is known of a configuration. -/
structure Tested (S : TestSuite ι) (c : Config ι Tester (Harness B)) : Prop
    extends Counted S c where
  told : ∀ j, Told S j (c.own j) (c.shared.wire.writtenBy j)

/-- It holds before the tests. -/
theorem tested_testStart (S : TestSuite ι) : Tested S (testStart B) where
  toCounted := counted_testStart S
  told _ := ⟨fun _ => rfl, List.suffix_rfl, rfl, fun _ hk => absurd hk (Nat.not_lt_zero _)⟩

/-- **Every step keeps the invariant.** -/
theorem Tested.step (hB : B.Documented) (hcores : ∀ j, S.numCores j = Fintype.card ι)
    (haccesses : ∀ j k, (exitPort, 0) ∉ outbs (S.accesses j k)) (h : Tested S c)
    (hs : (S.run B).Step i c c') : Tested S c' where
  toCounted := h.toCounted.step hB hcores hs
  told j := by
    by_cases hj : j = i
    · subst hj
      exact Told.step (haccesses j) hs.own_self (h.told j)
    · rw [hs.own_of_ne hj, writtenBy_of_ne hs.own_self hj]
      exact h.told j

end

namespace Place

/-- Who has been picked to exit has been let through twice. -/
theorem passes_of_exits {p : Place} (h : p.exits = true) : p.passes = 2 := by
  cases p with
  | exiting => rfl
  | panicking test => cases test with
    | none => rfl
    | some k => cases h
  | _ => cases h

/-- Who has called `wait` twice is not in a test. -/
theorem ne_panicking {p : Place} (h : p.waits = 2) (k : ℕ) : p ≠ .panicking (some k) := by
  rintro rfl
  cases h

/-- It has returned from all of them. -/
theorem returned_of_waits {p : Place} (h : p.waits = 2) (count : ℕ) : p.returned count = count := by
  cases p with
  | picking again p =>
      cases again with
      | true => rfl
      | false => cases p <;> cases h
  | panicking test => cases test with
    | none => rfl
    | some k => cases h
  | exiting => rfl
  | looping => rfl
  | _ => cases h

/-- After the second call of `wait` a core has its report behind it. -/
theorem exists_report (S : TestSuite ι) (i : ι) (leader : Bool) {p : Place} (h : p.waits = 2) :
    ∃ before, outbs (S.report i leader) <+: before ∧
      S.said i leader p = before ++ outbs (S.toSay i leader p) := by
  cases p with
  | picking again p =>
      cases again with
      | true => cases p with
        | waiting => exact ⟨_, List.prefix_rfl, (List.append_nil _).symm⟩
        | _ => cases h
      | false => cases p <;> cases h
  | panicking test => cases test with
    | none =>
        refine ⟨outbs (S.report i leader ++ [PortStep.outb exitPort 0]), ?_, outbs_append _ _⟩
        rw [outbs_append]
        exact List.prefix_append _ _
    | some k => cases h
  | exiting => exact ⟨_, List.prefix_rfl, outbs_append _ _⟩
  | looping => exact ⟨_, List.prefix_rfl, (List.append_nil _).symm⟩
  | _ => cases h

end Place

/-- Its report has been written. -/
theorem Told.report_prefix_wrote {S : TestSuite ι} {i : ι} {t : Tester}
    {wrote : List (UInt16 × UInt8)} (h : Told S i t wrote) (hwaits : t.place.waits = 2) :
    outbs (S.report i t.leader) <+: wrote := by
  obtain ⟨before, hreport, hsaid⟩ := Place.exists_report S i t.leader hwaits
  have hbefore := (h.said (Place.ne_panicking hwaits)).trans hsaid
  exact hreport.trans (prefix_of_pending hbefore h.pending)

/-- **`0` is written to the exit port once, and only for success.**  Whatever the
order in which the cores take their steps: if a core has written `0` there, then it
has done so once and no other has, all cores have returned from all tests, and what
each of them has written begins with the output of its `test_runner`, with the
report on exactly one core.

No fairness is asked and no progress promised; for these there is `tests_complete`.
Polls of the transmitter are steps of the run like any others, and write nothing. -/
theorem success_reported [DecidableEq ι] [Fintype ι] {S : TestSuite ι}
    {c : Config ι Tester (Harness B)} {i : ι} (hB : B.Documented)
    (hcores : ∀ j, S.numCores j = Fintype.card ι)
    (haccesses : ∀ j k, (exitPort, 0) ∉ outbs (S.accesses j k))
    (h : Processes.Reach (S.run B) (fun _ _ => True) (testStart B) c)
    (hexit : (exitPort, 0) ∈ c.shared.wire.writtenBy i) :
    (c.shared.wire.writtenBy i).count (exitPort, 0) = 1 ∧
      (∀ j, (exitPort, 0) ∈ c.shared.wire.writtenBy j → j = i) ∧
      (∀ j k, k < S.count → ¬ S.fails j k) ∧
      (∀ j k, (c.own j).place ≠ .panicking (some k)) ∧
      (∀ j, outbs (S.report j (c.own j).leader) <+: c.shared.wire.writtenBy j) ∧
      ∃! r, (c.own r).leader = true := by
  have hinv : Tested S c :=
    h.invariant (tested_testStart S) fun _ _ _ hc _ hs => hc.step hB hcores haccesses hs
  obtain ⟨hplace, hcount⟩ := (hinv.told i).exits_of_mem hexit
  have hwaits := hinv.waits_eq hB hcores (Place.passes_of_exits hplace)
  have hpasses : ∀ j, 0 < (c.own j).place.passes := fun j => Place.passes_pos (hwaits j)
  refine ⟨hcount, fun j hj => ?_, fun j k hk => ?_, fun j => Place.ne_panicking (hwaits j),
    fun j => (hinv.told j).report_prefix_wrote (hwaits j), ?_⟩
  · obtain ⟨hplace', -⟩ := (hinv.told j).exits_of_mem hj
    refine eq_of_sum_le_one hinv.exits ?_ ?_
    · rw [hplace']
      exact Nat.one_pos
    · rw [hplace]
      exact Nat.one_pos
  · refine (hinv.told j).returned k ?_
    rw [Place.returned_of_waits (hwaits j)]
    exact hk
  · have hled : ∀ j, (c.own j).led = (c.own j).leader.toNat := fun j => Tester.led_eq (hpasses j)
    obtain ⟨r, -, hr⟩ := Finset.exists_ne_zero_of_sum_ne_zero
      (Nat.one_le_iff_ne_zero.mp (one_le_sum_led i hpasses hinv.followed))
    have hleader : ∀ j, (c.own j).leader = true → 0 < (c.own j).led := by
      intro j hj
      rw [hled, hj]
      exact Nat.one_pos
    refine ⟨r, ?_, fun r' hr' => eq_of_sum_le_one hinv.led (hleader r' hr') (Nat.pos_of_ne_zero hr)⟩
    cases hown : (c.own r).leader with
    | true => exact hown
    | false =>
        rw [hled, hown] at hr
        exact absurd rfl hr

/-- A run goes on with a core. -/
theorem reach_run [DecidableEq ι] {S : TestSuite ι} {i : ι} {t t' : Tester} {h : Harness B}
    {c₀ c : Config ι Tester (Harness B)}
    (hreach : Processes.Reach (S.run B) (fun _ _ => True) c₀ c) (hown : c.own i = t)
    (hrun : S.run B i t c.shared t' h) :
    Processes.Reach (S.run B) (fun _ _ => True) c₀ ⟨Function.update c.own i t', h⟩ :=
  hreach.step (i := i) trivial ⟨_, _, hown ▸ hrun, rfl⟩

/-- A core at the port. -/
theorem reach_port [DecidableEq ι] {S : TestSuite ι} {i : ι} {place : Place} {leader : Bool}
    {step : PortStep} {todo : List PortStep} {c₀ c : Config ι Tester (Harness B)} {w : Wire ι}
    (hreach : Processes.Reach (S.run B) (fun _ _ => True) c₀ c)
    (hown : c.own i = ⟨place, leader, step :: todo⟩) (hdoes : step.Does i c.shared.wire w) :
    Processes.Reach (S.run B) (fun _ _ => True) c₀
      ⟨Function.update c.own i ⟨place, leader, todo⟩, { c.shared with wire := w }⟩ :=
  reach_run hreach hown (.port hdoes)

/-- A core that drops its guards at once gets done at a port that is free. -/
theorem exists_drained [DecidableEq ι] {S : TestSuite ι} {i : ι} {place : Place} {leader : Bool}
    {todo : List PortStep} (hdropped : Dropped todo) {c₀ c : Config ι Tester (Harness B)}
    (hreach : Processes.Reach (S.run B) (fun _ _ => True) c₀ c)
    (hown : c.own i = ⟨place, leader, todo⟩) (hfree : c.shared.wire.mutex = none) :
    ∃ w, w.mutex = none ∧ w.writtenBy i = c.shared.wire.writtenBy i ++ outbs todo ∧
      Processes.Reach (S.run B) (fun _ _ => True) c₀
        ⟨Function.update c.own i ⟨place, leader, []⟩, { c.shared with wire := w }⟩ := by
  induction todo using Dropped.induct generalizing c with
  | case1 =>
      refine ⟨c.shared.wire, hfree, (List.append_nil _).symm, ?_⟩
      rw [← hown, Function.update_eq_self]
      exact hreach
  | case2 steps ih =>
      have hlocked := reach_port hreach hown (.lock hfree)
      have hnext := reach_port hlocked (Function.update_self ..) .unlock
      obtain ⟨w, hw, hwrote, hlast⟩ := ih hdropped hnext (Function.update_self ..) rfl
      rw [Function.update_idem, Function.update_idem] at hlast
      exact ⟨w, hw, hwrote, hlast⟩
  | case3 steps ih =>
      have hnext := reach_port hreach hown .poll
      obtain ⟨w, hw, hwrote, hlast⟩ := ih hdropped hnext (Function.update_self ..) hfree
      rw [Function.update_idem] at hlast
      exact ⟨w, hw, hwrote, hlast⟩
  | case4 port byte steps ih =>
      have hstep : PortStep.Does i (.outb port byte) c.shared.wire _ := .outb
      have hnext := reach_port hreach hown hstep
      obtain ⟨w, hw, hwrote, hlast⟩ := ih hdropped hnext (Function.update_self ..) hfree
      rw [Function.update_idem] at hlast
      refine ⟨w, hw, hwrote.trans ?_, hlast⟩
      rw [hstep.writtenBy_self, List.append_assoc, ← outbs_append]
      rfl
  | case5 steps hnil hlock hawait houtb =>
      rw [Dropped] at hdropped
      · exact hdropped.elim
      · assumption
      · assumption
      · assumption
      · assumption

/-- `write_char` drops its guard before it polls. -/
theorem dropped_writeCharSteps (busy : ℕ) (c : Char) : Dropped (writeCharSteps busy c) := by
  suffices h : ∀ n, Dropped (List.replicate n .poll ++ [.outb (com1 + 0) (asU8 c)]) from h _
  intro n
  induction n with
  | zero => trivial
  | succ n ih => exact ih

/-- What the runner writes before the tests drops its guards at once, -/
theorem TestSuite.dropped_opening (S : TestSuite ι) (leader : Bool) :
    Dropped (S.opening leader) := by
  cases leader with
  | false => trivial
  | true => exact (dropped_fmtSteps _).init

/-- as does what it writes after them, -/
theorem TestSuite.dropped_closing (S : TestSuite ι) (i : ι) (leader : Bool) :
    Dropped (S.closing i leader) := by
  cases leader with
  | false => trivial
  | true => exact dropped_writeCharSteps _ _

/-- and after each of them. -/
theorem TestSuite.dropped_dot (S : TestSuite ι) (i : ι) (k : ℕ) (leader : Bool) :
    Dropped (S.dot i k leader) := by
  cases leader with
  | false => trivial
  | true => exact dropped_writeCharSteps _ _

/-- A core gets through a test that returns. -/
theorem exists_returned [DecidableEq ι] {S : TestSuite ι} {i : ι} {k : ℕ} {leader : Bool}
    (hk : k < S.count) (hreturns : ¬ S.fails i k) (hdropped : Dropped (S.accesses i k))
    {c₀ c : Config ι Tester (Harness B)}
    (hreach : Processes.Reach (S.run B) (fun _ _ => True) c₀ c)
    (hown : c.own i = ⟨.between k, leader, []⟩) (hfree : c.shared.wire.mutex = none) :
    ∃ w, w.mutex = none ∧ Processes.Reach (S.run B) (fun _ _ => True) c₀
      ⟨Function.update c.own i ⟨.between (k + 1), leader, []⟩, { c.shared with wire := w }⟩ := by
  have henter := reach_run hreach hown (.enter hk)
  obtain ⟨w, hw, -, htest⟩ := exists_drained hdropped henter (Function.update_self ..) hfree
  rw [Function.update_idem] at htest
  have hreturn := reach_run htest (Function.update_self ..) (.returns hreturns)
  rw [Function.update_idem] at hreturn
  obtain ⟨w', hw', -, hdot⟩ :=
    exists_drained (S.dropped_dot i k leader) hreturn (Function.update_self ..) hw
  rw [Function.update_idem] at hdot
  exact ⟨w', hw', hdot⟩

/-- One core and one test, which leaves the port alone. -/
def oneTest : TestSuite (Fin 1) where
  numCores _ := 1
  count := 1
  accesses _ _ := []
  fails _ _ := False
  panicInfo _ _ := []
  busy _ _ := 2

/-- The core reports and exits. -/
theorem success_reported_instance :
    ∃ c : Config (Fin 1) Tester (Harness (LeaderBarrier.reference (Fin 1))),
      Processes.Reach (oneTest.run (LeaderBarrier.reference (Fin 1))) (fun _ _ => True)
        (testStart _) c ∧
      (exitPort, 0) ∈ c.shared.wire.writtenBy 0 ∧
      outbs (oneTest.report 0 (c.own 0).leader) <+: c.shared.wire.writtenBy 0 := by
  have h₀ : Processes.Reach (oneTest.run (LeaderBarrier.reference (Fin 1)))
      (fun _ _ => True) (testStart _) (testStart _) := .refl
  have h₁ := h₀.step (i := 0) trivial ⟨_, _, .callOnce rfl, rfl⟩
  have h₂ := h₁.step (i := 0) trivial ⟨_, _, .given rfl, rfl⟩
  have h₃ := h₂.step (i := 0) trivial ⟨_, _, .wait rfl, rfl⟩
  have h₄ := h₃.step (i := 0) trivial
    ⟨⟨.between 0, true, oneTest.opening true⟩, _, .begin rfl, rfl⟩
  obtain ⟨w₅, hfree₅, -, h₅⟩ :=
    exists_drained (i := 0) (oneTest.dropped_opening true) h₄ rfl rfl
  obtain ⟨w₈, hfree₈, h₈⟩ :=
    exists_returned (i := 0) (k := 0) (S := oneTest) Nat.one_pos id trivial h₅ rfl hfree₅
  have h₉ := h₈.step (i := 0) trivial ⟨_, _, .finish, rfl⟩
  obtain ⟨w₁₀, hfree₁₀, -, h₁₀⟩ :=
    exists_drained (i := 0) (oneTest.dropped_closing 0 true) h₉ rfl hfree₈
  have h₁₁ := h₁₀.step (i := 0) trivial ⟨_, _, .callOnce rfl, rfl⟩
  have h₁₂ := h₁₁.step (i := 0) trivial ⟨_, _, .given rfl, rfl⟩
  have h₁₃ := h₁₂.step (i := 0) trivial ⟨_, _, .wait rfl, rfl⟩
  have h₁₄ := h₁₃.step (i := 0) trivial ⟨_, _, .exit rfl, rfl⟩
  have hzero : Dropped [PortStep.outb exitPort 0] := trivial
  obtain ⟨w₁₅, -, hwrote, h₁₅⟩ := exists_drained (i := 0) hzero h₁₄ rfl hfree₁₀
  have hexit : (exitPort, 0) ∈ w₁₅.writtenBy 0 := by
    rw [hwrote]
    exact List.mem_append_right _ (List.mem_singleton_self _)
  obtain ⟨-, -, -, -, hreport, -⟩ := success_reported LeaderBarrier.reference_documented
    (fun _ => rfl) (fun _ _ => List.not_mem_nil) h₁₅ hexit
  exact ⟨_, h₁₅, hexit, hreport 0⟩

end ParaOS.Paraos
