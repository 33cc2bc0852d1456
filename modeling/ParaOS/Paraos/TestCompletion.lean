import Mathlib.Algebra.BigOperators.Intervals
import ParaOS.Paraos.TestRunner

/-!
# `paraos::test`: the test build gets through

`ParaOS.Paraos.TestRunner` is about a success that is reported.  Here it is that one is:
a run of the test build is no longer than what the cores have to do, and when nothing can
be done any more, a test has panicked on some core, or exactly one core has written `0` to
the port at which QEMU exits (`tests_complete`).  A core that is still in the first
rendezvous when others are in the second is not left behind.

Tests return or panic, and are asked to drop the guard of the port at once, as `Serial`
does.  A core that panics in a test with the guard in its hands would stop all others.

### What is load-bearing

Three things keep a run from going on or being held up for ever, and each is a
hypothesis.

* The transmitter becomes empty.  `while !self.is_transmit_empty() {}` has no bound,
  and a UART that never got ready would keep the core that reports in it.  A suite
  says how often the transmitter is found busy for each byte (`TestSuite.busy`), and
  the bound on the length of a run counts these polls.
* Guards are dropped at once (`haccesses`).  `Serial` does so everywhere, and tests
  are asked to.
* The barrier lets go (`LeaderBarrier.Live`).  It is said of each call when its
  return becomes possible.

`hexit` is that of `success_reported`: no test writes `0` to the exit port.  Without
it the core that has done so could be any.  Tests may otherwise do at the port what
they like, and return or panic as they like.

### Why nobody is left behind

A core that is fast can call `wait` for the second time while a slow one is still on
its way out of the first.  The barrier may not mix up the two, and `Live` says so by
numbers: a core that has called `wait` as one of the first `rounds * size` calls can
return as soon as there are so many.  A call of the first rendezvous is one of the
first `size`, because nobody calls again before all have come (`Attended.waits_lt`);
and so a slow core can always leave, whatever the others have done since.
-/

namespace ParaOS.Paraos

open Machine

variable {ι : Type}

/-! ## When a barrier returns

Calls are pending until they have been answered, and a call of `wait` is known by
how many there were before it.  `Lasting` carries this through the states of the
reference barrier, and shows that `Live` can be met. -/

/-- An event has been seen after so many calls of `wait`, and no event of a kind since. -/
def Pending (es : List (LeaderEvent ι)) (e : LeaderEvent ι) (answers : LeaderEvent ι → Prop)
    (n : ℕ) : Prop :=
  ∃ before after, es = before ++ e :: after ∧ (∀ x ∈ after, ¬ answers x) ∧
    before.countP LeaderEvent.isWait = n

/-- A core is in `call_once`. -/
def Calling (es : List (LeaderEvent ι)) (i : ι) (size : ℕ) : Prop :=
  ∃ n, Pending es (.callOnce i size) (· = .given i) n

/-- A core is in `wait`, which it has called after so many others. -/
def Waiting (es : List (LeaderEvent ι)) (i : ι) (n : ℕ) : Prop :=
  Pending es (.wait i) (fun x => ∃ leader, x = .pass i leader) n

section

variable {es : List (LeaderEvent ι)} {e new : LeaderEvent ι} {answers : LeaderEvent ι → Prop}
  {i j : ι} {n size : ℕ}

/-- It has been seen. -/
theorem Pending.mem (h : Pending es e answers n) : e ∈ es := by
  obtain ⟨before, after, rfl, -, -⟩ := h
  exact List.mem_append_right _ List.mem_cons_self

/-- The last event is not answered yet. -/
theorem pending_last (es : List (LeaderEvent ι)) (e : LeaderEvent ι)
    (answers : LeaderEvent ι → Prop) :
    Pending (es ++ [e]) e answers (es.countP LeaderEvent.isWait) :=
  ⟨es, [], rfl, nofun, rfl⟩

/-- An event that is no answer makes no difference. -/
theorem Pending.concat (h : Pending es e answers n) (hnew : ¬ answers new) :
    Pending (es ++ [new]) e answers n := by
  obtain ⟨before, after, rfl, hafter, hn⟩ := h
  refine ⟨before, after ++ [new], by simp, fun x hx => ?_, hn⟩
  rcases List.mem_append.mp hx with hx | hx
  · exact hafter x hx
  · rw [List.mem_singleton.mp hx]
    exact hnew

/-- The other way round. -/
theorem Pending.of_concat (h : Pending (es ++ [new]) e answers n) :
    (e = new ∧ n = es.countP LeaderEvent.isWait) ∨ Pending es e answers n ∧ ¬ answers new := by
  obtain ⟨before, after, heq, hafter, hn⟩ := h
  induction after using List.reverseRecOn with
  | nil =>
      obtain ⟨rfl, hlast⟩ := List.append_inj' heq rfl
      exact .inl ⟨(List.singleton_inj.mp hlast).symm, hn.symm⟩
  | append_singleton after last _ =>
      rw [← List.cons_append, ← List.append_assoc] at heq
      obtain ⟨hes, hlast⟩ := List.append_inj' heq rfl
      cases hlast
      exact .inr ⟨⟨before, after, hes, fun x hx => hafter x (List.mem_append_left _ hx), hn⟩,
        hafter new (List.mem_append_right _ (List.mem_singleton_self _))⟩

/-- What is seen otherwise makes no difference to a core in `wait`. -/
theorem waiting_concat (hwait : new ≠ .wait i) (hpass : ∀ leader, new ≠ .pass i leader) :
    Waiting (es ++ [new]) i n ↔ Waiting es i n := by
  constructor
  · intro h
    exact (h.of_concat.resolve_left fun heq => hwait heq.1.symm).1
  · intro h
    exact h.concat fun ⟨leader, heq⟩ => hpass leader heq

/-- What is seen otherwise makes no difference to a core in `call_once`. -/
theorem calling_concat (hcall : ∀ size, new ≠ .callOnce i size) (hgiven : new ≠ .given i) :
    Calling (es ++ [new]) i size ↔ Calling es i size := by
  constructor
  · rintro ⟨n, h⟩
    exact ⟨n, (h.of_concat.resolve_left fun heq => hcall size heq.1.symm).1⟩
  · rintro ⟨n, h⟩
    exact ⟨n, h.concat hgiven⟩

/-- Who calls `wait` is in it. -/
theorem waiting_last (es : List (LeaderEvent ι)) (i : ι) :
    Waiting (es ++ [.wait i]) i (es.countP LeaderEvent.isWait) :=
  pending_last _ _ _

/-- Who has been let through is not. -/
theorem not_waiting_pass {leader : Bool} : ¬ Waiting (es ++ [.pass i leader]) i n := by
  intro h
  rcases h.of_concat with ⟨heq, -⟩ | ⟨-, hpass⟩
  · cases heq
  · exact hpass ⟨leader, rfl⟩

end

/-- What the documentation of `spin` says: one of the cores in `call_once` gets the
barrier, and with it the others; a core can wait again when it has been let through; and
the calls of `wait` make up one rendezvous after the other, in each of which all are let
through when there are as many of them as the barrier is for. -/
structure LeaderBarrier.Live (B : LeaderBarrier ι) : Prop where
  callOnce : ∀ es st i size, B.Runs es st → ∃ st', B.step st (.callOnce i size) st'
  given : ∀ es st i size, B.Runs es st → Calling es i size →
    ∃ j size' st', Calling es j size' ∧ B.step st (.given j) st'
  wait : ∀ es st i, B.Runs es st → .given i ∈ es → (∀ n, ¬ Waiting es i n) →
    ∃ st', B.step st (.wait i) st'
  pass : ∀ es st i n size rounds, B.Runs es st → Waiting es i n →
    (∀ j size', .callOnce j size' ∈ es → size' = size) → n < rounds * size →
    rounds * size ≤ es.countP LeaderEvent.isWait → ∃ leader st', B.step st (.pass i leader) st'

/-- What is known of the barrier: all calls of `wait` are counted, and who is in it is
present since its generation. -/
structure Lasting (es : List (LeaderEvent ι)) (st : BarrierState ι) : Prop where
  incomplete : st.status = .incomplete → es = []
  running : ∀ j size, st.status = .running j size → Calling es j size
  complete : ∀ i, .given i ∈ es ∨ .wait i ∈ es → ∃ size, st.status = .complete size
  made : ∀ size, st.status = .complete size → ∃ j, .callOnce j size ∈ es
  unused : (∀ size, st.status ≠ .complete size) → st.generation = 0 ∧ st.count = 0
  exact : ∀ size, st.status = .complete size → 0 < size →
    st.generation * size + st.count = es.countP LeaderEvent.isWait ∧ st.count < size
  waiting : ∀ i n size, Waiting es i n → st.status = .complete size → 0 < size →
    st.present i = .leader ∨ ∃ since, st.present i = .blocked since ∧ since * size ≤ n
  absent : ∀ i, (∀ n, ¬ Waiting es i n) → st.present i = .absent

section

variable {es : List (LeaderEvent ι)} {e : LeaderEvent ι} {st st' : BarrierState ι} {i : ι}
  {size : ℕ}

/-- Nobody has called `wait` before there is a barrier. -/
theorem Lasting.no_waits (h : Lasting es st) (hnone : ∀ size, st.status ≠ .complete size) :
    es.countP LeaderEvent.isWait = 0 := by
  refine List.countP_eq_zero.mpr fun e he hwait => ?_
  cases e with
  | wait j =>
      obtain ⟨size, hsize⟩ := h.complete j (.inr he)
      exact hnone size hsize
  | _ => cases hwait

/-- What is to be known of a barrier that has been made. -/
theorem lasting_of_complete (hstatus : st.status = .complete size)
    (hmade : ∃ j, .callOnce j size ∈ es)
    (hexact : 0 < size →
      st.generation * size + st.count = es.countP LeaderEvent.isWait ∧ st.count < size)
    (hwaiting : ∀ i n, Waiting es i n → 0 < size →
      st.present i = .leader ∨ ∃ since, st.present i = .blocked since ∧ since * size ≤ n)
    (habsent : ∀ i, (∀ n, ¬ Waiting es i n) → st.present i = .absent) : Lasting es st := by
  have hsize : ∀ {size'}, st.status = .complete size' → size' = size := by
    intro size' heq
    cases hstatus.symm.trans heq
    rfl
  refine ⟨fun heq => ?_, fun _ _ heq => ?_, fun _ _ => ⟨size, hstatus⟩, fun size' heq => ?_,
    fun hne => absurd hstatus (hne size), fun size' heq => ?_, fun i n size' hi heq => ?_, habsent⟩
  · cases hstatus.symm.trans heq
  · cases hstatus.symm.trans heq
  · rw [hsize heq]
    exact hmade
  · rw [hsize heq]
    exact hexact
  · rw [hsize heq]
    exact hwaiting i n hi

/-- Events do not go away. -/
theorem Lasting.made_concat (h : Lasting es st) (hstatus : st.status = .complete size) :
    ∃ j, .callOnce j size ∈ es ++ [e] := by
  obtain ⟨j, hj⟩ := h.made size hstatus
  exact ⟨j, List.mem_append_left _ hj⟩

variable [DecidableEq ι]

/-- The first core runs the closure; others are in `call_once` as well. -/
theorem Lasting.callOnce (h : Lasting es st)
    (hst : leaderStep st (.callOnce i size) = some st') :
    Lasting (es ++ [.callOnce i size]) st' := by
  have hwaiting : ∀ j n, Waiting (es ++ [.callOnce i size]) j n ↔ Waiting es j n :=
    fun j n => waiting_concat (fun heq => by cases heq) fun _ heq => by cases heq
  have hcount := countP_concat es (.callOnce i size) LeaderEvent.isWait
  rw [leaderStep, barrierStep] at hst
  split at hst
  · rename_i hstatus
    cases hst
    obtain rfl := h.incomplete hstatus
    obtain ⟨hgen, hzero⟩ := h.unused fun size heq => by
      rw [hstatus] at heq
      cases heq
    refine ⟨fun heq => ?_, fun j size' heq => ?_, fun j hj => ?_, fun size' heq => ?_,
      fun _ => ⟨hgen, hzero⟩, fun size' heq => ?_, fun j n size' _ heq => ?_, fun j hj => ?_⟩
    · cases heq
    · cases heq
      exact ⟨0, pending_last _ _ _⟩
    · rcases hj with hmem | hmem <;> simp at hmem
    · cases heq
    · cases heq
    · cases heq
    · exact h.absent j fun n hn => hj n ((hwaiting j n).mpr hn)
  · rename_i hne
    cases hst
    refine ⟨fun hstatus => absurd hstatus hne, fun j size' hstatus => ?_, fun j hj => ?_,
      fun size' hstatus => ?_, h.unused, fun size' hstatus hpos => ?_, fun j n size' hj => ?_,
      fun j hj => ?_⟩
    · obtain ⟨n, hn⟩ := h.running j size' hstatus
      exact ⟨n, hn.concat fun heq => by cases heq⟩
    · rcases hj with hmem | hmem
      · exact h.complete j (.inl (by simpa using hmem))
      · exact h.complete j (.inr (by simpa using hmem))
    · obtain ⟨j, hj⟩ := h.made size' hstatus
      exact ⟨j, List.mem_append_left _ hj⟩
    · rw [hcount]
      exact h.exact size' hstatus hpos
    · exact h.waiting j n size' ((hwaiting j n).mp hj)
    · exact h.absent j fun n hn => hj n ((hwaiting j n).mpr hn)

/-- The barrier has been made, and everybody can have it. -/
theorem Lasting.given (h : Lasting es st) (hst : leaderStep st (.given i) = some st') :
    Lasting (es ++ [.given i]) st' := by
  have hwaiting : ∀ j n, Waiting (es ++ [.given i]) j n ↔ Waiting es j n :=
    fun j n => waiting_concat (fun heq => by cases heq) fun _ heq => by cases heq
  have hcount := countP_concat es (.given i) LeaderEvent.isWait
  rw [leaderStep, barrierStep] at hst
  split at hst
  · cases hst
  · rename_i j size hstatus
    split_ifs at hst
    cases hst
    have hnone : ∀ size, st.status ≠ .complete size := by
      intro size heq
      rw [hstatus] at heq
      cases heq
    obtain ⟨hgen, hzero⟩ := h.unused hnone
    obtain ⟨m, hm⟩ := h.running j size hstatus
    refine lasting_of_complete rfl ⟨j, List.mem_append_left _ hm.mem⟩ (fun hpos => ?_)
      (fun j n hj _ => ?_) fun j hj => h.absent j fun n hn => hj n ((hwaiting j n).mpr hn)
    · rw [hcount, h.no_waits hnone]
      dsimp only
      rw [hgen, hzero, Nat.zero_mul]
      exact ⟨rfl, hpos⟩
    · obtain ⟨size', hsize⟩ := h.complete j (.inr ((hwaiting j n).mp hj).mem)
      exact absurd hsize (hnone size')
  · rename_i size hstatus
    cases hst
    refine lasting_of_complete hstatus (h.made_concat hstatus) ?_
      (fun j n hj => h.waiting j n size ((hwaiting j n).mp hj) hstatus)
      fun j hj => h.absent j fun n hn => hj n ((hwaiting j n).mpr hn)
    rw [hcount]
    exact h.exact size hstatus

/-- A core comes to the barrier. -/
theorem Lasting.come (h : Lasting es st) (hstatus : st.status = .complete size)
    (habsent : st.present i = .absent) {count generation : ℕ} {p : Presence}
    (hexact : 0 < size → generation * size + count = es.countP LeaderEvent.isWait + 1 ∧
      count < size)
    (hwaiting : 0 < size → p = .leader ∨
      ∃ since, p = .blocked since ∧ since * size ≤ es.countP LeaderEvent.isWait) :
    Lasting (es ++ [.wait i]) { st with
      count := count
      generation := generation
      present := Function.update st.present i p } := by
  have hcount := countP_concat es (.wait i) LeaderEvent.isWait
  have hother : ∀ j, j ≠ i → ∀ n, Waiting (es ++ [.wait i]) j n ↔ Waiting es j n := by
    intro j hj n
    refine waiting_concat (fun heq => ?_) fun _ heq => by cases heq
    cases heq
    exact hj rfl
  refine lasting_of_complete hstatus (h.made_concat hstatus) ?_ (fun j n hj hpos => ?_)
    fun j hj => ?_
  · rw [hcount]
    exact hexact
  · by_cases hji : j = i
    · subst hji
      dsimp only
      rw [Function.update_self]
      rcases hj.of_concat with ⟨-, rfl⟩ | ⟨hold, -⟩
      · exact hwaiting hpos
      · -- it would have been there already
        rcases h.waiting j n size hold hstatus hpos with hleader | ⟨since, hblocked, -⟩
        · rw [habsent] at hleader
          cases hleader
        · rw [habsent] at hblocked
          cases hblocked
    · dsimp only
      rw [Function.update_of_ne hji]
      exact h.waiting j n size ((hother j hji n).mp hj) hstatus hpos
  · by_cases hji : j = i
    · subst hji
      exact absurd (waiting_last es j) (hj _)
    · dsimp only
      rw [Function.update_of_ne hji]
      exact h.absent j fun n hn => hj n ((hother j hji n).mpr hn)

/-- A core comes: it is blocked, or it starts the next generation. -/
theorem Lasting.wait (h : Lasting es st) (hst : leaderStep st (.wait i) = some st') :
    Lasting (es ++ [.wait i]) st' := by
  rw [leaderStep] at hst
  split at hst
  · rename_i habsent
    rw [barrierStep] at hst
    split at hst
    · rename_i size hstatus
      have hexact := h.exact size hstatus
      split_ifs at hst with hlt
      · cases hst
        refine h.come hstatus habsent (fun hpos => ?_) fun hpos => ?_
        · obtain ⟨hsum, -⟩ := hexact hpos
          omega
        · obtain ⟨hsum, -⟩ := hexact hpos
          exact .inr ⟨st.generation, rfl, by omega⟩
      · cases hst
        refine h.come hstatus habsent (fun hpos => ?_) fun _ => .inl rfl
        obtain ⟨hsum, hcount⟩ := hexact hpos
        rw [Nat.succ_mul]
        omega
    · cases hst
  · cases hst

/-- A core is let through. -/
theorem Lasting.leave (h : Lasting es st) (hstatus : st.status = .complete size) (leader : Bool) :
    Lasting (es ++ [.pass i leader]) { st with
      present := Function.update st.present i .absent } := by
  have hcount := countP_concat es (.pass i leader) LeaderEvent.isWait
  have hother : ∀ j, j ≠ i → ∀ n, Waiting (es ++ [.pass i leader]) j n ↔ Waiting es j n := by
    intro j hj n
    refine waiting_concat (fun heq => by cases heq) fun _ heq => ?_
    cases heq
    exact hj rfl
  refine lasting_of_complete hstatus (h.made_concat hstatus) ?_ (fun j n hj hpos => ?_)
    fun j hj => ?_
  · rw [hcount]
    exact h.exact size hstatus
  · by_cases hji : j = i
    · subst hji
      exact absurd hj not_waiting_pass
    · dsimp only
      rw [Function.update_of_ne hji]
      exact h.waiting j n size ((hother j hji n).mp hj) hstatus hpos
  · by_cases hji : j = i
    · subst hji
      exact Function.update_self ..
    · dsimp only
      rw [Function.update_of_ne hji]
      exact h.absent j fun n hn => hj n ((hother j hji n).mpr hn)

/-- A core of an earlier generation, or the last to have come, is let through. -/
theorem Lasting.pass {leader : Bool} (h : Lasting es st)
    (hst : leaderStep st (.pass i leader) = some st') : Lasting (es ++ [.pass i leader]) st' := by
  have hpass : ∀ {st'}, barrierStep st (.pass i) = some st' →
      Lasting (es ++ [.pass i leader]) st' := by
    intro st' hst
    rw [barrierStep] at hst
    split at hst
    · rename_i size generation hstatus hblocked
      split_ifs at hst
      cases hst
      exact h.leave hstatus leader
    · rename_i size hstatus hleader
      cases hst
      exact h.leave hstatus leader
    · cases hst
  cases hpresent : st.present i with
  | absent => simp only [leaderStep, hpresent, reduceCtorEq] at hst
  | blocked since =>
      cases leader with
      | true => simp only [leaderStep, hpresent, reduceCtorEq] at hst
      | false =>
          simp only [leaderStep, hpresent] at hst
          exact hpass hst
  | leader =>
      cases leader with
      | false => simp only [leaderStep, hpresent, reduceCtorEq] at hst
      | true =>
          simp only [leaderStep, hpresent] at hst
          exact hpass hst

/-- All of it holds of every run. -/
theorem lasting_of_runs {st : (LeaderBarrier.reference ι).St}
    (hruns : (LeaderBarrier.reference ι).Runs es st) : Lasting es st := by
  induction hruns with
  | new =>
      exact ⟨fun _ => rfl, nofun, fun _ h => h.elim nofun nofun, nofun, fun _ => ⟨rfl, rfl⟩, nofun,
        fun _ _ _ _ => nofun, fun _ _ => rfl⟩
  | @step es e st st' _ hst ih =>
      cases e with
      | callOnce i size => exact ih.callOnce hst
      | given i => exact ih.given hst
      | wait i => exact ih.wait hst
      | pass i leader => exact ih.pass hst

/-- **The barrier returns as documented.** -/
theorem LeaderBarrier.reference_live : (LeaderBarrier.reference ι).Live where
  callOnce es st i size _ := by
    change ∃ st', leaderStep st (.callOnce i size) = some st'
    cases hstatus : st.status with
    | incomplete => simp only [leaderStep, barrierStep, hstatus, Option.some.injEq, exists_eq']
    | _ =>
        simp only [leaderStep, barrierStep, hstatus]
        exact ⟨_, rfl⟩
  given es st i size hruns hcalling := by
    have h := lasting_of_runs hruns
    change ∃ j size' st', _ ∧ leaderStep st (.given j) = some st'
    cases hstatus : st.status with
    | incomplete =>
        obtain ⟨n, hn⟩ := hcalling
        rw [h.incomplete hstatus] at hn
        exact absurd hn.mem List.not_mem_nil
    | running j size' =>
        have hst : ∃ st', leaderStep st (.given j) = some st' := by
          simp only [leaderStep, barrierStep, hstatus, if_pos, Option.some.injEq, exists_eq']
        obtain ⟨st', hst⟩ := hst
        exact ⟨j, size', st', h.running j size' hstatus, hst⟩
    | complete size' =>
        have hst : leaderStep st (.given i) = some st := by
          simp only [leaderStep, barrierStep, hstatus]
          rfl
        exact ⟨i, size, st, hcalling, hst⟩
  wait es st i hruns hgiven hnot := by
    have h := lasting_of_runs hruns
    obtain ⟨size, hstatus⟩ := h.complete i (.inl hgiven)
    change ∃ st', leaderStep st (.wait i) = some st'
    simp only [leaderStep, h.absent i hnot, barrierStep, hstatus]
    split_ifs
    · exact ⟨_, rfl⟩
    · exact ⟨_, rfl⟩
  pass es st i n size rounds hruns hwaiting hsizes hlt hle := by
    have h := lasting_of_runs hruns
    have hpos : 0 < size := Nat.pos_of_ne_zero fun hzero => by
      rw [hzero, Nat.mul_zero] at hlt
      exact absurd hlt (Nat.not_lt_zero n)
    obtain ⟨size', hstatus⟩ := h.complete i (.inr hwaiting.mem)
    obtain ⟨j, hj⟩ := h.made size' hstatus
    obtain rfl := hsizes j size' hj
    change ∃ leader st', leaderStep st (.pass i leader) = some st'
    rcases h.waiting i n size' hwaiting hstatus hpos with hleader | ⟨since, hblocked, hsince⟩
    · refine ⟨true, ?_⟩
      simp only [leaderStep, barrierStep, hstatus, hleader, Option.some.injEq, exists_eq']
    · -- its generation is over
      obtain ⟨hsum, hcount⟩ := h.exact size' hstatus hpos
      have hbefore : since < rounds := Nat.lt_of_mul_lt_mul_right (hsince.trans_lt hlt)
      have hafter : rounds < st.generation + 1 := by
        refine Nat.lt_of_mul_lt_mul_right (a := size') ?_
        rw [Nat.succ_mul]
        omega
      have hopen : since ≠ st.generation ∨ size' ≤ st.count := .inl (by omega)
      refine ⟨false, ?_⟩
      simp only [leaderStep, barrierStep, hstatus, hblocked, if_pos hopen, Option.some.injEq,
        exists_eq']

end

/-! ## What is seen of a core

The place of a core and the events agree about which call it is in, and by which
number its call of `wait` goes. -/

/-- The core that something is seen of. -/
def LeaderEvent.core : LeaderEvent ι → ι
  | .callOnce i _ => i
  | .given i => i
  | .wait i => i
  | .pass i _ => i

/-- What is seen of another core makes no difference to `wait`, -/
theorem waiting_concat_of_ne {es : List (LeaderEvent ι)} {e : LeaderEvent ι} {j : ι} {n : ℕ}
    (h : e.core ≠ j) : Waiting (es ++ [e]) j n ↔ Waiting es j n := by
  refine waiting_concat ?_ fun leader => ?_
  · rintro rfl
    exact h rfl
  · rintro rfl
    exact h rfl

/-- nor to `call_once`. -/
theorem calling_concat_of_ne {es : List (LeaderEvent ι)} {e : LeaderEvent ι} {j : ι} {size : ℕ}
    (h : e.core ≠ j) : Calling (es ++ [e]) j size ↔ Calling es j size := by
  refine calling_concat (fun size => ?_) ?_
  · rintro rfl
    exact h rfl
  · rintro rfl
    exact h rfl

/-- The rendezvous a core is in. -/
def rendezvous (again : Bool) : ℕ := if again then 2 else 1

/-- What has been seen of a core, of so many, at a place. -/
def Place.Seen (es : List (LeaderEvent ι)) (cores : ℕ) (i : ι) : Place → Prop
  | .picking _ .calling => ∃ size, Calling es i size
  | .picking _ .obtained => .given i ∈ es
  | .picking again .waiting => ∃ n, Waiting es i n ∧ n < rendezvous again * cores
  | _ => True

/-- What is seen of another core makes no difference. -/
theorem Place.Seen.concat {es : List (LeaderEvent ι)} {e : LeaderEvent ι} {cores : ℕ} {j : ι}
    {p : Place} (h : p.Seen es cores j) (hj : e.core ≠ j) : p.Seen (es ++ [e]) cores j := by
  cases p with
  | picking again p =>
      cases p with
      | entry => trivial
      | calling =>
          obtain ⟨size, hsize⟩ := h
          exact ⟨size, (calling_concat_of_ne hj).mpr hsize⟩
      | obtained => exact List.mem_append_left _ h
      | waiting =>
          obtain ⟨n, hn, hlt⟩ := h
          exact ⟨n, (waiting_concat_of_ne hj).mpr hn, hlt⟩
  | _ => trivial

/-- A place in a test, and one after a test has panicked, is in one of the tests. -/
def Place.Within (count : ℕ) : Place → Prop
  | .between k => k ≤ count
  | .inTest k => k < count
  | .panicking (some k) => k < count
  | _ => True

section

variable {S : TestSuite ι} {B : LeaderBarrier ι} {i : ι} {t t' : Tester} {h h' : Harness B}

/-- The runner stops at the last test. -/
theorem within_of_run (hrun : S.run B i t h t' h') (hwithin : t.place.Within S.count) :
    t'.place.Within S.count := by
  cases hrun with
  | port => exact hwithin
  | begin => exact Nat.zero_le _
  | enter hk => exact hk
  | returns => exact hwithin
  | panics => exact hwithin
  | _ => trivial

/-- Calls of `wait` are not taken back. -/
theorem waits_le_of_run (hrun : S.run B i t h t' h') : t.place.waits ≤ t'.place.waits := by
  cases hrun with
  | @callOnce _ again => cases again <;> exact Nat.le_refl _
  | @given _ again => cases again <;> exact Nat.le_refl _
  | @wait _ again => cases again <;> exact Nat.le_succ _
  | _ => exact Nat.le_refl _

/-- Who is let through for the first time has called `wait` once. -/
theorem waits_of_run (hrun : S.run B i t h t' h') (hbefore : t.place.passes = 0)
    (hafter : 0 < t'.place.passes) : t'.place.waits = 1 := by
  cases hrun with
  | begin => rfl
  | port => exact absurd hafter (hbefore ▸ Nat.lt_irrefl 0)
  | @callOnce _ again =>
      cases again with
      | false => exact absurd hafter (Nat.lt_irrefl 0)
      | true => cases hbefore
  | @given _ again =>
      cases again with
      | false => exact absurd hafter (Nat.lt_irrefl 0)
      | true => cases hbefore
  | @wait _ again =>
      cases again with
      | false => exact absurd hafter (Nat.lt_irrefl 0)
      | true => cases hbefore
  | _ => cases hbefore

end

section

variable [Fintype ι] {S : TestSuite ι} {B : LeaderBarrier ι}
  {c c' : Config ι Tester (Harness B)} {i : ι}

/-- What has been seen of the cores tells where they are, and nobody has been let through
before all have come. -/
structure Attended (S : TestSuite ι) (c : Config ι Tester (Harness B)) : Prop where
  seen : ∀ j, (c.own j).place.Seen c.shared.events (Fintype.card ι) j
  calling : ∀ j size, Calling c.shared.events j size →
    ∃ again, (c.own j).place = .picking again .calling
  waiting : ∀ j n, Waiting c.shared.events j n → ∃ again, (c.own j).place = .picking again .waiting
  within : ∀ j, (c.own j).place.Within S.count
  met : ∀ j, 0 < (c.own j).place.passes → ∀ k, 0 < (c.own k).place.waits

/-- Nothing has been seen before the tests. -/
theorem attended_testStart (S : TestSuite ι) : Attended S (testStart B) where
  seen _ := trivial
  calling _ _ h := by
    obtain ⟨n, hn⟩ := h
    exact absurd hn.mem List.not_mem_nil
  waiting _ _ h := absurd h.mem List.not_mem_nil
  within _ := trivial
  met _ h := absurd h (Nat.lt_irrefl 0)

variable [DecidableEq ι]

/-- Nobody is let through before all have come. -/
theorem Attended.met_step (h : Attended S c) (hB : B.Documented)
    (hcores : ∀ j, S.numCores j = Fintype.card ι) (hs : (S.run B).Step i c c')
    (htallied : Tallied S c') {j : ι} (hj : 0 < (c'.own j).place.passes) (k : ι) :
    0 < (c'.own k).place.waits := by
  have hle : ∀ k, (c.own k).place.waits ≤ (c'.own k).place.waits := by
    intro k
    by_cases hk : k = i
    · subst hk
      exact waits_le_of_run hs.own_self
    · rw [hs.own_of_ne hk]
  by_cases hsome : ∃ j, 0 < (c.own j).place.passes
  · obtain ⟨j', hj'⟩ := hsome
    exact (h.met j' hj' k).trans_le (hle k)
  · -- it is the first to be let through, and nobody has called `wait` twice
    have hnone : ∀ j, (c.own j).place.passes = 0 := fun j =>
      Nat.eq_zero_of_not_pos fun hpos => hsome ⟨j, hpos⟩
    have hone : ∀ k, (c.own k).place.waits ≤ 1 := by
      intro k
      by_contra hlt
      have htwo : (c.own k).place.waits = 2 := by
        have := (c.own k).place.waits_le
        omega
      exact hsome ⟨k, Place.passes_pos htwo⟩
    obtain rfl : j = i := by
      by_contra hji
      rw [hs.own_of_ne hji, hnone j] at hj
      exact absurd hj (Nat.lt_irrefl 0)
    have hown := waits_of_run hs.own_self (hnone j) hj
    have hone' : ∀ k, (c'.own k).place.waits ≤ 1 := by
      intro k
      by_cases hk : k = j
      · subst hk
        exact hown.le
      · rw [hs.own_of_ne hk]
        exact hone k
    obtain ⟨rounds, hrounds, hsum, -, -⟩ := htallied.exists_rounds hB hcores hj
    have hcard : ∑ _k : ι, 1 ≤ ∑ k, (c'.own k).place.waits := by
      rw [Finset.sum_const_nat fun _ _ => rfl, Finset.card_univ, Nat.mul_one]
      exact (Nat.le_mul_of_pos_left _ (hj.trans_le hrounds)).trans hsum
    have heq := (Finset.sum_le_sum fun k _ => hone' k).antisymm hcard
    have hall := (Finset.sum_eq_sum_iff_of_le fun k _ => hone' k).mp heq k (Finset.mem_univ k)
    rw [hall]
    exact Nat.one_pos

/-- A step in which something is seen of the core. -/
theorem Attended.see (h : Attended S c) (hs : (S.run B).Step i c c') {t' : Tester}
    {e : LeaderEvent ι} {st : B.St} (hafter : c'.own i = t')
    (hshared : c'.shared = c.shared.see e st) (hcore : e.core = i)
    (hmet : ∀ j, 0 < (c'.own j).place.passes → ∀ k, 0 < (c'.own k).place.waits)
    (hseen : t'.place.Seen (c.shared.events ++ [e]) (Fintype.card ι) i)
    (hcalling : ∀ size, Calling (c.shared.events ++ [e]) i size →
      ∃ again, t'.place = .picking again .calling)
    (hwaiting : ∀ n, Waiting (c.shared.events ++ [e]) i n →
      ∃ again, t'.place = .picking again .waiting) : Attended S c' := by
  subst hafter
  have hevents : c'.shared.events = c.shared.events ++ [e] := by
    rw [hshared]
    rfl
  have hne : ∀ j, j ≠ i → e.core ≠ j := fun j hj heq => hj (heq.symm.trans hcore)
  refine ⟨fun j => ?_, fun j size hj => ?_, fun j n hj => ?_,
    hs.forall_own (p := fun _ t => t.place.Within S.count) h.within
      (within_of_run hs.own_self (h.within i)), hmet⟩
  · rw [hevents]
    by_cases hj : j = i
    · subst hj
      exact hseen
    · rw [hs.own_of_ne hj]
      exact (h.seen j).concat (hne j hj)
  · rw [hevents] at hj
    by_cases hji : j = i
    · subst hji
      exact hcalling size hj
    · rw [hs.own_of_ne hji]
      exact h.calling j size ((calling_concat_of_ne (hne j hji)).mp hj)
  · rw [hevents] at hj
    by_cases hji : j = i
    · subst hji
      exact hwaiting n hj
    · rw [hs.own_of_ne hji]
      exact h.waiting j n ((waiting_concat_of_ne (hne j hji)).mp hj)

/-- A step in which nothing is seen of it. -/
theorem Attended.silent (h : Attended S c) (hs : (S.run B).Step i c c') {t t' : Tester}
    {w : Wire ι} (hbefore : c.own i = t) (hafter : c'.own i = t')
    (hshared : c'.shared = { c.shared with wire := w })
    (hmet : ∀ j, 0 < (c'.own j).place.passes → ∀ k, 0 < (c'.own k).place.waits)
    (hseen : t.place.Seen c.shared.events (Fintype.card ι) i →
      t'.place.Seen c.shared.events (Fintype.card ι) i)
    (hplace : ∀ again p, t.place = .picking again p → t'.place = .picking again p) :
    Attended S c' := by
  subst hbefore hafter
  have hevents : c'.shared.events = c.shared.events := by
    rw [hshared]
  have hseen' := hs.forall_own (p := fun j t => t.place.Seen c.shared.events (Fintype.card ι) j)
    h.seen (hseen (h.seen i))
  refine ⟨hevents ▸ hseen', fun j size hj => ?_, fun j n hj => ?_,
    hs.forall_own (p := fun _ t => t.place.Within S.count) h.within
      (within_of_run hs.own_self (h.within i)), hmet⟩
  · rw [hevents] at hj
    obtain ⟨again, hagain⟩ := h.calling j size hj
    by_cases hji : j = i
    · subst hji
      exact ⟨again, hplace again .calling hagain⟩
    · rw [hs.own_of_ne hji]
      exact ⟨again, hagain⟩
  · rw [hevents] at hj
    obtain ⟨again, hagain⟩ := h.waiting j n hj
    by_cases hji : j = i
    · subst hji
      exact ⟨again, hplace again .waiting hagain⟩
    · rw [hs.own_of_ne hji]
      exact ⟨again, hagain⟩

/-- The calls of `wait` before that of a core which is not in it. -/
theorem Attended.waits_lt (h : Attended S c) (htallied : Tallied S c) {again : Bool}
    (hplace : (c.own i).place = .picking again .obtained) :
    c.shared.events.countP LeaderEvent.isWait < rendezvous again * Fintype.card ι := by
  rw [htallied.waits]
  cases again with
  | true =>
      rw [rendezvous, if_pos rfl, ← sum_two]
      refine Finset.sum_lt_sum (fun j _ => (c.own j).place.waits_le) ⟨i, Finset.mem_univ i, ?_⟩
      rw [hplace]
      exact Nat.one_lt_two
  | false =>
      have hzero : (c.own i).place.waits = 0 := by
        rw [hplace]
        rfl
      have hone : ∀ j, (c.own j).place.waits ≤ 1 := by
        intro j
        by_contra hlt
        have htwo : (c.own j).place.waits = 2 := by
          have := (c.own j).place.waits_le
          omega
        have hpos := h.met j (Place.passes_pos htwo) i
        rw [hzero] at hpos
        exact absurd hpos (Nat.lt_irrefl 0)
      rw [rendezvous, if_neg Bool.false_ne_true, Nat.one_mul, Fintype.card_eq_sum_ones]
      refine Finset.sum_lt_sum (fun j _ => hone j) ⟨i, Finset.mem_univ i, ?_⟩
      rw [hzero]
      exact Nat.one_pos

/-- **Every step keeps what is known of the cores.** -/
theorem Attended.step (h : Attended S c) (hB : B.Documented)
    (hcores : ∀ j, S.numCores j = Fintype.card ι) (htallied : Tallied S c)
    (hs : (S.run B).Step i c c') : Attended S c' := by
  have hmet : ∀ j, 0 < (c'.own j).place.passes → ∀ k, 0 < (c'.own k).place.waits :=
    fun j hj => h.met_step hB hcores hs (htallied.step hs) hj
  have hown := hs.own_self
  generalize hbefore : c.own i = t, hafter : c'.own i = t', hshared₀ : c.shared = sh,
    hshared : c'.shared = sh' at hown
  subst hshared₀
  have hplace : ∀ {p}, t.place = p → (c.own i).place = p := fun heq => hbefore ▸ heq
  -- a core that is elsewhere is neither in `call_once` nor in `wait`
  have hcalling : ∀ size, Calling c.shared.events i size →
      ∃ again, t.place = .picking again .calling := hbefore ▸ h.calling i
  have hwaiting : ∀ n, Waiting c.shared.events i n →
      ∃ again, t.place = .picking again .waiting := hbefore ▸ h.waiting i
  have hseen : t.place.Seen c.shared.events (Fintype.card ι) i := hbefore ▸ h.seen i
  cases hown with
  | port => exact h.silent hs hbefore hafter hshared hmet id fun _ _ => id
  | @callOnce _ again leader _ _ hst =>
      refine h.see hs hafter hshared rfl hmet ⟨_, _, pending_last _ _ _⟩ (fun _ _ => ⟨again, rfl⟩)
        fun n hn => ?_
      obtain ⟨_, heq⟩ := hwaiting n ((waiting_concat (by simp) (by simp)).mp hn)
      cases heq
  | @given _ again leader _ _ hst =>
      refine h.see hs hafter hshared rfl hmet
        (List.mem_append_right _ (List.mem_singleton_self _)) (fun size hsize => ?_) fun n hn => ?_
      · obtain ⟨n, hn⟩ := hsize
        rcases hn.of_concat with ⟨heq, -⟩ | ⟨-, hne⟩
        · cases heq
        · exact absurd rfl hne
      · obtain ⟨_, heq⟩ := hwaiting n ((waiting_concat (by simp) (by simp)).mp hn)
        cases heq
  | @wait _ again leader _ _ hst =>
      refine h.see hs hafter hshared rfl hmet
        ⟨_, waiting_last _ _, h.waits_lt htallied (hplace rfl)⟩ (fun size hsize => ?_)
        fun _ _ => ⟨again, rfl⟩
      obtain ⟨_, heq⟩ := hcalling size ((calling_concat (by simp) (by simp)).mp hsize)
      cases heq
  | begin hst =>
      refine h.see hs hafter hshared rfl hmet trivial (fun size hsize => ?_) fun n hn => ?_
      · obtain ⟨_, heq⟩ := hcalling size ((calling_concat (by simp) (by simp)).mp hsize)
        cases heq
      · exact absurd hn not_waiting_pass
  | enter hk => exact h.silent hs hbefore hafter hshared hmet (fun _ => trivial) nofun
  | returns hk => exact h.silent hs hbefore hafter hshared hmet (fun _ => trivial) nofun
  | panics => exact h.silent hs hbefore hafter hshared hmet (fun _ => trivial) nofun
  | finish => exact h.silent hs hbefore hafter hshared hmet (fun _ => trivial) nofun
  | exit hst =>
      refine h.see hs hafter hshared rfl hmet trivial (fun size hsize => ?_) fun n hn => ?_
      · obtain ⟨_, heq⟩ := hcalling size ((calling_concat (by simp) (by simp)).mp hsize)
        cases heq
      · exact absurd hn not_waiting_pass
  | loop hst =>
      refine h.see hs hafter hshared rfl hmet trivial (fun size hsize => ?_) fun n hn => ?_
      · obtain ⟨_, heq⟩ := hcalling size ((calling_concat (by simp) (by simp)).mp hsize)
        cases heq
      · exact absurd hn not_waiting_pass
  | unreachable => exact h.silent hs hbefore hafter hshared hmet (fun _ => trivial) nofun

end

/-! ## Guards

All cores may be at the port at once here, so a core may have to wait for the mutex.
It does not have to wait for long: whoever holds it drops it with the next step, and
can always take that step.  A test that panics between the two would keep it, and
from then on nothing is said. -/

/-- The guard is with another core or with nobody, or this core is about to drop it. -/
def Polite (i : ι) (mutex : Option ι) (todo : List PortStep) : Prop :=
  (mutex ≠ some i ∧ Dropped todo) ∨
    ∃ steps, mutex = some i ∧ todo = .unlock :: steps ∧ Dropped steps

section

variable {i j : ι} {now : PortStep} {todo todo' : List PortStep} {w w' : Wire ι}

/-- Every step at the port keeps it. -/
theorem Polite.step (h : Polite i w.mutex (now :: todo)) (hstep : now.Does i w w') :
    Polite i w'.mutex todo := by
  cases hstep with
  | lock hnone =>
      have hguarded : Guarded i w.mutex (.lock :: todo) := by
        rcases h with ⟨-, hdropped⟩ | ⟨steps, hsome, -, -⟩
        · exact .inl ⟨hnone, hdropped⟩
        · rw [hnone] at hsome
          cases hsome
      rcases hguarded.step (.lock hnone) with ⟨hnone', -⟩ | hheld
      · cases hnone'
      · exact .inr hheld
  | unlock =>
      rcases h with ⟨-, hdropped⟩ | ⟨steps, -, heq, hdropped⟩
      · exact hdropped.elim
      · cases heq
        exact .inl ⟨fun heq => (by cases heq), hdropped⟩
  | poll =>
      rcases h with ⟨hne, hdropped⟩ | ⟨steps, -, heq, -⟩
      · exact .inl ⟨hne, hdropped⟩
      · cases heq
  | outb =>
      rcases h with ⟨hne, hdropped⟩ | ⟨steps, -, heq, -⟩
      · exact .inl ⟨hne, hdropped⟩
      · cases heq

/-- Another core can rely on it. -/
theorem Polite.other (h : Polite j w.mutex todo') (hi : Polite i w.mutex (now :: todo))
    (hstep : now.Does i w w') (hj : j ≠ i) : Polite j w'.mutex todo' := by
  cases hstep with
  | lock hnone =>
      rcases h with ⟨-, hdropped⟩ | ⟨steps, hsome, -, -⟩
      · refine .inl ⟨fun heq => ?_, hdropped⟩
        cases heq
        exact hj rfl
      · rw [hnone] at hsome
        cases hsome
  | unlock =>
      rcases hi with ⟨-, hdropped⟩ | ⟨steps, hsome, -, -⟩
      · exact hdropped.elim
      · rcases h with ⟨-, hdropped⟩ | ⟨steps', hsome', -, -⟩
        · exact .inl ⟨fun heq => (by cases heq), hdropped⟩
        · cases hsome.symm.trans hsome'
          exact absurd rfl hj
  | poll => exact h
  | outb => exact h

/-- A core with nothing to do at the port gets something to do. -/
theorem Polite.next (h : Polite i w.mutex []) (hdropped : Dropped todo) :
    Polite i w.mutex todo := by
  rcases h with ⟨hne, -⟩ | ⟨steps, -, heq, -⟩
  · exact .inl ⟨hne, hdropped⟩
  · cases heq

end

section

variable {S : TestSuite ι} {B : LeaderBarrier ι} {c c' : Config ι Tester (Harness B)} {i : ι}

/-- A core has panicked in a test. -/
def Panicked (c : Config ι Tester (Harness B)) : Prop :=
  ∃ j k, (c.own j).place = .panicking (some k)

/-- All cores are polite. -/
def Courteous (c : Config ι Tester (Harness B)) : Prop :=
  ∀ j, Polite j c.shared.wire.mutex (c.own j).todo

/-- Nobody holds the mutex before the tests. -/
theorem courteous_testStart : Courteous (testStart B) :=
  fun _ => .inl ⟨fun heq => (by cases heq), trivial⟩

/-- A panic drops its guards at once. -/
theorem dropped_panicSteps (info : List String) : Dropped (panicSteps info) := by
  have hexit : Dropped [PortStep.outb exitPort 1] := trivial
  exact (hexit.fmtSteps ("\n" :: info ++ ["\n"])).init

variable [DecidableEq ι]

/-- A core that has panicked in a test stays where it is. -/
theorem Panicked.step (h : Panicked c) (hs : (S.run B).Step i c c') : Panicked c' := by
  obtain ⟨j, k, hj⟩ := h
  refine ⟨j, k, ?_⟩
  by_cases hji : j = i
  · subst hji
    have hown := hs.own_self
    generalize c.own j = t, c'.own j = t', c.shared = sh, c'.shared = sh' at hown hj ⊢
    cases hown with
    | port => exact hj
    | _ => cases hj
  · rw [hs.own_of_ne hji]
    exact hj

/-- A core gets to another place. -/
theorem Courteous.next (h : Courteous c) (hs : (S.run B).Step i c c') {t t' : Tester}
    (hbefore : c.own i = t) (hafter : c'.own i = t') (hwire : c'.shared.wire = c.shared.wire)
    (htodo : t.todo = []) (hdropped : Dropped t'.todo) : Courteous c' := by
  subst hbefore hafter
  intro j
  rw [hwire]
  by_cases hj : j = i
  · subst hj
    have hpolite := h j
    rw [htodo] at hpolite
    exact hpolite.next hdropped
  · rw [hs.own_of_ne hj]
    exact h j

/-- **All cores stay polite**, as long as none panics in a test. -/
theorem Courteous.step (h : Courteous c) (haccesses : ∀ j k, Dropped (S.accesses j k))
    (hs : (S.run B).Step i c c') : Panicked c' ∨ Courteous c' := by
  have hown := hs.own_self
  generalize hbefore : c.own i = t, hafter : c'.own i = t', hshared₀ : c.shared = sh,
    hshared : c'.shared = sh' at hown
  subst hshared₀
  have hwire := congrArg Harness.wire hshared
  cases hown with
  | port hstep =>
      refine .inr fun j => ?_
      have hi := h i
      rw [hbefore] at hi
      rw [hwire]
      by_cases hj : j = i
      · subst hj
        rw [hafter]
        exact hi.step hstep
      · rw [hs.own_of_ne hj]
        exact (h j).other hi hstep hj
  | begin => exact .inr (h.next hs hbefore hafter hwire rfl (S.dropped_opening _))
  | enter hk => exact .inr (h.next hs hbefore hafter hwire rfl (haccesses i _))
  | returns hk => exact .inr (h.next hs hbefore hafter hwire rfl (S.dropped_dot _ _ _))
  | panics => exact .inl ⟨i, _, congrArg Tester.place hafter⟩
  | finish => exact .inr (h.next hs hbefore hafter hwire rfl (S.dropped_closing _ _))
  | unreachable => exact .inr (h.next hs hbefore hafter hwire rfl (dropped_panicSteps _))
  | _ => exact .inr (h.next hs hbefore hafter hwire rfl trivial)

/-- When nothing can be done any more, nobody is at the port. -/
theorem Courteous.todo_eq_nil (h : Courteous c) (hstuck : (S.run B).Stuck c) (i : ι) :
    (c.own i).todo = [] := by
  have hport : ∀ {j step todo w}, (c.own j).todo = step :: todo →
      ¬ step.Does j c.shared.wire w := by
    intro j step todo w htodo hdoes
    have hnot := hstuck.not_step (i := j) (s := ⟨(c.own j).place, (c.own j).leader, todo⟩)
      (t := { c.shared with wire := w })
    refine hnot ?_
    have hown : c.own j = ⟨(c.own j).place, (c.own j).leader, step :: todo⟩ := by
      rw [← htodo]
    rw [hown]
    exact .port hdoes
  have hfree : c.shared.wire.mutex = none := by
    cases hmutex : c.shared.wire.mutex with
    | none => rfl
    | some j =>
        rcases h j with ⟨hne, -⟩ | ⟨steps, -, htodo, -⟩
        · exact absurd hmutex hne
        · exact absurd .unlock (hport htodo)
  cases htodo : (c.own i).todo with
  | nil => rfl
  | cons step todo =>
      have hdoes : ∃ w, step.Does i c.shared.wire w := by
        cases step with
        | lock => exact ⟨_, .lock hfree⟩
        | unlock => exact ⟨_, .unlock⟩
        | poll => exact ⟨_, .poll⟩
        | outb port byte => exact ⟨_, .outb⟩
      obtain ⟨w, hw⟩ := hdoes
      exact absurd hw (hport htodo)

end

/-! ## What a core has to do

A number for every core that gets smaller with each of its steps.  It is an upper
bound and not exact, as a test may panic instead of returning and only one core
reports. -/

/-- What can come of a test. -/
def TestSuite.effort (S : TestSuite ι) (i : ι) (k : ℕ) : ℕ :=
  (S.accesses i k).length + (panicSteps (S.panicInfo i (some k))).length + S.busy i k + 6

/-- The steps of a core behind a place, at most. -/
def TestSuite.left (S : TestSuite ι) (i : ι) : Place → ℕ
  | .looping => 0
  | .panicking _ => 0
  | .exiting => 1 + (panicSteps (S.panicInfo i none)).length
  | .picking true .waiting => 3 + (panicSteps (S.panicInfo i none)).length
  | .picking true .obtained => 4 + (panicSteps (S.panicInfo i none)).length
  | .picking true .calling => 5 + (panicSteps (S.panicInfo i none)).length
  | .picking true .entry => 6 + (panicSteps (S.panicInfo i none)).length
  | .between k =>
      11 + S.busy i S.count + (panicSteps (S.panicInfo i none)).length +
        ∑ k' ∈ Finset.Ico k S.count, S.effort i k'
  | .inTest k =>
      16 + S.busy i S.count + S.busy i k + (panicSteps (S.panicInfo i none)).length +
        (panicSteps (S.panicInfo i (some k))).length +
        ∑ k' ∈ Finset.Ico (k + 1) S.count, S.effort i k'
  | .picking false p =>
      12 + S.busy i S.count + (panicSteps (S.panicInfo i none)).length +
        (S.opening true).length + ∑ k' ∈ Finset.Ico 0 S.count, S.effort i k' +
        match p with
          | .waiting => 0
          | .obtained => 1
          | .calling => 2
          | .entry => 3

/-- What a core has to do. -/
def TestSuite.duty (S : TestSuite ι) (i : ι) (t : Tester) : ℕ := t.todo.length + S.left i t.place

/-- The core that reports has the most to write. -/
theorem TestSuite.length_opening_le (S : TestSuite ι) (leader : Bool) :
    (S.opening leader).length ≤ (S.opening true).length := by
  cases leader with
  | true => exact Nat.le_refl _
  | false =>
      rw [opening, opening, List.length_append, List.length_append]
      exact Nat.add_le_add_left (Nat.zero_le _) _

/-- A character takes the guard, its polls and one byte. -/
theorem length_writeCharSteps (busy : ℕ) (c : Char) :
    (writeCharSteps busy c).length = busy + 4 := by
  rw [writeCharSteps, List.length_cons, List.length_cons, List.length_append,
    List.length_replicate]
  rfl

/-- A dot takes no more than that, -/
theorem TestSuite.length_dot_le (S : TestSuite ι) (i : ι) (k : ℕ) (leader : Bool) :
    (S.dot i k leader).length ≤ S.busy i k + 4 := by
  cases leader with
  | false => exact Nat.zero_le _
  | true => exact (length_writeCharSteps _ _).le

/-- nor does the end of the line. -/
theorem TestSuite.length_closing_le (S : TestSuite ι) (i : ι) (leader : Bool) :
    (S.closing i leader).length ≤ S.busy i S.count + 4 := by
  cases leader with
  | false => exact Nat.zero_le _
  | true => exact (length_writeCharSteps _ _).le

/-- **Every step does some of it.** -/
theorem TestSuite.duty_lt {S : TestSuite ι} {B : LeaderBarrier ι} {i : ι} {t t' : Tester}
    {h h' : Harness B} (hrun : S.run B i t h t' h') : S.duty i t' < S.duty i t := by
  cases hrun with
  | port => exact Nat.add_lt_add_right (Nat.lt_succ_self _) _
  | @callOnce _ again leader =>
      cases again <;> simp only [duty, left] <;> omega
  | @given _ again leader =>
      cases again <;> simp only [duty, left] <;> omega
  | @wait _ again leader =>
      cases again <;> simp only [duty, left] <;> omega
  | @begin _ leader leader' =>
      have hle := S.length_opening_le leader'
      simp only [duty, left, List.length_nil]
      omega
  | @enter _ k leader _ hk =>
      have hsum := Finset.sum_eq_sum_Ico_succ_bot hk (S.effort i)
      simp only [duty, left, List.length_nil]
      rw [hsum, effort]
      omega
  | @returns _ k leader =>
      have hdot := S.length_dot_le i k leader
      simp only [duty, left, List.length_nil]
      omega
  | panics =>
      simp only [duty, left]
      omega
  | @finish _ leader =>
      have hclosing := S.length_closing_le i leader
      simp only [duty, left, List.length_nil]
      omega
  | exit =>
      simp only [duty, left, List.length_nil, List.length_singleton]
      omega
  | loop =>
      simp only [duty, left, List.length_nil]
      omega
  | unreachable =>
      simp only [duty, left, List.length_nil]
      omega

/-! ## When nothing can be done

Nobody is at the port then, and nobody in a test; so all cores are at the barrier or
behind it.  Those of the first rendezvous can leave, then those of the second, and
what is left are cores that have been let through twice. -/

section

variable [DecidableEq ι] [Fintype ι] {S : TestSuite ι} {B : LeaderBarrier ι}
  {c : Config ι Tester (Harness B)} {i : ι}

/-- Where a core is left that has not panicked in a test. -/
theorem Attended.places (h : Attended S c) (htallied : Tallied S c) (hlive : B.Live)
    (hcourteous : Courteous c) (hpanicked : ¬ Panicked c) (hstuck : (S.run B).Stuck c) (i : ι) :
    (∃ again, (c.own i).place = .picking again .waiting) ∨ (c.own i).place = .looping ∨
      (c.own i).place = .panicking none := by
  have hruns := htallied.runs
  -- nobody is at the port, so all that can happen is that a core gets to another place
  have hnot : ∀ {j place}, (c.own j).place = place → ∀ {t h'},
      ¬ S.run B j ⟨place, (c.own j).leader, []⟩ c.shared t h' := by
    rintro j place rfl t h' hrun
    have hown : c.own j = ⟨(c.own j).place, (c.own j).leader, []⟩ := by
      rw [← hcourteous.todo_eq_nil hstuck j]
    have hnot := hstuck.not_step (i := j) (s := t) (t := h')
    rw [hown] at hnot
    exact hnot hrun
  have hseen := h.seen i
  have hwithin := h.within i
  generalize hplace : (c.own i).place = place at hseen hwithin
  cases place with
  | picking again p =>
      cases p with
      | entry =>
          obtain ⟨st, hst⟩ := hlive.callOnce _ _ i (S.numCores i) hruns
          exact absurd (.callOnce hst) (hnot hplace)
      | calling =>
          obtain ⟨size, hcalling⟩ := hseen
          obtain ⟨j, size', st, hj, hst⟩ := hlive.given _ _ i size hruns hcalling
          obtain ⟨again', hagain⟩ := h.calling j size' hj
          exact absurd (.given hst) (hnot hagain)
      | obtained =>
          have hnone : ∀ n, ¬ Waiting c.shared.events i n := by
            intro n hn
            obtain ⟨again', hagain⟩ := h.waiting i n hn
            rw [hplace] at hagain
            cases hagain
          obtain ⟨st, hst⟩ := hlive.wait _ _ i hruns hseen hnone
          exact absurd (.wait hst) (hnot hplace)
      | waiting => exact .inl ⟨again, rfl⟩
  | between k =>
      rcases Nat.lt_or_eq_of_le hwithin with hlt | rfl
      · exact absurd (.enter hlt) (hnot hplace)
      · exact absurd .finish (hnot hplace)
  | inTest k => exact absurd .panics (hnot hplace)
  | exiting => exact absurd .unreachable (hnot hplace)
  | looping => exact .inr (.inl rfl)
  | panicking test =>
      cases test with
      | none => exact .inr (.inr rfl)
      | some k => exact absurd ⟨i, k, hplace⟩ hpanicked

/-- If as many have called `wait` as the rendezvous is for, nobody is left in it. -/
theorem Attended.not_waiting (h : Attended S c) (htallied : Tallied S c) (hlive : B.Live)
    (hcores : ∀ j, S.numCores j = Fintype.card ι) (hcourteous : Courteous c)
    (hstuck : (S.run B).Stuck c) {again : Bool}
    (hall : rendezvous again * Fintype.card ι ≤ ∑ j, (c.own j).place.waits) :
    (c.own i).place ≠ .picking again .waiting := by
  intro hplace
  have hseen := h.seen i
  rw [hplace] at hseen
  obtain ⟨n, hn, hlt⟩ := hseen
  rw [← htallied.waits] at hall
  obtain ⟨leader, st, hst⟩ := hlive.pass _ _ i n _ _ htallied.runs hn
    (fun j size hj => (htallied.sizes j size hj).trans (hcores j)) hlt hall
  have hown : c.own i = ⟨.picking again .waiting, (c.own i).leader, []⟩ := by
    rw [← hcourteous.todo_eq_nil hstuck i, ← hplace]
  have hnot : ∀ {t h'},
      ¬ S.run B i ⟨.picking again .waiting, (c.own i).leader, []⟩ c.shared t h' := by
    intro t h'
    rw [← hown]
    exact hstuck.not_step
  cases again with
  | false => exact hnot (.begin hst)
  | true =>
      cases leader with
      | true => exact hnot (.exit hst)
      | false => exact hnot (.loop hst)

/-- **Nobody is left behind in a rendezvous.** -/
theorem Attended.through (h : Attended S c) (htallied : Tallied S c) (hlive : B.Live)
    (hcores : ∀ j, S.numCores j = Fintype.card ι) (hcourteous : Courteous c)
    (hpanicked : ¬ Panicked c) (hstuck : (S.run B).Stuck c) (i : ι) :
    (c.own i).place = .looping ∨ (c.own i).place = .panicking none := by
  have hplaces := h.places htallied hlive hcourteous hpanicked hstuck
  -- all have called `wait` once, so nobody is in it for the first time
  have hone : ∀ j, 1 ≤ (c.own j).place.waits := by
    intro j
    rcases hplaces j with ⟨again, hj⟩ | hj | hj
    · rw [hj]
      cases again <;> decide
    · rw [hj]
      decide
    · rw [hj]
      decide
  have hfirst : rendezvous false * Fintype.card ι ≤ ∑ j, (c.own j).place.waits := by
    rw [rendezvous, if_neg Bool.false_ne_true, Nat.one_mul, Fintype.card_eq_sum_ones]
    exact Finset.sum_le_sum fun j _ => hone j
  -- so all have called it twice
  have htwo : ∀ j, (c.own j).place.waits = 2 := by
    intro j
    rcases hplaces j with ⟨again, hj⟩ | hj | hj
    · cases again with
      | false => exact absurd hj (h.not_waiting htallied hlive hcores hcourteous hstuck hfirst)
      | true =>
          rw [hj]
          rfl
    · rw [hj]
      rfl
    · rw [hj]
      rfl
  have hsecond : rendezvous true * Fintype.card ι ≤ ∑ j, (c.own j).place.waits := by
    rw [rendezvous, if_pos rfl, ← sum_two]
    exact Finset.sum_le_sum fun j _ => (htwo j).ge
  rcases hplaces i with ⟨again, hi⟩ | hi
  · cases again with
    | false => exact absurd hi (h.not_waiting htallied hlive hcores hcourteous hstuck hfirst)
    | true => exact absurd hi (h.not_waiting htallied hlive hcores hcourteous hstuck hsecond)
  · exact hi

/-- When all have been let through twice, one of them has been picked to exit. -/
theorem Counted.exists_exits [Nonempty ι] (h : Counted S c) (hB : B.Documented)
    (hcores : ∀ j, S.numCores j = Fintype.card ι)
    (hthrough : ∀ j, (c.own j).place = .looping ∨ (c.own j).place = .panicking none) :
    ∃ i, (c.own i).place.exits = true := by
  by_contra hnone
  have hloops : ∀ j, (c.own j).place.loops.toNat = 1 := by
    intro j
    rcases hthrough j with hj | hj
    · rw [hj]
      rfl
    · refine absurd ⟨j, ?_⟩ hnone
      rw [hj]
      rfl
  have hpasses : ∀ j, (c.own j).place.passes = 2 := by
    intro j
    rcases hthrough j with hj | hj <;> rw [hj] <;> rfl
  have hpos : ∀ j, 0 < (c.own j).place.passes := fun j => (hpasses j).symm ▸ Nat.two_pos
  have hcard : 0 < Fintype.card ι := Fintype.card_pos
  obtain ⟨i⟩ := ‹Nonempty ι›
  obtain ⟨rounds, -, hwaits, -, hfollows⟩ :=
    h.exists_rounds hB hcores (hpos i)
  have hrounds : rounds ≤ 2 :=
    Nat.le_of_mul_le_mul_right (hwaits.trans (sum_waits_le c)) hcard
  have hle := hfollows.trans (Nat.mul_le_mul_right _ hrounds)
  -- all but one have followed in the first rendezvous, and all in the second
  have hled := sum_led_add_followed hpos
  have hsum : ∑ j, (c.own j).follows = ∑ j, (c.own j).followed + Fintype.card ι := by
    rw [Fintype.card_eq_sum_ones, ← Finset.sum_add_distrib]
    exact Finset.sum_congr rfl fun j _ => congrArg _ (hloops j)
  have hone := h.led
  omega

end

/-- What is known in every run. -/
theorem attended_of_reach [DecidableEq ι] [Fintype ι] {S : TestSuite ι} {B : LeaderBarrier ι}
    {c : Config ι Tester (Harness B)} (hB : B.Documented)
    (hcores : ∀ j, S.numCores j = Fintype.card ι)
    (hexit : ∀ j k, (exitPort, 0) ∉ outbs (S.accesses j k))
    (haccesses : ∀ j k, Dropped (S.accesses j k))
    (h : Processes.Reach (S.run B) (fun _ _ => True) (testStart B) c) :
    Tested S c ∧ Attended S c ∧ (Panicked c ∨ Courteous c) := by
  induction h with
  | refl => exact ⟨tested_testStart S, attended_testStart S, .inr courteous_testStart⟩
  | step _ _ hs ih =>
      obtain ⟨htested, hattended, hguards⟩ := ih
      exact ⟨htested.step hB hcores hexit hs, hattended.step hB hcores htested.toTallied hs,
        hguards.elim (fun h => .inl (h.step hs)) fun h => h.step haccesses hs⟩

/-- **The test build gets through.**  Whatever the order in which the cores take
their steps, a run is no longer than what they have to do.  When nothing can be done
any more, a test has panicked on some core, or one core has written `0` to the exit
port and all others are in the loop at the end of `_start`.

The bound counts every poll of the transmitter, of which a suite says how many there
are before each byte the runner writes with `write_char`. -/
theorem tests_complete [DecidableEq ι] [Fintype ι] [Nonempty ι] {S : TestSuite ι}
    {B : LeaderBarrier ι} {n : ℕ} {c : Config ι Tester (Harness B)} (hB : B.Documented)
    (hlive : B.Live) (hcores : ∀ j, S.numCores j = Fintype.card ι)
    (hexit : ∀ j k, (exitPort, 0) ∉ outbs (S.accesses j k))
    (haccesses : ∀ j k, Dropped (S.accesses j k))
    (h : Processes.Steps (S.run B) (testStart B) n c) :
    n ≤ ∑ i, S.left i (.picking false .entry) ∧
      (Processes.Stuck (S.run B) c →
        (∃ i k, k < S.count ∧ (c.own i).place = .panicking (some k)) ∨
        ∃ i, (exitPort, 0) ∈ c.shared.wire.writtenBy i ∧ (∀ j, (c.own j).todo = []) ∧
          ∀ j, j ≠ i → (c.own j).place = .looping) := by
  obtain ⟨htested, hattended, hguards⟩ := attended_of_reach hB hcores hexit haccesses h.reach
  refine ⟨?_, fun hstuck => ?_⟩
  · have hle := h.add_sum_le (μ := S.duty) fun _ _ _ _ _ hst => TestSuite.duty_lt hst
    have hstart : ∑ i, S.duty i ((testStart B).own i) = ∑ i, S.left i (.picking false .entry) :=
      Finset.sum_congr rfl fun i _ => Nat.zero_add _
    omega
  · by_cases hpanicked : Panicked c
    · obtain ⟨i, k, hi⟩ := hpanicked
      have hwithin := hattended.within i
      rw [hi] at hwithin
      exact .inl ⟨i, k, hwithin, hi⟩
    · have hcourteous := hguards.resolve_left hpanicked
      have htodo := hcourteous.todo_eq_nil hstuck
      have hthrough :=
        hattended.through htested.toTallied hlive hcores hcourteous hpanicked hstuck
      obtain ⟨i, hi⟩ := htested.exists_exits hB hcores hthrough
      refine .inr ⟨i, ?_, htodo, fun j hj => ?_⟩
      · have hcount := (htested.told i).exits
        rw [htodo i, hi, show outbs [] = [] from rfl, List.append_nil] at hcount
        exact List.count_pos_iff.mp (hcount ▸ Nat.one_pos)
      · refine (hthrough j).resolve_right fun hexits => hj ?_
        refine eq_of_sum_le_one htested.exits ?_ ?_
        · rw [hexits]
          exact Nat.one_pos
        · rw [hi]
          exact Nat.one_pos

/-- Two cores and one test, which prints a character.  The transmitter is found busy before
every character. -/
def printingTest : TestSuite (Fin 2) where
  numCores _ := 2
  count := 1
  accesses _ _ := writeCharSteps 1 'x'
  fails _ _ := False
  panicInfo _ _ := []
  busy _ _ := 3

/-- Both cores get through.  Core `1` is picked to report and core `0` to exit. -/
theorem printingTest_reach :
    ∃ c : Config (Fin 2) Tester (Harness (LeaderBarrier.reference (Fin 2))),
      Processes.Reach (printingTest.run (LeaderBarrier.reference (Fin 2))) (fun _ _ => True)
        (testStart _) c ∧
      c.own 0 = ⟨.panicking none, false, []⟩ ∧ c.own 1 = ⟨.looping, true, []⟩ := by
  have h₀ : Processes.Reach (printingTest.run (LeaderBarrier.reference (Fin 2)))
      (fun _ _ => True) (testStart _) (testStart _) := .refl
  have h₁ := h₀.step (i := 0) trivial ⟨_, _, .callOnce rfl, rfl⟩
  have h₂ := h₁.step (i := 0) trivial ⟨_, _, .given rfl, rfl⟩
  have h₃ := h₂.step (i := 0) trivial ⟨_, _, .wait rfl, rfl⟩
  have h₄ := h₃.step (i := 1) trivial ⟨_, _, .callOnce rfl, rfl⟩
  have h₅ := h₄.step (i := 1) trivial ⟨_, _, .given rfl, rfl⟩
  have h₆ := h₅.step (i := 1) trivial ⟨_, _, .wait rfl, rfl⟩
  have h₇ := h₆.step (i := 1) trivial
    ⟨⟨.between 0, true, printingTest.opening true⟩, _, .begin rfl, rfl⟩
  have h₈ := h₇.step (i := 0) trivial
    ⟨⟨.between 0, false, printingTest.opening false⟩, _, .begin rfl, rfl⟩
  obtain ⟨w₉, hfree₉, -, h₉⟩ :=
    exists_drained (i := 1) (printingTest.dropped_opening true) h₈ rfl rfl
  obtain ⟨w₁₀, hfree₁₀, -, h₁₀⟩ :=
    exists_drained (i := 0) (printingTest.dropped_opening false) h₉ rfl hfree₉
  -- the test on both cores
  obtain ⟨w₁₁, hfree₁₁, h₁₁⟩ := exists_returned (i := 0) (k := 0) Nat.one_pos id
    (dropped_writeCharSteps 1 'x') h₁₀ rfl hfree₁₀
  obtain ⟨w₁₂, hfree₁₂, h₁₂⟩ := exists_returned (i := 1) (k := 0) Nat.one_pos id
    (dropped_writeCharSteps 1 'x') h₁₁ rfl hfree₁₁
  have h₁₃ := h₁₂.step (i := 1) trivial ⟨_, _, .finish, rfl⟩
  obtain ⟨w₁₄, hfree₁₄, -, h₁₄⟩ :=
    exists_drained (i := 1) (printingTest.dropped_closing 1 true) h₁₃ rfl hfree₁₂
  have h₁₅ := h₁₄.step (i := 0) trivial ⟨_, _, .finish, rfl⟩
  -- core `1` is first this time
  have h₁₆ := h₁₅.step (i := 1) trivial ⟨_, _, .callOnce rfl, rfl⟩
  have h₁₇ := h₁₆.step (i := 1) trivial ⟨_, _, .given rfl, rfl⟩
  have h₁₈ := h₁₇.step (i := 1) trivial ⟨_, _, .wait rfl, rfl⟩
  have h₁₉ := h₁₈.step (i := 0) trivial ⟨_, _, .callOnce rfl, rfl⟩
  have h₂₀ := h₁₉.step (i := 0) trivial ⟨_, _, .given rfl, rfl⟩
  have h₂₁ := h₂₀.step (i := 0) trivial ⟨_, _, .wait rfl, rfl⟩
  have h₂₂ := h₂₁.step (i := 0) trivial ⟨_, _, .exit rfl, rfl⟩
  have h₂₃ := h₂₂.step (i := 1) trivial ⟨_, _, .loop rfl, rfl⟩
  have hzero : Dropped [PortStep.outb exitPort 0] := trivial
  obtain ⟨w₂₄, hfree₂₄, -, h₂₄⟩ := exists_drained (i := 0) hzero h₂₃ rfl hfree₁₄
  have h₂₅ := h₂₄.step (i := 0) trivial ⟨_, _, .unreachable, rfl⟩
  obtain ⟨w₂₆, -, -, h₂₆⟩ := exists_drained (i := 0) (dropped_panicSteps []) h₂₅ rfl hfree₂₄
  exact ⟨_, h₂₆, rfl, rfl⟩

/-- Then nothing can be done any more, and core `0` has reported success. -/
theorem tests_complete_instance :
    ∃ n, ∃ c : Config (Fin 2) Tester (Harness (LeaderBarrier.reference (Fin 2))),
      Processes.Steps (printingTest.run (LeaderBarrier.reference (Fin 2))) (testStart _) n c ∧
      n ≤ ∑ i, printingTest.left i (.picking false .entry) ∧
      (exitPort, 0) ∈ c.shared.wire.writtenBy 0 ∧ (c.own 1).place = .looping := by
  obtain ⟨c, hreach, hzero, hone⟩ := printingTest_reach
  obtain ⟨n, hsteps⟩ := hreach.exists_steps
  have hstuck : Processes.Stuck (printingTest.run (LeaderBarrier.reference (Fin 2))) c := by
    rintro i c' ⟨s, t, hrun, -⟩
    obtain rfl | rfl : i = 0 ∨ i = 1 := by omega
    · rw [hzero] at hrun
      cases hrun
    · rw [hone] at hrun
      cases hrun
  obtain ⟨hle, hend⟩ := tests_complete LeaderBarrier.reference_documented
    LeaderBarrier.reference_live (S := printingTest) (fun _ => rfl)
    (fun _ _ => exit_notMem_writeCharSteps _ _) (fun _ _ => dropped_writeCharSteps _ _) hsteps
  refine ⟨n, c, hsteps, hle, ?_, congrArg Tester.place hone⟩
  rcases hend hstuck with ⟨i, k, -, hi⟩ | ⟨i, hexit, -, hothers⟩
  · obtain rfl | rfl : i = 0 ∨ i = 1 := by omega
    · rw [hzero] at hi
      cases hi
    · rw [hone] at hi
      cases hi
  · obtain rfl | rfl : i = 0 ∨ i = 1 := by omega
    · exact hexit
    · have hloop := hothers 0 (by decide)
      rw [hzero] at hloop
      cases hloop

end ParaOS.Paraos
