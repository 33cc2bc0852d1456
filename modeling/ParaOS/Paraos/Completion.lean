import ParaOS.Paraos.Startup

/-!
# `_start`: the machine gets through

`ParaOS.Paraos.Startup` is about what is never said too early.  Here it is that all of it
is said: a run of `_start` is no longer than what the cores have to do, and when nothing
can be done any more, all cores have finished and the text is complete
(`boot_completes`).  So there is no order of steps in which the cores wait for each other
for ever.  If the closure panics, its report is complete and the other cores wait.

What has to be known of the barrier for this is `OnceBarrier.Live`: when it returns.

### What is load-bearing

There is no fairness here.  A run is bounded, so a machine that can always do
something gets to the end by doing it, and the only question is what it looks like
when nothing can be done.  For this the barrier has to let go: `Live` says of each
call when its return becomes possible, and without any one of its four parts a core
could be held for ever.  In `pass` the number of calls of `wait` is asked to be
exactly the size, as it is when every core has made one.

`Documented` is still used: where the closure panics, the other cores must not get
past the barrier.
-/

namespace ParaOS.Paraos

open Machine

variable {ι : Type}

/-! ## When a barrier returns

Whether a core is inside of a call is read off the sequence of events: it has called
and has not returned since.  `Lively` carries this through the states of the
reference barrier, and so `Live` can be met. -/

/-- An event has been seen, and another has not been seen since. -/
def Since (es : List (BarrierEvent ι)) (e e' : BarrierEvent ι) : Prop :=
  ∃ before after, es = before ++ e :: after ∧ e' ∉ after

/-- It has been seen. -/
theorem Since.mem {es : List (BarrierEvent ι)} {e e' : BarrierEvent ι} (h : Since es e e') :
    e ∈ es := by
  obtain ⟨before, after, rfl, -⟩ := h
  exact List.mem_append_right _ List.mem_cons_self

/-- Nothing has been seen after the last event. -/
theorem since_last (es : List (BarrierEvent ι)) (e e' : BarrierEvent ι) : Since (es ++ [e]) e e' :=
  ⟨es, [], rfl, List.not_mem_nil⟩

/-- One more event of another kind makes no difference. -/
theorem Since.concat {es : List (BarrierEvent ι)} {e e' : BarrierEvent ι} (h : Since es e e')
    {new : BarrierEvent ι} (hne : e' ≠ new) : Since (es ++ [new]) e e' := by
  obtain ⟨before, after, rfl, hafter⟩ := h
  refine ⟨before, after ++ [new], by simp, fun hmem => ?_⟩
  rcases List.mem_append.mp hmem with hmem | hmem
  · exact hafter hmem
  · exact hne (List.mem_singleton.mp hmem)

/-- The other way round. -/
theorem Since.of_concat {es : List (BarrierEvent ι)} {e e' new : BarrierEvent ι}
    (h : Since (es ++ [new]) e e') : e = new ∨ Since es e e' ∧ e' ≠ new := by
  obtain ⟨before, after, heq, hafter⟩ := h
  induction after using List.reverseRecOn with
  | nil =>
      obtain ⟨-, hlast⟩ := List.append_inj' heq rfl
      exact .inl (List.singleton_inj.mp hlast).symm
  | append_singleton after last _ =>
      rw [← List.cons_append, ← List.append_assoc] at heq
      obtain ⟨hes, hlast⟩ := List.append_inj' heq rfl
      cases hlast
      refine .inr ⟨⟨before, after, hes, fun hmem => hafter (List.mem_append_left _ hmem)⟩, ?_⟩
      rintro rfl
      exact hafter (List.mem_append_right _ (List.mem_singleton_self _))

/-- What the documentation of `spin` says: one of the cores in `call_once` gets the
barrier, and with it the others; when as many cores as the barrier is for have called
`wait`, all of them are let through. -/
structure OnceBarrier.Live (B : OnceBarrier ι) : Prop where
  callOnce : ∀ es st i size, B.Runs es st → ∃ st', B.step st (.callOnce i size) st'
  given : ∀ es st i size, B.Runs es st → Since es (.callOnce i size) (.given i) →
    ∃ j size' st', Since es (.callOnce j size') (.given j) ∧ B.step st (.given j) st'
  wait : ∀ es st i, B.Runs es st → .given i ∈ es → ∃ st', B.step st (.wait i) st'
  pass : ∀ es st i, B.Runs es st → Since es (.wait i) (.pass i) →
    (∀ j size, .callOnce j size ∈ es → es.countP BarrierEvent.isWait = size) →
    ∃ st', B.step st (.pass i) st'

/-- What is known of the barrier besides: all calls of `wait` are counted, and who has
called it and not been let through is present. -/
structure Lively (es : List (BarrierEvent ι)) (st : BarrierState ι) : Prop extends Spun es st where
  incomplete : st.status = .incomplete → es = []
  running : ∀ j size, st.status = .running j size → Since es (.callOnce j size) (.given j)
  complete : ∀ i, .given i ∈ es ∨ .wait i ∈ es → ∃ size, st.status = .complete size
  exact : ∀ size, st.status = .complete size →
    size = 0 ∧ st.count = 0 ∨
      st.generation * size + st.count = es.countP BarrierEvent.isWait ∧ st.count < size
  current : ∀ i, st.present i = .blocked st.generation → 0 < st.count
  present_ne : ∀ i, Since es (.wait i) (.pass i) → st.present i ≠ .absent

section

variable {es : List (BarrierEvent ι)} {e : BarrierEvent ι} {st st' : BarrierState ι} {i : ι}
  {size : ℕ}

/-- An event that changes nothing for those who have called `wait`. -/
theorem Lively.present_concat (h : Lively es st) (hwait : ∀ j, e ≠ .wait j) (j : ι)
    (hj : Since (es ++ [e]) (.wait j) (.pass j)) : st.present j ≠ .absent := by
  rcases hj.of_concat with heq | ⟨hsince, -⟩
  · exact absurd heq.symm (hwait j)
  · exact h.present_ne j hsince

/-- Nobody has called `wait` before there is a barrier. -/
theorem Lively.no_waits (h : Lively es st) (hnone : ∀ size, st.status ≠ .complete size) :
    es.countP BarrierEvent.isWait = 0 := by
  refine List.countP_eq_zero.mpr fun e he hwait => ?_
  cases e with
  | wait j =>
      obtain ⟨size, hsize⟩ := h.complete j (.inr he)
      exact hnone size hsize
  | _ => cases hwait

/-- Other events are not counted. -/
theorem countP_isWait_concat (hwait : ∀ j, e ≠ .wait j) :
    (es ++ [e]).countP BarrierEvent.isWait = es.countP BarrierEvent.isWait := by
  rw [List.countP_append]
  cases e with
  | wait j => exact absurd rfl (hwait j)
  | _ => rfl

variable [DecidableEq ι]

/-- The first core runs the closure; others are in `call_once` as well. -/
theorem Lively.callOnce (h : Lively es st)
    (hst : barrierStep st (.callOnce i size) = some st') :
    Lively (es ++ [.callOnce i size]) st' := by
  have hspun := h.toSpun.callOnce hst
  have hwait : ∀ j, BarrierEvent.callOnce i size ≠ .wait j := fun j heq => by cases heq
  rw [barrierStep] at hst
  split at hst
  · rename_i hstatus
    cases hst
    obtain rfl := h.incomplete hstatus
    refine ⟨hspun, fun heq => ?_, ?_, ?_, fun _ heq => ?_, h.current, h.present_concat hwait⟩
    · cases heq
    · rintro j size' heq
      cases heq
      exact since_last _ _ _
    · rintro j (hmem | hmem) <;> simp at hmem
    · cases heq
  · rename_i hne
    cases hst
    refine ⟨hspun, fun hstatus => absurd hstatus hne, fun j size' hstatus => ?_, ?_, ?_,
      h.current, h.present_concat hwait⟩
    · exact (h.running j size' hstatus).concat fun heq => by cases heq
    · rintro j (hmem | hmem)
      · exact h.complete j (.inl (by simpa using hmem))
      · exact h.complete j (.inr (by simpa using hmem))
    · rw [countP_isWait_concat hwait]
      exact h.exact

/-- The barrier has been made, and everybody can have it. -/
theorem Lively.given (h : Lively es st) (hst : barrierStep st (.given i) = some st') :
    Lively (es ++ [.given i]) st' := by
  have hspun := h.toSpun.given hst
  have hwait : ∀ j, BarrierEvent.given i ≠ .wait j := fun j heq => by cases heq
  rw [barrierStep] at hst
  split at hst
  · cases hst
  · rename_i j size hstatus
    split_ifs at hst
    cases hst
    have hnone : ∀ size, st.status ≠ .complete size := by
      intro size heq
      rw [hstatus] at heq
      cases heq
    obtain ⟨hgen, hcount⟩ := h.unused hnone
    refine ⟨hspun, fun heq => ?_, fun _ _ heq => ?_, fun _ _ => ⟨size, rfl⟩, fun size' heq => ?_,
      h.current, h.present_concat hwait⟩
    · cases heq
    · cases heq
    · cases heq
      rw [countP_isWait_concat hwait, h.no_waits hnone]
      dsimp only
      rw [hgen, hcount, Nat.zero_mul]
      exact (Nat.eq_zero_or_pos size).imp (fun hsize => ⟨hsize, rfl⟩) fun hsize => ⟨rfl, hsize⟩
  · rename_i size hstatus
    cases hst
    refine ⟨hspun, fun heq => ?_, fun j size' heq => ?_, fun _ _ => ⟨size, hstatus⟩, ?_, h.current,
      h.present_concat hwait⟩
    · rw [hstatus] at heq
      cases heq
    · rw [hstatus] at heq
      cases heq
    · rw [countP_isWait_concat hwait]
      exact h.exact

/-- A core comes; the last of them starts the next generation. -/
theorem Lively.wait (h : Lively es st) (hst : barrierStep st (.wait i) = some st') :
    Lively (es ++ [.wait i]) st' := by
  have hspun := h.toSpun.wait hst
  have hcount : (es ++ [BarrierEvent.wait i]).countP BarrierEvent.isWait =
      es.countP BarrierEvent.isWait + 1 := by
    rw [List.countP_append]
    rfl
  rw [barrierStep] at hst
  split at hst
  · rename_i size hstatus
    have hexact := h.exact size hstatus
    have hpresent : ∀ {p : Presence}, p ≠ .absent → ∀ j,
        Since (es ++ [.wait i]) (.wait j) (.pass j) →
          Function.update st.present i p j ≠ .absent := by
      intro p hp j hj
      by_cases hji : j = i
      · subst hji
        rwa [Function.update_self]
      · rw [Function.update_of_ne hji]
        rcases hj.of_concat with heq | ⟨hsince, -⟩
        · cases heq
          exact absurd rfl hji
        · exact h.present_ne j hsince
    split_ifs at hst with hlt
    · cases hst
      refine ⟨hspun, fun heq => ?_, fun j size' heq => ?_, fun _ _ => ⟨size, hstatus⟩,
        fun size' heq => ?_, fun _ _ => Nat.succ_pos _, hpresent fun heq => ?_⟩
      · rw [hstatus] at heq
        cases heq
      · rw [hstatus] at heq
        cases heq
      · cases hstatus.symm.trans heq
        rw [hcount]
        dsimp only
        omega
      · cases heq
    · cases hst
      refine ⟨hspun, fun heq => ?_, fun j size' heq => ?_, fun _ _ => ⟨size, hstatus⟩,
        fun size' heq => ?_, fun j hj => ?_, hpresent fun heq => ?_⟩
      · rw [hstatus] at heq
        cases heq
      · rw [hstatus] at heq
        cases heq
      · cases hstatus.symm.trans heq
        rw [hcount]
        dsimp only
        rw [Nat.succ_mul]
        omega
      · -- nobody is blocked in the generation that starts
        dsimp only at hj
        by_cases hji : j = i
        · subst hji
          rw [Function.update_self] at hj
          cases hj
        · rw [Function.update_of_ne hji] at hj
          have hwithin := h.present j
          rw [hj] at hwithin
          exact absurd hwithin (Nat.not_succ_le_self _)
      · cases heq
  · cases hst

/-- A core is let through. -/
theorem Lively.leave (h : Lively es st) (hstatus : st.status = .complete size)
    (hspun : Spun (es ++ [.pass i]) { st with present := Function.update st.present i .absent }) :
    Lively (es ++ [.pass i]) { st with present := Function.update st.present i .absent } := by
  refine ⟨hspun, fun heq => ?_, fun j size' heq => ?_, fun _ _ => ⟨size, hstatus⟩, ?_,
    fun j hj => ?_, fun j hj => ?_⟩
  · rw [hstatus] at heq
    cases heq
  · rw [hstatus] at heq
    cases heq
  · rw [countP_isWait_concat nofun]
    exact h.exact
  · dsimp only at hj
    by_cases hji : j = i
    · subst hji
      rw [Function.update_self] at hj
      cases hj
    · rw [Function.update_of_ne hji] at hj
      exact h.current j hj
  · rcases hj.of_concat with heq | ⟨hsince, hne⟩
    · cases heq
    · have hji : j ≠ i := by
        rintro rfl
        exact hne rfl
      dsimp only
      rw [Function.update_of_ne hji]
      exact h.present_ne j hsince

/-- A core that is blocked in an earlier generation, or is the last to have come, is
let through. -/
theorem Lively.pass (h : Lively es st) (hst : barrierStep st (.pass i) = some st') :
    Lively (es ++ [.pass i]) st' := by
  have hspun := h.toSpun.pass hst
  rw [barrierStep] at hst
  split at hst
  · rename_i size generation hstatus hblocked
    split_ifs at hst
    cases hst
    exact h.leave hstatus hspun
  · rename_i size hstatus hleader
    cases hst
    exact h.leave hstatus hspun
  · cases hst

/-- All of it holds of every run. -/
theorem lively_of_runs {st : (OnceBarrier.reference ι).St}
    (hruns : (OnceBarrier.reference ι).Runs es st) : Lively es st := by
  induction hruns with
  | new =>
      have hsince : ∀ {e e' : BarrierEvent ι}, ¬ Since [] e e' := fun h => List.not_mem_nil h.mem
      exact ⟨⟨nofun, fun _ => ⟨rfl, rfl⟩, nofun, fun _ => trivial, fun _ h => by cases h⟩,
        fun _ => rfl, nofun, fun _ h => h.elim nofun nofun, nofun, nofun,
        fun _ h => absurd h hsince⟩
  | @step es e st st' _ hst ih =>
      cases e with
      | callOnce i size => exact ih.callOnce hst
      | given i => exact ih.given hst
      | wait i => exact ih.wait hst
      | pass i => exact ih.pass hst

/-- **The barrier returns as documented.** -/
theorem OnceBarrier.reference_live : (OnceBarrier.reference ι).Live where
  callOnce es st i size _ := by
    change ∃ st', barrierStep st (.callOnce i size) = some st'
    cases hstatus : st.status with
    | incomplete => simp only [barrierStep, hstatus, Option.some.injEq, exists_eq']
    | running j size' =>
        simp only [barrierStep, hstatus]
        exact ⟨_, rfl⟩
    | complete size' =>
        simp only [barrierStep, hstatus]
        exact ⟨_, rfl⟩
  given es st i size hruns hsince := by
    have h := lively_of_runs hruns
    change ∃ j size' st', _ ∧ barrierStep st (.given j) = some st'
    cases hstatus : st.status with
    | incomplete =>
        rw [h.incomplete hstatus] at hsince
        exact absurd hsince.mem List.not_mem_nil
    | running j size' =>
        have hst : ∃ st', barrierStep st (.given j) = some st' := by
          simp only [barrierStep, hstatus, if_pos, Option.some.injEq, exists_eq']
        obtain ⟨st', hst⟩ := hst
        exact ⟨j, size', st', h.running j size' hstatus, hst⟩
    | complete size' =>
        have hst : barrierStep st (.given i) = some st := by
          simp only [barrierStep, hstatus]
          rfl
        exact ⟨i, size, st, hsince, hst⟩
  wait es st i hruns hgiven := by
    have h := lively_of_runs hruns
    obtain ⟨size, hstatus⟩ := h.complete i (.inl hgiven)
    change ∃ st', barrierStep st (.wait i) = some st'
    simp only [barrierStep, hstatus]
    split_ifs
    · exact ⟨_, rfl⟩
    · exact ⟨_, rfl⟩
  pass es st i hruns hsince hall := by
    have h := lively_of_runs hruns
    obtain ⟨size, hstatus⟩ := h.complete i (.inr hsince.mem)
    change ∃ st', barrierStep st (.pass i) = some st'
    cases hpresent : st.present i with
    | absent => exact absurd hpresent (h.present_ne i hsince)
    | leader => simp only [barrierStep, hstatus, hpresent, Option.some.injEq, exists_eq']
    | blocked since =>
        obtain ⟨j, hj⟩ := h.made size (.inr hstatus)
        have hexact := h.exact size hstatus
        rw [hall j size hj] at hexact
        have hopen : since ≠ st.generation ∨ size ≤ st.count := by
          by_contra hne
          obtain ⟨rfl, hlt⟩ : since = st.generation ∧ st.count < size := by
            simpa only [not_or, not_not, not_le] using hne
          have hpos := h.current i hpresent
          rcases hexact with ⟨-, hzero⟩ | ⟨hsum, -⟩
          · omega
          · rcases Nat.eq_zero_or_pos st.generation with hgen | hgen
            · rw [hgen, Nat.zero_mul] at hsum
              omega
            · have := Nat.le_mul_of_pos_left size hgen
              omega
        simp only [barrierStep, hstatus, hpresent, if_pos hopen, Option.some.injEq, exists_eq']

end

/-! ## What is seen of a core

The stage of a core and the events agree about which call it is in.  In one
direction it lets a core return, in the other it finds the core that the barrier is
waiting for. -/

/-- What has been seen of a core at a stage. -/
def Stage.Seen (es : List (BarrierEvent ι)) (i : ι) : Stage → Prop
  | .calling => ∃ size, Since es (.callOnce i size) (.given i)
  | .obtained => .given i ∈ es
  | .initializing => .given i ∈ es
  | .ready => .given i ∈ es
  | .waiting => Since es (.wait i) (.pass i)
  | _ => True

section

variable {B : OnceBarrier ι} {m : Cores ι} {es : List (BarrierEvent ι)} {e : BarrierEvent ι}
  {i j : ι} {stage stage' : Stage} {sh sh' : Shared B}

/-- What is seen of another core makes no difference. -/
theorem Stage.Seen.concat (h : stage.Seen es j) (hgiven : e ≠ .given j) (hpass : e ≠ .pass j) :
    stage.Seen (es ++ [e]) j := by
  cases stage with
  | calling =>
      obtain ⟨size, hsince⟩ := h
      exact ⟨size, hsince.concat hgiven.symm⟩
  | obtained => exact List.mem_append_left _ h
  | initializing => exact List.mem_append_left _ h
  | ready => exact List.mem_append_left _ h
  | waiting => exact Since.concat h hpass.symm
  | _ => trivial

/-- A core that takes a step is seen to have taken it. -/
theorem seen_of_run_self (hrun : run m B i stage sh stage' sh') (h : stage.Seen sh.events i) :
    stage'.Seen sh'.events i := by
  cases hrun with
  | callOnce => exact ⟨_, since_last _ _ _⟩
  | given => exact List.mem_append_right _ (List.mem_singleton_self _)
  | invoke => exact h
  | returns => exact h
  | skip => exact h
  | wait => exact since_last _ _ _
  | _ => trivial

/-- What has been seen of the others stays. -/
theorem seen_of_run_of_ne (hrun : run m B i stage sh stage' sh') (hj : j ≠ i) {s : Stage}
    (h : s.Seen sh.events j) : s.Seen sh'.events j := by
  have hne : ∀ {e : ι → BarrierEvent ι}, (∀ k, e i = e k → i = k) → e i ≠ e j :=
    fun hinj heq => hj (hinj j heq).symm
  cases hrun with
  | callOnce => exact h.concat nofun nofun
  | given => exact h.concat (hne fun k heq => by cases heq; rfl) nofun
  | wait => exact h.concat nofun nofun
  | pass => exact h.concat nofun (hne fun k heq => by cases heq; rfl)
  | _ => exact h

/-- A core that has called `call_once` and not returned from it is in it. -/
theorem calling_of_run (hrun : run m B i stage sh stage' sh') {size : ℕ}
    (h : Since sh.events (.callOnce i size) (.given i) → stage = .calling)
    (hsince : Since sh'.events (.callOnce i size) (.given i)) : stage' = .calling := by
  have hold : ∀ {e : BarrierEvent ι}, Since (sh.events ++ [e]) (.callOnce i size) (.given i) →
      (∀ size, e ≠ .callOnce i size) → stage = .calling ∧ .given i ≠ e := by
    intro e hsince hne
    rcases hsince.of_concat with heq | ⟨hsince, hgiven⟩
    · exact absurd heq.symm (hne size)
    · exact ⟨h hsince, hgiven⟩
  cases hrun with
  | callOnce => rfl
  | given => exact absurd rfl (hold hsince nofun).2
  | wait => cases (hold hsince nofun).1
  | pass => cases (hold hsince nofun).1
  | _ => cases h hsince

/-- Nothing new has been seen of the others. -/
theorem since_of_run_of_ne (hrun : run m B i stage sh stage' sh') (hj : j ≠ i) {size : ℕ}
    (hsince : Since sh'.events (.callOnce j size) (.given j)) :
    Since sh.events (.callOnce j size) (.given j) := by
  have hold : ∀ {e : BarrierEvent ι}, Since (sh.events ++ [e]) (.callOnce j size) (.given j) →
      (.callOnce j size ≠ e) → Since sh.events (.callOnce j size) (.given j) :=
    fun hsince hne => (hsince.of_concat.resolve_left hne).1
  cases hrun with
  | callOnce => exact hold hsince fun heq => hj (by cases heq; rfl)
  | given => exact hold hsince nofun
  | wait => exact hold hsince nofun
  | pass => exact hold hsince nofun
  | _ => exact hsince

/-- What has been seen of the cores tells where they are. -/
structure Observed (c : Config ι Stage (Shared B)) : Prop where
  seen : ∀ j, (c.own j).Seen c.shared.events j
  calling : ∀ j size, Since c.shared.events (.callOnce j size) (.given j) → c.own j = .calling

/-- Nothing has been seen to begin with. -/
theorem observed_boot : Observed (boot B) :=
  ⟨fun _ => trivial, fun _ _ h => absurd h.mem List.not_mem_nil⟩

/-- Every step keeps it. -/
theorem Observed.step [DecidableEq ι] {c c' : Config ι Stage (Shared B)} (h : Observed c)
    (hs : (run m B).Step i c c') : Observed c' := by
  have hrun := hs.own_self
  refine ⟨fun j => ?_, fun j size hsince => ?_⟩
  · by_cases hj : j = i
    · subst hj
      exact seen_of_run_self hrun (h.seen j)
    · rw [hs.own_of_ne hj]
      exact seen_of_run_of_ne hrun hj (h.seen j)
  · by_cases hj : j = i
    · subst hj
      exact calling_of_run hrun (h.calling j size) hsince
    · rw [hs.own_of_ne hj]
      exact h.calling j size (since_of_run_of_ne hrun hj hsince)

end

/-! ## What a core has to do

A number for every core that gets smaller with each of its steps, the ones at the
port included.  The sum over all cores bounds the length of a run. -/

variable {σ : Type}

/-- The steps of a core behind a stage. -/
def Computer.left (M : Computer ι σ) (i : ι) : Stage → ℕ
  | .finished => 0
  | .passed => 1 + (M.toSay i .finished).length
  | .waiting => 2 + (M.toSay i .finished).length
  | .ready => 3 + (M.toSay i .finished).length
  | .initializing => 4 + (M.toSay i .finished).length
  | .obtained => 5 + (M.toSay i .finished).length + (M.toSay i .initializing).length
  | .calling =>
      6 + (M.toSay i .finished).length + (M.toSay i .initializing).length +
        (M.toSay i .obtained).length
  | .entry =>
      7 + (M.toSay i .finished).length + (M.toSay i .initializing).length +
        (M.toSay i .obtained).length

/-- What a core has to do. -/
def Computer.duty (M : Computer ι σ) (i : ι) (s : Starter) : ℕ := s.todo.length + M.left i s.stage

variable {M : Computer ι σ} {B : OnceBarrier ι} {b i : ι}

/-- A step of `run` leaves less to do, even counting what it adds to do at the port.
-/
theorem left_lt {stage stage' : Stage} {sh sh' : Shared B}
    (h : run M.toCores B i stage sh stage' sh') :
    (M.toSay i stage').length + M.left i stage' < M.left i stage := by
  cases h with
  | invoke =>
      simp only [Computer.left]
      omega
  | greet =>
      simp only [Computer.left]
      omega
  | finish =>
      simp only [Computer.left]
      omega
  | given =>
      simp only [Computer.left]
      omega
  | _ =>
      -- nothing is said at these stages
      change 0 + _ < _
      simp only [Computer.left]
      omega

/-- **Every step does some of it.** -/
theorem duty_lt {s s' : Starter} {l l' : Line B} (h : M.start B i s l s' l') :
    M.duty i s' < M.duty i s := by
  cases h with
  | port => exact Nat.add_lt_add_right (Nat.lt_succ_self _) _
  | run _ hrun =>
      have := left_lt hrun
      simpa [Computer.duty] using this

/-! ## When nothing can be done

A configuration is stuck if no core has a step.  Cores at the port always have one,
so the lists are empty; then no core is in a stage whose call can return; and what
is left are the stages of the result. -/

/-- A step at the port can be taken, unless it is for a mutex that is held. -/
theorem exists_does {step : PortStep} {w : Wire ι} (hlock : step = .lock → w.mutex = none) :
    ∃ w', step.Does i w w' := by
  cases step with
  | lock => exact ⟨_, .lock (hlock rfl)⟩
  | unlock => exact ⟨_, .unlock⟩
  | poll => exact ⟨_, .poll⟩
  | outb port byte => exact ⟨_, .outb⟩

section

variable [DecidableEq ι] [Fintype ι] {c : Config ι Starter (Line B)}

/-- Then nobody is at the port. -/
theorem Spoken.todo_eq_nil (h : Spoken M b c) (hstuck : (M.start B).Stuck c) (i : ι) :
    (c.own i).todo = [] := by
  by_contra hne
  have hi : i = b := by_contra fun hi => hne (h.silent i hi)
  subst hi
  have hown : c.own i = ⟨(c.own i).stage, (c.own i).todo⟩ := rfl
  generalize (c.own i).stage = stage, (c.own i).todo = todo at hown hne
  cases todo with
  | nil => exact hne rfl
  | cons step todo =>
      have hguarded := h.guarded
      rw [hown] at hguarded
      have hlock : step = .lock → c.shared.wire.mutex = none := by
        rintro rfl
        rcases hguarded with ⟨hnone, -⟩ | ⟨steps, -, heq, -⟩
        · exact hnone
        · cases heq
      obtain ⟨w, hdoes⟩ := exists_does (i := i) hlock
      have hnot := hstuck.not_step (i := i) (s := ⟨stage, todo⟩) (t := { c.shared with wire := w })
      rw [hown] at hnot
      exact hnot (.port hdoes)

/-- And nobody can go on in `run`. -/
theorem Spoken.not_run (h : Spoken M b c) (hstuck : (M.start B).Stuck c) {stage stage' : Stage}
    {sh : Shared B} (hstage : (c.own i).stage = stage)
    (hheap : stage = .initializing → M.heap.isSome = true) :
    ¬ run M.toCores B i stage c.shared.kernel stage' sh := by
  subst hstage
  intro hrun
  have hown : c.own i = ⟨(c.own i).stage, []⟩ := by
    rw [← h.todo_eq_nil hstuck i]
  have hnot := hstuck.not_step (i := i) (s := ⟨stage', M.toSay i stage'⟩)
    (t := { c.shared with kernel := sh })
  rw [hown] at hnot
  exact hnot (.run hheap hrun)

/-- Then a core waits or has finished, or it is in the closure that has panicked. -/
theorem Spoken.stages (h : Spoken M b c) (hobserved : Observed (kernelOf c)) (hlive : B.Live)
    (hstuck : (M.start B).Stuck c) (i : ι) :
    (c.own i).stage = .waiting ∨ (c.own i).stage = .finished ∨
      (c.own i).stage = .initializing ∧ M.heap = none := by
  have hruns := h.kernel.runs
  have hseen : (c.own i).stage.Seen c.shared.kernel.events i := hobserved.seen i
  generalize hstage : (c.own i).stage = stage at hseen
  cases stage with
  | entry =>
      obtain ⟨st, hst⟩ := hlive.callOnce _ _ i (M.numCores i) hruns
      exact absurd (.callOnce hst) (h.not_run hstuck hstage nofun)
  | calling =>
      obtain ⟨size, hsince⟩ := hseen
      obtain ⟨j, size', st, hj, hst⟩ := hlive.given _ _ i size hruns hsince
      have hcalling : (c.own j).stage = .calling := hobserved.calling j size' hj
      exact absurd (.given hst) (h.not_run hstuck hcalling nofun)
  | obtained =>
      by_cases hi : M.isBootstrapCore i
      · exact absurd (.invoke hi) (h.not_run hstuck hstage nofun)
      · exact absurd (.skip hi) (h.not_run hstuck hstage nofun)
  | initializing =>
      cases hheap : M.heap with
      | none => exact .inr (.inr ⟨rfl, rfl⟩)
      | some heap =>
          refine absurd .returns (h.not_run hstuck hstage fun _ => ?_)
          rw [hheap]
          rfl
  | ready =>
      obtain ⟨st, hst⟩ := hlive.wait _ _ i hruns hseen
      exact absurd (.wait hst) (h.not_run hstuck hstage nofun)
  | waiting => exact .inl rfl
  | passed =>
      by_cases hi : M.isBootstrapCore i ∧ M.quiet = false
      · exact absurd (.greet hi.1 hi.2) (h.not_run hstuck hstage nofun)
      · exact absurd (.finish hi) (h.not_run hstuck hstage nofun)
  | finished => exact .inr (.inl rfl)

/-- If all cores have called `wait`, none is left in it. -/
theorem Spoken.not_waiting (h : Spoken M b c) (hobserved : Observed (kernelOf c)) (hlive : B.Live)
    (hcores : ∀ i, M.numCores i = Fintype.card ι) (hstuck : (M.start B).Stuck c)
    (hall : ∀ i, (c.own i).stage.arrived = true) (i : ι) : (c.own i).stage ≠ .waiting := by
  intro hwaiting
  have hseen : (c.own i).stage.Seen c.shared.kernel.events i := hobserved.seen i
  rw [hwaiting] at hseen
  have hwaits : c.shared.kernel.events.countP BarrierEvent.isWait = Fintype.card ι := by
    rw [Fintype.card_eq_sum_ones]
    refine h.kernel.waits.trans (Finset.sum_congr rfl fun j _ => ?_)
    exact congrArg Bool.toNat (hall j)
  obtain ⟨st, hst⟩ := hlive.pass _ _ i h.kernel.runs hseen fun j size hj =>
    hwaits.trans ((h.kernel.sizes j size hj).trans (hcores j)).symm
  exact absurd (.pass hst) (h.not_run hstuck hwaiting nofun)

/-- What is said when a stage is over. -/
theorem Spoken.text (h : Spoken M b c) (hstuck : (M.start B).Stuck c) {stage : Stage}
    (hstage : (c.own b).stage = stage) :
    c.own b = ⟨stage, []⟩ ∧ c.shared.wire.written.map Prod.snd = M.said b stage := by
  have htodo := h.todo_eq_nil hstuck b
  have hsaid := h.said
  rw [htodo, hstage] at hsaid
  refine ⟨?_, (List.append_nil _).symm.trans hsaid⟩
  rw [← hstage, ← htodo]

/-- If the closure returns, all cores finish. -/
theorem Spoken.finished (h : Spoken M b c) (hobserved : Observed (kernelOf c)) (hlive : B.Live)
    (hcores : ∀ i, M.numCores i = Fintype.card ι) (hstuck : (M.start B).Stuck c)
    (hheap : M.heap.isSome = true) (i : ι) : (c.own i).stage = .finished := by
  have hstages : ∀ j, (c.own j).stage = .waiting ∨ (c.own j).stage = .finished := by
    intro j
    rcases h.stages hobserved hlive hstuck j with hj | hj | ⟨-, hnone⟩
    · exact .inl hj
    · exact .inr hj
    · rw [hnone] at hheap
      cases hheap
  have hall : ∀ j, (c.own j).stage.arrived = true := by
    intro j
    rcases hstages j with hj | hj
    · rw [hj]
      rfl
    · rw [hj]
      rfl
  exact (hstages i).resolve_left (h.not_waiting hobserved hlive hcores hstuck hall i)

/-- If it panics, the others wait for the bootstrap core. -/
theorem Spoken.abandoned (h : Spoken M b c) (hobserved : Observed (kernelOf c)) (hlive : B.Live)
    (hB : B.Documented) (hcores : ∀ i, M.numCores i = Fintype.card ι)
    (hstuck : (M.start B).Stuck c) (hheap : M.heap = none) :
    (c.own b).stage = .initializing ∧ ∀ i, i ≠ b → (c.own i).stage = .waiting := by
  have hnot : ¬ (c.own b).stage.initialized = true := by
    intro hinit
    have hsome := h.heap hinit
    rw [hheap] at hsome
    cases hsome
  have hb : (c.own b).stage = .initializing := by
    rcases h.stages hobserved hlive hstuck b with hb | hb | ⟨hb, -⟩
    · rw [hb] at hnot
      exact absurd rfl hnot
    · rw [hb] at hnot
      exact absurd rfl hnot
    · exact hb
  refine ⟨hb, fun i hi => ?_⟩
  rcases h.stages hobserved hlive hstuck i with hstage | hstage | ⟨hstage, -⟩
  · exact hstage
  · -- a core that has finished has seen the bootstrap core arrive
    have hpast : ((kernelOf c).own i).past = true := congrArg Stage.past hstage
    have harrived : (c.own b).stage.arrived = true :=
      h.kernel.all_arrived hB hcores hpast b
    rw [hb] at harrived
    cases harrived
  · exact absurd (h.kernel.initializing i hstage) hi

end

/-- It holds in every run. -/
theorem observed_of_reach [DecidableEq ι] {c : Config ι Starter (Line B)}
    (h : Processes.Reach (M.start B) (fun _ _ => True) (power B) c) : Observed (kernelOf c) := by
  induction h with
  | refl => exact observed_boot
  | step _ _ hs ih =>
      rcases kernelOf_step hs with heq | hs'
      · rw [heq]
        exact ih
      · exact ih.step hs'

/-- **The machine gets through.**  Whatever the order in which the cores take their
steps, a run is no longer than what they have to do.  When nothing can be done any
more, all cores have finished and all that is to be said has been said.  If the
closure panics, its report has been written and the other cores are in `wait`.

With both parts no run is infinite and none ends too early, whatever the order of
steps.  In `_start` the port is written to without looking, so nothing is asked of
the UART. -/
theorem boot_completes [Fintype ι] [DecidableEq ι] {M : Computer ι σ} {n : ℕ}
    {c : Config ι Starter (Line B)} (hB : B.Documented) (hlive : B.Live)
    (hcores : ∀ i, M.numCores i = Fintype.card ι) (hboot : ∃! i, M.isBootstrapCore i)
    (h : Processes.Steps (M.start B) (power B) n c) :
    n ≤ ∑ i, M.left i .entry ∧ ∃ b, M.isBootstrapCore b ∧
      (Processes.Stuck (M.start B) c →
        (M.heap.isSome = true → (∀ i, c.own i = ⟨.finished, []⟩) ∧
          c.shared.wire.written.map Prod.snd = M.said b .finished) ∧
        (M.heap = none → c.own b = ⟨.initializing, []⟩ ∧
          (∀ i, i ≠ b → c.own i = ⟨.waiting, []⟩) ∧
          c.shared.wire.written.map Prod.snd = M.said b .initializing)) := by
  obtain ⟨b, hb, hunique⟩ := hboot
  have hiff : ∀ i, M.isBootstrapCore i ↔ i = b := fun i => ⟨hunique i, fun h => h ▸ hb⟩
  have hspoken : Spoken M b c :=
    h.reach.invariant (spoken_power M b) fun _ _ _ hc _ hs => hc.step hiff hs
  have hobserved := observed_of_reach h.reach
  have hown : Processes.Stuck (M.start B) c → ∀ i stage, (c.own i).stage = stage →
      c.own i = ⟨stage, []⟩ := by
    intro hstuck i stage hstage
    rw [← hstage, ← hspoken.todo_eq_nil hstuck i]
  refine ⟨?_, b, hb, fun hstuck => ⟨fun hheap => ?_, fun hheap => ?_⟩⟩
  · have hle := h.add_sum_le (μ := M.duty) fun _ _ _ _ _ hst => duty_lt hst
    have hstart : ∑ i, M.duty i ((power B).own i) = ∑ i, M.left i .entry :=
      Finset.sum_congr rfl fun i _ => Nat.zero_add _
    omega
  · have hfinished := hspoken.finished hobserved hlive hcores hstuck hheap
    exact ⟨fun i => hown hstuck i _ (hfinished i), (hspoken.text hstuck (hfinished b)).2⟩
  · obtain ⟨hpanicked, hwaiting⟩ :=
      hspoken.abandoned hobserved hlive hB hcores hstuck hheap
    obtain ⟨hbefore, htext⟩ := hspoken.text hstuck hpanicked
    exact ⟨hbefore, fun i hi => hown hstuck i _ (hwaiting i hi), htext⟩

/-- The machine with two cores boots. -/
theorem boot_completes_instance :
    ∃ n, ∃ c : Config (Fin 2) Starter (Line (OnceBarrier.reference (Fin 2))),
      Processes.Steps (smallComputer.start (OnceBarrier.reference (Fin 2))) (power _) n c ∧
      (∀ i, c.own i = ⟨.finished, []⟩) ∧
      c.shared.wire.written.map Prod.snd = smallComputer.said 0 .finished := by
  obtain ⟨n, c, hsteps, hstuck⟩ := Processes.exists_stuck (μ := smallComputer.duty)
    (fun _ _ _ _ _ hst => duty_lt hst) (power (OnceBarrier.reference (Fin 2)))
  have hboot : ∃! i, smallComputer.isBootstrapCore i := ⟨0, rfl, of_decide_eq_true rfl⟩
  obtain ⟨-, b, hb, hend⟩ := boot_completes OnceBarrier.reference_documented
    OnceBarrier.reference_live (fun _ => rfl) hboot hsteps
  obtain rfl : b = 0 := hboot.unique hb rfl
  obtain ⟨hfinished, htext⟩ := (hend hstuck).1 (by decide +kernel)
  exact ⟨n, c, hsteps, hfinished, htext⟩

end ParaOS.Paraos
