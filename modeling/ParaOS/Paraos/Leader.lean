import ParaOS.Paraos.Kernel

/-!
# `paraos::platform`: `pick_leader_core`

The cores come together at one `static` `Once<Barrier>`, and `is_leader` tells one of them
apart.  The barrier can be used again, and in the test build it is: each core calls
`pick_leader_core` twice.

As in `ParaOS.Paraos.Kernel` the barrier is a parameter, by what can be seen of it.
`LeaderBarrier.Documented` is what its documentation says, with the rendezvous counted:
in each of them every core is let through once at most, and one of them as the leader.

### Why rendezvous are counted

The documentation speaks of one rendezvous: so many calls, one leader, all let
through.  When the barrier is used again that has to be said of the second and the
third, and calls of different rendezvous may be in any order between the returns of
an earlier one: a core that has been let through can call `wait` again while others
are still on their way out.  So what is promised is a bound on all returns together.
If anybody has been let through, there is a number of rounds such that there were
enough calls for these, no core has returned more often, and there were no more
leaders and no more others than the rounds have.  Nothing is said about which call
belongs to which round, and nothing more is used.
-/

namespace ParaOS.Paraos

open Machine

/-- What can be seen of a barrier that picks leaders. -/
inductive LeaderEvent (ι : Type) where
  /-- a core calls `call_once`, with a closure for a barrier of this size -/
  | callOnce (i : ι) (size : ℕ)
  /-- `call_once` returns -/
  | given (i : ι)
  /-- a core calls `wait` -/
  | wait (i : ι)
  /-- `wait` returns, with what `is_leader` says -/
  | pass (i : ι) (leader : Bool)

namespace LeaderEvent

variable {ι : Type}

/-- A call of `wait`. -/
def isWait : LeaderEvent ι → Bool
  | .wait _ => true
  | _ => false

/-- A return of `wait` on a core. -/
def isPassOf [DecidableEq ι] (i : ι) : LeaderEvent ι → Bool
  | .pass j _ => decide (j = i)
  | _ => false

/-- A return of `wait` on a leader, or on another core. -/
def isPass (leader : Bool) : LeaderEvent ι → Bool
  | .pass _ l => l == leader
  | _ => false

end LeaderEvent

/-- `spin::Once<spin::Barrier>` -/
structure LeaderBarrier (ι : Type) where
  St : Type
  /-- `Once::new` -/
  new : St
  step : St → LeaderEvent ι → St → Prop

variable {ι : Type}

/-- What can be seen of a barrier from its creation on. -/
inductive LeaderBarrier.Runs (B : LeaderBarrier ι) : List (LeaderEvent ι) → B.St → Prop where
  | new : B.Runs [] B.new
  | step {es : List (LeaderEvent ι)} {e : LeaderEvent ι} {st st' : B.St} :
      B.Runs es st → B.step st e st' → B.Runs (es ++ [e]) st'

/-- Returns of `wait` that some rendezvous of so many cores account for. -/
structure Rendezvous [DecidableEq ι] (es : List (LeaderEvent ι)) (size rounds : ℕ) : Prop where
  waits : rounds * size ≤ es.countP LeaderEvent.isWait
  passes : ∀ i, es.countP (LeaderEvent.isPassOf i) ≤ rounds
  leaders : es.countP (LeaderEvent.isPass true) ≤ rounds
  others : es.countP (LeaderEvent.isPass false) ≤ rounds * (size - 1)

/-- What the documentation of `spin` says: there is one barrier, made by one of the
closures.  Blocked cores are let through when as many have come as the barrier is for;
one of them, whichever it is, is the leader.  The barrier can then be used again. -/
def LeaderBarrier.Documented [DecidableEq ι] (B : LeaderBarrier ι) : Prop :=
  ∀ es st i leader, B.Runs es st → .pass i leader ∈ es →
    ∃ j size rounds, .callOnce j size ∈ es ∧ Rendezvous es size rounds

/-! ## A barrier

The barrier of `ParaOS.Paraos.Kernel` once more, with what `is_leader` says.  The
last core to come is the leader, as in the crate; that it is the last is not
promised, and nothing here would change if it were another. -/

/-- The last core to come is the leader, and a core that is blocked does not call
`wait`. -/
def leaderStep [DecidableEq ι] (st : BarrierState ι) : LeaderEvent ι → Option (BarrierState ι)
  | .callOnce i size => barrierStep st (.callOnce i size)
  | .given i => barrierStep st (.given i)
  | .wait i =>
      match st.present i with
      | .absent => barrierStep st (.wait i)
      | _ => none
  | .pass i leader =>
      match st.present i, leader with
      | .blocked _, false => barrierStep st (.pass i)
      | .leader, true => barrierStep st (.pass i)
      | _, _ => none

/-- `spin::Once<spin::Barrier>` -/
def LeaderBarrier.reference (ι : Type) [DecidableEq ι] : LeaderBarrier ι where
  St := BarrierState ι
  new := ⟨.incomplete, 0, 0, fun _ => .absent⟩
  step st e st' := leaderStep st e = some st'

namespace Presence

/-- What is known of a core that has been let through so many times. -/
def Owes (generation n : ℕ) : Presence → Prop
  | .absent => n ≤ generation
  | .blocked since => n ≤ since ∧ since ≤ generation
  | .leader => n + 1 ≤ generation

/-- The leader, not yet let through. -/
def leads : Presence → ℕ
  | .leader => 1
  | _ => 0

/-- A core that is blocked in this generation. -/
def current (generation : ℕ) : Presence → ℕ
  | .blocked since => if since = generation then 1 else 0
  | _ => 0

/-- A core that was blocked in another generation and is not yet let through. -/
def late (generation : ℕ) : Presence → ℕ
  | .blocked since => if since = generation then 0 else 1
  | _ => 0

/-- A core that has just been blocked is. -/
@[simp] theorem leads_absent : leads .absent = 0 := rfl
@[simp] theorem leads_blocked (since : ℕ) : leads (.blocked since) = 0 := rfl
@[simp] theorem leads_leader : leads .leader = 1 := rfl
@[simp] theorem current_absent (generation : ℕ) : current generation .absent = 0 := rfl
@[simp] theorem current_leader (generation : ℕ) : current generation .leader = 0 := rfl
@[simp] theorem current_self (generation : ℕ) : current generation (.blocked generation) = 1 :=
  if_pos rfl
/-- and not in its own generation. -/
@[simp] theorem late_absent (generation : ℕ) : late generation .absent = 0 := rfl
@[simp] theorem late_leader (generation : ℕ) : late generation .leader = 0 := rfl
@[simp] theorem late_self (generation : ℕ) : late generation (.blocked generation) = 0 :=
  if_pos rfl

/-- A core is let through no more often than there were generations. -/
theorem Owes.le {p : Presence} {generation n : ℕ} (h : p.Owes generation n) : n ≤ generation := by
  cases p with
  | absent => exact h
  | blocked since => exact Nat.le_trans h.1 h.2
  | leader => exact Nat.le_of_succ_le h

/-- Generations only grow. -/
theorem Owes.mono {p : Presence} {generation generation' n : ℕ} (h : p.Owes generation n)
    (hle : generation ≤ generation') : p.Owes generation' n := by
  cases p with
  | absent => exact Nat.le_trans h hle
  | blocked since => exact ⟨h.1, Nat.le_trans h.2 hle⟩
  | leader => exact Nat.le_trans h hle

/-- In the next generation all that were blocked are late. -/
theorem late_succ_le (p : Presence) (generation : ℕ) :
    p.late (generation + 1) ≤ p.late generation + p.current generation := by
  cases p with
  | blocked since =>
      rw [late, late, current]
      split_ifs <;> omega
  | _ => exact Nat.zero_le _

/-- Nobody is blocked in a generation that has not begun. -/
theorem current_succ {p : Presence} {generation n : ℕ} (h : p.Owes generation n) :
    p.current (generation + 1) = 0 := by
  cases p with
  | blocked since =>
      have hle : since ≤ generation := h.2
      exact if_neg (by omega)
  | _ => rfl

end Presence

/-- What is known of a barrier after some events: every generation has let each core
through once at most, and one of them as the leader. -/
structure Led [DecidableEq ι] [Fintype ι] (es : List (LeaderEvent ι)) (st : BarrierState ι) :
    Prop where
  made : ∀ size, (∃ i, st.status = .running i size) ∨ st.status = .complete size →
    ∃ j, .callOnce j size ∈ es
  unused : (∀ size, st.status ≠ .complete size) → st.generation = 0 ∧ st.count = 0 ∧
    (∀ i, st.present i = .absent) ∧ es.countP (LeaderEvent.isPass false) = 0
  counted : ∀ size, st.status = .complete size →
    st.generation * size + st.count ≤ es.countP LeaderEvent.isWait ∧ st.count ≤ size - 1
  passes : ∀ i, (st.present i).Owes st.generation (es.countP (LeaderEvent.isPassOf i))
  leaders : es.countP (LeaderEvent.isPass true) + ∑ i, (st.present i).leads ≤ st.generation
  others : ∀ size, st.status = .complete size →
    es.countP (LeaderEvent.isPass false) + ∑ i, (st.present i).late st.generation ≤
      st.generation * (size - 1)
  current : ∑ i, (st.present i).current st.generation ≤ st.count

/-- One more event. -/
theorem countP_concat (es : List (LeaderEvent ι)) (e : LeaderEvent ι) (p : LeaderEvent ι → Bool) :
    (es ++ [e]).countP p = es.countP p + (p e).toNat := by
  rw [List.countP_append, List.countP_singleton]
  cases p e <;> rfl

section

variable [DecidableEq ι] [Fintype ι] {es : List (LeaderEvent ι)} {e : LeaderEvent ι}
  {st st' : BarrierState ι} {i : ι} {size : ℕ}

/-- An event that is not seen at the barrier itself. -/
theorem Led.once (h : Led es st) (hwait : e.isWait = false) (hpasses : ∀ i, e.isPassOf i = false)
    (hpass : ∀ leader, e.isPass leader = false) (status : OnceStatus ι)
    (hmade : ∀ size, (∃ i, status = .running i size) ∨ status = .complete size →
      ∃ j, .callOnce j size ∈ es ++ [e])
    (hkept : (∃ size, st.status = .complete size) → status = st.status) :
    Led (es ++ [e]) { st with status := status } where
  made := hmade
  unused hne := by
    rw [countP_concat, hpass, Bool.toNat_false, Nat.add_zero]
    refine h.unused fun size hsize => hne size ?_
    exact (hkept ⟨size, hsize⟩).trans hsize
  counted size hsize := by
    rw [countP_concat, hwait, Bool.toNat_false, Nat.add_zero]
    by_cases hcomplete : ∃ size, st.status = .complete size
    · exact h.counted size ((hkept hcomplete).symm.trans hsize)
    · obtain ⟨hgen, hcount, -, -⟩ := h.unused fun size hsize => hcomplete ⟨size, hsize⟩
      dsimp only
      rw [hgen, hcount]
      omega
  passes i := by
    rw [countP_concat, hpasses, Bool.toNat_false, Nat.add_zero]
    exact h.passes i
  leaders := by
    rw [countP_concat, hpass, Bool.toNat_false, Nat.add_zero]
    exact h.leaders
  others size hsize := by
    rw [countP_concat, hpass, Bool.toNat_false, Nat.add_zero]
    by_cases hcomplete : ∃ size, st.status = .complete size
    · exact h.others size ((hkept hcomplete).symm.trans hsize)
    · obtain ⟨hgen, -, habsent, hnone⟩ := h.unused fun size hsize => hcomplete ⟨size, hsize⟩
      have hlate : ∑ i, (st.present i).late st.generation = 0 :=
        Finset.sum_eq_zero fun i _ => by rw [habsent]; rfl
      dsimp only
      rw [hnone, hlate]
      exact Nat.zero_le _
  current := h.current

/-- A core calls `call_once`, and nothing is seen at the barrier. -/
theorem Led.callOnce (h : Led es st) (hst : leaderStep st (.callOnce i size) = some st') :
    Led (es ++ [.callOnce i size]) st' := by
  rw [leaderStep, barrierStep] at hst
  split at hst
  · rename_i hstatus
    cases hst
    refine h.once rfl (fun _ => rfl) (fun _ => rfl) _ ?_ ?_
    · rintro size' (⟨j, heq⟩ | heq)
      · cases heq
        exact ⟨i, by simp⟩
      · cases heq
    · rintro ⟨size', heq⟩
      rw [hstatus] at heq
      cases heq
  · cases hst
    refine h.once rfl (fun _ => rfl) (fun _ => rfl) _ (fun size' hsize => ?_) fun _ => rfl
    obtain ⟨j, hj⟩ := h.made size' hsize
    exact ⟨j, List.mem_append_left _ hj⟩

/-- It returns, and the barrier has been made. -/
theorem Led.given (h : Led es st) (hst : leaderStep st (.given i) = some st') :
    Led (es ++ [.given i]) st' := by
  have hmade : ∀ size, (∃ i, st.status = .running i size) ∨ st.status = .complete size →
      ∃ j, .callOnce j size ∈ es ++ [.given i] := by
    intro size hsize
    obtain ⟨j, hj⟩ := h.made size hsize
    exact ⟨j, List.mem_append_left _ hj⟩
  rw [leaderStep, barrierStep] at hst
  split at hst
  · cases hst
  · rename_i j size hstatus
    split_ifs at hst
    cases hst
    refine h.once rfl (fun _ => rfl) (fun _ => rfl) _ ?_ ?_
    · rintro size' (⟨j', heq⟩ | heq)
      · cases heq
      · cases heq
        exact hmade size (.inl ⟨j, hstatus⟩)
    · rintro ⟨size', heq⟩
      rw [hstatus] at heq
      cases heq
  · cases hst
    exact h.once rfl (fun _ => rfl) (fun _ => rfl) _ hmade fun _ => rfl

/-- What cores owe after the presence of one of them has changed. -/
theorem Led.passes_update (h : Led es st) {generation : ℕ} (hle : st.generation ≤ generation)
    (hothers : ∀ j, j ≠ i → e.isPassOf j = false) {p : Presence}
    (hp : p.Owes generation (es.countP (LeaderEvent.isPassOf i) + (e.isPassOf i).toNat)) (j : ι) :
    (Function.update st.present i p j).Owes generation
      ((es ++ [e]).countP (LeaderEvent.isPassOf j)) := by
  rw [countP_concat]
  by_cases hj : j = i
  · subst hj
    rwa [Function.update_self]
  · rw [Function.update_of_ne hj, hothers j hj, Bool.toNat_false, Nat.add_zero]
    exact (h.passes j).mono hle

/-- Events do not go away. -/
theorem Led.made_concat (h : Led es st) (size : ℕ)
    (hsize : (∃ i, st.status = .running i size) ∨ st.status = .complete size) :
    ∃ j, .callOnce j size ∈ es ++ [e] := by
  obtain ⟨j, hj⟩ := h.made size hsize
  exact ⟨j, List.mem_append_left _ hj⟩

/-- One more core is blocked. -/
theorem Led.wait_blocked (h : Led es st) (hstatus : st.status = .complete size)
    (habsent : st.present i = .absent) (hlt : st.count + 1 < size) :
    Led (es ++ [.wait i]) { st with
      count := st.count + 1
      present := Function.update st.present i (.blocked st.generation) } where
  made := h.made_concat
  unused hne := absurd hstatus (hne size)
  counted size' heq := by
    cases hstatus.symm.trans heq
    obtain ⟨hcounted, -⟩ := h.counted size hstatus
    rw [countP_concat]
    change _ ≤ _ + 1 ∧ _
    dsimp only
    omega
  passes := h.passes_update (Nat.le_refl _) (fun _ _ => rfl) <| by
    have howes := h.passes i
    rw [habsent] at howes
    exact ⟨howes, Nat.le_refl _⟩
  leaders := by
    have hsum := sum_update st.present i (.blocked st.generation) Presence.leads
    have hleaders := h.leaders
    rw [habsent] at hsum
    rw [Presence.leads_absent, Presence.leads_blocked] at hsum
    rw [countP_concat]
    change _ + 0 + _ ≤ _
    dsimp only
    omega
  others size' heq := by
    have hsum := sum_update st.present i (.blocked st.generation) (Presence.late st.generation)
    have hothers := h.others size' heq
    rw [habsent] at hsum
    rw [Presence.late_absent, Presence.late_self] at hsum
    rw [countP_concat]
    change _ + 0 + _ ≤ _
    dsimp only
    omega
  current := by
    have hsum := sum_update st.present i (.blocked st.generation) (Presence.current st.generation)
    have hcurrent := h.current
    rw [habsent] at hsum
    rw [Presence.current_absent, Presence.current_self] at hsum
    dsimp only
    omega

/-- The last core comes, and the next generation starts. -/
theorem Led.wait_leader (h : Led es st) (hstatus : st.status = .complete size)
    (habsent : st.present i = .absent) (hlt : ¬ st.count + 1 < size) :
    Led (es ++ [.wait i]) { st with
      count := 0
      generation := st.generation + 1
      present := Function.update st.present i .leader } where
  made := h.made_concat
  unused hne := absurd hstatus (hne size)
  counted size' heq := by
    cases hstatus.symm.trans heq
    obtain ⟨hcounted, -⟩ := h.counted size hstatus
    rw [countP_concat]
    change _ ≤ _ + 1 ∧ _
    dsimp only
    rw [Nat.succ_mul]
    omega
  passes := h.passes_update (Nat.le_succ _) (fun _ _ => rfl) <| by
    have howes := h.passes i
    rw [habsent] at howes
    exact Nat.succ_le_succ howes
  leaders := by
    have hsum := sum_update st.present i .leader Presence.leads
    have hleaders := h.leaders
    rw [habsent] at hsum
    rw [Presence.leads_absent, Presence.leads_leader] at hsum
    rw [countP_concat]
    change _ + 0 + _ ≤ _
    dsimp only
    omega
  others size' heq := by
    cases hstatus.symm.trans heq
    obtain ⟨-, hcount⟩ := h.counted size hstatus
    have hothers := h.others size hstatus
    have hcurrent := h.current
    have hsum := sum_update st.present i .leader (Presence.late (st.generation + 1))
    have hlate : ∑ j, (st.present j).late (st.generation + 1) ≤
        ∑ j, (st.present j).late st.generation + ∑ j, (st.present j).current st.generation := by
      rw [← Finset.sum_add_distrib]
      exact Finset.sum_le_sum fun j _ => (st.present j).late_succ_le st.generation
    rw [habsent, Presence.late_absent, Presence.late_leader] at hsum
    rw [countP_concat, Nat.succ_mul]
    change _ + 0 + _ ≤ _
    dsimp only
    omega
  current := by
    have hsum := sum_update st.present i .leader (Presence.current (st.generation + 1))
    have hzero : ∑ j, (st.present j).current (st.generation + 1) = 0 :=
      Finset.sum_eq_zero fun j _ => Presence.current_succ (h.passes j)
    rw [habsent, Presence.current_absent, Presence.current_leader] at hsum
    dsimp only
    omega

/-- A core calls `wait`: it is blocked, or it is the last to come. -/
theorem Led.wait (h : Led es st) (hst : leaderStep st (.wait i) = some st') :
    Led (es ++ [.wait i]) st' := by
  rw [leaderStep] at hst
  split at hst
  · rename_i habsent
    rw [barrierStep] at hst
    split at hst
    · rename_i size hstatus
      split_ifs at hst with hlt
      · cases hst
        exact h.wait_blocked hstatus habsent hlt
      · cases hst
        exact h.wait_leader hstatus habsent hlt
    · cases hst
  · cases hst

/-- A core is let through. -/
theorem Led.leave (h : Led es st) (hstatus : st.status = .complete size) (leader : Bool)
    (howes : Presence.Owes st.generation (es.countP (LeaderEvent.isPassOf i) + 1) .absent)
    (hleads : (st.present i).leads = leader.toNat)
    (hlate : (st.present i).late st.generation = (!leader).toNat)
    (hcurrent : (st.present i).current st.generation = 0) :
    Led (es ++ [.pass i leader]) { st with present := Function.update st.present i .absent } where
  made := h.made_concat
  unused hne := absurd hstatus (hne size)
  counted size' heq := by
    rw [countP_concat]
    exact h.counted size' heq
  passes := by
    have hothers : ∀ j, j ≠ i → LeaderEvent.isPassOf j (.pass i leader) = false :=
      fun j hj => decide_eq_false (Ne.symm hj)
    refine h.passes_update (Nat.le_refl _) hothers ?_
    rw [show LeaderEvent.isPassOf i (.pass i leader) = true from decide_eq_true rfl]
    exact howes
  leaders := by
    have hsum := sum_update st.present i .absent Presence.leads
    have hleaders := h.leaders
    rw [hleads] at hsum
    rw [Presence.leads_absent] at hsum
    rw [countP_concat]
    cases leader
    · change _ + 0 + _ ≤ _
      rw [Bool.toNat_false] at hsum
      dsimp only
      omega
    · change _ + 1 + _ ≤ _
      rw [Bool.toNat_true] at hsum
      dsimp only
      omega
  others size' heq := by
    have hsum := sum_update st.present i .absent (Presence.late st.generation)
    have hothers := h.others size' heq
    rw [hlate] at hsum
    rw [Presence.late_absent] at hsum
    rw [countP_concat]
    cases leader
    · change _ + 1 + _ ≤ _
      rw [Bool.not_false, Bool.toNat_true] at hsum
      dsimp only
      omega
    · change _ + 0 + _ ≤ _
      rw [Bool.not_true, Bool.toNat_false] at hsum
      dsimp only
      omega
  current := by
    have hsum := sum_update st.present i .absent (Presence.current st.generation)
    have hle := h.current
    rw [hcurrent] at hsum
    rw [Presence.current_absent] at hsum
    dsimp only
    omega

/-- A core is let through, as the leader or as another. -/
theorem Led.pass {leader : Bool} (h : Led es st)
    (hst : leaderStep st (.pass i leader) = some st') : Led (es ++ [.pass i leader]) st' := by
  have howes := h.passes i
  cases hpresent : st.present i with
  | absent => simp only [leaderStep, hpresent, reduceCtorEq] at hst
  | blocked since =>
      rw [hpresent] at howes
      obtain ⟨hn, hsince⟩ := howes
      cases leader with
      | true => simp only [leaderStep, hpresent, reduceCtorEq] at hst
      | false =>
          simp only [leaderStep, hpresent, barrierStep] at hst
          cases hstatus : st.status with
          | complete size =>
              simp only [hstatus, Option.ite_none_right_eq_some, Option.some.injEq] at hst
              obtain ⟨hopen, rfl⟩ := hst
              -- the count of this generation is below the size
              have hne : since ≠ st.generation := by
                rintro rfl
                have hcount := (h.counted size hstatus).2
                have hle := (Finset.single_le_sum (f := fun j =>
                  (st.present j).current st.generation) (fun _ _ => Nat.zero_le _)
                  (Finset.mem_univ i)).trans h.current
                rw [hpresent, Presence.current_self] at hle
                have := hopen.resolve_left (fun hne => hne rfl)
                omega
              rw [← hstatus]
              refine h.leave hstatus false ?_ ?_ ?_ ?_
              · exact Nat.succ_le_of_lt (Nat.lt_of_le_of_lt hn (Nat.lt_of_le_of_ne hsince hne))
              · rw [hpresent]
                rfl
              · rw [hpresent]
                exact if_neg hne
              · rw [hpresent]
                exact if_neg hne
          | _ => simp only [hstatus, reduceCtorEq] at hst
  | leader =>
      rw [hpresent] at howes
      cases leader with
      | false => simp only [leaderStep, hpresent, reduceCtorEq] at hst
      | true =>
          simp only [leaderStep, hpresent, barrierStep] at hst
          cases hstatus : st.status with
          | complete size =>
              simp only [hstatus, Option.some.injEq] at hst
              subst hst
              rw [← hstatus]
              refine h.leave hstatus true howes ?_ ?_ ?_
              · rw [hpresent]
                rfl
              · rw [hpresent]
                rfl
              · rw [hpresent]
                rfl
          | _ => simp only [hstatus, reduceCtorEq] at hst

/-- Nothing has been seen to begin with. -/
theorem led_new : Led ([] : List (LeaderEvent ι)) (LeaderBarrier.reference ι).new where
  made := by
    rintro size (⟨i, heq⟩ | heq)
    · cases heq
    · cases heq
  unused _ := ⟨rfl, rfl, fun _ => rfl, rfl⟩
  counted _ heq := by cases heq
  passes _ := Nat.le_refl 0
  leaders := (Nat.zero_add _).le.trans (Finset.sum_eq_zero fun i _ => rfl).le
  others _ heq := by cases heq
  current := (Finset.sum_eq_zero fun i _ => rfl).le

/-- **The barrier is as documented.** -/
theorem LeaderBarrier.reference_documented : (LeaderBarrier.reference ι).Documented := by
  intro es st i leader hruns hpass
  have hled : Led es st := by
    clear hpass
    induction hruns with
    | new => exact led_new
    | @step es e st st' _ hst ih =>
        cases e with
        | callOnce i size => exact ih.callOnce hst
        | given i => exact ih.given hst
        | wait i => exact ih.wait hst
        | pass i leader => exact ih.pass hst
  have hpos : 0 < es.countP (LeaderEvent.isPassOf i) :=
    List.countP_pos_iff.mpr ⟨_, hpass, decide_eq_true rfl⟩
  have hgen : st.generation ≠ 0 := by
    have := (hled.passes i).le
    omega
  obtain ⟨size, hsize⟩ : ∃ size, st.status = .complete size := by
    by_contra hne
    exact hgen (hled.unused fun size hsize => hne ⟨size, hsize⟩).1
  obtain ⟨j, hj⟩ := hled.made size (.inr hsize)
  obtain ⟨hwaits, -⟩ := hled.counted size hsize
  exact ⟨j, size, st.generation, hj, Nat.le_of_add_right_le hwaits, fun i => (hled.passes i).le,
    Nat.le_of_add_right_le hled.leaders, Nat.le_of_add_right_le (hled.others size hsize)⟩

end

end ParaOS.Paraos
