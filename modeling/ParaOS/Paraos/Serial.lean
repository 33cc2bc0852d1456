import Mathlib.Algebra.Order.Group.Multiset
import ParaOS.Machine.Interleaving

/-!
# `paraos::serial`: `Write for Serial`

`write_str` starts with `self.0.lock();`.  The guard that `lock` returns is not
bound to a name, so it is dropped at the end of that statement, and the loop that
writes the string runs without the mutex.  Any number of cores may be in the loop
at the same time and their bytes are mixed (`serial_output_interleaved`).

What is left is that a string comes out whole if no core gets to write while
another one is partway through its own (`serial_output_whole`).

### What is load-bearing

The condition is on steps: the core that is going to write a byte finds no other
partway through its string.  It is what holding the mutex would have achieved, and
it does not say who holds it, since the mutex is free whenever anybody writes.  It
says nothing about strings that have not been begun or that are out to the last
byte; any number of cores may be in the loop with those.

Order is kept per byte and not per call.  A core that has written its last byte may
be overtaken before its call has returned, so the strings that are out are those
that are complete, whether or not the call has returned (`Writer.complete`).
-/

namespace ParaOS.Paraos

open Machine

/-! ## The model

A core is a state machine with one transition for each thing another core could see:
the mutex is taken, it is released, a byte is written.  Returning is one more, so
that a core can be between two calls. -/

/-- `c as u8` -/
def asU8 (c : Char) : UInt8 := UInt8.ofNat c.toNat

/-- The bytes `write_str` writes for a string. -/
def bytesOf (s : String) : List UInt8 := s.toList.map asU8

/-- Where a core is in `write_str`. -/
inductive Phase where
  /-- not in a call -/
  | idle
  /-- in the statement `self.0.lock();`, with the guard -/
  | locked (s : String)
  /-- in the loop, with what has been written of the string and what has not -/
  | writing (s : String) (sent todo : List UInt8)
  deriving DecidableEq

/-- A core: where it is, the calls of `write_str` it will make, and those that have
returned. -/
structure Writer where
  phase : Phase
  calls : List String
  returned : List String

/-- `Port`: who holds its mutex, and what has been written to it. -/
structure Port (ι : Type) where
  mutex : Option ι
  written : List UInt8

variable {ι : Type}

/-- The next step of a core: take the mutex, drop the guard, write one byte, or
return. -/
def writeStr (i : ι) (w : Writer) (p : Port ι) : Option (Writer × Port ι) :=
  match w.phase with
  | .idle =>
      match w.calls, p.mutex with
      | s :: calls, none =>
          some ({ w with phase := .locked s, calls := calls }, { p with mutex := some i })
      | _, _ => none
  | .locked s => some ({ w with phase := .writing s [] (bytesOf s) }, { p with mutex := none })
  | .writing s sent (b :: todo) =>
      some ({ w with phase := .writing s (sent ++ [b]) todo },
        { p with written := p.written ++ [b] })
  | .writing s _ [] => some ({ w with phase := .idle, returned := w.returned ++ [s] }, p)

/-- Cores that are about to make their calls, and a port nothing has been written
to. -/
def start (calls : ι → List String) : Config ι Writer (Port ι) :=
  ⟨fun i => ⟨.idle, calls i, []⟩, ⟨none, []⟩⟩

/-- The core has written some of a string, but not all of it. -/
def Writer.partway (w : Writer) : Prop :=
  ∃ s sent todo, w.phase = .writing s sent todo ∧ sent ≠ [] ∧ todo ≠ []

/-- The core is in the loop and has a byte to write. -/
def Writer.writes (w : Writer) : Prop := ∃ s sent b todo, w.phase = .writing s sent (b :: todo)

/-- If the core is going to write a byte, no other core is partway through its
string. -/
def Uninterrupted (c : Config ι Writer (Port ι)) (i : ι) : Prop :=
  (c.own i).writes → ∀ j, j ≠ i → ¬ (c.own j).partway

/-! ## What is written

`Orderly` is the invariant.  The bytes are the complete strings in some order, and
then what has been written of one more; the order is not remembered by anybody, so
the invariant only says that there is one. -/

/-- The strings a core is through with. -/
def Writer.complete (w : Writer) : List String :=
  match w.phase with
  | .writing s _ [] => w.returned ++ [s]
  | _ => w.returned

/-- The call a core is in. -/
def Writer.current (w : Writer) : List String :=
  match w.phase with
  | .idle => []
  | .locked s => [s]
  | .writing s _ _ => [s]

/-- A core that was to make these calls. -/
structure Writer.Makes (w : Writer) (calls : List String) : Prop where
  calls : w.returned ++ w.current ++ w.calls = calls
  bytes : ∀ s sent todo, w.phase = .writing s sent todo → sent ++ todo = bytesOf s

/-- Every string has been written whole, but for one that is being written. -/
structure Orderly [Fintype ι] (calls : ι → List String) (c : Config ι Writer (Port ι)) : Prop where
  makes : ∀ i, (c.own i).Makes (calls i)
  alone : ∀ i j, (c.own i).partway → (c.own j).partway → i = j
  written : ∃ (order : List String) (rest : List UInt8),
    c.shared.written = order.flatMap bytesOf ++ rest ∧
    (order : Multiset String) = ∑ i, ((c.own i).complete : Multiset String) ∧
    (∀ i s sent todo, (c.own i).phase = .writing s sent todo → sent ≠ [] → todo ≠ [] →
      sent = rest) ∧
    ((∀ i, ¬ (c.own i).partway) → rest = [])

/-- What a core can do: take the mutex, drop it, write a byte, or return. -/
theorem writeStr_cases {i : ι} {w w' : Writer} {p p' : Port ι}
    (h : writeStr i w p = some (w', p')) :
    (∃ s calls returned, w = ⟨.idle, s :: calls, returned⟩ ∧ w' = ⟨.locked s, calls, returned⟩ ∧
      p.mutex = none ∧ p' = { p with mutex := some i }) ∨
    (∃ s calls returned, w = ⟨.locked s, calls, returned⟩ ∧
      w' = ⟨.writing s [] (bytesOf s), calls, returned⟩ ∧ p' = { p with mutex := none }) ∨
    (∃ s sent b todo calls returned, w = ⟨.writing s sent (b :: todo), calls, returned⟩ ∧
      w' = ⟨.writing s (sent ++ [b]) todo, calls, returned⟩ ∧
      p' = { p with written := p.written ++ [b] }) ∨
    ∃ s sent calls returned, w = ⟨.writing s sent [], calls, returned⟩ ∧
      w' = ⟨.idle, calls, returned ++ [s]⟩ ∧ p' = p := by
  obtain ⟨phase, calls, returned⟩ := w
  rw [writeStr] at h
  cases phase with
  | idle =>
      dsimp only at h
      split at h
      · rename_i hmutex
        cases h
        exact .inl ⟨_, _, _, rfl, rfl, hmutex, rfl⟩
      · cases h
  | locked s =>
      cases h
      exact .inr (.inl ⟨s, calls, returned, rfl, rfl, rfl⟩)
  | writing s sent todo =>
      cases todo with
      | nil =>
          cases h
          exact .inr (.inr (.inr ⟨s, sent, calls, returned, rfl, rfl, rfl⟩))
      | cons b todo =>
          cases h
          exact .inr (.inr (.inl ⟨s, sent, b, todo, calls, returned, rfl, rfl, rfl⟩))

/-- A core in the loop is partway if there are bytes behind it and before it. -/
theorem partway_writing {s : String} {sent todo : List UInt8} {calls returned : List String} :
    (Writer.mk (.writing s sent todo) calls returned).partway ↔ sent ≠ [] ∧ todo ≠ [] := by
  constructor
  · rintro ⟨s', sent', todo', hphase, hne⟩
    cases hphase
    exact hne
  · exact fun hne => ⟨s, sent, todo, rfl, hne⟩

/-- A core elsewhere is not. -/
theorem not_partway_of_phase {w : Writer} (h : ∀ s sent todo, w.phase ≠ .writing s sent todo) :
    ¬ w.partway :=
  fun ⟨s, sent, todo, hphase, _⟩ => h s sent todo hphase

/-- A step keeps to the calls a core was to make. -/
theorem Writer.Makes.step {i : ι} {w w' : Writer} {p p' : Port ι} {calls : List String}
    (h : w.Makes calls) (hs : writeStr i w p = some (w', p')) : w'.Makes calls := by
  have hcalls := h.calls
  rcases writeStr_cases hs with ⟨s, rest, returned, rfl, rfl, -, -⟩ |
    ⟨s, rest, returned, rfl, rfl, -⟩ | ⟨s, sent, b, todo, rest, returned, rfl, rfl, -⟩ |
    ⟨s, sent, rest, returned, rfl, rfl, -⟩
  · refine ⟨?_, fun _ _ _ hphase => by cases hphase⟩
    rw [← hcalls]
    simp [Writer.current]
  · refine ⟨hcalls, fun s' sent' todo' hphase => ?_⟩
    cases hphase
    rfl
  · refine ⟨hcalls, fun s' sent' todo' hphase => ?_⟩
    cases hphase
    rw [← h.bytes s sent (b :: todo) rfl, List.append_assoc]
    rfl
  · refine ⟨?_, fun _ _ _ hphase => by cases hphase⟩
    rw [← hcalls]
    simp [Writer.current]

section

variable [Fintype ι] [DecidableEq ι] {calls : ι → List String} {c c' : Config ι Writer (Port ι)}
  {i : ι}

/-- All cores keep to their calls. -/
theorem Orderly.makes_step (h : Orderly calls c) (hs : (Processes.ofFun writeStr).Step i c c') :
    ∀ j, (c'.own j).Makes (calls j) :=
  hs.forall_own (p := fun j w => w.Makes (calls j)) h.makes ((h.makes i).step hs.own_self)

/-- The strings that are complete, after a step that completes some. -/
theorem sum_complete (h : (Processes.ofFun writeStr).Step i c c') {more : List String}
    (hmore : (c'.own i).complete = (c.own i).complete ++ more) :
    ∑ j, ((c'.own j).complete : Multiset String) =
      ∑ j, ((c.own j).complete : Multiset String) + (more : Multiset String) := by
  have hsum := h.sum_own fun w => (w.complete : Multiset String)
  rw [hmore, ← Multiset.coe_add, add_left_comm, add_comm _ ((c.own i).complete : Multiset String)]
    at hsum
  exact add_left_cancel hsum

/-- A step of a core that is not partway, before and after, and writes nothing. -/
theorem Orderly.silent (h : Orderly calls c) (hs : (Processes.ofFun writeStr).Step i c c')
    (hwritten : c'.shared.written = c.shared.written) (hbefore : ¬ (c.own i).partway)
    (hafter : ¬ (c'.own i).partway) (more : List String)
    (hmore : (c'.own i).complete = (c.own i).complete ++ more)
    (hempty : more.flatMap bytesOf = []) : Orderly calls c' := by
  have hsame : ∀ j, (c'.own j).partway ↔ (c.own j).partway := by
    intro j
    by_cases hj : j = i
    · subst hj
      exact iff_of_false hafter hbefore
    · rw [hs.own_of_ne hj]
  obtain ⟨order, rest, hw, horder, hrest, hnone⟩ := h.written
  refine ⟨h.makes_step hs, fun j k hj hk => ?_,
    order ++ more, rest, ?_, ?_, fun j s sent todo hphase hsent htodo => ?_, fun hquiet => ?_⟩
  · exact h.alone j k ((hsame j).mp hj) ((hsame k).mp hk)
  · rw [hwritten, hw, List.flatMap_append, hempty, List.append_nil]
  · rw [sum_complete hs hmore, ← horder, Multiset.coe_add]
  · have hj : j ≠ i := by
      rintro rfl
      exact hafter ⟨s, sent, todo, hphase, hsent, htodo⟩
    rw [hs.own_of_ne hj] at hphase
    exact hrest j s sent todo hphase hsent htodo
  · exact hnone fun j hj => hquiet j ((hsame j).mpr hj)

/-- **Writing a byte** while nobody else is partway. -/
theorem Orderly.write (h : Orderly calls c) (hs : (Processes.ofFun writeStr).Step i c c')
    (halone : ∀ j, j ≠ i → ¬ (c.own j).partway) {s : String} {sent todo : List UInt8} {b : UInt8}
    {rest returned : List String} (hw : c.own i = ⟨.writing s sent (b :: todo), rest, returned⟩)
    (hw' : c'.own i = ⟨.writing s (sent ++ [b]) todo, rest, returned⟩)
    (hwritten : c'.shared.written = c.shared.written ++ [b]) : Orderly calls c' := by
  have hbytes : sent ++ b :: todo = bytesOf s := (h.makes i).bytes _ _ _ (by rw [hw])
  obtain ⟨order, part, hout, horder, hpart, hnone⟩ := h.written
  have halone' : ∀ j, j ≠ i → ¬ (c'.own j).partway := by
    intro j hj
    rw [hs.own_of_ne hj]
    exact halone j hj
  -- what has been written of an incomplete string is what this core has written
  have hsent : part = sent := by
    by_cases hnil : sent = []
    · rw [hnil]
      refine hnone fun j hj => ?_
      by_cases hji : j = i
      · subst hji
        rw [hw, partway_writing] at hj
        exact hj.1 hnil
      · exact halone j hji hj
    · exact (hpart i s sent (b :: todo) (by rw [hw]) hnil (by simp)).symm
  have hmakes := h.makes_step hs
  have honly : ∀ j k, (c'.own j).partway → (c'.own k).partway → j = k := by
    intro j k hj hk
    have hji : j = i := by_contra fun hne => halone' j hne hj
    have hki : k = i := by_contra fun hne => halone' k hne hk
    rw [hji, hki]
  by_cases htodo : todo = []
  · subst htodo
    have hquiet : ∀ j, ¬ (c'.own j).partway := by
      intro j
      by_cases hj : j = i
      · subst hj
        rw [hw', partway_writing]
        simp
      · exact halone' j hj
    refine ⟨hmakes, honly, order ++ [s], [], ?_, ?_, ?_, fun _ => rfl⟩
    · rw [hwritten, hout, hsent, List.append_assoc, List.flatMap_append, List.flatMap_singleton,
        ← hbytes, List.append_nil]
    · have hmore : (c'.own i).complete = (c.own i).complete ++ [s] := by rw [hw', hw]; rfl
      rw [sum_complete hs hmore, ← horder, Multiset.coe_add]
    · intro j s' sent' todo' hphase hne hne'
      exact absurd ⟨s', sent', todo', hphase, hne, hne'⟩ (hquiet j)
  · refine ⟨hmakes, honly, order, sent ++ [b], ?_, ?_, ?_, fun hquiet => ?_⟩
    · rw [hwritten, hout, hsent, List.append_assoc]
    · have hmore : (c'.own i).complete = (c.own i).complete ++ [] := by
        obtain ⟨b', todo, rfl⟩ := List.exists_cons_of_ne_nil htodo
        rw [hw', hw]
        exact (List.append_nil _).symm
      rw [sum_complete hs hmore, ← horder]
      simp
    · intro j s' sent' todo' hphase hne hne'
      have hj : j = i :=
        by_contra fun hne'' => halone' j hne'' ⟨s', sent', todo', hphase, hne, hne'⟩
      subst hj
      rw [hw'] at hphase
      cases hphase
      rfl
    · refine absurd ?_ (hquiet i)
      rw [hw', partway_writing]
      exact ⟨by simp, htodo⟩

/-- **Every step keeps order**, if it does not write into another core's string. -/
theorem Orderly.step (h : Orderly calls c) (hok : Uninterrupted c i)
    (hs : (Processes.ofFun writeStr).Step i c c') : Orderly calls c' := by
  rcases writeStr_cases hs.own_self with ⟨s, rest, returned, hw, hw', -, hp⟩ |
    ⟨s, rest, returned, hw, hw', hp⟩ | ⟨s, sent, b, todo, rest, returned, hw, hw', hp⟩ |
    ⟨s, sent, rest, returned, hw, hw', hp⟩
  · refine h.silent hs (by rw [hp]) (not_partway_of_phase ?_) (not_partway_of_phase ?_)
      [] ?_ rfl
    · simp [hw]
    · simp [hw']
    · rw [hw, hw']
      exact (List.append_nil _).symm
  · -- an empty string is complete as soon as the guard is dropped
    refine h.silent hs (by rw [hp]) (not_partway_of_phase ?_) ?_
      (if bytesOf s = [] then [s] else []) ?_ ?_
    · simp [hw]
    · rw [hw', partway_writing]
      exact fun hne => hne.1 rfl
    · rw [hw, hw']
      cases hbytes : bytesOf s with
      | nil => rfl
      | cons b todo => exact (List.append_nil _).symm
    · split_ifs with hbytes
      · rw [List.flatMap_singleton, hbytes]
      · rfl
  · exact h.write hs (hok ⟨s, sent, b, todo, by rw [hw]⟩) hw hw' (by rw [hp])
  · refine h.silent hs (by rw [hp]) ?_ (not_partway_of_phase ?_) [] ?_ rfl
    · rw [hw, partway_writing]
      exact fun hne => hne.2 rfl
    · simp [hw']
    · rw [hw, hw']
      exact (List.append_nil _).symm

omit [DecidableEq ι] in
/-- Nothing has been written to begin with. -/
theorem orderly_start (calls : ι → List String) : Orderly calls (start calls) := by
  refine ⟨fun i => ⟨rfl, fun _ _ _ hphase => by cases hphase⟩, fun i j hi => ?_,
    [], [], rfl, ?_, ?_, fun _ => rfl⟩
  · exact absurd hi (not_partway_of_phase fun _ _ _ hphase => by cases hphase)
  · exact (Finset.sum_eq_zero fun i _ => rfl).symm
  · intro i s sent todo hphase
    cases hphase

end

/-- All calls have returned. -/
def AllReturned (c : Config ι Writer (Port ι)) : Prop :=
  ∀ i, (c.own i).phase = .idle ∧ (c.own i).calls = []

/-- **Strings come out whole if nobody writes into them.**  In every run in which a
core that writes a byte finds no other core partway through its string, what has
been written to the port are the strings that are complete, one after the other in
some order, and what has been written of one more.  Once all calls have returned it
is all strings of all cores.

Any number of cores, any strings, empty ones included, and any order of steps that
meets the condition.  The condition is on the state before a step, so a run can be
checked as it goes on. -/
theorem serial_output_whole [Fintype ι] [DecidableEq ι] {calls : ι → List String}
    {c : Config ι Writer (Port ι)}
    (h : Processes.Reach (Processes.ofFun writeStr) Uninterrupted (start calls) c) :
    (∃ (order : List String) (rest : List UInt8), c.shared.written = order.flatMap bytesOf ++ rest ∧
      (order : Multiset String) = ∑ i, ((c.own i).complete : Multiset String) ∧
      (rest = [] ∨ ∃ i s todo, (c.own i).phase = .writing s rest todo)) ∧
    (AllReturned c → ∃ order : List String,
      (order : Multiset String) = ∑ i, (calls i : Multiset String) ∧
      c.shared.written = order.flatMap bytesOf) := by
  have horderly : Orderly calls c :=
    h.invariant (orderly_start calls) fun _ _ _ hc hok hs => hc.step hok hs
  obtain ⟨order, rest, hwritten, horder, hrest, hnone⟩ := horderly.written
  constructor
  · refine ⟨order, rest, hwritten, horder, ?_⟩
    by_cases hquiet : ∀ i, ¬ (c.own i).partway
    · exact .inl (hnone hquiet)
    · simp only [not_forall, not_not] at hquiet
      obtain ⟨i, s, sent, todo, hphase, hsent, htodo⟩ := hquiet
      have := hrest i s sent todo hphase hsent htodo
      exact .inr ⟨i, s, todo, this ▸ hphase⟩
  · intro hall
    have hquiet : ∀ i, ¬ (c.own i).partway := fun i =>
      not_partway_of_phase fun s sent todo hphase => by
        rw [(hall i).1] at hphase
        cases hphase
    refine ⟨order, horder.trans (Finset.sum_congr rfl fun i _ => ?_), ?_⟩
    · have hcalls := (horderly.makes i).calls
      rw [← hcalls, Writer.complete, Writer.current, (hall i).1, (hall i).2]
      simp
    · rw [hwritten, hnone hquiet, List.append_nil]

instance (w : Writer) : Decidable w.partway :=
  match w with
  | ⟨.idle, _, _⟩ => isFalse (not_partway_of_phase fun _ _ _ hphase => by cases hphase)
  | ⟨.locked _, _, _⟩ => isFalse (not_partway_of_phase fun _ _ _ hphase => by cases hphase)
  | ⟨.writing _ _ _, _, _⟩ => decidable_of_iff _ partway_writing.symm

instance (w : Writer) : Decidable w.writes :=
  match w with
  | ⟨.idle, _, _⟩ => isFalse fun ⟨_, _, _, _, hphase⟩ => by cases hphase
  | ⟨.locked _, _, _⟩ => isFalse fun ⟨_, _, _, _, hphase⟩ => by cases hphase
  | ⟨.writing _ _ [], _, _⟩ => isFalse fun ⟨_, _, _, _, hphase⟩ => by cases hphase
  | ⟨.writing s sent (b :: todo), _, _⟩ => isTrue ⟨s, sent, b, todo, rfl⟩

instance [Fintype ι] [DecidableEq ι] (c : Config ι Writer (Port ι)) (i : ι) :
    Decidable (Uninterrupted c i) :=
  inferInstanceAs (Decidable (_ → ∀ j, j ≠ i → ¬ (c.own j).partway))

instance [Fintype ι] (c : Config ι Writer (Port ι)) : Decidable (AllReturned c) :=
  inferInstanceAs (Decidable (∀ i, (c.own i).phase = .idle ∧ (c.own i).calls = []))

/-- Two cores with a string each. -/
def twoCalls : Fin 2 → List String
  | 0 => ["ab"]
  | 1 => ["cd"]

/-- If both are in the loop at once, but the second waits for the first, the
strings come out one after the other. -/
theorem serial_output_whole_instance : ∃ c : Config (Fin 2) Writer (Port (Fin 2)),
    AllReturned c ∧ c.shared.written = bytesOf "abcd" ∧
    ∃ order : List String, (order : Multiset String) = ∑ i, (twoCalls i : Multiset String) ∧
      c.shared.written = order.flatMap bytesOf := by
  obtain ⟨c, hrun, hall, hwritten⟩ : ∃ c, Processes.run writeStr Uninterrupted
      [0, 0, 1, 1, 0, 0, 1, 1, 0, 1] (start twoCalls) = some c ∧ AllReturned c ∧
      c.shared.written = bytesOf "abcd" :=
    ⟨_, rfl, by decide +kernel, by decide +kernel⟩
  have hreach := Processes.reach_of_run .refl hrun
  exact ⟨c, hall, hwritten, (serial_output_whole hreach).2 hall⟩

/-- The two cores take turns in the loop, and `acbd` comes out. -/
theorem serial_output_interleaved : ¬ ∀ (n : ℕ) (calls : Fin n → List String)
    (c : Config (Fin n) Writer (Port (Fin n))),
    Processes.Reach (Processes.ofFun writeStr) (fun _ _ => True) (start calls) c → AllReturned c →
    ∃ order : List String, (order : Multiset String) = ∑ i, (calls i : Multiset String) ∧
      c.shared.written = order.flatMap bytesOf := by
  intro h
  obtain ⟨c, hrun, hall, hwritten⟩ : ∃ c, Processes.run writeStr (fun _ _ => True)
      [0, 0, 1, 1, 0, 1, 0, 1, 0, 1] (start twoCalls) = some c ∧ AllReturned c ∧
      c.shared.written = bytesOf "acbd" :=
    ⟨_, rfl, by decide +kernel, by decide +kernel⟩
  obtain ⟨order, horder, hflat⟩ := h 2 twoCalls c (Processes.reach_of_run .refl hrun) hall
  rw [hwritten] at hflat
  have hperm : order.Perm ["ab", "cd"] := Multiset.coe_eq_coe.mp horder
  -- the first two bytes are those of one of the strings
  have hfirst : ∀ x ∈ ["ab", "cd"],
      (bytesOf x).length = 2 ∧ (bytesOf "acbd").take 2 ≠ bytesOf x := by
    decide +kernel
  cases order with
  | nil => exact absurd hperm.length_eq (by decide)
  | cons x order =>
      obtain ⟨hlen, hne⟩ := hfirst x (hperm.mem_iff.mp List.mem_cons_self)
      rw [List.flatMap_cons] at hflat
      exact hne (by rw [hflat, List.take_left' hlen])

end ParaOS.Paraos
