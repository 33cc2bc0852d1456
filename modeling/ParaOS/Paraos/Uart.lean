import ParaOS.Paraos.Serial

/-!
# `paraos::serial`: the two output paths and the transmitter

`write_char` polls the line status register until the transmitter is empty and
only then writes its byte.  `write_str` writes one byte after the other and never
looks.  A byte written to a busy transmitter may be discarded, so `write_str` gets
a string through on exactly those UARTs that take each byte right after the one
before it (`write_str_agrees_iff`).

The UART is not part of the repository.  What it does is a `Schedule`, which may
depend on everything that has happened on the bus so far: the polls as well as the
bytes.  Two things are known about it.  A transmitter that is polled becomes empty
at some point, and one that is empty stays so until a byte is written.  One core is
all there is here; what several of them do to each other is in
`ParaOS.Paraos.Serial`.

### What is load-bearing

`becomesEmpty` is what makes `write_char` return: the loop has no bound of its own,
and with a transmitter that is never empty it would run for ever.  `staysEmpty` is
what gets the byte through: it is written after the poll that found the transmitter
empty, and a poll alone must not make it busy again.  Of the mutex it is asked that
it is free, as there is no other core that could release it.

What the UART has been through before may leave it busy, and the bytes of the string
make it busy in turn; so the condition is asked of every byte, with the history that
it will find when those in front of it have been written.
-/

namespace ParaOS.Paraos

/-! ## The UART

A UART is its history.  It answers a poll and takes or discards a byte according to
what has been done with it so far, and nothing else that a UART may have inside is
needed. -/

/-- An access to a register of the UART, by the core that owns the port. -/
inductive Access where
  /-- `inb(port + 5)`, the line status -/
  | inb
  /-- `outb(port + 0, b)`, the byte to transmit -/
  | outb (b : UInt8)
  deriving DecidableEq

/-- `status & 0x20 != 0` -/
def transmitEmptyBit (status : UInt8) : Bool := status &&& 0x20 != 0

/-- What a UART does after each sequence of accesses, the oldest first. -/
structure Schedule where
  /-- the line status register -/
  lineStatus : List Access → UInt8
  /-- whether a byte is transmitted even if it comes while the transmitter is busy -/
  keeps : List Access → Bool
  /-- a transmitter that is polled becomes empty -/
  becomesEmpty : ∀ h, ∃ n, transmitEmptyBit (lineStatus (h ++ List.replicate n .inb)) = true
  /-- and stays so as long as it is only polled -/
  staysEmpty : ∀ h, transmitEmptyBit (lineStatus h) = true →
    transmitEmptyBit (lineStatus (h ++ [.inb])) = true

/-- The UART transmits a byte that is written now. -/
def Schedule.takes (σ : Schedule) (h : List Access) : Bool :=
  transmitEmptyBit (σ.lineStatus h) || σ.keeps h

/-- A UART: the accesses so far, and the bytes it has accepted. -/
structure Uart where
  history : List Access
  accepted : List UInt8
  deriving DecidableEq

namespace Uart

variable (σ : Schedule)

/-- `inb(port + 5)` -/
def inb (u : Uart) : UInt8 × Uart :=
  (σ.lineStatus u.history, { u with history := u.history ++ [.inb] })

/-- `outb(port + 0, b)` -/
def outb (b : UInt8) (u : Uart) : Uart where
  history := u.history ++ [.outb b]
  accepted := if σ.takes u.history then u.accepted ++ [b] else u.accepted

end Uart

/-! ## `Serial`

Both paths are translated as they stand, the loop of `write_char` with a bound on
its rounds.  A bound that is large enough makes no difference to what it does. -/

/-- A `Serial` and its `Port`: whether the mutex is held, and the UART behind it. -/
structure Serial where
  mutex : Bool
  uart : Uart
  deriving DecidableEq

namespace Serial

variable (σ : Schedule)

/-- `self.0.lock();`: the guard is dropped at the end of the statement.  There is no
way out of it if the mutex is held, since there is nobody else to release it. -/
def lock (p : Serial) : Option Serial := if p.mutex then none else some p

/-- `is_transmit_empty` -/
def isTransmitEmpty (p : Serial) : Bool × Serial :=
  (transmitEmptyBit (p.uart.inb σ).1, { p with uart := (p.uart.inb σ).2 })

/-- `outb(self.0.port + 0, c as u8)` -/
def outb (c : Char) (p : Serial) : Serial := { p with uart := p.uart.outb σ (asU8 c) }

/-- `write_str` -/
def writeStr (s : String) (p : Serial) : Option Serial := do
  let p ← p.lock
  return s.toList.foldl (fun p c => p.outb σ c) p

/-- `while !self.is_transmit_empty() {}`, for at most so many rounds. -/
def spin : ℕ → Serial → Option Serial
  | 0, _ => none
  | n + 1, p =>
      let (empty, p) := p.isTransmitEmpty σ
      if empty then some p else spin n p

/-- `write_char`, with a bound on the rounds of its loop. -/
def writeCharWithin (n : ℕ) (c : Char) (p : Serial) : Option Serial := do
  let p ← p.lock
  let p ← p.spin σ n
  return p.outb σ c

/-- `write_char` returns. -/
def WritesChar (c : Char) (p p' : Serial) : Prop := ∃ n, p.writeCharWithin σ n c = some p'

/-- A call of `write_char` for each `char` of a list in turn. -/
inductive WritesChars : List Char → Serial → Serial → Prop
  | nil (p : Serial) : WritesChars [] p p
  | cons {c : Char} {cs : List Char} {p p₁ p₂ : Serial} :
      WritesChar σ c p p₁ → WritesChars cs p₁ p₂ → WritesChars (c :: cs) p p₂

/-- Both output paths return, and the UART accepts the same from either: every
`char` of the string, in order. -/
def Agrees (s : String) (p : Serial) : Prop :=
  ∃ a, p.writeStr σ s = some a ∧ (∃ b, WritesChars σ s.toList p b) ∧
    ∀ b, WritesChars σ s.toList p b →
      a.uart.accepted = b.uart.accepted ∧ b.uart.accepted = p.uart.accepted ++ bytesOf s

/-- The accesses of `write_str` when it has written the first so many bytes. -/
def after (bs : List UInt8) (i : ℕ) (h : List Access) : List Access :=
  h ++ (bs.take i).map .outb

variable {σ}

/-! ## `write_char`

It returns, and its byte has been accepted.  This is the side that always works. -/

/-- The loop ends with a transmitter that is empty, and has not written anything. -/
theorem spin_spec {n : ℕ} {p p' : Serial} (hp : p.spin σ n = some p') :
    σ.takes p'.uart.history = true ∧ p'.uart.accepted = p.uart.accepted ∧
      p'.mutex = p.mutex := by
  induction n generalizing p with
  | zero => cases hp
  | succ n ih =>
      by_cases he : transmitEmptyBit (σ.lineStatus p.uart.history) = true
      · have hp' : p' = (p.isTransmitEmpty σ).2 := by
          simpa [spin, isTransmitEmpty, Uart.inb, he] using hp.symm
        subst hp'
        refine ⟨?_, rfl, rfl⟩
        have := σ.staysEmpty _ he
        simp [Schedule.takes, isTransmitEmpty, Uart.inb, this]
      · have hp' : (p.isTransmitEmpty σ).2.spin σ n = some p' := by
          simpa [spin, isTransmitEmpty, Uart.inb, he] using hp
        have h := ih hp'
        exact h

/-- The loop ends: after as many rounds as it takes the transmitter to become
empty. -/
theorem exists_spin (p : Serial) : ∃ n p', p.spin σ n = some p' := by
  obtain ⟨n, hn⟩ := σ.becomesEmpty p.uart.history
  induction n generalizing p with
  | zero =>
      refine ⟨1, (p.isTransmitEmpty σ).2, ?_⟩
      have hn' : transmitEmptyBit (σ.lineStatus p.uart.history) = true := by simpa using hn
      simp [spin, isTransmitEmpty, Uart.inb, hn']
  | succ n ih =>
      have hn' : transmitEmptyBit (σ.lineStatus
          ((p.isTransmitEmpty σ).2.uart.history ++ List.replicate n .inb)) = true := by
        simpa [isTransmitEmpty, Uart.inb, List.replicate_succ] using hn
      by_cases he : transmitEmptyBit (σ.lineStatus p.uart.history) = true
      · exact ⟨1, (p.isTransmitEmpty σ).2, by simp [spin, isTransmitEmpty, Uart.inb, he]⟩
      · obtain ⟨m, p', hp'⟩ := ih _ hn'
        refine ⟨m + 1, p', ?_⟩
        simpa [spin, isTransmitEmpty, Uart.inb, he] using hp'

/-- `write_char` gets its byte through. -/
theorem WritesChar.spec {c : Char} {p p' : Serial} (hw : WritesChar σ c p p') :
    p'.uart.accepted = p.uart.accepted ++ [asU8 c] ∧ p'.mutex = p.mutex := by
  obtain ⟨n, hw⟩ := hw
  simp only [writeCharWithin, lock, Option.bind_eq_bind, Option.bind_eq_some_iff] at hw
  obtain ⟨p₁, hl, p₂, hs, hw⟩ := hw
  split at hl
  · cases hl
  · cases hl
    cases hw
    obtain ⟨ht, ha, hm⟩ := spin_spec hs
    exact ⟨by simp [outb, Uart.outb, ht, ha], hm⟩

/-- It returns, since the transmitter becomes empty. -/
theorem exists_writesChar (c : Char) {p : Serial} (hm : p.mutex = false) :
    ∃ p', WritesChar σ c p p' := by
  obtain ⟨n, p', hp'⟩ := exists_spin (σ := σ) p
  exact ⟨p'.outb σ c, n, by simp [writeCharWithin, lock, hm, hp']⟩

/-- So do as many calls of it as there are characters. -/
theorem WritesChars.accepted {cs : List Char} {p p' : Serial} (hw : WritesChars σ cs p p') :
    p'.uart.accepted = p.uart.accepted ++ cs.map asU8 := by
  induction hw with
  | nil p => simp
  | cons hc _ ih => simp [ih, hc.spec.1]

/-- And so do they. -/
theorem exists_writesChars (cs : List Char) {p : Serial} (hm : p.mutex = false) :
    ∃ p', WritesChars σ cs p p' := by
  induction cs generalizing p with
  | nil => exact ⟨p, .nil p⟩
  | cons c cs ih =>
      obtain ⟨p₁, hp₁⟩ := exists_writesChar (σ := σ) c hm
      obtain ⟨p₂, hp₂⟩ := ih (hp₁.spec.2.trans hm)
      exact ⟨p₂, .cons hp₁ hp₂⟩

/-! ## `write_str`

It always returns, and has written all of its bytes.  How many of them have been
accepted is for the UART to say. -/

/-- A byte is accepted if the UART takes it now. -/
@[simp] theorem accepted_outb (c : Char) (p : Serial) :
    (p.outb σ c).uart.accepted =
      if σ.takes p.uart.history then p.uart.accepted ++ [asU8 c] else p.uart.accepted := rfl

/-- It is part of the history either way. -/
@[simp] theorem history_outb (c : Char) (p : Serial) :
    (p.outb σ c).uart.history = p.uart.history ++ [.outb (asU8 c)] := rfl

/-- The loop of `write_str`. -/
theorem writeStr_eq (s : String) {p : Serial} (hm : p.mutex = false) :
    p.writeStr σ s = some (s.toList.foldl (fun p c => p.outb σ c) p) := by
  simp [writeStr, lock, hm]

/-- The UART does not accept more bytes than are written. -/
theorem length_accepted_foldl_le (cs : List Char) (p : Serial) :
    (cs.foldl (fun p c => p.outb σ c) p).uart.accepted.length ≤
      p.uart.accepted.length + cs.length := by
  induction cs generalizing p with
  | nil => simp
  | cons c cs ih =>
      have hc : (p.outb σ c).uart.accepted.length ≤ p.uart.accepted.length + 1 := by
        rw [accepted_outb]
        split <;> simp
      have := ih (p.outb σ c)
      rw [List.foldl_cons, List.length_cons]
      omega

/-- Nothing is lost of what `write_str` writes if and only if the UART takes every
byte right after the one before it. -/
theorem accepted_foldl_iff (cs : List Char) (p : Serial) :
    (cs.foldl (fun p c => p.outb σ c) p).uart.accepted = p.uart.accepted ++ cs.map asU8 ↔
      ∀ i < (cs.map asU8).length, σ.takes (after (cs.map asU8) i p.uart.history) = true := by
  induction cs generalizing p with
  | nil => simp
  | cons c cs ih =>
      rw [List.map_cons, List.length_cons, Nat.forall_lt_succ_left', List.foldl_cons]
      by_cases ht : σ.takes p.uart.history = true
      · have hrest := ih (p.outb σ c)
        simp only [accepted_outb, history_outb, ht, if_true, List.append_assoc,
          List.singleton_append] at hrest
        rw [hrest]
        simp [after, ht]
      · constructor
        · intro h
          -- the first byte is lost, and what is left is too short
          have hlen := length_accepted_foldl_le (σ := σ) cs (p.outb σ c)
          rw [h, accepted_outb, if_neg ht] at hlen
          rw [List.length_append, List.length_cons, List.length_map] at hlen
          omega
        · rintro ⟨h₀, -⟩
          exact absurd (by simpa [after] using h₀) ht

/-! ## The two paths -/

/-- A UART without a buffer: its transmitter is empty when the last `k` accesses have
been polls, and a byte that comes earlier is discarded. -/
def unbuffered (k : ℕ) : Schedule where
  lineStatus h := if (h.reverse.take k).all (· == .inb) then 0x60 else 0
  keeps _ := false
  becomesEmpty h := by
    refine ⟨k, ?_⟩
    have hk : ((h ++ List.replicate k Access.inb).reverse.take k).all (· == .inb) = true := by
      simp
    rw [if_pos hk]
    decide
  staysEmpty h he := by
    have hh : (h.reverse.take k).all (· == .inb) = true := by
      by_contra hne
      rw [if_neg hne] at he
      exact absurd he (by decide)
    have hk : ((h ++ [Access.inb]).reverse.take k).all (· == .inb) = true := by
      cases k with
      | zero => rfl
      | succ k =>
          rw [List.all_eq_true] at hh ⊢
          intro a ha
          rw [List.reverse_append, List.reverse_singleton, List.singleton_append,
            List.take_succ_cons, List.mem_cons] at ha
          rcases ha with rfl | ha
          · rfl
          · exact hh a (List.take_subset_take_left _ (Nat.le_succ k) ha)
    rw [if_pos hk]
    decide

/-- **`write_str` and `write_char` agree on what reaches the line exactly if the
transmitter takes the bytes of the string back to back**: when `write_str` has
written the first so many of them, the transmitter is empty, or it keeps the next
one even so.

The condition is on the UART and the history, and not on what `write_str` does: it
is asked of every byte with those in front of it written and nothing polled in
between. -/
theorem write_str_agrees_iff (s : String) {p : Serial} (hm : p.mutex = false) :
    Agrees σ s p ↔
      ∀ i < (bytesOf s).length, σ.takes (after (bytesOf s) i p.uart.history) = true := by
  rw [bytesOf, ← accepted_foldl_iff]
  constructor
  · rintro ⟨a, ha, ⟨b, hb⟩, hall⟩
    rw [writeStr_eq s hm, Option.some.injEq] at ha
    obtain ⟨hab, hbs⟩ := hall b hb
    rw [ha, hab, hbs]
    rfl
  · intro h
    refine ⟨_, writeStr_eq s hm, exists_writesChars s.toList hm, ?_⟩
    intro b hb
    rw [h, hb.accepted]
    exact ⟨rfl, rfl⟩

/-- A transmitter that is always empty. -/
theorem write_str_agrees_iff_instance :
    Agrees (unbuffered 0) "ab" ⟨false, ⟨[], []⟩⟩ :=
  (write_str_agrees_iff "ab" rfl).mpr (by decide)

/-- A transmitter that is busy until it has been polled three times: the second byte
is lost. -/
theorem write_str_loses_a_byte : ¬ Agrees (unbuffered 3) "ab" ⟨false, ⟨[], []⟩⟩ := by
  rintro ⟨a, ha, ⟨b, hb⟩, hall⟩
  have hloses : a.uart.accepted = [97] := by
    rw [writeStr_eq "ab" rfl, Option.some.injEq] at ha
    rw [← ha]
    decide
  have hwhole : a.uart.accepted = [97, 98] := (hall b hb).1.trans (hall b hb).2
  rw [hloses] at hwhole
  exact absurd hwhole (by decide)

end Serial

end ParaOS.Paraos
