import Mathlib.Algebra.Ring.Int.Defs
import Mathlib.Algebra.Ring.Nat
import Mathlib.Data.List.Basic
import Mathlib.Data.Nat.Basic
import Mathlib.Tactic.Common

/-!
# Byte memory with little-endian words

A memory is a function from addresses to bytes.  The machines of this
development move 64-bit words through it, so the two operations are `load` and
`store` of eight consecutive bytes, least significant byte first.

The facts a frame argument needs are three: a load at the address just stored
returns the stored word (`load_store_self`), a load eight or more bytes away is
not disturbed (`load_store_of_disjoint`), and a load only reads its own eight
bytes (`load_congr`).  `WordsAt` lists the words found at consecutive slots
from an address upwards; it is how a stack is read off a memory.

Addresses are natural numbers: the bound `2 ^ 64` belongs to the machine that
computes them, not to the memory.

### What is not asked

No address is out of bounds and no access faults, so that the facts below need no
side condition.  What an access past the last address does is for the machine to say
(`ParaOS.X86.Instr` stops there), and what guards a memory has are for those who
place things in it.

Disjointness is written as a disjunction of two inequalities everywhere, `a + 8 ≤ b
∨ b + 8 ≤ a`, so that `omega` closes it from what is known of the addresses.
-/

namespace ParaOS.Machine

/-- A machine word.  It is a `BitVec`, so that addition and subtraction wrap around
as those of the processor do. -/
abbrev Word := BitVec 64

/-- A memory cell. -/
abbrev Byte := BitVec 8

/-- Byte-addressed memory. -/
def Mem := ℕ → Byte

namespace Mem

/-- Byte `i` of a word, least significant first. -/
def byteOf (v : Word) (i : ℕ) : Byte := v.extractLsb' (8 * i) 8

/-- The word whose least significant byte is at `a`: eight bytes, the highest
address first, since `++` on bit vectors puts its left side at the top. -/
def load (m : Mem) (a : ℕ) : Word :=
  m (a + 7) ++ m (a + 6) ++ m (a + 5) ++ m (a + 4) ++ m (a + 3) ++ m (a + 2) ++
    m (a + 1) ++ m a

/-- Write the eight bytes of `v` from `a` upwards.  Every other address keeps what
it had. -/
def store (m : Mem) (a : ℕ) (v : Word) : Mem :=
  fun x => if a ≤ x ∧ x < a + 8 then byteOf v (x - a) else m x

/-- A store is invisible below its address. -/
theorem store_of_lt {m : Mem} {a x : ℕ} {v : Word} (h : x < a) : m.store a v x = m x :=
  if_neg fun hx => by omega

/-- A store is invisible from its eighth byte on. -/
theorem store_of_ge {m : Mem} {a x : ℕ} {v : Word} (h : a + 8 ≤ x) :
    m.store a v x = m x :=
  if_neg fun hx => by omega

/-- The bytes a store writes. -/
theorem store_add {m : Mem} {a i : ℕ} {v : Word} (h : i < 8) :
    m.store a v (a + i) = byteOf v i := by
  rw [store, if_pos ⟨by omega, by omega⟩, Nat.add_sub_cancel_left]

/-- A word stored at the same place in two memories.  They need to agree outside
that place only, since what was in it is gone in both. -/
theorem store_congr {m m' : Mem} {a x : ℕ} {v : Word}
    (h : ¬ (a ≤ x ∧ x < a + 8) → m' x = m x) : m'.store a v x = m.store a v x := by
  by_cases hin : a ≤ x ∧ x < a + 8
  · rw [store, store, if_pos hin, if_pos hin]
  · rw [store, store, if_neg hin, if_neg hin, h hin]

/-- A load depends on its eight bytes only. -/
theorem load_congr {m m' : Mem} {a : ℕ} (h : ∀ x, a ≤ x → x < a + 8 → m x = m' x) :
    m.load a = m'.load a := by
  simp only [load]
  rw [h (a + 7) (by omega) (by omega), h (a + 6) (by omega) (by omega),
    h (a + 5) (by omega) (by omega), h (a + 4) (by omega) (by omega),
    h (a + 3) (by omega) (by omega), h (a + 2) (by omega) (by omega),
    h (a + 1) (by omega) (by omega), h a (by omega) (by omega)]

/-- Two neighbouring slices of a word are one slice.  This is what puts the bytes of
a word together two at a time in `append_byteOf`. -/
theorem extractLsb'_append_slice {w : ℕ} (v : BitVec w) (start low high : ℕ) :
    v.extractLsb' (start + low) high ++ v.extractLsb' start low =
      v.extractLsb' start (high + low) := by
  apply BitVec.eq_of_getLsbD_eq
  intro i hi
  rw [BitVec.getLsbD_append, BitVec.getLsbD_extractLsb', BitVec.getLsbD_extractLsb',
    BitVec.getLsbD_extractLsb']
  by_cases hlow : i < low
  · simp [hlow, hi]
  · rw [if_neg hlow, show start + low + (i - low) = start + i by omega]
    simp [show i - low < high by omega, hi]

/-- Eight bytes put together again are the word they came from. -/
theorem append_byteOf (v : Word) :
    byteOf v 7 ++ byteOf v 6 ++ byteOf v 5 ++ byteOf v 4 ++ byteOf v 3 ++ byteOf v 2 ++
      byteOf v 1 ++ byteOf v 0 = v := by
  simp only [byteOf]
  rw [extractLsb'_append_slice v 48 8 8, extractLsb'_append_slice v 40 8,
    extractLsb'_append_slice v 32 8, extractLsb'_append_slice v 24 8,
    extractLsb'_append_slice v 16 8, extractLsb'_append_slice v 8 8,
    extractLsb'_append_slice v 0 8]
  exact BitVec.extractLsb'_eq_self

/-- What was stored is what is loaded. -/
@[simp] theorem load_store_self (m : Mem) (a : ℕ) (v : Word) : (m.store a v).load a = v := by
  have h0 : m.store a v a = byteOf v 0 := store_add (i := 0) (by omega)
  simp only [load, h0, store_add (show 1 < 8 by omega), store_add (show 2 < 8 by omega),
    store_add (show 3 < 8 by omega), store_add (show 4 < 8 by omega),
    store_add (show 5 < 8 by omega), store_add (show 6 < 8 by omega),
    store_add (show 7 < 8 by omega)]
  exact append_byteOf v

/-- A store eight or more bytes away does not disturb a load.  Between these and
`load_store_self` lie the stores that overlap a load; the code the compiler emits
makes none that matter. -/
theorem load_store_of_disjoint {m : Mem} {a b : ℕ} {v : Word} (h : a + 8 ≤ b ∨ b + 8 ≤ a) :
    (m.store a v).load b = m.load b := by
  refine load_congr fun x hx hx' => ?_
  rcases h with h | h
  · exact store_of_ge (by omega)
  · exact store_of_lt (by omega)

/-! ### Words at consecutive slots

A stack of the machine is a list of words from `rsp` upwards, with its top first.
The lemmas here are those of a list: pushing is `cons`, and what is left alone by a
store is left alone as a whole. -/

/-- The words `ws` are found in consecutive slots from `a` upwards. -/
def WordsAt (m : Mem) : ℕ → List Word → Prop
  | _, [] => True
  | a, w :: ws => m.load a = w ∧ WordsAt m (a + 8) ws

@[simp] theorem wordsAt_nil (m : Mem) (a : ℕ) : m.WordsAt a [] := trivial

@[simp] theorem wordsAt_cons {m : Mem} {a : ℕ} {w : Word} {ws : List Word} :
    m.WordsAt a (w :: ws) ↔ m.load a = w ∧ m.WordsAt (a + 8) ws := Iff.rfl

/-- A stack read in two parts.  The second begins behind the words of the first,
eight bytes for each. -/
theorem wordsAt_append {m : Mem} {ws vs : List Word} {a : ℕ} :
    m.WordsAt a (ws ++ vs) ↔ m.WordsAt a ws ∧ m.WordsAt (a + 8 * ws.length) vs := by
  induction ws generalizing a with
  | nil => simp
  | cons w ws ih =>
      rw [List.cons_append, wordsAt_cons, wordsAt_cons, ih, and_assoc, List.length_cons,
        show a + 8 + 8 * ws.length = a + 8 * (ws.length + 1) by omega]

/-- A word list at an address is determined by its length. -/
theorem wordsAt_unique {m : Mem} {ws vs : List Word} {a : ℕ} (hw : m.WordsAt a ws)
    (hv : m.WordsAt a vs) (hlen : ws.length = vs.length) : ws = vs := by
  induction ws generalizing a vs with
  | nil => exact (List.length_eq_zero_iff.mp hlen.symm).symm
  | cons w ws ih =>
      cases vs with
      | nil => simp at hlen
      | cons v vs =>
          rw [wordsAt_cons] at hw hv
          rw [← hw.1, ← hv.1, ih hw.2 hv.2 (by simpa using hlen)]

/-- Reading a list of words only reads their own bytes.  Two memories that agree on
these hold the same list. -/
theorem WordsAt.congr {m m' : Mem} {ws : List Word} {a : ℕ} (h : m.WordsAt a ws)
    (heq : ∀ x, a ≤ x → x < a + 8 * ws.length → m x = m' x) : m'.WordsAt a ws := by
  induction ws generalizing a with
  | nil => trivial
  | cons w ws ih =>
      simp only [List.length_cons] at heq
      refine ⟨?_, ih h.2 fun x hx hx' => heq x (by omega) (by omega)⟩
      rw [← h.1]
      exact (load_congr fun x hx hx' => heq x hx (by omega)).symm

/-- A store outside the slots of a word list leaves the list in place. -/
theorem WordsAt.store {m : Mem} {ws : List Word} {a b : ℕ} {v : Word} (h : m.WordsAt a ws)
    (hb : b + 8 ≤ a ∨ a + 8 * ws.length ≤ b) : (m.store b v).WordsAt a ws := by
  refine h.congr fun x hx hx' => ?_
  rcases hb with hb | hb
  · exact (store_of_ge (by omega)).symm
  · exact (store_of_lt (by omega)).symm

end Mem

end ParaOS.Machine
