import ParaOS.Machine.Memory

/-!
# Blocks of bytes in a memory

`writeBytes` puts a list of bytes at consecutive addresses; `Holds` says that a memory has
such a list at an address.  What is written is held, and it is held until something is
written to one of its addresses.

### What is load-bearing

`Holds.store` asks that a store stays on one side of the whole block.  It is used
where a stack lies beside binaries: that neither reaches into the other has to be
asked of their places, and does not come from the code.
-/

namespace ParaOS.Machine.Mem

variable {m m' : Mem} {a b : ℕ} {bytes bytes' : List UInt8}

/-- Write bytes from an address upwards.  Addresses behind the last of them keep
what they had, since there is no entry of the list for them. -/
def writeBytes (m : Mem) (a : ℕ) (bytes : List UInt8) : Mem :=
  fun x => if a ≤ x then (bytes[x - a]?.map UInt8.toBitVec).getD (m x) else m x

/-- The bytes from an address upwards are these.  Nothing is said about the
addresses around them. -/
def Holds (m : Mem) (a : ℕ) (bytes : List UInt8) : Prop :=
  ∀ i b, bytes[i]? = some b → m (a + i) = b.toBitVec

/-- What was written is held. -/
theorem holds_writeBytes (m : Mem) (a : ℕ) (bytes : List UInt8) :
    (m.writeBytes a bytes).Holds a bytes := by
  intro i b h
  rw [writeBytes, if_pos (Nat.le_add_right a i), Nat.add_sub_cancel_left, h]
  rfl

/-- Writing does not reach below its address, -/
theorem writeBytes_of_lt {x : ℕ} (h : x < a) : m.writeBytes a bytes x = m x :=
  if_neg (Nat.not_le_of_lt h)

/-- nor behind its last byte. -/
theorem writeBytes_of_ge {x : ℕ} (h : a + bytes.length ≤ x) : m.writeBytes a bytes x = m x := by
  rw [writeBytes, if_pos (by omega), List.getElem?_eq_none (by omega)]
  rfl

/-- **What is held is not disturbed from outside**: writing a block that lies on one
side of the first leaves the first in place.  So blocks may be placed one after the
other, in any order. -/
theorem Holds.writeBytes (h : m.Holds a bytes)
    (hdisjoint : a + bytes.length ≤ b ∨ b + bytes'.length ≤ a) :
    (m.writeBytes b bytes').Holds a bytes := by
  intro i x hx
  have hi : i < bytes.length := (List.getElem?_eq_some_iff.mp hx).1
  rw [← h i x hx]
  rcases hdisjoint with hlt | hle
  · exact writeBytes_of_lt (by omega)
  · exact writeBytes_of_ge (by omega)

/-- A word stored above or below them is not one of them: its eight bytes have to
miss the block on one side. -/
theorem Holds.store {v : Word} (h : m.Holds a bytes)
    (hdisjoint : a + bytes.length ≤ b ∨ b + 8 ≤ a) : (m.store b v).Holds a bytes := by
  intro i x hx
  have hi : i < bytes.length := (List.getElem?_eq_some_iff.mp hx).1
  rw [← h i x hx]
  rcases hdisjoint with hlt | hle
  · exact store_of_lt (by omega)
  · exact store_of_ge (by omega)

end ParaOS.Machine.Mem
