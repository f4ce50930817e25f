/-
Memory with a byte at each address: what a block of it reads, and what writing
a block changes.
-/
import Mathlib.Data.List.GetD

namespace ByteMemory

/-- The block of that length at the address. -/
def readBytes (mem : Nat → UInt8) (addr n : Nat) : List UInt8 :=
  (List.range n).map fun i => mem (addr + i)

/-- Put a block at the address. -/
def writeBytes (mem : Nat → UInt8) (addr : Nat) (block : List UInt8) : Nat → UInt8 :=
  fun x => if addr ≤ x ∧ x < addr + block.length then block.getD (x - addr) 0 else mem x

variable {mem mem' : Nat → UInt8} {addr addr' n : Nat}

@[simp]
theorem readBytes_length : (readBytes mem addr n).length = n := by
  rw [readBytes, List.length_map, List.length_range]

theorem readBytes_getD {i : Nat} (hi : i < n) : (readBytes mem addr n).getD i 0 = mem (addr + i) := by
  rw [List.getD_eq_getElem _ _ (by rwa [readBytes_length])]
  simp [readBytes]

theorem readBytes_congr (h : ∀ i < n, mem (addr + i) = mem' (addr' + i)) :
    readBytes mem addr n = readBytes mem' addr' n := by
  apply List.map_congr_left
  intro i hi
  exact h i (List.mem_range.mp hi)

theorem writeBytes_of_not_mem {block : List UInt8} {x : Nat}
    (hx : ¬ (addr ≤ x ∧ x < addr + block.length)) : writeBytes mem addr block x = mem x :=
  if_neg hx

/-- A block that is copied from one place to another. -/
theorem writeBytes_readBytes (x : Nat) :
    writeBytes mem addr (readBytes mem' addr' n) x =
      if addr ≤ x ∧ x < addr + n then mem' (addr' + (x - addr)) else mem x := by
  rw [writeBytes, readBytes_length]
  split
  · exact readBytes_getD (by omega)
  · rfl

theorem readBytes_writeBytes (block : List UInt8) :
    readBytes (writeBytes mem addr block) addr block.length = block := by
  apply List.ext_getElem readBytes_length
  intro i hi _
  have hlt : i < block.length := by rwa [readBytes_length] at hi
  simp only [readBytes, List.getElem_map, List.getElem_range]
  rw [writeBytes, if_pos (by omega), Nat.add_sub_cancel_left, List.getD_eq_getElem _ _ hlt]

/-- A block that is not written to. -/
theorem readBytes_writeBytes_of_disjoint {block : List UInt8}
    (h : addr + n ≤ addr' ∨ addr' + block.length ≤ addr) :
    readBytes (writeBytes mem addr' block) addr n = readBytes mem addr n := by
  apply readBytes_congr
  intro i hi
  exact writeBytes_of_not_mem (by omega)

end ByteMemory
