/-
Byte images: codecs, the four bytes of an `int` on a little-endian machine, the
order in which `memcmp` puts byte strings, and codes that are put together
from the codes of their parts.
-/
import Mathlib.Data.BitVec
import Mathlib.Data.List.Lex

universe u v

/-- A codec whose `unpack` inverts its `pack`. -/
structure Codec (α : Type u) (β : Type v) where
  pack : α → β
  unpack : β → Option α
  unpack_pack : ∀ a, unpack (pack a) = some a

instance uint8LinearOrder : LinearOrder UInt8 where
  le_refl := UInt8.le_refl
  le_trans _ _ _ := UInt8.le_trans
  le_antisymm _ _ := UInt8.le_antisymm
  le_total := UInt8.le_total
  lt_iff_le_not_ge a b := by
    simp only [UInt8.lt_iff_toNat_lt, UInt8.le_iff_toNat_le]
    omega
  toDecidableLE := inferInstance

namespace Bytes

/-- The bytes of an `int`, the lowest one first. -/
def intBytes (v : BitVec 32) : List UInt8 :=
  [0, 1, 2, 3].map fun i => UInt8.ofNat (v.toNat / 256 ^ i)

/-- Read an `int` from its bytes. -/
def readInt (bytes : List UInt8) : BitVec 32 :=
  BitVec.ofNat 32 (bytes.foldr (fun byte high => byte.toNat + 256 * high) 0)

/-- The bytes behind the four are not read. -/
theorem readInt_append (v : BitVec 32) (rest : List UInt8) :
    readInt (intBytes v ++ rest) = v := by
  apply BitVec.eq_of_toNat_eq
  have hlt := v.isLt
  simp only [readInt, intBytes, List.map_cons, List.map_nil, List.cons_append, List.nil_append,
    List.foldr_cons, UInt8.toNat_ofNat', BitVec.toNat_ofNat]
  omega

@[simp]
theorem readInt_intBytes (v : BitVec 32) : readInt (intBytes v) = v := by
  rw [← List.append_nil (intBytes v)]
  exact readInt_append v []

/-- The bytes of an `int` on a machine of that byte order. -/
def wordBytes (bigendian : Bool) (v : BitVec 32) : List UInt8 :=
  if bigendian then (intBytes v).reverse else intBytes v

/-- The `int` that four bytes are on a machine of that byte order. -/
def readWord (bigendian : Bool) (word : List UInt8) : BitVec 32 :=
  readInt (if bigendian then word.reverse else word)

@[simp]
theorem wordBytes_length (bigendian : Bool) (v : BitVec 32) :
    (wordBytes bigendian v).length = 4 := by
  cases bigendian <;> rfl

@[simp]
theorem readWord_wordBytes (bigendian : Bool) (v : BitVec 32) :
    readWord bigendian (wordBytes bigendian v) = v := by
  cases bigendian with
  | false => exact readInt_intBytes v
  | true => exact (congrArg readInt (List.reverse_reverse _)).trans (readInt_intBytes v)

theorem reverse_wordBytes (bigendian : Bool) (v : BitVec 32) :
    (wordBytes bigendian v).reverse = wordBytes (!bigendian) v := by
  cases bigendian with
  | false => rfl
  | true => exact List.reverse_reverse _

/-- The lowest bytes decide first. -/
theorem intBytes_lt_of_low {v w : BitVec 32} (h : v.toNat % 256 < w.toNat % 256) :
    intBytes v < intBytes w := by
  refine List.cons_lt_cons_iff.mpr (Or.inl ?_)
  rw [UInt8.lt_iff_toNat_lt]
  simpa [UInt8.toNat_ofNat'] using h

/-- An int below 256 comes before its successors below 256. -/
theorem intBytes_lt {n m : Nat} (hlt : n < m) (hm : m < 256) :
    intBytes (BitVec.ofNat 32 n) < intBytes (BitVec.ofNat 32 m) := by
  apply intBytes_lt_of_low
  simp only [BitVec.toNat_ofNat]
  omega

end Bytes

/-- A byte code whose words are recognised at the head of any text. -/
structure Code (α : Type u) where
  write : α → List UInt8
  read : List UInt8 → Option (α × List UInt8)
  read_write : ∀ a rest, read (write a ++ rest) = some (a, rest)

namespace Code

variable {α : Type u} {β : Type v}

/-- The codec of whole words. -/
def toCodec (c : Code α) : Codec α (List UInt8) where
  pack := c.write
  unpack image :=
    match c.read image with
    | some (a, []) => some a
    | _ => none
  unpack_pack a := by
    have hread := c.read_write a []
    rw [List.append_nil] at hread
    rw [hread]

/-- Two words, one after the other. -/
def prod (c : Code α) (d : Code β) : Code (α × β) where
  write p := c.write p.1 ++ d.write p.2
  read text := (c.read text).bind fun first =>
    (d.read first.2).map fun second => ((first.1, second.1), second.2)
  read_write p rest := by
    rw [List.append_assoc, c.read_write, Option.bind_some, d.read_write, Option.map_some]

/-- Write `g b` for `b`. -/
def imap (c : Code α) (f : α → β) (g : β → α) (h : ∀ b, f (g b) = b) : Code β where
  write b := c.write (g b)
  read text := (c.read text).map fun word => (f word.1, word.2)
  read_write b rest := by
    rw [c.read_write, Option.map_some, h]

/-- Digits to the base 128, all but the last one marked. -/
def writeNat : Nat → Nat → List UInt8
  | 0, _ => [0]
  | fuel + 1, n =>
      if n < 128 then [UInt8.ofNat n]
      else UInt8.ofNat (128 + n % 128) :: writeNat fuel (n / 128)

def readNat : List UInt8 → Option (Nat × List UInt8)
  | [] => none
  | byte :: rest =>
      if byte.toNat < 128 then some (byte.toNat, rest)
      else (readNat rest).map fun word => (byte.toNat - 128 + 128 * word.1, word.2)

theorem readNat_writeNat {fuel n : Nat} (h : n ≤ fuel) (rest : List UInt8) :
    readNat (writeNat fuel n ++ rest) = some (n, rest) := by
  induction fuel generalizing n with
  | zero =>
      have hzero : n = 0 := Nat.le_zero.mp h
      simp [writeNat, readNat, hzero]
  | succ fuel ih =>
      rw [writeNat]
      by_cases hlast : n < 128
      · have hbyte : (UInt8.ofNat n).toNat = n := by
          rw [UInt8.toNat_ofNat']
          omega
        rw [if_pos hlast, List.cons_append, List.nil_append, readNat, hbyte, if_pos hlast]
      · have hbyte : (UInt8.ofNat (128 + n % 128)).toNat = 128 + n % 128 := by
          rw [UInt8.toNat_ofNat']
          omega
        rw [if_neg hlast, List.cons_append, readNat, hbyte, if_neg (by omega),
          ih (by omega), Option.map_some]
        congr 2
        omega

/-- Natural numbers. -/
def nat : Code Nat where
  write n := writeNat n n
  read := readNat
  read_write _ rest := readNat_writeNat (le_refl _) rest

/-- Integers, as their positive and their negative part. -/
def int : Code Int :=
  (nat.prod nat).imap (fun p => (p.1 : Int) - p.2) (fun x => (x.toNat, (-x).toNat))
    fun x => Int.toNat_sub_toNat_neg x

/-- Unsigned 32-bit numbers. -/
def uint32 : Code UInt32 :=
  nat.imap UInt32.ofNat UInt32.toNat fun _ => UInt32.ofNat_toNat

/-- Byte strings, behind their length. -/
def bytes : Code (List UInt8) where
  write bs := nat.write bs.length ++ bs
  read text := (nat.read text).map fun word => (word.2.take word.1, word.2.drop word.1)
  read_write bs rest := by
    rw [List.append_assoc, nat.read_write, Option.map_some, List.take_left, List.drop_left]

end Code
