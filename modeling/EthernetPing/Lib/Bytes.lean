import Mathlib.Data.Fintype.Basic
import Mathlib.Tactic

/-!
# Bytes and 16-bit words

Little-endian splitting and assembly of 16-bit words, the case analysis over all values
of a byte, and pieces of byte streams.
-/

namespace EthernetPing

/-- A property of all bytes is a property of the 256 numbers below `2^8`. -/
theorem forall_byte_of_fin {p : UInt8 → Prop} (h : ∀ x : Fin 256, p (UInt8.ofFin x)) (b : UInt8) :
    p b :=
  h b.toFin

theorem or_and_byte (x y m : UInt8) : (x ||| y) &&& m = (x &&& m) ||| (y &&& m) := by
  rw [← UInt8.toBitVec_inj]
  simp only [UInt8.toBitVec_and, UInt8.toBitVec_or]
  rw [BitVec.and_comm, BitVec.and_or_distrib_left, BitVec.and_comm, BitVec.and_comm m.toBitVec]

theorem and_byte_of_mask {x y m : UInt8} (k : UInt8) (h : y &&& m = x &&& m) (hk : m &&& k = k) :
    y &&& k = x &&& k := by
  rw [← hk, ← UInt8.and_assoc, ← UInt8.and_assoc, h]

theorem andNot_and_byte {m k : UInt8} (x : UInt8) (h : ~~~m &&& k = k) :
    (x &&& ~~~m) &&& k = x &&& k := by
  rw [UInt8.and_assoc, h]

theorem or_and_byte_of_disjoint {m k : UInt8} (x : UInt8) (h : m &&& k = 0) :
    (x ||| m) &&& k = x &&& k := by
  rw [or_and_byte, h, UInt8.or_zero]

/-- The word with the given low and high byte. -/
def ofLe16 (lo hi : UInt8) : UInt16 := lo.toUInt16 ||| (hi.toUInt16 <<< 8)

/-- Low byte first. -/
def le16 (x : UInt16) : List UInt8 := [x.toUInt8, (x >>> 8).toUInt8]

@[simp] theorem length_le16 (x : UInt16) : (le16 x).length = 2 := rfl

theorem toNat_ofLe16 (lo hi : UInt8) : (ofLe16 lo hi).toNat = lo.toNat + 256 * hi.toNat := by
  have hlo : lo.toNat < 2 ^ 8 := lo.toNat_lt
  have hhi := hi.toNat_lt
  have hshift : hi.toNat <<< 8 % 65536 = hi.toNat <<< 8 := by
    rw [Nat.shiftLeft_eq]
    omega
  rw [ofLe16, UInt16.toNat_or, UInt16.toNat_shiftLeft, Nat.or_comm]
  simp only [UInt8.toNat_toUInt16, UInt16.toNat_ofNat, Nat.reduceMod, Nat.reducePow, hshift]
  rw [← Nat.shiftLeft_add_eq_or_of_lt hlo, Nat.shiftLeft_eq]
  omega

theorem toNat_split (x : UInt16) : x.toUInt8.toNat + 256 * (x >>> 8).toUInt8.toNat = x.toNat := by
  have := x.toNat_lt
  simp only [UInt16.toNat_toUInt8, UInt16.toNat_shiftRight, UInt16.toNat_ofNat,
    Nat.shiftRight_eq_div_pow, Nat.reduceMod, Nat.reducePow]
  omega

theorem toUInt8_ofLe16 (lo hi : UInt8) : (ofLe16 lo hi).toUInt8 = lo := by
  have hlo := lo.toNat_lt
  rw [← UInt8.toNat_inj, UInt16.toNat_toUInt8, toNat_ofLe16]
  omega

theorem shiftRight_ofLe16 (lo hi : UInt8) : (ofLe16 lo hi >>> 8).toUInt8 = hi := by
  have hlo := lo.toNat_lt
  have hhi := hi.toNat_lt
  rw [← UInt8.toNat_inj, UInt16.toNat_toUInt8, UInt16.toNat_shiftRight, toNat_ofLe16]
  simp only [UInt16.toNat_ofNat, Nat.shiftRight_eq_div_pow, Nat.reduceMod, Nat.reducePow]
  omega

@[simp] theorem ofLe16_split (x : UInt16) : ofLe16 x.toUInt8 (x >>> 8).toUInt8 = x := by
  rw [← UInt16.toNat_inj, toNat_ofLe16, toNat_split]

theorem ofLe16_eq_iff {lo hi : UInt8} {x : UInt16} :
    ofLe16 lo hi = x ↔ lo = x.toUInt8 ∧ hi = (x >>> 8).toUInt8 := by
  constructor
  · rintro rfl
    exact ⟨(toUInt8_ofLe16 lo hi).symm, (shiftRight_ofLe16 lo hi).symm⟩
  · rintro ⟨rfl, rfl⟩
    exact ofLe16_split x

section Piece

variable {α : Type*} (l : List α) {a b n : ℕ}

/-- The `n` elements from position `a` on, as far as there are any. -/
def piece (a n : ℕ) : List α := (l.drop a).take n

@[simp] theorem piece_zero (a : ℕ) : piece l a 0 = [] := List.take_zero

@[simp] theorem length_piece (h : a + n ≤ l.length) : (piece l a n).length = n := by
  rw [piece, List.length_take, List.length_drop]
  omega

theorem take_piece (h : b ≤ n) : (piece l a n).take b = piece l a b := by
  rw [piece, piece, List.take_take, Nat.min_eq_left h]

theorem drop_piece (a b n : ℕ) : (piece l a n).drop b = piece l (a + b) (n - b) := by
  rw [piece, piece, List.drop_take, List.drop_drop]

theorem piece_append (a b n : ℕ) : piece l a b ++ piece l (a + b) n = piece l a (b + n) := by
  rw [piece, piece, piece, ← List.drop_drop, List.take_add]

theorem take_append_piece (a n : ℕ) : l.take a ++ piece l a n = l.take (a + n) :=
  (List.take_add ..).symm

end Piece

end EthernetPing
