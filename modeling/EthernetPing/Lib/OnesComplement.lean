import EthernetPing.Lib.Bytes
import Mathlib.Data.Nat.Digits.Lemmas

/-!
# One's complement sums

A one's complement sum of 16-bit words is a residue modulo 65535, with a zero of its own for
the sum of nothing but zeros. Carries that are added at the low end do not change it, and
swapping the bytes of a word multiplies by 256. As 256 squared is 1, the sum of the words of a
byte string is the number that the string writes to the base of 256.
-/

namespace EthernetPing

/-- Two numbers with the same one's complement sum. -/
def SameSum (a b : ℕ) : Prop := a % 65535 = b % 65535 ∧ (a = 0 ↔ b = 0)

namespace SameSum

variable {a b c d k : ℕ}

theorem refl (a : ℕ) : SameSum a a := ⟨rfl, Iff.rfl⟩

theorem symm (h : SameSum a b) : SameSum b a := ⟨h.1.symm, h.2.symm⟩

theorem trans (h : SameSum a b) (h' : SameSum b c) : SameSum a c :=
  ⟨h.1.trans h'.1, h.2.trans h'.2⟩

theorem add (h : SameSum a b) (h' : SameSum c d) : SameSum (a + c) (b + d) := by
  obtain ⟨hmod, hzero⟩ := h
  obtain ⟨hmod', hzero'⟩ := h'
  exact ⟨by omega, by omega⟩

theorem mul (k : ℕ) (h : SameSum a b) : SameSum (k * a) (k * b) := by
  refine ⟨Nat.ModEq.mul_left k h.1, ?_⟩
  rw [Nat.mul_eq_zero, Nat.mul_eq_zero, h.2]

theorem carry (a : ℕ) : SameSum (a / 65536 + a % 65536) a := ⟨by omega, by omega⟩

theorem double (a : ℕ) : SameSum (256 * (256 * a)) a := ⟨by omega, by omega⟩

theorem swap (ha : a < 65536) : SameSum (a % 256 * 256 + a / 256) (256 * a) :=
  ⟨by omega, by omega⟩

theorem eq (h : SameSum a b) (ha : a < 65536) (hb : b < 65536) : a = b := by
  obtain ⟨hmod, hzero⟩ := h
  omega

theorem pow_even (h : k % 2 = 0) (a : ℕ) : SameSum (256 ^ k * a) a := by
  obtain ⟨m, rfl⟩ := Nat.dvd_of_mod_eq_zero h
  induction m with
  | zero => rw [Nat.mul_zero, Nat.pow_zero, Nat.one_mul]; exact refl a
  | succ m ih =>
    have hpow : 256 ^ (2 * (m + 1)) * a = 256 * (256 * (256 ^ (2 * m) * a)) := by ring
    rw [hpow]
    exact (double _).trans (ih (Nat.mul_mod_right 2 m))

theorem pow_odd (h : k % 2 = 1) (a : ℕ) : SameSum (256 ^ k * a) (256 * a) := by
  obtain ⟨m, rfl⟩ : ∃ m, k = m + 1 := ⟨k - 1, by omega⟩
  rw [Nat.pow_succ, Nat.mul_assoc]
  exact pow_even (by omega) _

end SameSum

section Octets

variable {xs ys : List UInt8} {lo hi : UInt8} {n : ℕ}

/-- The number that a byte string writes, low byte first. -/
def octets (bs : List UInt8) : ℕ := Nat.ofDigits 256 (bs.map UInt8.toNat)

@[simp] theorem octets_nil : octets [] = 0 := rfl

theorem octets_cons (b : UInt8) (bs : List UInt8) : octets (b :: bs) = b.toNat + 256 * octets bs :=
  Nat.ofDigits_cons

theorem octets_append (xs ys : List UInt8) :
    octets (xs ++ ys) = octets xs + 256 ^ xs.length * octets ys := by
  rw [octets, List.map_append, Nat.ofDigits_append, List.length_map, octets, octets]

theorem octets_pair (lo hi : UInt8) : octets [lo, hi] = (ofLe16 lo hi).toNat := by
  rw [octets_cons, octets_cons, octets_nil, toNat_ofLe16, Nat.mul_zero, Nat.add_zero]

theorem octets_le16 (w : UInt16) : octets (le16 w) = w.toNat := by
  rw [le16, octets_pair, ofLe16_split]

/-- A word counts as itself behind an even number of bytes. -/
theorem octets_even (h : xs.length % 2 = 0) (ys : List UInt8) :
    SameSum (octets (xs ++ ys)) (octets xs + octets ys) := by
  rw [octets_append]
  exact (SameSum.refl _).add (SameSum.pow_even h _)

/-- The one's complement sum of the words of a byte string. -/
def onesSum (bs : List UInt8) : UInt16 :=
  if octets bs = 0 then 0 else UInt16.ofNat ((octets bs - 1) % 65535 + 1)

theorem onesSum_sameSum (bs : List UInt8) : SameSum (onesSum bs).toNat (octets bs) := by
  rw [onesSum]
  split_ifs with h
  · rw [h]
    exact SameSum.refl 0
  · rw [UInt16.toNat_ofNat', Nat.mod_eq_of_lt (by omega)]
    exact ⟨by omega, by omega⟩

theorem eq_onesSum {w : UInt16} {bs : List UInt8} (h : SameSum w.toNat (octets bs)) :
    w = onesSum bs :=
  UInt16.toNat_inj.mp
    ((h.trans (onesSum_sameSum bs).symm).eq w.toNat_lt (onesSum bs).toNat_lt)

/-- A sum of all ones is what a right checksum leaves. -/
theorem onesSum_eq_iff (bs : List UInt8) :
    ~~~ onesSum bs = 0 ↔ octets bs % 65535 = 0 ∧ octets bs ≠ 0 := by
  have hsum := onesSum_sameSum bs
  have hlt := (onesSum bs).toNat_lt
  obtain ⟨hmod, hzero⟩ := hsum
  have hnot : ~~~ onesSum bs = 0 ↔ (onesSum bs).toNat = 65535 := by
    rw [← UInt16.toNat_inj, UInt16.toNat_not, UInt16.toNat_zero, UInt16.size]
    omega
  rw [hnot]
  omega

/-- A word in the middle, at an even place. -/
theorem octets_word (h : xs.length % 2 = 0) (w : UInt16) (ys : List UInt8) :
    SameSum (octets (xs ++ le16 w ++ ys)) (octets xs + w.toNat + octets ys) := by
  have hlen : (xs ++ le16 w).length % 2 = 0 := by
    rw [List.length_append, length_le16]
    omega
  have hword := octets_even h (le16 w)
  rw [octets_le16] at hword
  exact (octets_even hlen ys).trans (hword.add (SameSum.refl _))

/-- The complement of the sum, filled in at an even place that was zero, makes the sum right. -/
theorem onesSum_filled (h : xs.length % 2 = 0) {w : UInt16}
    (hw : w = ~~~ onesSum (xs ++ le16 0 ++ ys)) : ~~~ onesSum (xs ++ le16 w ++ ys) = 0 := by
  obtain ⟨hmod, hzero⟩ := (onesSum_sameSum _).trans (octets_word h 0 ys)
  obtain ⟨hmod', hzero'⟩ := octets_word h w ys
  have hw' : w.toNat = 65535 - (onesSum (xs ++ le16 0 ++ ys)).toNat := by
    rw [hw, UInt16.toNat_not, UInt16.size]
  have hlt := (onesSum (xs ++ le16 0 ++ ys)).toNat_lt
  rw [UInt16.toNat_zero] at hmod hzero
  rw [onesSum_eq_iff]
  constructor <;> omega

/-- A word at an even place is exchanged for another one unnoticed only if the two are the two
zeros of one's complement. -/
theorem onesSum_exchanged (h : xs.length % 2 = 0) {v w : UInt16}
    (hv : ~~~ onesSum (xs ++ le16 v ++ ys) = 0) :
    ~~~ onesSum (xs ++ le16 w ++ ys) = 0 ↔
      v = w ∨ (v = 0 ∧ w = 0xffff) ∨
        (v = 0xffff ∧ w = 0 ∧ octets (xs ++ le16 w ++ ys) ≠ 0) := by
  obtain ⟨hmod, hzero⟩ := octets_word h v ys
  obtain ⟨hmod', hzero'⟩ := octets_word h w ys
  have hvlt := v.toNat_lt
  have hwlt := w.toNat_lt
  have hones : (0xffff : UInt16).toNat = 65535 := rfl
  rw [onesSum_eq_iff] at hv ⊢
  simp only [← UInt16.toNat_inj, UInt16.toNat_zero, hones]
  omega

end Octets

end EthernetPing
