import Mathlib.Data.Nat.Bitwise
import Mathlib.Tactic

/-!
# Serial numbers

Sequence numbers live on a circle of 2^32 values. `a` is behind `b` if the way from
`b` to `a` is at least half the circle.
-/

namespace EthernetPing

def seqLt (a b : UInt32) : Bool := (a - b) &&& 0x80000000 != 0

def seqLeq (a b : UInt32) : Bool := !seqLt b a

def seqGt (a b : UInt32) : Bool := seqLt b a

def seqGeq (a b : UInt32) : Bool := seqLeq b a

def seqBetween (a b c : UInt32) : Bool := seqGeq a b && seqLeq a c

theorem seqLt_iff (a b : UInt32) : seqLt a b = true ↔ 2 ^ 31 ≤ (a - b).toNat := by
  have hlt := (a - b).toNat_lt
  have hbit : ((a - b) &&& 0x80000000).toNat = ((a - b).toNat.testBit 31).toNat * 2 ^ 31 := by
    rw [UInt32.toNat_and, show (0x80000000 : UInt32).toNat = 2 ^ 31 from rfl, Nat.and_two_pow]
  rw [seqLt, bne_iff_ne, ne_eq, ← UInt32.toNat_inj, hbit, UInt32.toNat_zero,
    Nat.testBit_eq_decide_div_mod_eq]
  simp
  omega

theorem seqLeq_iff (a b : UInt32) : seqLeq a b = true ↔ (b - a).toNat < 2 ^ 31 := by
  rw [seqLeq, Bool.not_eq_true', ← Bool.not_eq_true, seqLt_iff, not_le]

@[simp] theorem seqLeq_self (a : UInt32) : seqLeq a a = true := by
  rw [seqLeq_iff, UInt32.sub_self]
  decide

@[simp] theorem seqGeq_self (a : UInt32) : seqGeq a a = true := seqLeq_self a

@[simp] theorem seqLt_self (a : UInt32) : seqLt a a = false := by
  rw [← Bool.not_eq_true, seqLt_iff, UInt32.sub_self]
  decide

/-- The left edge of a window of `n` numbers is inside, unless the window is empty. -/
theorem seqBetween_edge (a n : UInt32) (h : n.toNat ≤ 2 ^ 31) :
    seqBetween a a (a + n - 1) = true ↔ n ≠ 0 := by
  have hdist : a + n - 1 - a = n - 1 := by grind
  rw [seqBetween, seqGeq_self, Bool.true_and, seqLeq_iff, hdist]
  constructor
  · rintro hlt rfl
    exact absurd hlt (by decide)
  · intro hn
    have hpos : n.toNat ≠ 0 := fun h₀ => hn (UInt32.toNat_inj.mp h₀)
    have hone : (1 : UInt32).toNat = 1 := rfl
    rw [UInt32.toNat_sub_of_le _ _ (UInt32.le_iff_toNat_le.mpr (by omega))]
    omega

theorem seqBetween_empty (a x : UInt32) : seqBetween x a (a - 1) = false := by
  have hback : a - 1 - x = -1 - (x - a) := by grind
  have hlt := (x - a).toNat_lt
  have hneg : (-1 - (x - a)).toNat = 2 ^ 32 - 1 - (x - a).toNat := by
    rw [UInt32.toNat_sub_of_le _ _ (UInt32.le_iff_toNat_le.mpr (Nat.le_sub_one_of_lt hlt))]
    rfl
  rw [seqBetween, seqGeq, ← Bool.not_eq_true, Bool.and_eq_true, seqLeq_iff, seqLeq_iff, hback, hneg]
  omega

/-- A number is not behind itself, so nothing has to be cut off in front of it. -/
theorem seqBetween_succ_self (a b : UInt32) : seqBetween a (a + 1) b = false := by
  have hback : a - (a + 1) = 0xFFFFFFFF := by grind
  rw [seqBetween, seqGeq, seqLeq, (seqLt_iff a (a + 1)).mpr (by rw [hback]; decide)]
  rfl

section Position

/-- The number of position `p` of a stream that starts with the number `base`. -/
def seqAt (base : UInt32) (p : ℕ) : UInt32 := base + UInt32.ofNat p

variable {base : UInt32} {p q : ℕ}

@[simp] theorem seqAt_zero (base : UInt32) : seqAt base 0 = base := by simp [seqAt]

theorem seqAt_add (base : UInt32) (p k : ℕ) :
    seqAt base p + UInt32.ofNat k = seqAt base (p + k) := by
  rw [seqAt, seqAt, UInt32.ofNat_add, UInt32.add_assoc]

theorem seqAt_add_one (base : UInt32) (p : ℕ) : seqAt base p + 1 = seqAt base (p + 1) :=
  seqAt_add base p 1

theorem seqAt_sub_one (base : UInt32) (h : 0 < p) : seqAt base p - 1 = seqAt base (p - 1) := by
  obtain ⟨p, rfl⟩ := Nat.exists_eq_add_of_lt h
  rw [Nat.zero_add, Nat.add_sub_cancel, ← seqAt_add_one]
  grind

theorem seqAt_add_toUInt32 (base : UInt32) (p : ℕ) (n : UInt16) :
    seqAt base p + n.toUInt32 = seqAt base (p + n.toNat) := by
  rw [← seqAt_add]
  congr 1
  exact UInt32.toNat_inj.mp (by simp)

/-- The way from position `p` to position `q`, round the circle. -/
theorem toNat_seqAt_sub (base : UInt32) (p q : ℕ) :
    (seqAt base q - seqAt base p).toNat = (q + (2 ^ 32 - p % 2 ^ 32)) % 2 ^ 32 := by
  rw [show seqAt base q - seqAt base p = UInt32.ofNat q - UInt32.ofNat p by
    rw [seqAt, seqAt]; grind]
  simp only [UInt32.toNat_sub, UInt32.toNat_ofNat']
  omega

/-- Less than half the circle apart, numbers are in the order of their positions. -/
theorem seqLt_seqAt (hqp : q ≤ p + 2 ^ 31) (hpq : p < q + 2 ^ 31) :
    seqLt (seqAt base p) (seqAt base q) = true ↔ p < q := by
  rw [seqLt_iff, toNat_seqAt_sub]
  omega

theorem seqLeq_seqAt (hpq : p ≤ q + 2 ^ 31) (hqp : q < p + 2 ^ 31) :
    seqLeq (seqAt base p) (seqAt base q) = true ↔ p ≤ q := by
  rw [seqLeq_iff, toNat_seqAt_sub]
  omega

theorem seqAt_inj (hqp : q < p + 2 ^ 32) (hpq : p < q + 2 ^ 32) :
    seqAt base p = seqAt base q ↔ p = q := by
  constructor
  · intro h
    have hzero := toNat_seqAt_sub base p q
    rw [h, UInt32.sub_self, UInt32.toNat_zero] at hzero
    omega
  · rintro rfl
    rfl

/-- What is between two numbers less than half the circle apart has a position between theirs. -/
theorem exists_seqAt_of_between {x : UInt32} (hpq : p ≤ q + 1) (hqp : q < p + 2 ^ 31)
    (h : seqBetween x (seqAt base p) (seqAt base q) = true) :
    ∃ k, p ≤ k ∧ k ≤ q ∧ x = seqAt base k := by
  rw [seqBetween, Bool.and_eq_true, seqGeq, seqLeq_iff, seqLeq_iff] at h
  have hway := toNat_seqAt_sub base p q
  have hsum : seqAt base q - seqAt base p = (x - seqAt base p) + (seqAt base q - x) := by grind
  rw [hsum, UInt32.toNat_add] at hway
  refine ⟨p + (x - seqAt base p).toNat, by omega, by omega, ?_⟩
  rw [← seqAt_add, UInt32.ofNat_toNat]
  grind

theorem toUInt16_seqAt_sub (hpq : p ≤ q) (hqp : q < p + 2 ^ 16) :
    (seqAt base q - seqAt base p).toUInt16.toNat = q - p := by
  rw [UInt32.toNat_toUInt16, toNat_seqAt_sub]
  omega

end Position

end EthernetPing
