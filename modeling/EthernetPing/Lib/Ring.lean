import Mathlib.Data.Nat.ModEq
import Mathlib.Data.List.Basic
import Mathlib.Tactic

/-!
# Circular buffers over a flat memory

A ring occupies the consecutive addresses `lo, …, hi` of a memory; a pointer that
is stepped past `hi` comes back to `lo`. Blocks are read and written from any
address of the ring, across the wrap. The results needed by clients relate three
views of one position: the stepped pointer, the offset from a base address, and
the block of bytes found there.
-/

namespace EthernetPing

/-- The circular address range `lo, …, hi`. -/
structure Ring where
  lo : ℕ
  hi : ℕ
  lo_le_hi : lo ≤ hi

namespace Ring

variable (r : Ring)

def size : ℕ := r.hi + 1 - r.lo

instance : Membership ℕ Ring := ⟨fun r a => r.lo ≤ a ∧ a ≤ r.hi⟩

theorem mem_iff {r : Ring} {a : ℕ} : a ∈ r ↔ r.lo ≤ a ∧ a ≤ r.hi := Iff.rfl

instance (a : ℕ) : Decidable (a ∈ r) := inferInstanceAs (Decidable (_ ∧ _))

/-- The pointer after one step. -/
def next (a : ℕ) : ℕ := if a = r.hi then r.lo else a + 1

/-- The address just before `a` in ring order. -/
def before (a : ℕ) : ℕ := if a = r.lo then r.hi else a - 1

/-- The address `n` steps after `a`. -/
def addr (a n : ℕ) : ℕ := r.lo + (a - r.lo + n) % r.size

/-- The number of steps from `a` to `b`, less than a full lap. -/
def offset (a b : ℕ) : ℕ := (b + r.size - a) % r.size

theorem size_pos : 0 < r.size := by
  have := r.lo_le_hi
  unfold size
  omega

theorem lo_mem : r.lo ∈ r := ⟨le_rfl, r.lo_le_hi⟩

theorem addr_mem (a n : ℕ) : r.addr a n ∈ r := by
  have h := Nat.mod_lt (a - r.lo + n) r.size_pos
  have := r.lo_le_hi
  simp only [mem_iff, addr, size] at *
  omega

theorem addr_sub_lo (a n : ℕ) : r.addr a n - r.lo = (a - r.lo + n) % r.size := by
  simp [addr]

@[simp] theorem addr_zero {a : ℕ} (ha : a ∈ r) : r.addr a 0 = a := by
  have h : a - r.lo < r.size := by
    have := ha.1
    have := ha.2
    unfold size
    omega
  have := ha.1
  rw [addr, Nat.add_zero, Nat.mod_eq_of_lt h]
  omega

@[simp] theorem addr_addr (a m n : ℕ) : r.addr (r.addr a m) n = r.addr a (m + n) := by
  rw [addr, addr_sub_lo, addr, Nat.mod_add_mod, Nat.add_assoc]

theorem addr_eq_ite {a n : ℕ} (ha : a ∈ r) (hn : n < r.size) :
    r.addr a n = if a + n ≤ r.hi then a + n else a + n - r.size := by
  have h₁ := ha.1
  have h₂ := ha.2
  have hs : r.size = r.hi + 1 - r.lo := rfl
  unfold addr
  split_ifs with h
  · rw [Nat.mod_eq_of_lt (by omega)]
    omega
  · rw [Nat.mod_eq_sub_mod (by omega), Nat.mod_eq_of_lt (by omega)]
    omega

theorem addr_one {a : ℕ} (ha : a ∈ r) : r.addr a 1 = r.next a := by
  have h₁ := ha.1
  have h₂ := ha.2
  have hs : r.size = r.hi + 1 - r.lo := rfl
  by_cases hone : r.size = 1
  · have hl := r.lo_le_hi
    rw [addr, hone, Nat.mod_one, next]
    split_ifs <;> omega
  · rw [addr_eq_ite r ha (by omega), next]
    split_ifs <;> omega

theorem next_mem {a : ℕ} (ha : a ∈ r) : r.next a ∈ r := by
  rw [← addr_one r ha]
  exact r.addr_mem a 1

theorem before_mem {a : ℕ} (ha : a ∈ r) : r.before a ∈ r := by
  have h₁ := ha.1
  have h₂ := ha.2
  rw [mem_iff, before]
  split_ifs <;> omega

theorem offset_lt (a b : ℕ) : r.offset a b < r.size := Nat.mod_lt _ r.size_pos

theorem offset_eq_ite {a b : ℕ} (ha : a ∈ r) (hb : b ∈ r) :
    r.offset a b = if a ≤ b then b - a else b + r.size - a := by
  have h₁ := ha.1
  have h₂ := ha.2
  have h₃ := hb.1
  have h₄ := hb.2
  have hs : r.size = r.hi + 1 - r.lo := rfl
  unfold offset
  split_ifs with h
  · rw [Nat.mod_eq_sub_mod (by omega), Nat.mod_eq_of_lt (by omega)]
    omega
  · rw [Nat.mod_eq_of_lt (by omega)]

theorem addr_offset {a b : ℕ} (ha : a ∈ r) (hb : b ∈ r) : r.addr a (r.offset a b) = b := by
  have h₂ := ha.2
  have h₄ := hb.2
  have h₃ := hb.1
  have hs : r.size = r.hi + 1 - r.lo := rfl
  rw [addr_eq_ite r ha (r.offset_lt a b), offset_eq_ite r ha hb]
  split_ifs <;> omega

theorem offset_addr {a n : ℕ} (ha : a ∈ r) (hn : n < r.size) : r.offset a (r.addr a n) = n := by
  have h₁ := ha.1
  have h₂ := ha.2
  have hs : r.size = r.hi + 1 - r.lo := rfl
  rw [offset_eq_ite r ha (r.addr_mem a n), addr_eq_ite r ha hn]
  split_ifs <;> omega

/-- The byte before the base is the last one of the lap. -/
theorem offset_before {a : ℕ} (ha : a ∈ r) : r.offset a (r.before a) = r.size - 1 := by
  have h₁ := ha.1
  have h₂ := ha.2
  have hs : r.size = r.hi + 1 - r.lo := rfl
  rw [offset_eq_ite r ha (r.before_mem ha), before]
  split_ifs <;> omega

/-- Moving the base `n` steps forward shortens every offset not yet passed by `n`. -/
theorem offset_addr_left {a b n : ℕ} (ha : a ∈ r) (hb : b ∈ r) (hn : n ≤ r.offset a b) :
    r.offset (r.addr a n) b = r.offset a b - n := by
  have hlt := r.offset_lt a b
  calc r.offset (r.addr a n) b
      = r.offset (r.addr a n) (r.addr (r.addr a n) (r.offset a b - n)) := by
        rw [addr_addr, Nat.add_sub_cancel' hn, addr_offset r ha hb]
    _ = r.offset a b - n := offset_addr r (r.addr_mem a n) (by omega)

/-- Offsets seen from a base that has moved past them come after the rest of the lap. -/
theorem offset_addr_addr {a m n : ℕ} (ha : a ∈ r) (hn : n < m) (hm : m ≤ r.size) :
    r.offset (r.addr a m) (r.addr a n) = r.size - m + n := by
  have h₁ := ha.1
  have hlap : r.addr a n = r.addr (r.addr a m) (r.size - m + n) := by
    rw [addr_addr, show m + (r.size - m + n) = n + r.size by omega, addr, addr, ← Nat.add_assoc,
      Nat.add_mod_right]
  rw [hlap, offset_addr r (r.addr_mem a m) (by omega)]

section Memory

variable {β : Type*}

/-- The `n` cells found from address `a` on. -/
def read (mem : ℕ → β) (a n : ℕ) : List β := (List.range n).map fun i => mem (r.addr a i)

/-- Store a block from address `a` on. -/
def write (mem : ℕ → β) (a : ℕ) (bs : List β) : ℕ → β := fun x =>
  if x ∈ r then (bs[r.offset a x]?).getD (mem x) else mem x

@[simp] theorem length_read (mem : ℕ → β) (a n : ℕ) : (r.read mem a n).length = n := by
  simp [read]

theorem getElem_read (mem : ℕ → β) (a n i : ℕ) (hi : i < (r.read mem a n).length) :
    (r.read mem a n)[i] = mem (r.addr a i) := by
  simp [read]

theorem read_succ {mem : ℕ → β} {a : ℕ} (ha : a ∈ r) (n : ℕ) :
    r.read mem a (n + 1) = mem a :: r.read mem (r.next a) n := by
  rw [read, List.range_succ_eq_map, List.map_cons, List.map_map, addr_zero r ha]
  congr 1
  apply List.map_congr_left
  intro i _
  rw [Function.comp_apply, ← addr_one r ha, addr_addr, Nat.add_comm]

theorem read_add (mem : ℕ → β) (a m n : ℕ) :
    r.read mem a (m + n) = r.read mem a m ++ r.read mem (r.addr a m) n := by
  simp [read, List.range_add, Function.comp_def]

theorem read_congr {mem mem' : ℕ → β} {a n : ℕ}
    (h : ∀ i < n, mem (r.addr a i) = mem' (r.addr a i)) : r.read mem a n = r.read mem' a n :=
  List.map_congr_left fun i hi => h i (List.mem_range.mp hi)

theorem take_read (mem : ℕ → β) (a m n : ℕ) :
    (r.read mem a n).take m = r.read mem a (min m n) := by
  rw [read, ← List.map_take, List.take_range, read]

theorem drop_read (mem : ℕ → β) (a m n : ℕ) :
    (r.read mem a (m + n)).drop m = r.read mem (r.addr a m) n := by
  rw [read_add, List.drop_append, List.drop_of_length_le (by simp), length_read]
  simp

/-- A block that fits the ring is read back from where it was written. -/
theorem read_write_self {mem : ℕ → β} {a : ℕ} (ha : a ∈ r) {bs : List β}
    (hfit : bs.length ≤ r.size) : r.read (r.write mem a bs) a bs.length = bs := by
  apply List.ext_getElem
  · simp
  · intro i h₁ h₂
    rw [getElem_read, write, if_pos (r.addr_mem a i), offset_addr r ha (by omega)]
    simp [h₂]

/-- A write leaves alone the blocks that lie, in ring order, between the base `a` and the
place written, as long as it does not come round to the base again. -/
theorem read_write_before {mem : ℕ → β} {a : ℕ} (ha : a ∈ r) {bs : List β} {u s m : ℕ}
    (hle : u + s ≤ m) (hfit : m + bs.length ≤ r.size) :
    r.read (r.write mem (r.addr a m) bs) (r.addr a u) s = r.read mem (r.addr a u) s := by
  apply read_congr
  intro i hi
  rw [write, if_pos (r.addr_mem _ i), addr_addr, offset_addr_addr r ha (by omega) (by omega),
    List.getElem?_eq_none (by omega)]
  rfl

end Memory

end Ring

end EthernetPing
