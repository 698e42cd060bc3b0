import Mathlib.Data.List.Basic
import Mathlib.Tactic

/-!
# Packet buffers

A packet lies in a chain of pbufs. `payload` is the memory from the payload pointer on,
so that what lies behind the `len` valid bytes is part of the model.
-/

namespace EthernetPing

/-- One buffer of a chain; `totLen` counts its bytes and those of the buffers behind it. -/
structure Pbuf where
  payload : ℕ → UInt8
  totLen : UInt16
  len : UInt16

def Pbuf.bytes (q : Pbuf) : List UInt8 := (List.range q.len.toNat).map q.payload

def chainBytes (p : List Pbuf) : List UInt8 := p.flatMap Pbuf.bytes

def lwipMin (x y : UInt16) : UInt16 := if x < y then x else y

theorem toNat_lwipMin (x y : UInt16) : (lwipMin x y).toNat = min x.toNat y.toNat := by
  rw [lwipMin]
  simp only [UInt16.lt_iff_toNat_lt]
  split_ifs <;> omega

/-- `PBUF_POOL_BUFSIZE` -/
def poolBufSize : UInt16 := 256

/-- `pbuf_alloc(PBUF_RAW, length, PBUF_POOL)`. The pool is the list of its free elements, each
with the stale content of its payload area; `none` if it runs empty. -/
def pbufAllocPool : List (ℕ → UInt8) → UInt16 → Option (List Pbuf × List (ℕ → UInt8))
  | [], _ => none
  | m :: pool, remLen =>
    let qlen := lwipMin remLen poolBufSize
    let q : Pbuf := { payload := m, totLen := remLen, len := qlen }
    if remLen - qlen = 0 then some ([q], pool)
    else (pbufAllocPool pool (remLen - qlen)).map fun out => (q :: out.1, out.2)

/-- The copy loop of `pbuf_take`: `total` bytes are still to be copied, from `data` on. -/
def pbufTakeLoop : List Pbuf → (ℕ → UInt8) → ℕ → List Pbuf
  | [], _, _ => []
  | q :: qs, data, total =>
    let n := min total q.len.toNat
    { q with payload := fun i => if i < n then data i else q.payload i } ::
      pbufTakeLoop qs (fun i => data (n + i)) (total - n)

/-- `pbuf_take`; a chain that is too small is left as it is. -/
def pbufTake (p : List Pbuf) (data : ℕ → UInt8) (len : UInt16) : List Pbuf :=
  match p with
  | [] => []
  | q :: qs => if q.totLen < len then q :: qs else pbufTakeLoop (q :: qs) data len.toNat

/-- `p->tot_len` -/
def totLen : List Pbuf → UInt16
  | [] => 0
  | q :: _ => q.totLen

/-- `pbuf_remove_header` moves the payload pointer of one buffer. -/
def Pbuf.removeHeader (q : Pbuf) (n : UInt16) : Pbuf :=
  if n ≤ q.len then
    { payload := fun i => q.payload (n.toNat + i), totLen := q.totLen - n, len := q.len - n }
  else q

/-- The loop of `pbuf_realloc`: `remLen` bytes remain to be kept. -/
def pbufReallocLoop (shrink : UInt16) : List Pbuf → UInt16 → List Pbuf
  | [], _ => []
  | q :: qs, remLen =>
    if q.len < remLen then
      { q with totLen := q.totLen - shrink } :: pbufReallocLoop shrink qs (remLen - q.len)
    else [{ q with totLen := remLen, len := remLen }]

/-- `pbuf_realloc` cuts a chain at the end; it does not enlarge it. -/
def pbufRealloc (p : List Pbuf) (newLen : UInt16) : List Pbuf :=
  if totLen p ≤ newLen then p else pbufReallocLoop (totLen p - newLen) p newLen

def pbufCat (h t : List Pbuf) : List Pbuf :=
  h.map (fun q => { q with totLen := q.totLen + totLen t }) ++ t

def ChainOk : List Pbuf → Prop
  | [] => True
  | q :: qs => q.totLen.toNat = q.len.toNat + (chainBytes qs).length ∧ ChainOk qs

theorem chainBytes_cons (q : Pbuf) (qs : List Pbuf) :
    chainBytes (q :: qs) = q.bytes ++ chainBytes qs := rfl

@[simp] theorem Pbuf.length_bytes (q : Pbuf) : q.bytes.length = q.len.toNat := by
  simp [Pbuf.bytes]

theorem length_chainBytes_cons (q : Pbuf) (qs : List Pbuf) :
    (chainBytes (q :: qs)).length = q.len.toNat + (chainBytes qs).length := by
  rw [chainBytes_cons, List.length_append, q.length_bytes]

theorem ChainOk.toNat_totLen {p : List Pbuf} (h : ChainOk p) :
    (totLen p).toNat = (chainBytes p).length := by
  cases p with
  | nil => rfl
  | cons q qs => rw [length_chainBytes_cons, ← h.1]; rfl

section Alloc

variable {pool : List (ℕ → UInt8)} {len : UInt16}

/-- One round of the allocation loop takes `poolBufSize` bytes off the rest. -/
theorem toNat_sub_lwipMin (len : UInt16) :
    (len - lwipMin len poolBufSize).toNat = len.toNat - 256 := by
  have hmin := toNat_lwipMin len poolBufSize
  have hsize : poolBufSize.toNat = 256 := rfl
  rw [UInt16.toNat_sub_of_le _ _ (UInt16.le_iff_toNat_le.mpr (by omega)), hmin]
  omega

theorem length_of_pbufAllocPool {out : List Pbuf × List (ℕ → UInt8)}
    (h : pbufAllocPool pool len = some out) :
    (chainBytes out.1).length = len.toNat ∧ ∃ q qs, out.1 = q :: qs ∧ q.totLen = len := by
  induction pool generalizing len out with
  | nil => cases h
  | cons m pool ih =>
    have hrest := toNat_sub_lwipMin len
    have hmin : (lwipMin len poolBufSize).toNat = min len.toNat 256 := toNat_lwipMin ..
    rw [pbufAllocPool] at h
    split_ifs at h with hlast
    · cases h
      have hzero := congrArg UInt16.toNat hlast
      rw [hrest, UInt16.toNat_zero] at hzero
      refine ⟨?_, _, _, rfl, rfl⟩
      rw [length_chainBytes_cons, hmin]
      simp [chainBytes]
      omega
    · obtain ⟨out', hout', rfl⟩ := Option.map_eq_some_iff.mp h
      refine ⟨?_, _, _, rfl, rfl⟩
      rw [length_chainBytes_cons, hmin, (ih hout').1, hrest]
      omega

/-- An allocation fails exactly if the pool has too few elements. -/
theorem pbufAllocPool_isSome (pool : List (ℕ → UInt8)) (len : UInt16) :
    (pbufAllocPool pool len).isSome ↔ 0 < pool.length ∧ len.toNat ≤ 256 * pool.length := by
  induction pool generalizing len with
  | nil => simp [pbufAllocPool]
  | cons m pool ih =>
    have hrest := toNat_sub_lwipMin len
    rw [pbufAllocPool, List.length_cons]
    split_ifs with hlast
    · have hzero := congrArg UInt16.toNat hlast
      rw [hrest, UInt16.toNat_zero] at hzero
      simp
      omega
    · have hpos : (len - lwipMin len poolBufSize).toNat ≠ 0 := fun h₀ =>
        hlast (UInt16.toNat_inj.mp h₀)
      rw [Option.isSome_map, ih, hrest]
      rw [hrest] at hpos
      omega

end Alloc

section Take

theorem chainBytes_pbufTakeLoop (p : List Pbuf) (data : ℕ → UInt8) :
    chainBytes (pbufTakeLoop p data (chainBytes p).length) =
      (List.range (chainBytes p).length).map data := by
  induction p generalizing data with
  | nil => rfl
  | cons q qs ih =>
    rw [length_chainBytes_cons, pbufTakeLoop, Nat.min_eq_right (Nat.le_add_right _ _),
      Nat.add_sub_cancel_left, chainBytes_cons, ih, List.range_add, List.map_append, List.map_map]
    congr 1
    exact List.map_congr_left fun i hi => if_pos (List.mem_range.mp hi)

theorem chainBytes_pbufTake {p : List Pbuf} {q : Pbuf} {qs : List Pbuf} {len : UInt16}
    (hp : p = q :: qs) (htot : q.totLen = len) (hlen : (chainBytes p).length = len.toNat)
    (data : ℕ → UInt8) :
    chainBytes (pbufTake p data len) = (List.range len.toNat).map data := by
  subst hp
  rw [pbufTake, if_neg (by rw [htot]; exact UInt16.lt_irrefl _), ← hlen, chainBytes_pbufTakeLoop]

end Take

end EthernetPing
