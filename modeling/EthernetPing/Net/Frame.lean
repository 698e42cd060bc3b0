import EthernetPing.Lib.Bytes
import EthernetPing.Net.Chain
import EthernetPing.Net.Checksum
import EthernetPing.Net.MainLoop
import Mathlib.Data.List.GetD

/-!
# Headers in front of a packet

A header is put in front of a packet by moving the payload pointer of its first buffer back
into the memory before it, as far as that buffer reaches. `ethernet_output` puts the last one
there and hands the chain to the driver.
-/

namespace EthernetPing

/-- `struct eth_addr` -/
abbrev EthAddr := Fin 6 → UInt8

/-- A packet whose first buffer has room in front of its payload: `area` is the memory behind
`struct pbuf`, and the payload begins at `off`. `isRef` tells that a buffer of the chain is a
`PBUF_REF`. -/
structure Pkt where
  area : ℕ → UInt8
  off : ℕ
  len : UInt16
  totLen : UInt16
  next : List Pbuf
  isRef : Bool

namespace Pkt

def payload (p : Pkt) (i : ℕ) : UInt8 := p.area (p.off + i)

def first (p : Pkt) : Pbuf := { payload := p.payload, totLen := p.totLen, len := p.len }

def chain (p : Pkt) : List Pbuf := p.first :: p.next

def bytes (p : Pkt) : List UInt8 := chainBytes p.chain

/-- Writing to the payload. -/
def store (p : Pkt) (i : ℕ) (bs : List UInt8) : Pkt :=
  { p with area := fun j =>
      if p.off + i ≤ j ∧ j < p.off + i + bs.length then bs.getD (j - (p.off + i)) 0
      else p.area j }

end Pkt

/-- A 16-bit field of a header as the host reads it. -/
def field16 (h : ℕ → UInt8) (i : ℕ) : UInt16 := ofLe16 (h i) (h (i + 1))

/-- A 32-bit field of a header as the host reads it. -/
def field32 (h : ℕ → UInt8) (i : ℕ) : UInt32 :=
  (field16 h i).toUInt32 ||| ((field16 h (i + 2)).toUInt32 <<< 16)

def ethAddrAt (h : ℕ → UInt8) (i : ℕ) : EthAddr := fun k => h (i + k)

/-- `pbuf_add_header` for a buffer that contains its payload. -/
def pbufAddHeader (p : Pkt) (n : UInt16) : Option Pkt :=
  if n = 0 then some p
  else if n + p.totLen < n then none
  else if p.off < n.toNat then none
  else some { p with off := p.off - n.toNat, len := p.len + n, totLen := p.totLen + n }

def pbufRemoveHeader (p : Pkt) (n : UInt16) : Option Pkt :=
  if n ≤ p.len then
    some { p with off := p.off + n.toNat, len := p.len - n, totLen := p.totLen - n }
  else none

def lwipMemAlignSize (n : ℕ) : ℕ := (n + 3) / 4 * 4

def sizeofStructPbuf : ℕ := 16

/-- `pbuf_alloc(layer, length, PBUF_RAM)`; `ram` is what `mem_malloc` answers. -/
def pbufAllocRam (layer length : UInt16) (ram : Option (ℕ → UInt8)) : Option Pkt :=
  let payloadLen := (lwipMemAlignSize layer.toNat + lwipMemAlignSize length.toNat) % 65536
  let allocLen := (sizeofStructPbuf + payloadLen) % 65536
  if payloadLen < lwipMemAlignSize length.toNat ∨ allocLen < lwipMemAlignSize length.toNat then
    none
  else
    ram.map fun area =>
      { area, off := lwipMemAlignSize layer.toNat, len := length, totLen := length, next := [],
        isRef := false }

/-- The packet goes on behind its last byte: `pbuf_copy_partial_pbuf` takes it for a queue. -/
def isQueue : List Pbuf → Bool
  | q :: _ :: _ => q.len == q.totLen
  | _ => false

/-- The loop of `pbuf_copy_partial_pbuf` into a single buffer, at the start of a source buffer:
`copyLen` bytes are still to be copied, to `off`. The first result tells whether it succeeds. -/
def pbufCopyLoop : List Pbuf → Pkt → ℕ → UInt16 → Bool × Pkt
  | [], r, _, _ => (false, r)
  | q :: qs, r, off, copyLen =>
    let len := min copyLen.toNat (min (r.len.toNat - off) q.len.toNat)
    let r := r.store off ((List.range len).map q.payload)
    let copyLen := copyLen - UInt16.ofNat len
    let next := if q.len.toNat ≤ len then qs else q :: qs
    if (next.isEmpty ∨ off + len = r.len.toNat) ∧ copyLen ≠ 0 then (false, r)
    else if isQueue next then (false, r)
    else if copyLen = 0 then (true, r)
    else pbufCopyLoop qs r (off + len) copyLen

/-- `pbuf_copy_partial_pbuf` into a single buffer. -/
def pbufCopyPartialPbuf (r : Pkt) (p : List Pbuf) (copyLen offset : UInt16) : Bool × Pkt :=
  if totLen p < copyLen then (false, r)
  else if r.totLen.toNat < offset.toNat + copyLen.toNat then (false, r)
  else pbufCopyLoop p r offset.toNat copyLen

def pbufLink : UInt16 := 14

/-- `pbuf_clone(PBUF_LINK, PBUF_RAM, p)` -/
def pbufClone (p : Pkt) (ram : Option (ℕ → UInt8)) : Option Pkt :=
  (pbufAllocRam pbufLink p.totLen ram).map fun r => (pbufCopyPartialPbuf r p.chain p.totLen 0).2

def sizeofEthHdr : UInt16 := 14

def ethtypeIp : UInt16 := 0x0800

def ethtypeArp : UInt16 := 0x0806

def ethbroadcast : EthAddr := fun _ => 0xff

def ethzero : EthAddr := fun _ => 0

/-- What the network layer sends, and what `mem_malloc` will answer to it. -/
structure LinkOut where
  ram : ℕ → Option (ℕ → UInt8)
  /-- The frames handed to `netif->linkoutput`. -/
  sent : List (List UInt8)

/-- The next answer of `mem_malloc`. -/
def LinkOut.malloc (o : LinkOut) : Option (ℕ → UInt8) × LinkOut :=
  (o.ram 0, { o with ram := fun n => o.ram (n + 1) })

/-- The errors of the functions below TCP. -/
inductive LinkErr where
  | ok | mem | buf | rte | val | arg
  deriving DecidableEq, Repr

/-- `ethernet_output`; `linkoutput` always succeeds. -/
def ethernetOutput (p : Pkt) (src dst : EthAddr) (ethType : UInt16) (o : LinkOut) :
    LinkErr × LinkOut :=
  match pbufAddHeader p sizeofEthHdr with
  | none => (.buf, o)
  | some p =>
    let p := p.store 12 (le16 (lwipHtons ethType))
    let p := p.store 0 (List.ofFn dst)
    let p := p.store 6 (List.ofFn src)
    (.ok, { o with sent := o.sent ++ [p.bytes] })

section Bytes

variable {p p' : Pkt} {n : UInt16} {bs : List UInt8} {i : ℕ}

namespace Pkt

/-- The total lengths are right, and the first buffer is not longer than the packet. -/
def Ok (p : Pkt) : Prop := ChainOk p.chain

theorem bytes_eq (p : Pkt) :
    p.bytes = (List.range p.len.toNat).map p.payload ++ chainBytes p.next :=
  rfl

theorem getD_bytes {i : ℕ} (hi : i < p.len.toNat) : p.bytes.getD i 0 = p.payload i := by
  rw [bytes_eq, List.getD_eq_getElem?_getD, List.getElem?_append_left (by simpa using hi),
    List.getElem?_map, List.getElem?_range hi]
  rfl

theorem length_bytes (h : p.Ok) : p.bytes.length = p.totLen.toNat := (ChainOk.toNat_totLen h).symm

theorem Ok.len_le (h : p.Ok) : p.len.toNat ≤ p.totLen.toNat := by
  have htot := h.1
  change p.totLen.toNat = p.len.toNat + _ at htot
  omega

@[simp] theorem store_off (p : Pkt) (i : ℕ) (bs : List UInt8) : (p.store i bs).off = p.off := rfl

@[simp] theorem store_len (p : Pkt) (i : ℕ) (bs : List UInt8) : (p.store i bs).len = p.len := rfl

@[simp] theorem store_totLen (p : Pkt) (i : ℕ) (bs : List UInt8) :
    (p.store i bs).totLen = p.totLen := rfl

@[simp] theorem store_next (p : Pkt) (i : ℕ) (bs : List UInt8) : (p.store i bs).next = p.next := rfl

theorem store_payload (p : Pkt) (i j : ℕ) (bs : List UInt8) : (p.store i bs).payload j =
    if i ≤ j ∧ j < i + bs.length then bs.getD (j - i) 0 else p.payload j := by
  have hsub : p.off + j - (p.off + i) = j - i := by omega
  have hiff : (p.off + i ≤ p.off + j ∧ p.off + j < p.off + i + bs.length) ↔
      i ≤ j ∧ j < i + bs.length := by omega
  simp only [payload, store, hsub, hiff]

theorem store_area (p : Pkt) (i j : ℕ) (bs : List UInt8) : (p.store i bs).area j =
    if p.off + i ≤ j ∧ j < p.off + i + bs.length then bs.getD (j - (p.off + i)) 0
    else p.area j := rfl

theorem store_append (p : Pkt) (i : ℕ) (bs cs : List UInt8) :
    (p.store i bs).store (i + bs.length) cs = p.store i (bs ++ cs) := by
  have harea : ∀ j, ((p.store i bs).store (i + bs.length) cs).area j =
      (p.store i (bs ++ cs)).area j := by
    intro j
    rw [store_area, store_area, store_area, store_off, List.length_append]
    by_cases hcs : p.off + (i + bs.length) ≤ j ∧ j < p.off + (i + bs.length) + cs.length
    · rw [if_pos hcs, if_pos (by omega), List.getD_append_right _ _ _ _ (by omega)]
      congr 1
      omega
    · rw [if_neg hcs]
      by_cases hbs : p.off + i ≤ j ∧ j < p.off + i + bs.length
      · rw [if_pos hbs, if_pos (by omega), List.getD_append _ _ _ _ (by omega)]
      · rw [if_neg hbs, if_neg (by omega)]
  exact congrArg (fun area => { p with area }) (funext harea)

theorem Ok.store (h : p.Ok) (i : ℕ) (bs : List UInt8) : (p.store i bs).Ok := h

/-- A piece of the payload that lies in the first buffer is exchanged for another one. -/
theorem bytes_store (hi : i + bs.length ≤ p.len.toNat) :
    (p.store i bs).bytes = p.bytes.take i ++ bs ++ p.bytes.drop (i + bs.length) := by
  obtain ⟨m, hm⟩ := Nat.exists_eq_add_of_le hi
  have hfront : (List.range i).map (p.store i bs).payload = (List.range i).map p.payload :=
    List.map_congr_left fun j hj => by
      rw [List.mem_range] at hj
      rw [store_payload, if_neg (by omega)]
  have hback : (List.range m).map (fun j => (p.store i bs).payload (i + bs.length + j)) =
      (List.range m).map fun j => p.payload (i + bs.length + j) :=
    List.map_congr_left fun j _ => by rw [store_payload, if_neg (by omega)]
  have hmid : (List.range bs.length).map (fun j => (p.store i bs).payload (i + j)) = bs := by
    apply List.ext_getElem
    · simp
    · intro j h₁ h₂
      rw [List.getElem_map, List.getElem_range, store_payload, if_pos (by omega),
        Nat.add_sub_cancel_left]
      simp [h₂]
  have hsplit : ∀ f : ℕ → UInt8, (List.range (i + bs.length + m)).map f =
      (List.range i).map f ++ (List.range bs.length).map (fun j => f (i + j)) ++
        (List.range m).map fun j => f (i + bs.length + j) := by
    intro f
    rw [List.range_add, List.map_append, List.range_add, List.map_append, List.map_map,
      List.map_map]
    rfl
  rw [bytes_eq, bytes_eq, store_len, store_next, hm, hsplit, hsplit, hfront, hmid, hback]
  simp [List.drop_append]

end Pkt

theorem pbufAddHeader_isSome (p : Pkt) (n : UInt16) : (pbufAddHeader p n).isSome ↔
    n = 0 ∨ (p.totLen.toNat + n.toNat < 65536 ∧ n.toNat ≤ p.off) := by
  have hn := n.toNat_lt
  have htot := p.totLen.toNat_lt
  rw [pbufAddHeader]
  simp only [UInt16.lt_iff_toNat_lt, UInt16.toNat_add]
  split_ifs with h₀ h₁ h₂
  · exact ⟨fun _ => Or.inl h₀, fun _ => rfl⟩
  · simp [h₀]
    omega
  · simp [h₀]
    omega
  · simp [h₀]
    omega

theorem pbufAddHeader_spec (hp : p.Ok) (h : pbufAddHeader p n = some p') :
    p'.Ok ∧ p'.off + n.toNat = p.off ∧ p'.len.toNat = p.len.toNat + n.toNat ∧
      p'.totLen.toNat = p.totLen.toNat + n.toNat ∧ p'.bytes.drop n.toNat = p.bytes ∧
      p'.area = p.area ∧ p'.next = p.next ∧ p'.isRef = p.isRef := by
  have hlen := hp.len_le
  rw [pbufAddHeader] at h
  simp only [UInt16.lt_iff_toNat_lt, UInt16.toNat_add] at h
  have hn := n.toNat_lt
  have htot := p.totLen.toNat_lt
  split_ifs at h with h₀ h₁ h₂
  · cases h
    rw [h₀]
    exact ⟨hp, rfl, rfl, rfl, rfl, rfl, rfl, rfl⟩
  · cases h
    have hlen' : (p.len + n).toNat = p.len.toNat + n.toNat := by
      rw [UInt16.toNat_add]
      omega
    have htot' : (p.totLen + n).toNat = p.totLen.toNat + n.toNat := by
      rw [UInt16.toNat_add]
      omega
    refine ⟨⟨?_, hp.2⟩, by dsimp only; omega, hlen', htot', ?_, rfl, rfl, rfl⟩
    · have hfirst := hp.1
      change p.totLen.toNat = p.len.toNat + (chainBytes p.next).length at hfirst
      change (p.totLen + n).toNat = (p.len + n).toNat + (chainBytes p.next).length
      omega
    · rw [Pkt.bytes_eq, Pkt.bytes_eq, List.drop_append_of_le_length (by simp; omega)]
      congr 1
      dsimp only
      rw [hlen', Nat.add_comm, List.range_add, List.map_append, List.drop_left' (by simp),
        List.map_map]
      refine List.map_congr_left fun i _ => ?_
      simp only [Function.comp, Pkt.payload]
      congr 1
      omega

theorem pbufRemoveHeader_spec (hp : p.Ok) (h : pbufRemoveHeader p n = some p') :
    p'.Ok ∧ p'.off = p.off + n.toNat ∧ p'.len.toNat + n.toNat = p.len.toNat ∧
      p'.totLen.toNat + n.toNat = p.totLen.toNat ∧ p'.bytes = p.bytes.drop n.toNat ∧
      p'.area = p.area ∧ p'.next = p.next ∧ p'.isRef = p.isRef := by
  have hle := hp.len_le
  rw [pbufRemoveHeader] at h
  split_ifs at h with hn
  cases h
  have hn' := UInt16.le_iff_toNat_le.mp hn
  have hlen : (p.len - n).toNat = p.len.toNat - n.toNat := UInt16.toNat_sub_of_le _ _ hn
  have htot : (p.totLen - n).toNat = p.totLen.toNat - n.toNat :=
    UInt16.toNat_sub_of_le _ _ (UInt16.le_iff_toNat_le.mpr (by omega))
  have hchain : p.first.removeHeader n =
      { payload := fun i => p.payload (n.toNat + i), totLen := p.totLen - n, len := p.len - n } :=
    if_pos hn
  have hok := ChainOk.removeHeader hp hn
  have hbytes : chainBytes (p.first.removeHeader n :: p.next) =
      (chainBytes (p.first :: p.next)).drop n.toNat := chainBytes_removeHeader hn
  have hpayload : (fun i => p.payload (n.toNat + i)) = fun i => p.area (p.off + n.toNat + i) :=
    funext fun i => congrArg p.area (Nat.add_assoc _ _ _).symm
  rw [hchain, hpayload] at hok hbytes
  exact ⟨hok, rfl, by dsimp only; omega, by dsimp only; omega, hbytes, rfl, rfl, rfl⟩

theorem pbufAllocRam_spec {layer length : UInt16} {ram : Option (ℕ → UInt8)}
    (h : pbufAllocRam layer length ram = some p) :
    p.Ok ∧ p.off = lwipMemAlignSize layer.toNat ∧ p.len = length ∧ p.totLen = length ∧
      p.next = [] := by
  rw [pbufAllocRam] at h
  split_ifs at h
  obtain ⟨area, -, rfl⟩ := Option.map_eq_some_iff.mp h
  exact ⟨⟨rfl, trivial⟩, rfl, rfl, rfl, rfl⟩

theorem Pkt.bytes_store_all (hnext : p.next = []) (hlen : bs.length = p.len.toNat) :
    (p.store 0 bs).bytes = bs := by
  have hall : p.bytes.length = p.len.toNat := by
    rw [bytes_eq, hnext]
    simp [chainBytes]
  rw [bytes_store (by omega), List.take_zero, List.nil_append, Nat.zero_add,
    List.drop_of_length_le (by omega), List.append_nil]

def Pkt.Full (p : Pkt) : Prop := ∀ q ∈ p.next, q.len ≠ 0

theorem chainBytes_pos {q : Pbuf} {qs : List Pbuf} (hq : q.len ≠ 0) :
    0 < (chainBytes (q :: qs)).length := by
  have hpos : q.len.toNat ≠ 0 := fun h₀ => hq (UInt16.toNat_inj.mp h₀)
  rw [length_chainBytes_cons]
  omega

theorem isQueue_eq_false {qs : List Pbuf} (hok : ChainOk qs) (hfull : ∀ q ∈ qs.tail, q.len ≠ 0) :
    isQueue qs = false := by
  rcases qs with _ | ⟨q, _ | ⟨q', qs⟩⟩
  · rfl
  · rfl
  · have hpos : 0 < (chainBytes (q' :: qs)).length :=
      chainBytes_pos (hfull q' List.mem_cons_self)
    have htot := hok.1
    rw [isQueue, beq_eq_false_iff_ne]
    intro heq
    rw [← heq] at htot
    omega

theorem pbufCopyLoop_spec {ps : List Pbuf} (hps : ps ≠ []) (hok : ChainOk ps)
    (hfull : ∀ q ∈ ps.tail, q.len ≠ 0) {r : Pkt} {off : ℕ} {copyLen : UInt16}
    (hlen : copyLen.toNat ≤ (chainBytes ps).length) (hroom : off + copyLen.toNat ≤ r.len.toNat) :
    pbufCopyLoop ps r off copyLen =
      (true, r.store off ((chainBytes ps).take copyLen.toNat)) := by
  induction ps generalizing r off copyLen with
  | nil => exact absurd rfl hps
  | cons q qs ih =>
    have hq := q.len.toNat_lt
    have hc := copyLen.toNat_lt
    rw [length_chainBytes_cons] at hlen
    have hmin : min copyLen.toNat (min (r.len.toNat - off) q.len.toNat) =
        min copyLen.toNat q.len.toNat := by omega
    have hpiece : (List.range (min copyLen.toNat q.len.toNat)).map q.payload =
        q.bytes.take copyLen.toNat := by
      rw [Pbuf.bytes, ← List.map_take, List.take_range]
    have hleft : (copyLen - UInt16.ofNat (min copyLen.toNat q.len.toNat)).toNat =
        copyLen.toNat - q.len.toNat := by
      have hof : (UInt16.ofNat (min copyLen.toNat q.len.toNat)).toNat =
          min copyLen.toNat q.len.toNat := by
        rw [UInt16.toNat_ofNat', Nat.mod_eq_of_lt (by omega)]
      rw [UInt16.toNat_sub_of_le _ _ (UInt16.le_iff_toNat_le.mpr (by omega)), hof]
      omega
    have hzero : copyLen - UInt16.ofNat (min copyLen.toNat q.len.toNat) = 0 ↔
        copyLen.toNat ≤ q.len.toNat := by
      rw [← UInt16.toNat_inj, hleft, UInt16.toNat_zero]
      omega
    rw [pbufCopyLoop]
    simp only [hmin, hpiece, Pkt.store_len, hzero]
    by_cases hlast : copyLen.toNat ≤ q.len.toNat
    · -- the rest of the bytes is in this buffer
      have htake : (chainBytes (q :: qs)).take copyLen.toNat = q.bytes.take copyLen.toNat := by
        rw [chainBytes_cons, List.take_append_of_le_length (by rw [q.length_bytes]; omega)]
      have hqueue : isQueue (if q.len.toNat ≤ min copyLen.toNat q.len.toNat then qs
          else q :: qs) = false := by
        split_ifs
        · exact isQueue_eq_false hok.2 fun b hb => hfull b (List.mem_of_mem_tail hb)
        · exact isQueue_eq_false hok hfull
      rw [if_neg fun h => hzero.not.mp h.2 hlast, hqueue, if_neg Bool.false_ne_true,
        if_pos hlast, htake]
    · have hqs : qs ≠ [] := by
        rintro rfl
        simp [chainBytes] at hlen
        omega
      have hcopied : (q.bytes.take copyLen.toNat).length = q.len.toNat := by
        rw [List.length_take, q.length_bytes]
        omega
      have hrest : 0 < (chainBytes qs).length := by
        obtain ⟨q', qs', rfl⟩ := List.exists_cons_of_ne_nil hqs
        exact chainBytes_pos (hfull q' List.mem_cons_self)
      have htake : (chainBytes (q :: qs)).take copyLen.toNat =
          q.bytes.take copyLen.toNat ++ (chainBytes qs).take (copyLen.toNat - q.len.toNat) := by
        rw [chainBytes_cons, List.take_append, q.length_bytes]
      have hmin' : min copyLen.toNat q.len.toNat = q.len.toNat := by omega
      rw [hmin'] at hleft ⊢
      have hnext := ih hqs hok.2 (fun b hb => hfull b (List.mem_of_mem_tail hb))
        (r := r.store off (q.bytes.take copyLen.toNat))
        (by rw [hleft]; omega : (copyLen - UInt16.ofNat q.len.toNat).toNat ≤ _)
        (by rw [hleft, Pkt.store_len]; omega : off + q.len.toNat + _ ≤ _)
      have hgo : ¬ ((qs.isEmpty = true ∨ off + q.len.toNat = r.len.toNat) ∧
          copyLen - UInt16.ofNat q.len.toNat ≠ 0) := by
        rintro ⟨hend, -⟩
        rw [List.isEmpty_iff] at hend
        exact hend.elim hqs fun hend => by omega
      simp only [le_refl, if_true]
      rw [if_neg hgo, isQueue_eq_false hok.2 fun b hb => hfull b (List.mem_of_mem_tail hb),
        if_neg Bool.false_ne_true, if_neg hlast, hnext, hleft, htake, ← Pkt.store_append, hcopied]

theorem pbufCopyPartialPbuf_spec {r : Pkt} (hp : p.Ok) (hfull : p.Full) (hlen : r.len = p.totLen)
    (htot : r.totLen = p.totLen) :
    pbufCopyPartialPbuf r p.chain p.totLen 0 = (true, r.store 0 p.bytes) := by
  have hall := p.length_bytes hp
  have hloop : pbufCopyLoop p.chain r 0 p.totLen =
      (true, r.store 0 (p.bytes.take p.totLen.toNat)) :=
    pbufCopyLoop_spec (List.cons_ne_nil p.first p.next) hp hfull hall.ge
      (by rw [hlen, Nat.zero_add])
  have htop : totLen p.chain = p.totLen := rfl
  rw [pbufCopyPartialPbuf, htop, if_neg (UInt16.lt_irrefl _), htot,
    if_neg (by rw [UInt16.toNat_zero, Nat.zero_add]; exact Nat.lt_irrefl _), UInt16.toNat_zero,
    hloop, ← hall, List.take_length]

theorem pbufClone_spec {ram : Option (ℕ → UInt8)} (hp : p.Ok) (hfull : p.Full)
    (h : pbufClone p ram = some p') : p'.Ok ∧ p'.bytes = p.bytes := by
  obtain ⟨r, hr, rfl⟩ := Option.map_eq_some_iff.mp h
  obtain ⟨hok, -, hlen, htot, hnext⟩ := pbufAllocRam_spec hr
  rw [pbufCopyPartialPbuf_spec hp hfull hlen htot]
  exact ⟨hok, r.bytes_store_all hnext (by rw [p.length_bytes hp, hlen])⟩

/-- The frame on the wire: the addresses and the type go in front of the packet. -/
def ethFrame (dst src : EthAddr) (ethType : UInt16) (data : List UInt8) : List UInt8 :=
  List.ofFn dst ++ List.ofFn src ++ le16 (lwipHtons ethType) ++ data

theorem ethernetOutput_eq {o : LinkOut} {src dst : EthAddr} {ethType : UInt16} (hp : p.Ok) :
    ethernetOutput p src dst ethType o =
      if p.totLen.toNat + 14 < 65536 ∧ 14 ≤ p.off then
        (.ok, { o with sent := o.sent ++ [ethFrame dst src ethType p.bytes] })
      else (.buf, o) := by
  have hsome := pbufAddHeader_isSome p sizeofEthHdr
  have hsize : sizeofEthHdr.toNat = 14 := rfl
  rw [hsize, or_iff_right (by decide)] at hsome
  rw [ethernetOutput]
  cases h : pbufAddHeader p sizeofEthHdr with
  | none =>
    rw [h] at hsome
    rw [if_neg fun hroom => by simpa using hsome.mpr hroom]
  | some p' =>
    rw [h] at hsome
    rw [if_pos (hsome.mp rfl)]
    obtain ⟨-, -, hlen, -, hbytes, -⟩ := pbufAddHeader_spec hp h
    rw [hsize] at hlen hbytes
    simp only []
    congr 3
    have htype : (le16 (lwipHtons ethType)).length = 2 := rfl
    have hdst : (List.ofFn dst).length = 6 := List.length_ofFn
    have hsrc : (List.ofFn src).length = 6 := List.length_ofFn
    have hlong : 14 ≤ p'.bytes.length := by
      rw [Pkt.bytes_eq, List.length_append, List.length_map, List.length_range]
      omega
    have htail : (p'.store 12 (le16 (lwipHtons ethType))).bytes.drop 12 =
        le16 (lwipHtons ethType) ++ p.bytes := by
      rw [Pkt.bytes_store (by omega), List.append_assoc, htype, hbytes]
      exact List.drop_left' (by rw [List.length_take]; omega)
    rw [Pkt.bytes_store (by rw [hsrc]; dsimp only [Pkt.store_len]; omega),
      Pkt.bytes_store (by rw [hdst]; dsimp only [Pkt.store_len]; omega), hsrc, hdst, List.take_zero,
      List.nil_append, List.take_left' hdst, Nat.zero_add, ← List.drop_drop, List.drop_left' hdst,
      List.drop_drop, htail, ethFrame, List.append_assoc _ _ p.bytes]

end Bytes

end EthernetPing
