import EthernetPing.Net.Icmp
import EthernetPing.Net.Chain

/-!
# IP packets

What `ip4_input` takes off the wire: it trims a packet to the length in its header, and hands its
payload on if the header is right and the packet is for this interface.
-/

namespace EthernetPing

def ip4InputAccept (n : NetifIp) (dest : UInt32) : Bool :=
  netifIsUp n && !ip4AddrIsany n.ipAddr && (dest == n.ipAddr || ip4AddrIsbroadcast dest n)

/-- `pbuf_realloc` on a packet. -/
def pbufReallocPkt (p : Pkt) (newLen : UInt16) : Pkt :=
  match pbufRealloc p.chain newLen with
  | [] => p
  | q :: qs => { p with len := q.len, totLen := q.totLen, next := qs }

/-- What `ip4_input` hands to an upper layer: the payload, the first byte of the header, the
protocol and the addresses. -/
structure Datagram where
  p : Pkt
  vHl : UInt8
  proto : UInt8
  src : UInt32
  dest : UInt32

/-- The packet is a fragment: `IP_OFFMASK | IP_MF`. -/
def isFragment (p : Pkt) : Bool := field16 p.payload 6 &&& lwipHtons (0x1fff ||| 0x2000) != 0

/-- The interface that takes a packet is the one it came to, or there is none. -/
def ip4ForUs (n : NetifIp) (dest : UInt32) : Bool :=
  if ip4AddrIsmulticast dest then netifIsUp n && !ip4AddrIsany n.ipAddr else ip4InputAccept n dest

/-- `ip4_input`; `reass` is what `ip4_reass` answers if the packet is a fragment, and `odd` tells
whether the header begins at an odd address. -/
def ip4Input (n : NetifIp) (odd : Bool) (p : Pkt) (reass : Option Pkt) : Option Datagram :=
  if p.payload 0 >>> 4 ≠ 4 then none
  else
    let hlen := iphHlBytes (p.payload 0)
    let len := lwipHtons (field16 p.payload 2)
    let p := if len < p.totLen then pbufReallocPkt p len else p
    if p.len < hlen ∨ p.totLen < len ∨ hlen < ipHlen then none
    else if inetChksum odd ((List.range hlen.toNat).map p.payload) ≠ 0 then none
    else
      let dest := field32 p.payload 16
      let src := field32 p.payload 12
      if ip4AddrIsbroadcast src n ∨ ip4AddrIsmulticast src then none
      else if ¬ ip4ForUs n dest then none
      else
        (if isFragment p then reass else some p).map fun p =>
          { p := (pbufRemoveHeader p hlen).getD p, vHl := p.payload 0, proto := p.payload 9,
            src := src, dest := dest }

section Realloc

variable {p : Pkt} {newLen : UInt16}

theorem sub_ne_zero_of_lt {a b : UInt16} (hlt : b < a) : a - b ≠ 0 := fun h₀ => by
  have hsub := UInt16.toNat_sub_of_le _ _ (UInt16.le_of_lt hlt)
  have hlt' := UInt16.lt_iff_toNat_lt.mp hlt
  rw [h₀, UInt16.toNat_zero] at hsub
  omega

theorem pbufReallocLoop_full {shrink : UInt16} {qs : List Pbuf} (hfull : ∀ q ∈ qs, q.len ≠ 0)
    {remLen : UInt16} (hrem : remLen ≠ 0) : ∀ q ∈ pbufReallocLoop shrink qs remLen, q.len ≠ 0 := by
  induction qs generalizing remLen with
  | nil => exact fun q hq => absurd hq List.not_mem_nil
  | cons q qs ih =>
    rw [pbufReallocLoop]
    split_ifs with hlt
    · intro b hb
      rcases List.mem_cons.mp hb with rfl | hb
      · exact hfull q List.mem_cons_self
      · exact ih (fun b hb => hfull b (List.mem_cons_of_mem q hb)) (sub_ne_zero_of_lt hlt) b hb
    · intro b hb
      rw [List.mem_singleton.mp hb]
      exact hrem

theorem pbufRealloc_chain (p : Pkt) (newLen : UInt16) (hfull : p.Full) :
    ∃ t l qs, pbufRealloc p.chain newLen = ⟨p.payload, t, l⟩ :: qs ∧ ∀ q ∈ qs, q.len ≠ 0 := by
  have hchain : p.chain = ⟨p.payload, p.totLen, p.len⟩ :: p.next := rfl
  rw [pbufRealloc, hchain, pbufReallocLoop]
  split_ifs with hle hlt
  · exact ⟨_, _, _, rfl, hfull⟩
  · exact ⟨_, _, _, rfl, pbufReallocLoop_full hfull (sub_ne_zero_of_lt hlt)⟩
  · exact ⟨_, _, _, rfl, fun q hq => absurd hq List.not_mem_nil⟩

theorem pbufReallocPkt_spec (hp : p.Ok) (hfull : p.Full) (hlen : newLen.toNat ≤ p.bytes.length) :
    (pbufReallocPkt p newLen).Ok ∧ (pbufReallocPkt p newLen).Full ∧
      (pbufReallocPkt p newLen).bytes = p.bytes.take newLen.toNat ∧
      (pbufReallocPkt p newLen).payload = p.payload ∧ (pbufReallocPkt p newLen).off = p.off ∧
      (pbufReallocPkt p newLen).area = p.area := by
  obtain ⟨hok, hbytes⟩ := pbufRealloc_spec hp hlen
  obtain ⟨t, l, qs, hcut, hqs⟩ := pbufRealloc_chain p newLen hfull
  rw [hcut] at hok hbytes
  have hpkt : pbufReallocPkt p newLen = { p with len := l, totLen := t, next := qs } := by
    rw [pbufReallocPkt, hcut]
  rw [hpkt]
  exact ⟨hok, hqs, hbytes, rfl, rfl, rfl⟩

end Realloc

/-- The datagram `d` is the payload of the packet `p` as far as its header says, and the fields are
those of the header. -/
structure Delivered (n : NetifIp) (p : Pkt) (d : Datagram) : Prop where
  ok : d.p.Ok
  full : d.p.Full
  vHl : d.vHl = p.payload 0
  proto : d.proto = p.payload 9
  src : d.src = field32 p.payload 12
  dest : d.dest = field32 p.payload 16
  /-- The header lies in front of the payload. -/
  hdr : iphdrIn d.p (iphHlBytes d.vHl) = (List.range (iphHlBytes d.vHl).toNat).map p.payload
  version : d.vHl >>> 4 = 4
  header : ipHlen ≤ iphHlBytes d.vHl
  whole : (lwipHtons (field16 p.payload 2)).toNat ≤ p.bytes.length
  bytes : p.bytes.take (lwipHtons (field16 p.payload 2)).toNat =
    iphdrIn d.p (iphHlBytes d.vHl) ++ d.p.bytes
  sum : ~~~ onesSum (iphdrIn d.p (iphHlBytes d.vHl)) = 0
  /-- The sender is one station. -/
  source : ip4AddrIsbroadcast d.src n = false ∧ ip4AddrIsmulticast d.src = false
  forUs : ip4ForUs n d.dest = true

section Input

variable {n : NetifIp} {odd : Bool} {p : Pkt} {reass : Option Pkt} {d : Datagram}

theorem trimmed_spec (hp : p.Ok) (hfull : p.Full) (len : UInt16) {p₁ : Pkt}
    (h : p₁ = if len < p.totLen then pbufReallocPkt p len else p) :
    p₁.Ok ∧ p₁.Full ∧ p₁.payload = p.payload ∧
      (len ≤ p₁.totLen → len.toNat ≤ p.bytes.length ∧ p.bytes.take len.toNat = p₁.bytes) := by
  have hall := p.length_bytes hp
  split_ifs at h with hlt <;> subst h
  · have hle : len.toNat ≤ p.bytes.length := hall ▸ (UInt16.lt_iff_toNat_lt.mp hlt).le
    obtain ⟨hok, hfull', hbytes, hpayload, -⟩ := pbufReallocPkt_spec hp hfull hle
    exact ⟨hok, hfull', hpayload, fun _ => ⟨hle, hbytes.symm⟩⟩
  · have hge := UInt16.le_iff_toNat_le.mp (UInt16.not_lt.mp hlt)
    refine ⟨hp, hfull, rfl, fun hle => ⟨hall ▸ UInt16.le_iff_toNat_le.mp hle, ?_⟩⟩
    exact List.take_of_length_le (hall ▸ hge)

/-- What `ip4_input` hands on is right. -/
theorem ip4Input_delivered (hp : p.Ok) (hfull : p.Full) (hfrag : isFragment p = false)
    (h : ip4Input n odd p reass = some d) : Delivered n p d := by
  rw [ip4Input] at h
  dsimp only at h
  generalize htrim : (if lwipHtons (field16 p.payload 2) < p.totLen then
    pbufReallocPkt p (lwipHtons (field16 p.payload 2)) else p) = p₁ at h
  obtain ⟨hok, hfull₁, hpayload, htake⟩ := trimmed_spec hp hfull _ htrim.symm
  have hwhole : isFragment p₁ = false := by rw [isFragment, hpayload]; exact hfrag
  rw [hwhole, if_neg Bool.false_ne_true, Option.map_some, hpayload] at h
  split_ifs at h with hversion hshort hsum hsource hus
  rw [not_or, not_or, UInt16.not_lt, UInt16.not_lt, UInt16.not_lt] at hshort
  rw [not_ne_iff] at hversion hsum
  rw [not_or, Bool.not_eq_true, Bool.not_eq_true] at hsource
  obtain ⟨hfirst, htot, hhlen⟩ := hshort
  obtain ⟨hle, hbytes⟩ := htake htot
  cases h
  have hremove : ∃ q, pbufRemoveHeader p₁ (iphHlBytes (p.payload 0)) = some q :=
    ⟨_, if_pos hfirst⟩
  obtain ⟨q, hq⟩ := hremove
  obtain ⟨hok', hoff, -, -, hdrop, harea, hnext, -⟩ := pbufRemoveHeader_spec hok hq
  have hhdr : iphdrIn q (iphHlBytes (p.payload 0)) =
      p₁.bytes.take (iphHlBytes (p.payload 0)).toNat := by
    rw [← map_range_payload hfirst]
    refine List.map_congr_left fun i _ => ?_
    rw [hoff, Nat.add_sub_cancel, harea]
    rfl
  have hmap := map_range_payload hfirst
  rw [hpayload] at hmap
  have hchksum : ~~~ onesSum (iphdrIn q (iphHlBytes (p.payload 0))) = 0 := by
    have hlt := (iphHlBytes (p.payload 0)).toNat_lt
    have hshort : (iphdrIn q (iphHlBytes (p.payload 0))).length ≤ 0x20000 := by
      rw [length_iphdrIn]
      omega
    rwa [hmap, ← hhdr, inetChksum, lwipStandardChksum_eq odd hshort] at hsum
  refine ⟨?_, ?_, rfl, rfl, rfl, rfl, ?_, hversion, hhlen, hle, ?_, ?_, hsource,
    by simpa using hus⟩ <;> dsimp only <;> rw [hq, Option.getD_some]
  · exact hok'
  · rw [Pkt.Full, hnext]
    exact hfull₁
  · rw [hhdr, hmap]
  · rw [hbytes, hhdr, hdrop, List.take_append_drop]
  · exact hchksum

end Input

end EthernetPing
