import EthernetPing.Net.Etharp

/-!
# Echo requests

What `icmp_input` hands to IP in answer to a packet. The checksum of a request is not summed up
anew for the answer but adjusted to the change of the type.
-/

namespace EthernetPing

def iphHlBytes (vHl : UInt8) : UInt16 := ((vHl &&& 0x0f) * 4).toUInt16

def ipHlen : UInt16 := 20

def icmpEr : UInt8 := 0

def icmpEcho : UInt8 := 8

def icmpTtl : UInt8 := 255

/-- `sizeof(struct icmp_echo_hdr)` -/
def sizeofIcmpEchoHdr : UInt16 := 8

/-- The header in front of the payload, to which `ip4_current_header` points. -/
def iphdrIn (p : Pkt) (hlen : UInt16) : List UInt8 :=
  (List.range hlen.toNat).map fun i => p.area (p.off - hlen.toNat + i)

/-- The part of `icmp_input` that makes sure of the room for the link header: the packet itself,
or a copy of it. -/
def icmpRoom (p : Pkt) (hlen : UInt16) (ram : Option (ℕ → UInt8)) : Option Pkt :=
  match pbufAddHeader p (hlen + pbufLink) with
  | some p => pbufRemoveHeader p (hlen + pbufLink)
  | none =>
    let allocLen := p.totLen + hlen
    if allocLen < p.totLen then none
    else
      (pbufAllocRam pbufLink allocLen ram).bind fun r =>
        if r.len < hlen + sizeofIcmpEchoHdr then none
        else
          (pbufRemoveHeader (r.store 0 (iphdrIn p hlen)) hlen).bind fun r =>
            let (ok, r) := pbufCopyPartialPbuf r p.chain p.totLen 0
            if ok then some r else none

/-- The checksum of an answer. -/
def adjustChksum (chksum : UInt16) : UInt16 :=
  if lwipHtons ((0xffff : UInt16) - (icmpEcho.toUInt16 <<< 8)) < chksum then
    chksum + lwipHtons (icmpEcho.toUInt16 <<< 8) + 1
  else chksum + lwipHtons (icmpEcho.toUInt16 <<< 8)

/-- The answer is made of the request; `odd` tells whether its header begins at an odd address. -/
def icmpReply (odd : Bool) (p : Pkt) (hlen : UInt16) (src dest : UInt32) : Option Pkt :=
  (pbufAddHeader p hlen).map fun q =>
    let q := q.store 12 (ip4Bytes dest)
    let q := q.store 16 (ip4Bytes src)
    let q := q.store hlen.toNat [icmpEr]
    let q := q.store (hlen.toNat + 2) (le16 (adjustChksum (field16 p.payload 2)))
    let q := q.store 8 [icmpTtl]
    let q := q.store 10 (le16 0)
    q.store 10 (le16 (inetChksum odd ((List.range hlen.toNat).map q.payload)))

/-- `icmp_input` for a packet from `src` to `dest`, with the first byte of its IP header: the packet
that is handed to `ip4_output_if`, if any. -/
def icmpInput (n : NetifIp) (odd : Bool) (odds : Pbuf → Bool) (p : Pkt) (vHl : UInt8)
    (src dest : UInt32) (ram : Option (ℕ → UInt8)) : Option Pkt :=
  let hlen := iphHlBytes vHl
  if hlen < ipHlen then none
  else if p.len < 4 then none
  else if p.payload 0 ≠ icmpEcho then none
  else if ip4AddrIsmulticast dest then none
  else if ip4AddrIsbroadcast dest n then none
  else if p.totLen < sizeofIcmpEchoHdr then none
  else if inetChksumPbuf odds p.chain ≠ 0 then none
  else (icmpRoom p hlen ram).bind fun p => icmpReply odd p hlen src dest

/-- The list with `bs` in the place of the elements from `i` on. -/
def splice (l : List UInt8) (i : ℕ) (bs : List UInt8) : List UInt8 :=
  l.take i ++ bs ++ l.drop (i + bs.length)

/-- The IP header of the answer to a packet with the header `hdr`. -/
def answerHeader (hdr : List UInt8) (src dest : UInt32) (chksum : UInt16) : List UInt8 :=
  hdr.take 8 ++ [icmpTtl] ++ (hdr.drop 9).take 1 ++ le16 chksum ++ ip4Bytes dest ++ ip4Bytes src ++
    hdr.drop 20

/-- The answer to the message `msg`. -/
def answerMessage (msg : List UInt8) (chksum : UInt16) : List UInt8 :=
  [icmpEr] ++ (msg.drop 1).take 1 ++ le16 chksum ++ msg.drop 4

section Splices

variable {hdr msg bs : List UInt8} {i j : ℕ} {q : Pkt}

theorem length_splice (hi : i + bs.length ≤ hdr.length) :
    (splice hdr i bs).length = hdr.length := by
  rw [splice, List.length_append, List.length_append, List.length_take, List.length_drop]
  omega

theorem splice_append_left (hi : i + bs.length ≤ hdr.length) :
    splice (hdr ++ msg) i bs = splice hdr i bs ++ msg := by
  rw [splice, splice, List.take_append_of_le_length (by omega),
    List.drop_append_of_le_length hi, List.append_assoc _ _ msg]

theorem splice_append_right :
    splice (hdr ++ msg) (hdr.length + j) bs = hdr ++ splice msg j bs := by
  rw [splice, splice, List.take_length_add_append, Nat.add_assoc, List.drop_length_add_append,
    List.append_assoc, List.append_assoc, List.append_assoc]

/-- A header of `k` bytes and the first bytes of the message lie in the first buffer. -/
structure Pkt.Laid (q : Pkt) (k : ℕ) (hdr msg : List UInt8) : Prop where
  bytes : q.bytes = hdr ++ msg
  length : hdr.length = k
  first : k + 4 ≤ q.len.toNat

theorem Pkt.Laid.header {k : ℕ} (h : q.Laid k hdr msg) (hi : i + bs.length ≤ k) :
    (q.store i bs).Laid k (splice hdr i bs) msg where
  bytes := by
    have hfirst := h.first
    rw [bytes_store (by omega), h.bytes]
    exact splice_append_left (h.length ▸ hi)
  length := (length_splice (h.length ▸ hi)).trans h.length
  first := h.first

theorem Pkt.Laid.message {k : ℕ} (h : q.Laid k hdr msg) (hj : j + bs.length ≤ 4) :
    (q.store (k + j) bs).Laid k hdr (splice msg j bs) where
  bytes := by
    have hfirst := h.first
    rw [bytes_store (by omega), h.bytes, ← h.length]
    exact splice_append_right
  length := h.length
  first := h.first

theorem exists_front (hlen : 20 ≤ hdr.length) :
    ∃ (f : Fin 20 → UInt8) (opts : List UInt8), hdr = List.ofFn f ++ opts := by
  refine ⟨fun i => hdr[i], hdr.drop 20, ?_⟩
  have hfront : (List.ofFn fun i : Fin 20 => hdr[i]) = hdr.take 20 := by
    apply List.ext_getElem
    · rw [List.length_ofFn, List.length_take, Nat.min_eq_left hlen]
    · intro i h₁ h₂
      rw [List.getElem_ofFn, List.getElem_take]
      rfl
  rw [hfront, List.take_append_drop]

theorem splice_header (hlen : 20 ≤ hdr.length) (src dest : UInt32) (w : UInt16) :
    splice (splice (splice (splice hdr 12 (ip4Bytes dest)) 16 (ip4Bytes src)) 8 [icmpTtl]) 10
      (le16 w) = answerHeader hdr src dest w := by
  obtain ⟨f, opts, rfl⟩ := exists_front hlen
  simp only [List.ofFn_succ, List.ofFn_zero]
  rfl

theorem splice_answerHeader (hlen : 20 ≤ hdr.length) (src dest : UInt32) (v w : UInt16) :
    splice (answerHeader hdr src dest v) 10 (le16 w) = answerHeader hdr src dest w := by
  obtain ⟨f, opts, rfl⟩ := exists_front hlen
  simp only [List.ofFn_succ, List.ofFn_zero]
  rfl

theorem answerHeader_sum (hlen : 20 ≤ hdr.length) (src dest : UInt32) :
    ~~~ onesSum (answerHeader hdr src dest (~~~ onesSum (answerHeader hdr src dest 0))) = 0 := by
  have hparts (w : UInt16) : answerHeader hdr src dest w =
      (hdr.take 8 ++ [icmpTtl] ++ (hdr.drop 9).take 1) ++ le16 w ++
        (ip4Bytes dest ++ ip4Bytes src ++ hdr.drop 20) := by
    simp only [answerHeader, List.append_assoc]
  have hfront : (hdr.take 8 ++ [icmpTtl] ++ (hdr.drop 9).take 1).length = 10 := by
    simp
    omega
  rw [hparts (~~~ _)]
  exact onesSum_filled (by rw [hfront]) (by rw [hparts])

theorem splice_message (hlen : 4 ≤ msg.length) (w : UInt16) :
    splice (splice msg 0 [icmpEr]) 2 (le16 w) = answerMessage msg w := by
  rcases msg with _ | ⟨m₀, _ | ⟨m₁, _ | ⟨m₂, _ | ⟨m₃, msg⟩⟩⟩⟩
  · cases hlen
  · simp at hlen
  · simp at hlen
  · simp at hlen
  · rfl

end Splices

section Checksums

variable {msg : List UInt8}

theorem toNat_adjustChksum (c : UInt16) :
    (adjustChksum c).toNat = if 0xfff7 < c.toNat then c.toNat + 9 - 65536 else c.toNat + 8 := by
  have hc := c.toNat_lt
  have hlimit : lwipHtons ((0xffff : UInt16) - (icmpEcho.toUInt16 <<< 8)) = 0xfff7 := by decide
  have hadd : lwipHtons (icmpEcho.toUInt16 <<< 8) = 8 := by decide
  rw [adjustChksum, hlimit, hadd]
  simp only [UInt16.lt_iff_toNat_lt]
  change (if 0xfff7 < c.toNat then c + 8 + 1 else c + 8).toNat = _
  split_ifs with hlt
  · rw [UInt16.toNat_add, UInt16.toNat_add]
    change ((c.toNat + 8) % 65536 + 1) % 65536 = _
    omega
  · rw [UInt16.toNat_add]
    change (c.toNat + 8) % 65536 = _
    omega

/-- The checksum of the answer is right if that of the request is. -/
theorem answerMessage_sum {m₁ m₂ m₃ : UInt8}
    (hsum : ~~~ onesSum (icmpEcho :: m₁ :: m₂ :: m₃ :: msg) = 0) :
    ~~~ onesSum (answerMessage (icmpEcho :: m₁ :: m₂ :: m₃ :: msg)
      (adjustChksum (ofLe16 m₂ m₃))) = 0 := by
  rw [onesSum_eq_iff] at hsum ⊢
  have hword := toNat_ofLe16 m₂ m₃
  have hadjust := toNat_adjustChksum (ofLe16 m₂ m₃)
  have hw := octets_le16 (adjustChksum (ofLe16 m₂ m₃))
  have hanswer : octets (answerMessage (icmpEcho :: m₁ :: m₂ :: m₃ :: msg)
      (adjustChksum (ofLe16 m₂ m₃))) = 256 * m₁.toNat +
        65536 * ((adjustChksum (ofLe16 m₂ m₃)).toNat + 65536 * octets msg) := by
    change octets (icmpEr :: m₁ :: (le16 (adjustChksum (ofLe16 m₂ m₃)) ++ msg)) = _
    rw [octets_cons, octets_cons, octets_append, hw, length_le16]
    change 0 + _ = _
    ring
  have hask : octets (icmpEcho :: m₁ :: m₂ :: m₃ :: msg) = 8 + 256 * m₁.toNat +
      65536 * ((ofLe16 m₂ m₃).toNat + 65536 * octets msg) := by
    rw [octets_cons, octets_cons, octets_cons, octets_cons, hword]
    change 8 + _ = _
    ring
  rw [hanswer]
  rw [hask] at hsum
  have hc := (ofLe16 m₂ m₃).toNat_lt
  split_ifs at hadjust <;> omega

end Checksums

section Answers

variable {n : NetifIp} {odd : Bool} {odds : Pbuf → Bool} {p q : Pkt} {hlen : UInt16} {vHl : UInt8}
  {src dest : UInt32} {ram : Option (ℕ → UInt8)}

theorem iphHlBytes_le (vHl : UInt8) : (iphHlBytes vHl).toNat ≤ 60 := by
  have hlow : (vHl &&& 0x0f).toNat = vHl.toNat % 16 := by
    rw [UInt8.toNat_and]
    exact Nat.and_two_pow_sub_one_eq_mod vHl.toNat 4
  rw [iphHlBytes, UInt8.toNat_toUInt16, UInt8.toNat_mul, hlow]
  change vHl.toNat % 16 * 4 % 256 ≤ 60
  omega

theorem length_iphdrIn (p : Pkt) (hlen : UInt16) : (iphdrIn p hlen).length = hlen.toNat := by
  rw [iphdrIn, List.length_map, List.length_range]

/-- The packet has not changed for the one that answers, which has room for the link header. -/
theorem icmpRoom_spec (hp : p.Ok) (hfull : p.Full) (hle : hlen.toNat ≤ 60)
    (h : icmpRoom p hlen ram = some q) :
    q.Ok ∧ q.bytes = p.bytes ∧ iphdrIn q hlen = iphdrIn p hlen ∧ hlen.toNat + 14 ≤ q.off ∧
      q.totLen = p.totLen ∧ p.len ≤ q.len ∧ q.Full := by
  have hsum : (hlen + pbufLink).toNat = hlen.toNat + 14 := by
    rw [UInt16.toNat_add]
    change (hlen.toNat + 14) % 65536 = _
    omega
  rw [icmpRoom] at h
  cases hadd : pbufAddHeader p (hlen + pbufLink) with
  | some p₁ =>
    rw [hadd] at h
    dsimp only at h
    obtain ⟨hok, hoff, hfirst, htot, hbytes, harea, hnext, -⟩ := pbufAddHeader_spec hp hadd
    obtain ⟨hok', hoff', hfirst', htot', hbytes', harea', hnext', -⟩ := pbufRemoveHeader_spec hok h
    have hback : q.off = p.off := hoff'.trans hoff
    refine ⟨hok', hbytes'.trans hbytes, by rw [iphdrIn, iphdrIn, hback, harea', harea], ?_,
      UInt16.toNat_inj.mp (by omega), UInt16.le_iff_toNat_le.mpr (by omega), ?_⟩
    · omega
    · rw [Pkt.Full, hnext', hnext]
      exact hfull
  | none =>
    rw [hadd] at h
    dsimp only at h
    split_ifs at h with hover
    obtain ⟨r, hr, h⟩ := Option.bind_eq_some_iff.mp h
    obtain ⟨hok, hoff, hrlen, hrtot, hnext⟩ := pbufAllocRam_spec hr
    split_ifs at h with hshort
    obtain ⟨r₁, hr₁, h⟩ := Option.bind_eq_some_iff.mp h
    obtain ⟨hok₁, hoff₁, hlen₁, htot₁, -, harea₁, hnext₁, -⟩ :=
      pbufRemoveHeader_spec (hok.store 0 _) hr₁
    have hadds : (p.totLen + hlen).toNat = p.totLen.toNat + hlen.toNat := by
      have htot := p.totLen.toNat_lt
      rw [UInt16.lt_iff_toNat_lt, UInt16.toNat_add] at hover
      rw [UInt16.toNat_add]
      omega
    rw [Pkt.store_len, hrlen, hadds] at hlen₁
    rw [Pkt.store_totLen, hrtot, hadds] at htot₁
    rw [Pkt.store_off, hoff] at hoff₁
    have hfit : r₁.len = p.totLen := UInt16.toNat_inj.mp (by omega)
    have hall := p.length_bytes hp
    rw [pbufCopyPartialPbuf_spec hp hfull hfit (UInt16.toNat_inj.mp (by omega))] at h
    cases h
    have hmove : (r₁.store 0 p.bytes).off = 16 + hlen.toNat := hoff₁
    refine ⟨hok₁.store 0 _, r₁.bytes_store_all (hnext₁.trans hnext) (by rw [hall, hfit]), ?_,
      by rw [hmove]; omega, UInt16.toNat_inj.mp (by rw [Pkt.store_totLen]; omega),
      by rw [Pkt.store_len, hfit]; exact UInt16.le_iff_toNat_le.mpr hp.len_le,
      fun b hb => absurd (hnext₁.trans hnext ▸ hb) List.not_mem_nil⟩
    -- the copy of the header is in front of the copy of the payload
    refine List.map_congr_left fun i hi => ?_
    rw [List.mem_range] at hi
    have hcopied : (iphdrIn p hlen).getD i 0 = p.area (p.off - hlen.toNat + i) := by
      rw [iphdrIn, List.getD_eq_getElem?_getD, List.getElem?_map, List.getElem?_range hi]
      rfl
    have hbehind : r₁.off = 16 + hlen.toNat := hoff₁
    rw [hmove, Nat.add_sub_cancel, Pkt.store_area, if_neg (by omega), harea₁, Pkt.store_area, hoff,
      length_iphdrIn]
    change (if 16 ≤ 16 + i ∧ 16 + i < 16 + hlen.toNat then
      (iphdrIn p hlen).getD (16 + i - 16) 0 else _) = _
    rw [if_pos (by omega), Nat.add_sub_cancel_left, hcopied]

theorem map_range_payload (hle : hlen ≤ q.len) :
    (List.range hlen.toNat).map q.payload = q.bytes.take hlen.toNat := by
  have hle' := UInt16.le_iff_toNat_le.mp hle
  rw [Pkt.bytes_eq, List.take_append_of_le_length (by simpa using hle'), ← List.map_take,
    List.take_range, Nat.min_eq_left hle']

theorem Pkt.Laid.fill {hdr msg : List UInt8}
    (h : q.Laid hlen.toNat (answerHeader hdr src dest 0) msg) (hhdr : 20 ≤ hdr.length)
    (odd : Bool) :
    ∃ w, (q.store 10 (le16 (inetChksum odd ((List.range hlen.toNat).map q.payload)))).bytes =
        answerHeader hdr src dest w ++ msg ∧
      ~~~ onesSum (answerHeader hdr src dest w) = 0 := by
  have hlt := hlen.toNat_lt
  have hfirst := h.first
  have hle : hlen ≤ q.len := UInt16.le_iff_toNat_le.mpr (by omega)
  have hlong : 10 + 2 ≤ hlen.toNat := by
    have hlen := h.length
    have hall : 20 ≤ (answerHeader hdr src dest 0).length := by
      simp [answerHeader]
      omega
    omega
  have hsum : inetChksum odd ((List.range hlen.toNat).map q.payload) =
      ~~~ onesSum (answerHeader hdr src dest 0) := by
    rw [map_range_payload hle, h.bytes, List.take_left' h.length, inetChksum,
      lwipStandardChksum_eq odd (by rw [h.length]; omega)]
  refine ⟨_, ?_, answerHeader_sum hhdr src dest⟩
  rw [hsum, (h.header (by rwa [length_le16])).bytes, splice_answerHeader hhdr]

/-- The answer: an IP header with the addresses exchanged, and the message as it came but for the
type, both with a checksum. -/
theorem icmpReply_spec (hp : p.Ok) (hhdr : 20 ≤ hlen.toNat) (hfour : 4 ≤ p.len.toNat)
    (h : icmpReply odd p hlen src dest = some q) :
    q.Ok ∧ q.next = p.next ∧ q.off + hlen.toNat = p.off ∧ q.len.toNat = p.len.toNat + hlen.toNat ∧
      q.totLen.toNat = p.totLen.toNat + hlen.toNat ∧ ∃ w,
      q.bytes = answerHeader (iphdrIn p hlen) src dest w ++
        answerMessage p.bytes (adjustChksum (field16 p.payload 2)) ∧
      ~~~ onesSum (answerHeader (iphdrIn p hlen) src dest w) = 0 := by
  obtain ⟨q₀, hadd, hq⟩ := Option.map_eq_some_iff.mp h
  obtain ⟨hok, hoff, hlen₀, htot₀, hdrop, harea, hnext, -⟩ := pbufAddHeader_spec hp hadd
  have hfirst : q₀.bytes = iphdrIn p hlen ++ p.bytes := by
    have hle : hlen ≤ q₀.len := UInt16.le_iff_toNat_le.mpr (by omega)
    have htake := map_range_payload hle
    have hsame : (List.range hlen.toNat).map q₀.payload = iphdrIn p hlen :=
      List.map_congr_left fun i _ => by
        rw [Pkt.payload, harea, ← hoff, Nat.add_sub_cancel]
    rw [← hdrop, ← hsame, htake, List.take_append_drop]
  have hlong : 20 ≤ (iphdrIn p hlen).length := by rwa [length_iphdrIn]
  have hmsg : 4 ≤ p.bytes.length := by
    rw [p.length_bytes hp]
    exact hfour.trans hp.len_le
  have hlaid : q₀.Laid hlen.toNat (iphdrIn p hlen) p.bytes :=
    ⟨hfirst, length_iphdrIn p hlen, by omega⟩
  -- the fields, in the order in which they are written
  have hto := hlaid.header (by rw [length_ip4Bytes]; omega : 12 + (ip4Bytes dest).length ≤ _)
  have hfrom := hto.header (by rw [length_ip4Bytes]; omega : 16 + (ip4Bytes src).length ≤ _)
  have htype := hfrom.message (by decide : 0 + [icmpEr].length ≤ 4)
  have hchksum := htype.message
    (by rw [length_le16] : 2 + (le16 (adjustChksum (field16 p.payload 2))).length ≤ 4)
  have httl := hchksum.header (by rw [List.length_singleton]; omega : 8 + [icmpTtl].length ≤ _)
  have hall := httl.header (by rw [length_le16]; omega : 10 + (le16 0).length ≤ _)
  rw [splice_header hlong, splice_message hmsg] at hall
  obtain ⟨w, hbytes, hsum⟩ := hall.fill hlong odd
  subst hq
  exact ⟨hok, hnext, hoff, hlen₀, htot₀, w, hbytes, hsum⟩

theorem Pkt.bytes_four (hfour : 4 ≤ p.len.toNat) :
    p.bytes = p.payload 0 :: p.payload 1 :: p.payload 2 :: p.payload 3 :: p.bytes.drop 4 := by
  have htake := map_range_payload (UInt16.le_iff_toNat_le.mpr hfour : (4 : UInt16) ≤ p.len)
  have hfront : [p.payload 0, p.payload 1, p.payload 2, p.payload 3] = p.bytes.take 4 := htake
  conv_lhs => rw [← List.take_append_drop 4 p.bytes, ← hfront]
  rfl

/-- A proper echo request to one station. -/
structure EchoRequest (n : NetifIp) (p : Pkt) (hlen : UInt16) (dest : UInt32) : Prop where
  header : ipHlen ≤ hlen
  first : 4 ≤ p.len
  whole : sizeofIcmpEchoHdr ≤ p.totLen
  type : p.payload 0 = icmpEcho
  sum : ~~~ onesSum p.bytes = 0
  notMulticast : ip4AddrIsmulticast dest = false
  notBroadcast : ip4AddrIsbroadcast dest n = false

theorem icmpInput_eq_some : icmpInput n odd odds p vHl src dest ram = some q ↔
    EchoRequest n p (iphHlBytes vHl) dest ∧ ((icmpRoom p (iphHlBytes vHl) ram).bind fun p =>
      icmpReply odd p (iphHlBytes vHl) src dest) = some q := by
  have hbytes : chainBytes p.chain = p.bytes := rfl
  rw [icmpInput, inetChksumPbuf_eq, hbytes]
  constructor
  · intro h
    split_ifs at h with hhlen hlen htype hmulti hbroad hecho hsum
    exact ⟨⟨UInt16.not_lt.mp hhlen, UInt16.not_lt.mp hlen, UInt16.not_lt.mp hecho,
      not_ne_iff.mp htype, not_ne_iff.mp hsum, Bool.eq_false_iff.mpr hmulti,
      Bool.eq_false_iff.mpr hbroad⟩, h⟩
  · rintro ⟨hask, h⟩
    rwa [if_neg (UInt16.not_lt.mpr hask.header), if_neg (UInt16.not_lt.mpr hask.first),
      if_neg (not_ne_iff.mpr hask.type), if_neg (Bool.eq_false_iff.mp hask.notMulticast),
      if_neg (Bool.eq_false_iff.mp hask.notBroadcast), if_neg (UInt16.not_lt.mpr hask.whole),
      if_neg (not_ne_iff.mpr hask.sum)]

/-- `q` is the echo of the request `p`: it goes back where the request came from, with the same
message, and with right checksums. -/
structure Answers (hlen : UInt16) (p : Pkt) (src dest : UInt32) (q : Pkt) : Prop where
  ok : q.Ok
  full : q.Full
  /-- The Ethernet header fits in front. -/
  room : 14 ≤ q.off
  first : hlen.toNat ≤ q.len.toNat
  total : q.totLen.toNat = p.totLen.toNat + hlen.toNat
  echo : ∃ w w', q.bytes = answerHeader (iphdrIn p hlen) src dest w ++ answerMessage p.bytes w' ∧
    ~~~ onesSum (answerHeader (iphdrIn p hlen) src dest w) = 0 ∧
    ~~~ onesSum (answerMessage p.bytes w') = 0

theorem EchoRequest.answer (hask : EchoRequest n p hlen dest) (hle : hlen.toNat ≤ 60) (hp : p.Ok)
    (hfull : p.Full)
    (h : ((icmpRoom p hlen ram).bind fun p => icmpReply odd p hlen src dest) = some q) :
    Answers hlen p src dest q := by
  obtain ⟨p₁, hroom, hreply⟩ := Option.bind_eq_some_iff.mp h
  obtain ⟨hok, hbytes, hhdr, hoff, htot, hfirst, hfull'⟩ := icmpRoom_spec hp hfull hle hroom
  have hshort := UInt16.le_iff_toNat_le.mp hask.first
  have hfour : 4 ≤ p₁.len.toNat := hshort.trans (UInt16.le_iff_toNat_le.mp hfirst)
  obtain ⟨hok', hnext, hoff', hlen', htot', w, hall, hheader⟩ :=
    icmpReply_spec hok (UInt16.le_iff_toNat_le.mp hask.header) hfour hreply
  have hbytes₁ := p₁.bytes_four hfour
  have hbytes₀ := p.bytes_four hshort
  rw [hbytes] at hbytes₁ hall
  rw [hhdr] at hall hheader
  have htype : p₁.payload 0 = icmpEcho :=
    (List.cons.inj (hbytes₁.symm.trans hbytes₀)).1.trans hask.type
  rw [htype] at hbytes₁
  have hfull₁ : q.Full := by
    rw [Pkt.Full, hnext]
    exact hfull'
  refine ⟨hok', hfull₁, by omega, by omega, by rw [htot', htot], w, _, hall, hheader, ?_⟩
  have hsum := hask.sum
  rw [hbytes₁] at hsum ⊢
  exact answerMessage_sum hsum

theorem icmpRoom_isSome (hp : p.Ok) (hroom : hlen.toNat + 14 ≤ p.off)
    (htot : p.totLen.toNat + hlen.toNat + 14 < 65536) : ∃ p₁, icmpRoom p hlen ram = some p₁ := by
  have hsum : (hlen + pbufLink).toNat = hlen.toNat + 14 := by
    rw [UInt16.toNat_add]
    change (hlen.toNat + 14) % 65536 = _
    omega
  obtain ⟨p₁, hadd⟩ := Option.isSome_iff_exists.mp
    ((pbufAddHeader_isSome p (hlen + pbufLink)).mpr (Or.inr ⟨by omega, by omega⟩))
  obtain ⟨-, -, hfirst, -⟩ := pbufAddHeader_spec hp hadd
  have hle : hlen + pbufLink ≤ p₁.len := UInt16.le_iff_toNat_le.mpr (by omega)
  rw [icmpRoom, hadd]
  exact ⟨_, if_pos hle⟩

/-- Only proper requests are answered, and each of them if there is room for the headers; the
answer to a request is its echo, wherever its room comes from. -/
theorem icmpInput_echo (n : NetifIp) (odd : Bool) (odds : Pbuf → Bool) (hp : p.Ok) (hfull : p.Full)
    (vHl : UInt8) (src dest : UInt32) (ram : Option (ℕ → UInt8)) :
    let hlen := iphHlBytes vHl
    (∀ q, icmpInput n odd odds p vHl src dest ram = some q →
      EchoRequest n p hlen dest ∧ Answers hlen p src dest q) ∧
    (EchoRequest n p hlen dest → hlen.toNat + 14 ≤ p.off →
      p.totLen.toNat + hlen.toNat + 14 < 65536 →
      (icmpInput n odd odds p vHl src dest ram).isSome) := by
  intro hlen
  refine ⟨fun q h => ?_, fun hask hroom htot => ?_⟩
  · obtain ⟨hask, hbind⟩ := icmpInput_eq_some.mp h
    exact ⟨hask, hask.answer (iphHlBytes_le vHl) hp hfull hbind⟩
  · obtain ⟨p₁, hp₁⟩ := icmpRoom_isSome hp hroom htot
    obtain ⟨-, -, -, hoff, hsame, -⟩ := icmpRoom_spec hp hfull (iphHlBytes_le vHl) hp₁
    change hlen.toNat + 14 ≤ p₁.off at hoff
    have hreply : (icmpReply odd p₁ hlen src dest).isSome := by
      rw [icmpReply, Option.isSome_map, pbufAddHeader_isSome, hsame]
      exact Or.inr ⟨by omega, by omega⟩
    obtain ⟨q, hq⟩ := Option.isSome_iff_exists.mp hreply
    rw [icmpInput_eq_some.mpr ⟨hask, Option.bind_eq_some_iff.mpr ⟨p₁, hp₁, hq⟩⟩]
    rfl

/-- An echo request from 192.168.1.5 to 192.168.1.100 as the driver takes it in. -/
def benchPing : Pkt where
  area i := [0, 0, 0, 0, 0, 0, 0, 0, 0, 0, 0, 0, 0, 0,
    0x45, 0, 0, 30, 0, 0, 0, 0, 64, 1, 0, 0, 192, 168, 1, 5, 192, 168, 1, 100,
    8, 0, 0x84, 0x88, 0, 0, 0, 0, 0x73, 0x77].getD i 0
  off := 34
  len := 10
  totLen := 10
  next := []
  isRef := false

theorem icmpInput_echo_bench :
    let n := encNetif ![2, 0, 0, 0, 0, 1]
    let hlen := iphHlBytes 0x45
    (∀ q, icmpInput n false (fun _ => false) benchPing 0x45 0x0501a8c0 0x6401a8c0 none = some q →
      EchoRequest n benchPing hlen 0x6401a8c0 ∧ Answers hlen benchPing 0x0501a8c0 0x6401a8c0 q) ∧
    (EchoRequest n benchPing hlen 0x6401a8c0 → hlen.toNat + 14 ≤ benchPing.off →
      benchPing.totLen.toNat + hlen.toNat + 14 < 65536 →
      (icmpInput n false (fun _ => false) benchPing 0x45 0x0501a8c0 0x6401a8c0 none).isSome) :=
  icmpInput_echo (p := benchPing) _ _ _ ⟨rfl, trivial⟩ (fun _ hq => absurd hq List.not_mem_nil)
    _ _ _ _

/-- That request is answered. -/
example : (icmpInput (encNetif ![2, 0, 0, 0, 0, 1]) false (fun _ => false) benchPing 0x45 0x0501a8c0
    0x6401a8c0 none).isSome = true := by decide

end Answers

end EthernetPing
