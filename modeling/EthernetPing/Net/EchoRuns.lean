import EthernetPing.Net.EtharpRuns
import EthernetPing.Net.Ip4

/-!
# Runs of the echo server

What the station sends when frames with ARP and ICMP messages come in any order: every IP packet
on the wire is the echo of a request that came before, on its way back to where that came from.
-/

namespace EthernetPing

/-- `ip4_output_if` with `LWIP_IP_HDRINCL`: the address that `etharp_output` sends the packet to.
It is `none` for a packet that is too short, or so long that it goes to `ip4_frag`. -/
def ip4OutputIf (n : NetifIp) (p : Pkt) : Option UInt32 :=
  if p.len < ipHlen then none
  else if n.mtu ≠ 0 ∧ n.mtu < p.totLen then none
  else some (field32 p.payload 16)

/-- What comes in: an ARP message, an ICMP message with the first byte and the addresses of its IP
header, or a tick of the ARP timer. -/
inductive Arrival where
  | arp (m : ArpMessage)
  | icmp (p : Pkt) (vHl : UInt8) (src dest : UInt32) (ram : Option (ℕ → UInt8))
  | tmr

/-- What a frame contains. -/
inductive EthPayload where
  | ip (p : Pkt)
  | arp (m : ArpMessage)

/-- `ethernet_input`: what a frame brings to `ip4_input` or `etharp_input`. -/
def ethernetInput (n : NetifIp) (p : Pkt) : Option EthPayload :=
  if p.len ≤ sizeofEthHdr then none
  else if field16 p.payload 12 = lwipHtons ethtypeIp then
    if n.flags &&& 0x08 = 0 then none else (pbufRemoveHeader p sizeofEthHdr).map .ip
  else if field16 p.payload 12 = lwipHtons ethtypeArp then
    if n.flags &&& 0x08 = 0 then none
    else (pbufRemoveHeader p sizeofEthHdr).map fun p => .arp (arpMessage p.payload)
  else none

def ipProtoIcmp : UInt8 := 1

/-- A frame, and what `mem_malloc` will answer to `icmp_input`. -/
structure Received where
  p : Pkt
  ram : Option (ℕ → UInt8)

/-- What a frame brings to `etharp_input` or `icmp_input`. Packets for other protocols and
fragments are not followed. -/
def Received.arrivals (n : NetifIp) (odd : Bool) (f : Received) : List Arrival :=
  match ethernetInput n f.p with
  | none => []
  | some (.arp m) => [.arp m]
  | some (.ip p) =>
    match ip4Input n odd p none with
    | none => []
    | some d => if d.proto = ipProtoIcmp then [.icmp d.p d.vHl d.src d.dest f.ram] else []

/-- A chain of one frame that is no longer than the MTU. An IP packet in it is an ICMP message and
no fragment. -/
def Received.Fits (n : NetifIp) (f : Received) : Prop :=
  f.p.Ok ∧ f.p.Full ∧ (n.mtu ≠ 0 → f.p.totLen ≤ n.mtu) ∧
    ∀ p, ethernetInput n f.p = some (.ip p) → p.payload 9 = ipProtoIcmp ∧ isFragment p = false

/-- What the station takes notice of: a frame, or a tick of the ARP timer. -/
inductive Incoming where
  | frame (f : Received)
  | tmr

def Incoming.arrivals (n : NetifIp) (odd : Bool) : Incoming → List Arrival
  | .frame f => f.arrivals n odd
  | .tmr => [.tmr]

def Incoming.Fits (n : NetifIp) : Incoming → Prop
  | .frame f => f.Fits n
  | .tmr => True

/-- What the address resolution sees of it. -/
def Arrival.events (n : NetifIp) (odd : Bool) (odds : Pbuf → Bool) : Arrival → List ArpEvent
  | .arp m => [.input m]
  | .icmp p vHl src dest ram =>
    ((icmpInput n odd odds p vHl src dest ram).bind fun q =>
      (ip4OutputIf n q).map (ArpEvent.output q)).toList
  | .tmr => [.tmr]

/-- The chain of a message is right, and its answer need not be cut into fragments. -/
def Arrival.Fits (n : NetifIp) : Arrival → Prop
  | .icmp p vHl _ _ _ => p.Ok ∧ p.Full ∧
      (n.mtu ≠ 0 → p.totLen.toNat + (iphHlBytes vHl).toNat ≤ n.mtu.toNat)
  | .arp _ | .tmr => True

/-- The frame `bs` brings the echo request `msg`, which `src` has sent to the interface, under the
IP header `hdr`. -/
structure BringsEcho (n : NetifIp) (bs hdr msg : List UInt8) (src : UInt32) : Prop where
  ethType : field16 (bs.getD · 0) 12 = lwipHtons ethtypeIp
  packet : hdr ++ msg <+: bs.drop 14
  version : hdr.getD 0 0 >>> 4 = 4
  header : hdr.length = (iphHlBytes (hdr.getD 0 0)).toNat ∧ 20 ≤ hdr.length
  total : (lwipHtons (field16 (hdr.getD · 0) 2)).toNat = (hdr ++ msg).length
  proto : hdr.getD 9 0 = ipProtoIcmp
  hdrSum : ~~~ onesSum hdr = 0
  source : field32 (hdr.getD · 0) 12 = src ∧ ip4AddrIsbroadcast src n = false ∧
    ip4AddrIsmulticast src = false
  dest : field32 (hdr.getD · 0) 16 = n.ipAddr
  type : msg.getD 0 0 = icmpEcho ∧ 8 ≤ msg.length
  sum : ~~~ onesSum msg = 0

section Fields

variable {p q : Pkt} {hlen : UInt16} {src dest : UInt32}

theorem field32_ip4Bytes (h : ℕ → UInt8) (i : ℕ) (addr : UInt32)
    (hbytes : [h i, h (i + 1), h (i + 2), h (i + 3)] = ip4Bytes addr) : field32 h i = addr := by
  simp only [ip4Bytes, le16, List.cons_append, List.nil_append, List.cons.injEq, and_true]
    at hbytes
  obtain ⟨h₀, h₁, h₂, h₃⟩ := hbytes
  rw [field32, field16, field16, h₀, h₁, h₂, h₃, ofLe16_split, ofLe16_split]
  have haddr := addr.toNat_lt
  rw [← UInt32.toNat_inj, UInt32.toNat_or, UInt32.toNat_shiftLeft, UInt16.toNat_toUInt32,
    UInt16.toNat_toUInt32, UInt32.toNat_toUInt16, UInt32.toNat_toUInt16, UInt32.toNat_shiftRight]
  change addr.toNat % 2 ^ 16 ||| (addr.toNat >>> 16 % 2 ^ 16) <<< 16 % 2 ^ 32 = addr.toNat
  have hlow : addr.toNat % 2 ^ 16 < 2 ^ 16 := Nat.mod_lt _ (by decide)
  have hhigh : (addr.toNat >>> 16 % 2 ^ 16) <<< 16 % 2 ^ 32 = (addr.toNat / 2 ^ 16) <<< 16 := by
    rw [Nat.shiftRight_eq_div_pow, Nat.shiftLeft_eq, Nat.shiftLeft_eq]
    omega
  rw [hhigh, Nat.or_comm, ← Nat.shiftLeft_add_eq_or_of_lt hlow, Nat.shiftLeft_eq]
  omega

/-- The answer is addressed to where the request came from. -/
theorem Answers.field32_payload (h : Answers hlen p src dest q) (hlen₁ : ipHlen ≤ hlen) :
    field32 q.payload 16 = src := by
  have hhdr : 20 ≤ hlen.toNat := UInt16.le_iff_toNat_le.mp hlen₁
  have hlong : 20 ≤ (iphdrIn p hlen).length := by rwa [length_iphdrIn]
  have htake := map_range_payload
    (UInt16.le_iff_toNat_le.mpr (hhdr.trans h.first) : (20 : UInt16) ≤ q.len)
  obtain ⟨w, w', hbytes, -⟩ := h.echo
  apply field32_ip4Bytes
  change ((List.range (20 : UInt16).toNat).map q.payload).drop 16 = _
  rw [htake, hbytes]
  obtain ⟨f, opts, hf⟩ := exists_front hlong
  rw [hf]
  simp only [List.ofFn_succ, List.ofFn_zero]
  rfl

end Fields

section Runs

variable {n : NetifIp} {odd : Bool} {odds : Pbuf → Bool} {h : List ArpRecord} {k : Etharp}
  {e : ArpEvent} {a : Arrival}

theorem mem_of_event_mem_run {events : List ArpEvent}
    (he : .event e ∈ ((etharpMachine n).run k events).2) : e ∈ events := by
  induction events generalizing k with
  | nil => cases he
  | cons x xs ih =>
    rcases List.mem_append.mp he with he | he
    · rcases List.mem_cons.mp he with he | he
      · cases he
        exact List.mem_cons_self
      · obtain ⟨f, -, hf⟩ := List.mem_map.mp he
        cases hf
    · exact List.mem_cons_of_mem x (ih he)

theorem ip4OutputIf_answer {p q : Pkt} {hlen : UInt16} {src dest : UInt32}
    (hq : Answers hlen p src dest q) (hlen₁ : ipHlen ≤ hlen)
    (hmtu : n.mtu ≠ 0 → p.totLen.toNat + hlen.toNat ≤ n.mtu.toNat) :
    ip4OutputIf n q = some src := by
  have hfirst : ipHlen ≤ q.len :=
    UInt16.le_iff_toNat_le.mpr ((UInt16.le_iff_toNat_le.mp hlen₁).trans hq.first)
  have hwhole : ¬ (n.mtu ≠ 0 ∧ n.mtu < q.totLen) := fun ⟨hne, hlt⟩ => by
    have hle := hmtu hne
    rw [UInt16.lt_iff_toNat_lt, hq.total] at hlt
    omega
  rw [ip4OutputIf, if_neg (UInt16.not_lt.mpr hfirst), if_neg hwhole, hq.field32_payload hlen₁]

/-- A packet that an arrival gives to the address resolution is the echo of a request. -/
theorem Arrival.output_mem_events {q : Pkt} {ipaddr : UInt32} (ha : a.Fits n)
    (he : .output q ipaddr ∈ a.events n odd odds) :
    ∃ p vHl dest ram, a = .icmp p vHl ipaddr dest ram ∧ EchoRequest n p (iphHlBytes vHl) dest ∧
      Answers (iphHlBytes vHl) p ipaddr dest q := by
  cases a with
  | arp m => cases List.mem_singleton.mp he
  | tmr => cases List.mem_singleton.mp he
  | icmp p vHl src dest ram =>
    obtain ⟨hp, hfull, hmtu⟩ := ha
    obtain ⟨q', hq', hout⟩ := Option.bind_eq_some_iff.mp (Option.mem_toList.mp he)
    obtain ⟨hask, hbind⟩ := icmpInput_eq_some.mp hq'
    have hanswer := hask.answer (iphHlBytes_le vHl) hp hfull hbind
    rw [ip4OutputIf_answer hanswer hask.header hmtu] at hout
    cases hout
    exact ⟨p, vHl, dest, ram, rfl, hask, hanswer⟩

theorem Arrival.events_sendable (ha : a.Fits n) (he : e ∈ a.events n odd odds) : e.Sendable := by
  cases e with
  | output q ipaddr =>
    obtain ⟨p, vHl, dest, ram, -, -, hq⟩ := Arrival.output_mem_events ha he
    exact ⟨hq.ok, fun _ => hq.full⟩
  | _ => trivial

/-- An IP packet on the wire was given for an address, and goes to the station of its next hop. -/
theorem Justified.output {frame d : List UInt8} (hframe : Justified n h frame)
    (hd : ipData frame = some d) : ∃ q ipaddr dst, .event (.output q ipaddr) ∈ h ∧ d = q.bytes ∧
      LinkAddr n h ipaddr dst ∧ frame = ethFrame dst n.hwaddr ethtypeIp d := by
  cases hframe with
  | packet q ipaddr dst hmem hdst =>
    rw [ipData_ip] at hd
    cases hd
    exact ⟨q, ipaddr, dst, hmem, rfl, hdst, rfl⟩
  | reply => rw [ipData_arp] at hd; cases hd
  | _ => rw [arpQuestion, ipData_arp] at hd; cases hd

/-- In every run, each IP packet on the wire is the echo of a proper request that came before, and
goes to the station that the address it came from belongs to. -/
theorem echo_run (n : NetifIp) (odd : Bool) (odds : Pbuf → Bool)
    (ram : ℕ → Option (ℕ → UInt8)) {arrivals : List Arrival} (hfit : ∀ a ∈ arrivals, a.Fits n) :
    let r := (etharpMachine n).run (Etharp.start ram) (arrivals.flatMap (·.events n odd odds))
    ∀ past frame rest d, r.2 = past ++ .sent frame :: rest → ipData frame = some d →
      ∃ p vHl src dest mem q dst, .icmp p vHl src dest mem ∈ arrivals ∧
        EchoRequest n p (iphHlBytes vHl) dest ∧ Answers (iphHlBytes vHl) p src dest q ∧
        LinkAddr n past src dst ∧ frame = ethFrame dst n.hwaddr ethtypeIp q.bytes := by
  intro r past frame rest d heq hd
  have hsend : ∀ e ∈ arrivals.flatMap (·.events n odd odds), e.Sendable := fun e he => by
    obtain ⟨a, ha, he⟩ := List.mem_flatMap.mp he
    exact Arrival.events_sendable (hfit a ha) he
  have hall := (etharpMachine_run n ram hsend).justified
  obtain ⟨q, ipaddr, dst, hmem, rfl, hdst, hframe⟩ := (hall past frame rest heq).output hd
  have hrun : .event (.output q ipaddr) ∈ r.2 := heq ▸ List.mem_append_left _ hmem
  obtain ⟨a, ha, he⟩ := List.mem_flatMap.mp (mem_of_event_mem_run hrun)
  obtain ⟨p, vHl, dest, mem, rfl, hask, hanswer⟩ := Arrival.output_mem_events (hfit a ha) he
  exact ⟨p, vHl, ipaddr, dest, mem, q, dst, ha, hask, hanswer, hdst, hframe⟩

theorem ethernetInput_ip {p q : Pkt} (hp : p.Ok) (hfull : p.Full)
    (h : ethernetInput n p = some (.ip q)) :
    q.Ok ∧ q.Full ∧ q.bytes = p.bytes.drop 14 ∧ q.totLen ≤ p.totLen ∧
      field16 (p.bytes.getD · 0) 12 = lwipHtons ethtypeIp := by
  rw [ethernetInput] at h
  split_ifs at h with hshort htype
  · obtain ⟨q', hq, heq⟩ := Option.map_eq_some_iff.mp h
    cases heq
    obtain ⟨hok, -, -, htot, hbytes, -, hnext, -⟩ := pbufRemoveHeader_spec hp hq
    have hlong : 14 < p.len.toNat := UInt16.lt_iff_toNat_lt.mp (UInt16.not_le.mp hshort)
    refine ⟨hok, by rw [Pkt.Full, hnext]; exact hfull, hbytes, UInt16.le_iff_toNat_le.mpr ?_, ?_⟩
    · omega
    · rwa [field16, Pkt.getD_bytes (by omega), Pkt.getD_bytes (by omega)]
  · obtain ⟨q', -, heq⟩ := Option.map_eq_some_iff.mp h
    cases heq

/-- An ICMP message that a frame brings is the payload of the IP packet in it. -/
theorem Received.icmp_mem_arrivals {f : Received} (hf : f.Fits n) {p : Pkt} {vHl : UInt8}
    {src dest : UInt32} {ram : Option (ℕ → UInt8)}
    (h : .icmp p vHl src dest ram ∈ f.arrivals n odd) :
    ∃ ip, ethernetInput n f.p = some (.ip ip) ∧
      Delivered n ip ⟨p, vHl, ipProtoIcmp, src, dest⟩ := by
  obtain ⟨hp, hfull, -, hwhole⟩ := hf
  rw [Received.arrivals] at h
  split at h
  · cases h
  · cases List.mem_singleton.mp h
  · next ip hip =>
    obtain ⟨hok, hfull', -⟩ := ethernetInput_ip hp hfull hip
    split at h
    · cases h
    · next d hd =>
      split_ifs at h with hproto
      · cases List.mem_singleton.mp h
        exact ⟨ip, hip, hproto ▸ ip4Input_delivered hok hfull' (hwhole ip hip).2 hd⟩
      · cases h

theorem Received.arrivals_fit {f : Received} (hf : f.Fits n) (ha : a ∈ f.arrivals n odd) :
    a.Fits n := by
  cases a with
  | icmp p vHl src dest ram =>
    obtain ⟨ip, hip, hd⟩ := f.icmp_mem_arrivals hf ha
    obtain ⟨hok, -, -, htot, -⟩ := ethernetInput_ip hf.1 hf.2.1 hip
    refine ⟨hd.ok, hd.full, fun hmtu => ?_⟩
    have hlen := congrArg List.length hd.bytes
    rw [List.length_take, Nat.min_eq_left hd.whole, List.length_append, length_iphdrIn,
      Pkt.length_bytes hd.ok] at hlen
    have hwhole := hd.whole.trans_eq (ip.length_bytes hok)
    have htot' := UInt16.le_iff_toNat_le.mp htot
    have hmtu' := UInt16.le_iff_toNat_le.mp (hf.2.2.1 hmtu)
    dsimp only at hlen
    omega
  | _ => trivial

theorem Incoming.arrivals_fit {x : Incoming} (hx : x.Fits n) (ha : a ∈ x.arrivals n odd) :
    a.Fits n := by
  cases x with
  | frame f => exact f.arrivals_fit hx ha
  | tmr => rw [List.mem_singleton.mp ha]; trivial

/-- A packet that `icmp_input` answers is for one station, and so for this one. -/
theorem Delivered.dest_eq {ip : Pkt} {d : Datagram} {hlen : UInt16} (hd : Delivered n ip d)
    (hask : EchoRequest n d.p hlen d.dest) : d.dest = n.ipAddr := by
  have hus := hd.forUs
  rw [ip4ForUs, hask.notMulticast, if_neg Bool.false_ne_true, ip4InputAccept,
    hask.notBroadcast, Bool.or_false] at hus
  exact eq_of_beq (Bool.and_eq_true_iff.mp hus).2

/-- The request that `icmp_input` answers is that of the frame. -/
theorem Delivered.bringsEcho {ip : Pkt} {d : Datagram} {bs : List UInt8} (hd : Delivered n ip d)
    (hproto : d.proto = ipProtoIcmp) (hask : EchoRequest n d.p (iphHlBytes d.vHl) d.dest)
    (htype : field16 (bs.getD · 0) 12 = lwipHtons ethtypeIp) (hbytes : ip.bytes = bs.drop 14) :
    BringsEcho n bs (iphdrIn d.p (iphHlBytes d.vHl)) d.p.bytes d.src := by
  have hlen := length_iphdrIn d.p (iphHlBytes d.vHl)
  have hlong : 20 ≤ (iphHlBytes d.vHl).toNat := UInt16.le_iff_toNat_le.mp hd.header
  have hfield : ∀ i < 20, (iphdrIn d.p (iphHlBytes d.vHl)).getD i 0 = ip.payload i := fun i hi => by
    rw [hd.hdr, List.getD_eq_getElem?_getD, List.getElem?_map,
      List.getElem?_range (by omega)]
    rfl
  have hfirst : 4 ≤ d.p.len.toNat := UInt16.le_iff_toNat_le.mp hask.first
  refine ⟨htype, ?_, ?_, ⟨?_, hlen ▸ hlong⟩, ?_, ?_, hd.sum, ⟨?_, hd.source⟩, ?_, ⟨?_, ?_⟩,
    hask.sum⟩
  · rw [← hd.bytes, ← hbytes]
    exact List.take_prefix _ _
  · rw [hfield 0 (by decide), ← hd.vHl]
    exact hd.version
  · rw [hlen, hfield 0 (by decide), hd.vHl]
  · rw [field16, hfield 2 (by decide), hfield 3 (by decide), ← hd.bytes, List.length_take,
      Nat.min_eq_left hd.whole]
    rfl
  · rw [hfield 9 (by decide), ← hd.proto, hproto]
  · rw [hd.src, field32, field16, field16, hfield 12 (by decide), hfield 13 (by decide),
      hfield 14 (by decide), hfield 15 (by decide)]
    rfl
  · rw [← hd.dest_eq hask, hd.dest, field32, field16, field16, hfield 16 (by decide),
      hfield 17 (by decide), hfield 18 (by decide), hfield 19 (by decide)]
    rfl
  · rw [Pkt.getD_bytes (by omega)]
    exact hask.type
  · rw [Pkt.length_bytes hd.ok]
    exact UInt16.le_iff_toNat_le.mp hask.whole

/-- In every run, each IP packet on the wire is the echo of the request in a frame that came in:
with its message, its header with the addresses exchanged, and right checksums; and it goes to the
station that announced the next hop of the requester last. -/
theorem echo_frames (n : NetifIp) (odd : Bool) (odds : Pbuf → Bool)
    (ram : ℕ → Option (ℕ → UInt8)) {incoming : List Incoming} (hfit : ∀ x ∈ incoming, x.Fits n) :
    let r := (etharpMachine n).run (Etharp.start ram)
      ((incoming.flatMap (·.arrivals n odd)).flatMap (·.events n odd odds))
    ∀ past frame rest d, r.2 = past ++ .sent frame :: rest → ipData frame = some d →
      ∃ f hdr msg src w w' hop dst age, .frame f ∈ incoming ∧
        BringsEcho n f.p.bytes hdr msg src ∧
        d = answerHeader hdr src n.ipAddr w ++ answerMessage msg w' ∧
        ~~~ onesSum (answerHeader hdr src n.ipAddr w) = 0 ∧ ~~~ onesSum (answerMessage msg w') = 0 ∧
        nextHop n src = some hop ∧ lastHeard past hop = some (dst, age) ∧ age < arpMaxage.toNat ∧
        frame = ethFrame dst n.hwaddr ethtypeIp d := by
  intro r past frame rest d heq hd
  have harrivals : ∀ a ∈ incoming.flatMap (·.arrivals n odd), a.Fits n := fun a ha => by
    obtain ⟨x, hx, ha⟩ := List.mem_flatMap.mp ha
    exact x.arrivals_fit (hfit x hx) ha
  obtain ⟨p, vHl, src, dest, mem, q, dst, hmem, hask, hanswer, hdst, hframe⟩ :=
    echo_run n odd odds ram harrivals past frame rest d heq hd
  obtain ⟨x, hx, ha⟩ := List.mem_flatMap.mp hmem
  cases x with
  | tmr => cases List.mem_singleton.mp ha
  | frame f =>
    have hf : f.Fits n := hfit _ hx
    obtain ⟨ip, hip, hdelivered⟩ := f.icmp_mem_arrivals hf ha
    obtain ⟨-, -, hbytes, -, htype⟩ := ethernetInput_ip hf.1 hf.2.1 hip
    have hbrings := hdelivered.bringsEcho rfl hask htype hbytes
    obtain ⟨w, w', hq, hhdr, hmsg⟩ := hanswer.echo
    have hus : dest = n.ipAddr := hdelivered.dest_eq hask
    subst hus
    have hlink := hdst
    rw [LinkAddr, hdelivered.source.1, hdelivered.source.2, if_neg Bool.false_ne_true,
      if_neg Bool.false_ne_true] at hlink
    obtain ⟨hop, age, hhop, hheard, hage⟩ := hlink
    have hdq : d = q.bytes := by
      rw [hframe, ipData_ip] at hd
      exact (Option.some.inj hd).symm
    exact ⟨f, _, _, src, w, w', hop, dst, age, hx, hbrings, hdq.trans hq, hhdr, hmsg, hhop, hheard,
      hage, hdq ▸ hframe⟩

def benchFrame (bs : List UInt8) : Received :=
  ⟨⟨fun i => bs.getD i 0, 0, UInt16.ofNat bs.length, UInt16.ofNat bs.length, [], false⟩, none⟩

/-- A station looks for this one by a request, and pings it after a tick. -/
def pinged : List Incoming :=
  [.frame (benchFrame [255, 255, 255, 255, 255, 255, 2, 0, 0, 0, 0, 9, 8, 6, 0, 1, 8, 0, 6, 4, 0, 1,
      2, 0, 0, 0, 0, 9, 192, 168, 1, 5, 0, 0, 0, 0, 0, 0, 192, 168, 1, 100]),
    .tmr,
    .frame (benchFrame [2, 0, 0, 0, 0, 1, 2, 0, 0, 0, 0, 9, 8, 0, 69, 0, 0, 30, 0, 0, 0, 0, 64, 1,
      247, 37, 192, 168, 1, 5, 192, 168, 1, 100, 8, 0, 132, 136, 0, 0, 0, 0, 115, 119])]

theorem pinged_fits : ∀ x ∈ pinged, x.Fits (encNetif ![2, 0, 0, 0, 0, 1]) := by
  simp only [pinged, List.forall_mem_cons]
  refine ⟨⟨⟨rfl, trivial⟩, fun _ hq => absurd hq List.not_mem_nil, fun _ => by decide,
    fun p hp => ?_⟩, trivial, ⟨⟨rfl, trivial⟩, fun _ hq => absurd hq List.not_mem_nil,
    fun _ => by decide, fun p hp => ?_⟩, fun _ hx => absurd hx List.not_mem_nil⟩
  · injection hp with hp
    cases hp
  · injection hp with hp
    injection hp with hp
    rw [← hp]
    exact ⟨rfl, rfl⟩

theorem echo_frames_pinged :
    let n := encNetif ![2, 0, 0, 0, 0, 1]
    let r := (etharpMachine n).run (Etharp.start fun _ => some fun _ => 0)
      ((pinged.flatMap (·.arrivals n false)).flatMap (·.events n false fun _ => false))
    (∀ past frame rest d, r.2 = past ++ .sent frame :: rest → ipData frame = some d →
      ∃ f hdr msg src w w' hop dst age, .frame f ∈ pinged ∧
        BringsEcho n f.p.bytes hdr msg src ∧
        d = answerHeader hdr src n.ipAddr w ++ answerMessage msg w' ∧
        ~~~ onesSum (answerHeader hdr src n.ipAddr w) = 0 ∧ ~~~ onesSum (answerMessage msg w') = 0 ∧
        nextHop n src = some hop ∧ lastHeard past hop = some (dst, age) ∧ age < arpMaxage.toNat ∧
        frame = ethFrame dst n.hwaddr ethtypeIp d) ∧
    timesSent [69, 0, 0, 30, 0, 0, 0, 0, 255, 1, 56, 37, 192, 168, 1, 100, 192, 168, 1, 5, 0, 0,
      140, 136, 0, 0, 0, 0, 115, 119] r.2 = 1 :=
  ⟨echo_frames _ _ _ _ pinged_fits, by decide⟩

end Runs

end EthernetPing
