import EthernetPing.Lib.Machine
import EthernetPing.Net.EtharpTable

/-!
# Histories of the address resolution

What has been heard and sent so far, which frames may be sent after it, and what happens to the
packets in hand.
-/

namespace EthernetPing

/-- What happens to the address resolution. -/
inductive ArpEvent where
  | input (m : ArpMessage)
  | output (q : Pkt) (ipaddr : UInt32)
  | tmr

/-- What a run leaves behind: what happened, and after it the frames that were sent on it. -/
inductive ArpRecord where
  | event (e : ArpEvent)
  | sent (frame : List UInt8)

def ArpEvent.run (n : NetifIp) (k : Etharp) : ArpEvent → Etharp
  | .input m => etharpInput n m k
  | .output q ipaddr => (etharpOutput n q ipaddr k).2
  | .tmr => etharpTmr n k

/-- The address resolution with the frames of one event at a time. -/
def etharpMachine (n : NetifIp) : Machine Etharp ArpEvent ArpRecord where
  step k e :=
    let k := e.run n { k with out := { k.out with sent := [] } }
    (k, .event e :: k.out.sent.map .sent)

/-- What is known of an address after a record. -/
def ArpRecord.heard (ip : UInt32) (known : Option (EthAddr × ℕ)) :
    ArpRecord → Option (EthAddr × ℕ)
  | .event (.input m) => if m.Proper ∧ m.sipaddr = ip then some (m.shwaddr, 0) else known
  | .event .tmr => known.map fun a => (a.1, a.2 + 1)
  | .event (.output ..) | .sent _ => known

/-- The last announcement of an address in a history. -/
def lastHeard (h : List ArpRecord) : Heard := fun ip => h.foldl (ArpRecord.heard ip) none

/-- The IP packet in a frame. -/
def ipData (frame : List UInt8) : Option (List UInt8) :=
  if (frame.drop 12).take 2 = le16 (lwipHtons ethtypeIp) then some (frame.drop 14) else none

/-- How often an IP packet was sent. -/
def timesSent (d : List UInt8) (h : List ArpRecord) : ℕ :=
  h.countP fun
    | .sent frame => ipData frame == some d
    | .event _ => false

/-- How often an IP packet was given to `etharp_output`. -/
def timesGiven (d : List UInt8) (h : List ArpRecord) : ℕ :=
  h.countP fun
    | .event (.output q _) => q.bytes == d
    | _ => false

/-- How many entries keep an IP packet. -/
def timesKept (d : List UInt8) (k : Etharp) : ℕ :=
  k.arpTable.countP fun e => e.q.map Pkt.bytes == some d

/-- The station that a packet for an IP address goes to. -/
def LinkAddr (n : NetifIp) (h : List ArpRecord) (ipaddr : UInt32) (dst : EthAddr) : Prop :=
  if ip4AddrIsbroadcast ipaddr n then dst = ethbroadcast
  else if ip4AddrIsmulticast ipaddr then dst = mcastaddr ipaddr
  else ∃ hop age, nextHop n ipaddr = some hop ∧ lastHeard h hop = some (dst, age) ∧
    age < arpMaxage.toNat

/-- Packets for an IP address go to this next hop. -/
def RoutesTo (n : NetifIp) (ipaddr hop : UInt32) : Prop :=
  ip4AddrIsbroadcast ipaddr n = false ∧ ip4AddrIsmulticast ipaddr = false ∧
    nextHop n ipaddr = some hop

/-- The event happened last; only frames have been sent since. -/
def Follows (h : List ArpRecord) (e : ArpEvent) : Prop :=
  ∃ past, ∃ frames : List (List UInt8), h = past ++ .event e :: frames.map .sent

/-- How many ticks a history has. -/
def ticks (h : List ArpRecord) : ℕ :=
  h.countP fun
    | .event .tmr => true
    | _ => false

/-- A packet for the next hop was given `age` ticks ago, and since then the hop was not heard. -/
def Awaited (n : NetifIp) (h : List ArpRecord) (hop : UInt32) (age : ℕ) : Prop :=
  ∃ past q ipaddr rest, h = past ++ .event (.output q ipaddr) :: rest ∧ RoutesTo n ipaddr hop ∧
    (∀ m, .event (.input m) ∈ rest → m.Proper → m.sipaddr ≠ hop) ∧ ticks rest = age

/-- The question for the address of a next hop. -/
def arpQuestion (n : NetifIp) (dst : EthAddr) (hop : UInt32) : List UInt8 :=
  ethFrame dst n.hwaddr ethtypeArp (etharpHdr n.hwaddr n.ipAddr ethzero hop arpRequest)

/-- A frame that may be sent after a history. -/
inductive Justified (n : NetifIp) (h : List ArpRecord) : List UInt8 → Prop where
  /-- A packet goes to the station that its address belongs to. -/
  | packet (q : Pkt) (ipaddr : UInt32) (dst : EthAddr) : .event (.output q ipaddr) ∈ h →
      LinkAddr n h ipaddr dst → Justified n h (ethFrame dst n.hwaddr ethtypeIp q.bytes)
  /-- When a packet comes, its next hop is asked for, -/
  | ask (q : Pkt) (ipaddr hop : UInt32) : Follows h (.output q ipaddr) → RoutesTo n ipaddr hop →
      ip4AddrIsUnicast hop n = true → Justified n h (arpQuestion n ethbroadcast hop)
  /-- and again at the next ticks, as long as the answer is missing. -/
  | askAgain (hop : UInt32) (age : ℕ) : Follows h .tmr → Awaited n h hop age →
      age < arpMaxpending.toNat → ip4AddrIsUnicast hop n = true →
      Justified n h (arpQuestion n ethbroadcast hop)
  /-- When a packet comes and the announcement of its next hop is old, the announcer is asked, or
  all are. -/
  | renew (q : Pkt) (ipaddr hop : UInt32) (announcer : EthAddr) (age : ℕ) :
      Follows h (.output q ipaddr) → RoutesTo n ipaddr hop →
      lastHeard h hop = some (announcer, age) → arpAgeRerequestUsedUnicast.toNat ≤ age →
      Justified n h (arpQuestion n
        (if arpAgeRerequestUsedBroadcast.toNat ≤ age then ethbroadcast else announcer) hop)
  /-- An answer goes to the station that has just asked for the address of the interface. -/
  | reply (m : ArpMessage) : m.Proper → m.opcode = lwipHtons arpRequest → m.forUs n = true →
      m.fromUs n = false → Follows h (.input m) →
      Justified n h (ethFrame m.shwaddr n.hwaddr ethtypeArp
        (etharpHdr n.hwaddr n.ipAddr m.shwaddr m.sipaddr arpReply))

/-- These bytes were given for an address behind this next hop. -/
def GivenFor (n : NetifIp) (h : List ArpRecord) (bs : List UInt8) (hop : UInt32) : Prop :=
  ∃ q ipaddr, .event (.output q ipaddr) ∈ h ∧ bs = q.bytes ∧ RoutesTo n ipaddr hop

/-- The packets that wait were given for the next hop they wait for, and the answers that pending
entries wait for are missing. -/
structure Etharp.Keeps (n : NetifIp) (h : List ArpRecord) (k : Etharp) : Prop where
  given : ∀ i p, (k.entry i).q = some p → GivenFor n h p.bytes (k.entry i).ipaddr
  awaited : ∀ i, (k.entry i).state = .pending →
    Awaited n h (k.entry i).ipaddr (k.entry i).ctime.toNat

/-- From `k` with the packets `hand` in hand to `k'` with `hand'`: frames that are justified have
been sent, and none of the packets has been doubled. -/
def Moves (n : NetifIp) (h : List ArpRecord) (hand : List (List UInt8)) (k : Etharp)
    (hand' : List (List UInt8)) (k' : Etharp) : Prop :=
  ∃ frames, k'.out.sent = k.out.sent ++ frames ∧ (∀ f ∈ frames, Justified n h f) ∧
    ∀ d, frames.countP (fun f => ipData f == some d) + timesKept d k' + hand'.count d ≤
      timesKept d k + hand.count d

section Moves

variable {n : NetifIp} {h : List ArpRecord} {hand hand' hand'' : List (List UInt8)}
  {k k' k'' : Etharp} {heard : Heard} {e : EtharpEntry} {i : ℕ} {ip : UInt32} {d : List UInt8}

theorem Moves.silent (hout : k'.out.sent = k.out.sent)
    (hcount : ∀ d, timesKept d k' + hand'.count d ≤ timesKept d k + hand.count d) :
    Moves n h hand k hand' k' :=
  ⟨[], by rw [hout, List.append_nil], fun f hf => absurd hf List.not_mem_nil,
    fun d => by rw [List.countP_nil, Nat.zero_add]; exact hcount d⟩

theorem Moves.refl (n : NetifIp) (h : List ArpRecord) (hand : List (List UInt8)) (k : Etharp) :
    Moves n h hand k hand k := .silent rfl fun _ => le_rfl

theorem Moves.trans (h₁ : Moves n h hand k hand' k') (h₂ : Moves n h hand' k' hand'' k'') :
    Moves n h hand k hand'' k'' := by
  obtain ⟨fs, hfs, hall, hcount⟩ := h₁
  obtain ⟨gs, hgs, hall', hcount'⟩ := h₂
  refine ⟨fs ++ gs, by rw [hgs, hfs, List.append_assoc], fun f hf => ?_, fun d => ?_⟩
  · rcases List.mem_append.mp hf with hf | hf
    · exact hall f hf
    · exact hall' f hf
  · have := hcount d
    have := hcount' d
    rw [List.countP_append]
    omega

theorem timesKept_setEntry (hi : i < k.arpTable.length) (e : EtharpEntry) (d : List UInt8) :
    timesKept d (k.setEntry i e) +
        (if (k.entry i).q.map Pkt.bytes = some d then 1 else 0) =
      timesKept d k + (if e.q.map Pkt.bytes = some d then 1 else 0) := by
  have hget : k.entry i = k.arpTable[i] := by
    rw [Etharp.entry]
    simp [hi]
  have hpos : (if k.arpTable[i].q.map Pkt.bytes = some d then 1 else 0) ≤ timesKept d k := by
    split_ifs with heq
    · exact List.countP_pos_iff.mpr ⟨_, List.getElem_mem hi, beq_iff_eq.mpr heq⟩
    · exact Nat.zero_le _
  have hset := List.countP_set (p := fun e : EtharpEntry => e.q.map Pkt.bytes == some d) (a := e) hi
  simp only [beq_iff_eq] at hset
  rw [hget]
  change (k.arpTable.set i e).countP _ + _ = _
  rw [hset, Nat.add_right_comm]
  exact congrArg (· + _) (Nat.sub_add_cancel hpos)

/-- An entry changes that keeps its packet or drops it. -/
theorem Moves.setEntry (hi : i < k.arpTable.length) (he : e.q = none ∨ e.q = (k.entry i).q) :
    Moves n h hand k hand (k.setEntry i e) := by
  refine .silent rfl fun d => ?_
  have hkept := timesKept_setEntry hi e d
  rcases he with he | he <;> rw [he] at hkept
  · have hnone : ¬ none.map Pkt.bytes = some d := Option.some_ne_none d ∘ Eq.symm
    rw [if_neg hnone] at hkept
    omega
  · omega

theorem Etharp.Keeps.setEntry (hk : k.Keeps n h) (hi : i < k.arpTable.length)
    (hgiven : ∀ p, e.q = some p → GivenFor n h p.bytes e.ipaddr)
    (hawaited : e.state = .pending → Awaited n h e.ipaddr e.ctime.toNat) :
    (k.setEntry i e).Keeps n h := by
  refine ⟨fun j p hp => ?_, fun j hj => ?_⟩
  · rw [entry_setEntry hi] at hp ⊢
    split_ifs at hp ⊢
    · exact hgiven p hp
    · exact hk.given j p hp
  · rw [entry_setEntry hi] at hj ⊢
    split_ifs at hj ⊢
    · exact hawaited hj
    · exact hk.awaited j hj

theorem Etharp.Keeps.setIdle (hk : k.Keeps n h) (hi : i < k.arpTable.length) (hq : e.q = none)
    (hstate : e.state ≠ .pending) : (k.setEntry i e).Keeps n h :=
  hk.setEntry hi (fun p hp => (Option.some_ne_none p (hp.symm.trans hq)).elim)
    fun hp => absurd hp hstate

theorem Follows.mem {x : ArpEvent} (hx : Follows h x) : .event x ∈ h := by
  obtain ⟨past, frames, rfl⟩ := hx
  exact List.mem_append_right _ List.mem_cons_self

theorem Follows.snoc (h : List ArpRecord) (x : ArpEvent) : Follows (h ++ [.event x]) x :=
  ⟨h, [], rfl⟩

theorem Follows.sent {x : ArpEvent} (hx : Follows h x) (frames : List (List UInt8)) :
    Follows (h ++ frames.map .sent) x := by
  obtain ⟨past, before, rfl⟩ := hx
  exact ⟨past, before ++ frames, by rw [List.map_append, List.append_assoc]; rfl⟩

/-- The packet that has just come waits for its next hop. -/
theorem Follows.awaited {q : Pkt} {ipaddr hop : UInt32} (hq : Follows h (.output q ipaddr))
    (hroute : RoutesTo n ipaddr hop) : Awaited n h hop 0 := by
  obtain ⟨past, frames, rfl⟩ := hq
  refine ⟨past, q, ipaddr, _, rfl, hroute, fun m hm => ?_, ?_⟩
  · obtain ⟨f, -, hf⟩ := List.mem_map.mp hm
    cases hf
  · rw [ticks, List.countP_map, List.countP_eq_zero]
    exact fun f _ => Bool.false_ne_true

/-- What the answer waited for is not is waited for still. -/
theorem Awaited.snoc {hop : UInt32} {age : ℕ} (ha : Awaited n h hop age) {r : ArpRecord}
    (hr : ∀ m, r = .event (.input m) → m.Proper → m.sipaddr ≠ hop) :
    Awaited n (h ++ [r]) hop (age + ticks [r]) := by
  obtain ⟨past, q, ipaddr, rest, rfl, hroute, hquiet, rfl⟩ := ha
  refine ⟨past, q, ipaddr, rest ++ [r], by rw [List.append_assoc]; rfl, hroute, fun m hm => ?_,
    List.countP_append⟩
  rcases List.mem_append.mp hm with hm | hm
  · exact hquiet m hm
  · exact hr m (List.mem_singleton.mp hm).symm

theorem Awaited.sent {hop : UInt32} {age : ℕ} (ha : Awaited n h hop age)
    (frames : List (List UInt8)) : Awaited n (h ++ frames.map .sent) hop age := by
  induction frames generalizing h with
  | nil => rwa [List.map_nil, List.append_nil]
  | cons f fs ih =>
    rw [List.map_cons, List.append_cons]
    exact ih (ha.snoc fun m hm => ArpRecord.noConfusion hm)

theorem GivenFor.mono {h' : List ArpRecord} {bs : List UInt8} {hop : UInt32}
    (hgiven : GivenFor n h bs hop) (hsub : h ⊆ h') : GivenFor n h' bs hop := by
  obtain ⟨q, ipaddr, hmem, hrest⟩ := hgiven
  exact ⟨q, ipaddr, hsub hmem, hrest⟩

/-- Something happens that no pending entry waits for. -/
theorem Etharp.Keeps.snoc (hk : k.Keeps n h) {x : ArpEvent} (hx : ticks [.event x] = 0)
    (hquiet : ∀ m, x = .input m → m.Proper →
      ∀ i, (k.entry i).state = .pending → (k.entry i).ipaddr ≠ m.sipaddr) :
    k.Keeps n (h ++ [.event x]) where
  given i p hp := (hk.given i p hp).mono (List.subset_append_left h _)
  awaited i hi := by
    have hnext := (hk.awaited i hi).snoc (r := .event x) fun m hm hproper heq => by
      cases hm
      exact hquiet m rfl hproper i hi heq.symm
    rwa [hx] at hnext

theorem Etharp.Keeps.sent (hk : k.Keeps n h) (frames : List (List UInt8)) :
    k.Keeps n (h ++ frames.map .sent) where
  given i p hp := (hk.given i p hp).mono (List.subset_append_left h _)
  awaited i hi := (hk.awaited i hi).sent frames

theorem drop_ethFrame (dst src : EthAddr) (ethType : UInt16) (d : List UInt8) :
    ((ethFrame dst src ethType d).drop 12).take 2 = le16 (lwipHtons ethType) ∧
      (ethFrame dst src ethType d).drop 14 = d := by
  have haddrs : (List.ofFn dst ++ List.ofFn src).length = 12 := by simp
  have hall : (List.ofFn dst ++ List.ofFn src ++ le16 (lwipHtons ethType)).length = 14 := by simp
  refine ⟨?_, List.drop_left' hall⟩
  rw [ethFrame, List.append_assoc, List.drop_left' haddrs]
  exact List.take_left' (length_le16 _)

theorem ipData_ip (dst src : EthAddr) (d : List UInt8) :
    ipData (ethFrame dst src ethtypeIp d) = some d := by
  obtain ⟨htype, hdata⟩ := drop_ethFrame dst src ethtypeIp d
  rw [ipData, htype, hdata, if_pos rfl]

theorem ipData_arp (dst src : EthAddr) (d : List UInt8) :
    ipData (ethFrame dst src ethtypeArp d) = none := by
  rw [ipData, (drop_ethFrame dst src ethtypeArp d).1, if_neg (by decide)]

theorem etharpRaw_eq (ethsrc ethdst hwsrc : EthAddr) (ipsrc : UInt32) (hwdst : EthAddr)
    (ipdst : UInt32) (opcode : UInt16) (o : LinkOut) :
    etharpRaw ethsrc ethdst hwsrc ipsrc hwdst ipdst opcode o =
      if (o.ram 0).isSome then
        (.ok, { o.malloc.2 with
          sent := o.sent ++
            [ethFrame ethdst ethsrc ethtypeArp (etharpHdr hwsrc ipsrc hwdst ipdst opcode)] })
      else (.mem, o.malloc.2) := by
  rw [etharpRaw]
  cases hram : o.ram 0 with
  | none =>
    have hnone : pbufAllocRam pbufLink 28 o.malloc.1 = none := by
      rw [LinkOut.malloc, hram]
      rfl
    dsimp only
    rw [hnone]
    rfl
  | some area =>
    have hsome : pbufAllocRam pbufLink 28 o.malloc.1 = some ⟨area, 16, 28, 28, [], false⟩ := by
      rw [LinkOut.malloc, hram]
      rfl
    have hok : Pkt.Ok ⟨area, 16, 28, 28, [], false⟩ := ⟨rfl, trivial⟩
    have hlen : (etharpHdr hwsrc ipsrc hwdst ipdst opcode).length = 28 := by
      simp [etharpHdr]
    dsimp only
    rw [hsome]
    dsimp only
    rw [ethernetOutput_eq (hok.store 0 _), Pkt.store_totLen, Pkt.store_off,
      if_pos ⟨Nat.lt_of_sub_eq_succ rfl, Nat.le_of_ble_eq_true rfl⟩, Pkt.bytes_store_all rfl hlen]
    rfl

/-- A question or an answer is sent, or there is no memory for it. -/
theorem Moves.ask {frame : List UInt8} {o : LinkOut} (hframe : Justified n h frame)
    (hdata : ipData frame = none) (ho : o.sent = k.out.sent ∨ o.sent = k.out.sent ++ [frame]) :
    Moves n h hand k hand { k with out := o } := by
  rcases ho with ho | ho
  · exact .silent ho fun _ => le_rfl
  · refine ⟨[frame], ho, fun f hf => List.mem_singleton.mp hf ▸ hframe, fun d => ?_⟩
    rw [List.countP_singleton, hdata, if_neg (by simp), Nat.zero_add]
    exact le_rfl

/-- A packet in hand is sent, or does not get its header. -/
theorem Moves.packet {q : Pkt} {dst : EthAddr} (hq : q.Ok)
    (hframe : Justified n h (ethFrame dst n.hwaddr ethtypeIp q.bytes)) :
    Moves n h (q.bytes :: hand) k hand
      { k with out := (ethernetOutput q n.hwaddr dst ethtypeIp k.out).2 } := by
  rw [ethernetOutput_eq hq]
  split_ifs
  · refine ⟨[_], rfl, fun f hf => List.mem_singleton.mp hf ▸ hframe, fun d => ?_⟩
    rw [List.countP_singleton, ipData_ip, List.count_cons]
    change _ + timesKept d k + _ ≤ timesKept d k + _
    simp only [beq_iff_eq, Option.some.injEq]
    omega
  · refine .silent rfl fun d => ?_
    rw [List.count_cons]
    exact Nat.add_le_add_left (Nat.le_add_right _ _) _

theorem etharpRaw_sent (ethsrc ethdst hwsrc : EthAddr) (ipsrc : UInt32) (hwdst : EthAddr)
    (ipdst : UInt32) (opcode : UInt16) (o : LinkOut) :
    (etharpRaw ethsrc ethdst hwsrc ipsrc hwdst ipdst opcode o).2.sent = o.sent ∨
      (etharpRaw ethsrc ethdst hwsrc ipsrc hwdst ipdst opcode o).2.sent = o.sent ++
        [ethFrame ethdst ethsrc ethtypeArp (etharpHdr hwsrc ipsrc hwdst ipdst opcode)] := by
  rw [etharpRaw_eq]
  split_ifs
  · exact Or.inr rfl
  · exact Or.inl rfl

theorem Moves.request {dst : EthAddr} (hframe : Justified n h (arpQuestion n dst ip)) :
    Moves n h hand k hand { k with out := (etharpRequestDst n ip dst k.out).2 } :=
  .ask hframe (ipData_arp _ _ _) (etharpRaw_sent ..)

theorem Etharp.Sound.congr {heard' : Heard} (hk : k.Sound n heard)
    (hheard : ∀ i, (k.entry i).state ≠ .empty →
      heard' (k.entry i).ipaddr = heard (k.entry i).ipaddr) :
    k.Sound n heard' :=
  ⟨hk.size, hk.cached, fun i => (hk.entries i).congr (hheard i), hk.distinct⟩

theorem Etharp.Sound.withOut (hk : k.Sound n heard) (out : LinkOut) :
    { k with out }.Sound n heard :=
  ⟨hk.size, hk.cached, hk.entries, hk.distinct⟩

/-- A waiting packet is taken in hand. -/
theorem Moves.take {q : Pkt} (hi : i < k.arpTable.length) (hq : (k.entry i).q = some q)
    (he : e.q = none) : Moves n h hand k (q.bytes :: hand) (k.setEntry i e) := by
  refine .silent rfl fun d => ?_
  have hkept := timesKept_setEntry hi e d
  have hnone : ¬ none.map Pkt.bytes = some d := Option.some_ne_none d ∘ Eq.symm
  rw [hq, he, if_neg hnone] at hkept
  rw [List.count_cons]
  simp only [Option.map_some, Option.some.injEq, beq_iff_eq] at hkept ⊢
  omega

/-- A packet in hand has to wait, and one that waited is dropped. -/
theorem Moves.keep {q : Pkt} (hi : i < k.arpTable.length) (he : e.q = some q) :
    Moves n h (q.bytes :: hand) k hand (k.setEntry i e) := by
  refine .silent rfl fun d => ?_
  have hkept := timesKept_setEntry hi e d
  rw [he] at hkept
  rw [List.count_cons]
  simp only [Option.map_some, Option.some.injEq, beq_iff_eq] at hkept ⊢
  omega

/-- A packet in hand is dropped. -/
theorem Moves.drop (bs : List UInt8) : Moves n h (bs :: hand) k hand k := by
  refine .silent rfl fun d => ?_
  rw [List.count_cons]
  exact Nat.add_le_add_left (Nat.le_add_right _ _) _

theorem GivenFor.linkAddr {bs : List UInt8} {hop : UInt32} {dst : EthAddr} {age : ℕ}
    (hgiven : GivenFor n h bs hop) (hheard : lastHeard h hop = some (dst, age))
    (hage : age < arpMaxage.toNat) : Justified n h (ethFrame dst n.hwaddr ethtypeIp bs) := by
  obtain ⟨q, ipaddr, hmem, rfl, hbroad, hmulti, hhop⟩ := hgiven
  refine .packet q ipaddr dst hmem ?_
  rw [LinkAddr, hbroad, hmulti, if_neg Bool.false_ne_true, if_neg Bool.false_ne_true]
  exact ⟨hop, age, hhop, hheard, hage⟩

theorem Moves.quiet {out : LinkOut} (hout : out.sent = k.out.sent) :
    Moves n h hand k hand { k with out } := .silent hout fun _ => le_rfl

theorem lastHeard_append (past : List ArpRecord) (r : ArpRecord) (ip : UInt32) :
    lastHeard (past ++ [r]) ip = r.heard ip (lastHeard past ip) := by
  rw [lastHeard, List.foldl_append]
  rfl

/-- What every address was announced with, one tick later. -/
theorem lastHeard_tmr (h : List ArpRecord) (ip : UInt32) :
    lastHeard (h ++ [.event .tmr]) ip = (lastHeard h ip).map fun a => (a.1, a.2 + 1) :=
  lastHeard_append h _ ip

end Moves

end EthernetPing
