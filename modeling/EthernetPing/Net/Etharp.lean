import EthernetPing.Net.Frame

/-!
# Address resolution

The ARP table of `etharp.c`. An entry is pending from the first packet for its address until
an answer comes, and keeps one packet meanwhile; then it is stable until it gets too old or
gives way to another address. There is one interface, so the entries do not tell which.
-/

namespace EthernetPing

/-- An interface with its addresses, in network byte order. -/
structure NetifIp extends Netif where
  ipAddr : UInt32
  netmask : UInt32
  gw : UInt32

/-- The interface that `main` sets up. -/
def encNetif (macAddr : EthAddr) : NetifIp :=
  { enc28j60NetifInit macAddr with
    flags := (enc28j60NetifInit macAddr).flags ||| 0x01
    ipAddr := 0x6401a8c0
    netmask := 0x00ffffff
    gw := 0x0101a8c0 }

def netifIsUp (n : NetifIp) : Bool := n.flags &&& 0x01 != 0

section Addresses

def ip4AddrIsany (addr : UInt32) : Bool := addr == 0

def ip4AddrNetEq (addr addr' mask : UInt32) : Bool := addr &&& mask == addr' &&& mask

def ip4AddrIsbroadcast (addr : UInt32) (n : NetifIp) : Bool :=
  if ~~~ addr = 0 ∨ addr = 0 then true
  else if n.flags &&& 0x02 = 0 then false
  else if addr = n.ipAddr then false
  else ip4AddrNetEq addr n.ipAddr n.netmask &&
    addr &&& ~~~ n.netmask == 0xffffffff &&& ~~~ n.netmask

def ip4AddrIsmulticast (addr : UInt32) : Bool := addr &&& 0x000000f0 == 0x000000e0

def ip4AddrIslinklocal (addr : UInt32) : Bool := addr &&& 0x0000ffff == 0x0000fea9

/-- The addresses that `etharp_update_arp_entry` and `etharp_query` turn away. -/
def ip4AddrIsUnicast (addr : UInt32) (n : NetifIp) : Bool :=
  !(ip4AddrIsany addr || ip4AddrIsbroadcast addr n || ip4AddrIsmulticast addr)

/-- The link-layer address of an IP multicast address. -/
def mcastaddr (addr : UInt32) : EthAddr :=
  ![0x01, 0x00, 0x5e, (addr >>> 8).toUInt8 &&& 0x7f, (addr >>> 16).toUInt8, (addr >>> 24).toUInt8]

end Addresses

/-- `enum etharp_state` -/
inductive EtharpState where
  | empty | pending | stable | stableRerequesting1 | stableRerequesting2
  deriving DecidableEq, Repr

/-- `state >= ETHARP_STATE_STABLE` -/
def EtharpState.isStable : EtharpState → Bool
  | .empty | .pending => false
  | .stable | .stableRerequesting1 | .stableRerequesting2 => true

/-- `struct etharp_entry`, without the interface. -/
structure EtharpEntry where
  q : Option Pkt
  ipaddr : UInt32
  ethaddr : EthAddr
  ctime : UInt16
  state : EtharpState

def arpTableSize : ℕ := 2

def arpMaxage : UInt16 := 300

def arpMaxpending : UInt16 := 5

def arpAgeRerequestUsedUnicast : UInt16 := arpMaxage - 30

def arpAgeRerequestUsedBroadcast : UInt16 := arpMaxage - 15

def etharpFlagTryHard : UInt8 := 1

def etharpFlagFindOnly : UInt8 := 2

/-- The variables of `etharp.c`, and what it sends. -/
structure Etharp where
  arpTable : List EtharpEntry
  etharpCachedEntry : ℕ
  out : LinkOut

/-- `arp_table[i]`, the zero entry out of bounds. -/
def Etharp.entry (k : Etharp) (i : ℕ) : EtharpEntry :=
  k.arpTable.getD i ⟨none, 0, ethzero, 0, .empty⟩

def Etharp.setEntry (k : Etharp) (i : ℕ) (e : EtharpEntry) : Etharp :=
  { k with arpTable := k.arpTable.set i e }

/-- The state of `etharp.c` at startup. -/
def Etharp.start (ram : ℕ → Option (ℕ → UInt8)) : Etharp where
  arpTable := List.replicate arpTableSize ⟨none, 0, ethzero, 0, .empty⟩
  etharpCachedEntry := 0
  out := ⟨ram, []⟩

/-- `struct etharp_hdr`, as `etharp_raw` fills it in. -/
def etharpHdr (hwsrc : EthAddr) (ipsrc : UInt32) (hwdst : EthAddr) (ipdst : UInt32)
    (opcode : UInt16) : List UInt8 :=
  le16 (lwipHtons 1) ++ le16 (lwipHtons ethtypeIp) ++ [6, 4] ++ le16 (lwipHtons opcode) ++
    List.ofFn hwsrc ++ ip4Bytes ipsrc ++ List.ofFn hwdst ++ ip4Bytes ipdst

def arpRequest : UInt16 := 1

def arpReply : UInt16 := 2

def etharpRaw (ethsrc ethdst hwsrc : EthAddr) (ipsrc : UInt32) (hwdst : EthAddr) (ipdst : UInt32)
    (opcode : UInt16) (o : LinkOut) : LinkErr × LinkOut :=
  let (ram, o) := o.malloc
  match pbufAllocRam pbufLink 28 ram with
  | none => (.mem, o)
  | some p =>
    let p := p.store 0 (etharpHdr hwsrc ipsrc hwdst ipdst opcode)
    (.ok, (ethernetOutput p ethsrc ethdst ethtypeArp o).2)

def etharpRequestDst (n : NetifIp) (ipaddr : UInt32) (hwDst : EthAddr) (o : LinkOut) :
    LinkErr × LinkOut :=
  etharpRaw n.hwaddr hwDst n.hwaddr n.ipAddr ethzero ipaddr arpRequest o

def etharpRequest (n : NetifIp) (ipaddr : UInt32) (o : LinkOut) : LinkErr × LinkOut :=
  etharpRequestDst n ipaddr ethbroadcast o

def etharpFreeEntry (e : EtharpEntry) : EtharpEntry := { e with q := none, state := .empty }

/-- What one round of the loop of `etharp_tmr` makes of an entry. -/
def etharpTmrEntry (e : EtharpEntry) : EtharpEntry :=
  if e.state = .empty then e
  else
    let e := { e with ctime := e.ctime + 1 }
    if arpMaxage ≤ e.ctime ∨ (e.state = .pending ∧ arpMaxpending ≤ e.ctime) then etharpFreeEntry e
    else if e.state = .stableRerequesting1 then { e with state := .stableRerequesting2 }
    else if e.state = .stableRerequesting2 then { e with state := .stable }
    else e

/-- The requests of `etharp_tmr`: an entry that is still pending is asked for again. -/
def etharpTmrRequests (n : NetifIp) : List EtharpEntry → LinkOut → LinkOut
  | [], o => o
  | e :: es, o =>
    etharpTmrRequests n es (if e.state = .pending then (etharpRequest n e.ipaddr o).2 else o)

def etharpTmr (n : NetifIp) (k : Etharp) : Etharp :=
  let arpTable := k.arpTable.map etharpTmrEntry
  { k with arpTable, out := etharpTmrRequests n arpTable k.out }

/-- What `etharp_find_entry` remembers while it looks through the table. -/
structure Candidates where
  empty : Option ℕ
  oldStable : Option ℕ
  oldPending : Option ℕ
  oldQueue : Option ℕ
  ageStable : UInt16
  agePending : UInt16
  ageQueue : UInt16

def noCandidates : Candidates := ⟨none, none, none, none, 0, 0, 0⟩

/-- One round of the search: entry `i` is `e` and does not match. -/
def Candidates.consider (c : Candidates) (i : ℕ) (e : EtharpEntry) : Candidates :=
  if e.state = .empty then { c with empty := c.empty <|> some i }
  else if e.state = .pending then
    if e.q.isSome then
      if c.ageQueue ≤ e.ctime then { c with oldQueue := some i, ageQueue := e.ctime } else c
    else if c.agePending ≤ e.ctime then { c with oldPending := some i, agePending := e.ctime }
    else c
  else if c.ageStable ≤ e.ctime then { c with oldStable := some i, ageStable := e.ctime } else c

/-- The search for an entry with the address: its index, or else the candidates. -/
def findSweep (ipaddr : UInt32) : List EtharpEntry → ℕ → Candidates → ℕ ⊕ Candidates
  | [], _, c => .inr c
  | e :: es, i, c =>
    if e.state ≠ .empty ∧ ipaddr = e.ipaddr then .inl i
    else findSweep ipaddr es (i + 1) (c.consider i e)

/-- `etharp_find_entry`; `none` for `ERR_MEM`. -/
def etharpFindEntry (ipaddr : UInt32) (flags : UInt8) (k : Etharp) : Option ℕ × Etharp :=
  match findSweep ipaddr k.arpTable 0 noCandidates with
  | .inl i => (some i, k)
  | .inr c =>
    if flags &&& etharpFlagFindOnly ≠ 0 ∨ (c.empty = none ∧ flags &&& etharpFlagTryHard = 0) then
      (none, k)
    else
      match c.empty with
      | some i => (some i, k.setEntry i { k.entry i with ipaddr := ipaddr, ctime := 0 })
      | none =>
        match c.oldStable <|> c.oldPending <|> c.oldQueue with
        | some i =>
          (some i,
            k.setEntry i { etharpFreeEntry (k.entry i) with ipaddr := ipaddr, ctime := 0 })
        | none => (none, k)

/-- `etharp_update_arp_entry`. Its result is not used. -/
def etharpUpdateArpEntry (n : NetifIp) (ipaddr : UInt32) (ethaddr : EthAddr) (flags : UInt8)
    (k : Etharp) : Etharp :=
  if ip4AddrIsUnicast ipaddr n then
    match etharpFindEntry ipaddr flags k with
    | (none, k) => k
    | (some i, k) =>
      let e := { k.entry i with state := .stable, ethaddr := ethaddr, ctime := 0 }
      match e.q with
      | none => k.setEntry i e
      | some p =>
        { k.setEntry i { e with q := none } with
          out := (ethernetOutput p n.hwaddr ethaddr ethtypeIp k.out).2 }
  else k

/-- The fields of an ARP message, which `etharp_input` reads at the payload pointer. -/
structure ArpMessage where
  hwtype : UInt16
  proto : UInt16
  hwlen : UInt8
  protolen : UInt8
  opcode : UInt16
  shwaddr : EthAddr
  sipaddr : UInt32
  dipaddr : UInt32

def arpMessage (h : ℕ → UInt8) : ArpMessage where
  hwtype := field16 h 0
  proto := field16 h 2
  hwlen := h 4
  protolen := h 5
  opcode := field16 h 6
  shwaddr := ethAddrAt h 8
  sipaddr := field32 h 14
  dipaddr := field32 h 24

/-- The message is about Ethernet and IP. -/
def ArpMessage.Proper (m : ArpMessage) : Prop :=
  m.hwtype = lwipHtons 1 ∧ m.hwlen = 6 ∧ m.protolen = 4 ∧ m.proto = lwipHtons ethtypeIp

instance (m : ArpMessage) : Decidable m.Proper := inferInstanceAs (Decidable (_ ∧ _))

def ArpMessage.forUs (m : ArpMessage) (n : NetifIp) : Bool :=
  !ip4AddrIsany n.ipAddr && m.dipaddr == n.ipAddr

def ArpMessage.fromUs (m : ArpMessage) (n : NetifIp) : Bool :=
  !ip4AddrIsany n.ipAddr && m.sipaddr == n.ipAddr

def etharpInput (n : NetifIp) (m : ArpMessage) (k : Etharp) : Etharp :=
  if m.Proper then
    let k := etharpUpdateArpEntry n m.sipaddr m.shwaddr
      (if m.forUs n then etharpFlagTryHard else etharpFlagFindOnly) k
    if m.opcode = lwipHtons arpRequest ∧ m.forUs n ∧ ¬ m.fromUs n then
      { k with
        out := (etharpRaw n.hwaddr m.shwaddr n.hwaddr n.ipAddr m.shwaddr m.sipaddr arpReply
          k.out).2 }
    else k
  else k

/-- The first part of `etharp_output_to_arp_index`: an entry that will soon be too old is asked
for again, of its station first and then of all. -/
def etharpRerequest (n : NetifIp) (i : ℕ) (k : Etharp) : Etharp :=
  let e := k.entry i
  if e.state = .stable ∧ arpAgeRerequestUsedUnicast ≤ e.ctime then
    let dst := if arpAgeRerequestUsedBroadcast ≤ e.ctime then ethbroadcast else e.ethaddr
    let (err, out) := etharpRequestDst n e.ipaddr dst k.out
    let k := { k with out }
    if err = .ok then k.setEntry i { e with state := .stableRerequesting1 } else k
  else k

def etharpOutputToArpIndex (n : NetifIp) (q : Pkt) (i : ℕ) (k : Etharp) : LinkErr × Etharp :=
  let k := etharpRerequest n i k
  let (err, out) := ethernetOutput q n.hwaddr (k.entry i).ethaddr ethtypeIp k.out
  (err, { k with out })

/-- The packet that `etharp_query` queues: a copy if a buffer of `q` is a `PBUF_REF`. -/
def takeOver (q : Pkt) (o : LinkOut) : Option Pkt × LinkOut :=
  if q.isRef then
    let (ram, o) := o.malloc
    (pbufClone q ram, o)
  else (some q, o)

/-- The part of `etharp_query` that makes a new entry pending and asks for its address. -/
def etharpNewEntry (n : NetifIp) (ipaddr : UInt32) (i : ℕ) (k : Etharp) : Etharp :=
  if (k.entry i).state = .empty then
    { k.setEntry i { k.entry i with state := .pending } with
      out := (etharpRequest n ipaddr k.out).2 }
  else k

/-- `etharp_query` with a packet. -/
def etharpQuery (n : NetifIp) (ipaddr : UInt32) (q : Pkt) (k : Etharp) : LinkErr × Etharp :=
  if ip4AddrIsUnicast ipaddr n then
    match etharpFindEntry ipaddr etharpFlagTryHard k with
    | (none, k) => (.mem, k)
    | (some i, k) =>
      let k := etharpNewEntry n ipaddr i k
      let e := k.entry i
      if e.state.isStable then
        let (err, out) := ethernetOutput q n.hwaddr e.ethaddr ethtypeIp k.out
        (err, { k with etharpCachedEntry := i, out })
      else
        match takeOver q k.out with
        | (none, out) => (.mem, { k with out })
        | (some p, out) => (.ok, { k.setEntry i { e with q := some p } with out })
  else (.arg, k)

/-- The index of the first stable entry with the address, from entry `i` on. -/
def findStable (dstAddr : UInt32) : List EtharpEntry → ℕ → Option ℕ
  | [], _ => none
  | e :: es, i =>
    if e.state.isStable ∧ dstAddr = e.ipaddr then some i else findStable dstAddr es (i + 1)

/-- Where `etharp_output` sends packets for a unicast address; `none` for `ERR_RTE`. -/
def nextHop (n : NetifIp) (ipaddr : UInt32) : Option UInt32 :=
  if ¬ ip4AddrNetEq ipaddr n.ipAddr n.netmask ∧ ¬ ip4AddrIslinklocal ipaddr then
    if ip4AddrIsany n.gw then none else some n.gw
  else some ipaddr

def etharpOutput (n : NetifIp) (q : Pkt) (ipaddr : UInt32) (k : Etharp) : LinkErr × Etharp :=
  if ip4AddrIsbroadcast ipaddr n then
    let (err, out) := ethernetOutput q n.hwaddr ethbroadcast ethtypeIp k.out
    (err, { k with out })
  else if ip4AddrIsmulticast ipaddr then
    let (err, out) := ethernetOutput q n.hwaddr (mcastaddr ipaddr) ethtypeIp k.out
    (err, { k with out })
  else
    match nextHop n ipaddr with
    | none => (.rte, k)
    | some dstAddr =>
      let cached := k.entry k.etharpCachedEntry
      if cached.state.isStable ∧ dstAddr = cached.ipaddr then
        etharpOutputToArpIndex n q k.etharpCachedEntry k
      else
        match findStable dstAddr k.arpTable 0 with
        | some i => etharpOutputToArpIndex n q i { k with etharpCachedEntry := i }
        | none => etharpQuery n dstAddr q k

end EthernetPing
