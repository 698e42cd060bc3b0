import EthernetPing.Driver.Fifo

/-!
# What the calls return

Seen from its caller, `packetReceive` is a queue: the calls that find packets return the
packets stored, each once and in order, whatever calls come in between. What is compared
with the packets is the length and the bytes returned, beside the count that the call read.
-/

namespace EthernetPing

open Reg

section Receipts

/-- A call of `packetReceive`: its limit, the packet count it found, and what it returned. -/
structure Receipt where
  maxlen : UInt16
  found : Option UInt8
  pktLen : UInt16
  buf : List UInt8
  deriving DecidableEq

/-- The action reads `EPKTCNT`. -/
def asksCount (x : Board × Event) : Bool := x.2 == .spi [0x19] 1 && x.1.chip.bank == 1

def countFound (acts : List (Board × Event)) : Option UInt8 :=
  (acts.find? asksCount).map fun x => x.1.chip.pktCnt

/-- Make a call; `packetReceive` leaves a receipt. -/
def Call.receipt : Call → Drv (Option Receipt)
  | .packetReceive maxlen => do
    let out ← (ENC28J60.packetReceive maxlen).watched countFound
    pure (some ⟨maxlen, out.2, out.1.1, out.1.2⟩)
  | call => do
    call.run
    pure none

/-- The driver from start-up, `init` and then any calls, with the receipts of its reads. -/
def receiptRun (fuel : ℕ) (calls : List Call) : Drv (List Receipt) := do
  ENC28J60.init fuel
  Prog.collect Call.receipt calls

/-- The calls that found packets. -/
def hits (rs : List Receipt) : List Receipt := rs.filter fun r => r.found != some 0

/-- The call returned the packet: as many bytes as its status word and `maxlen` ask for, and these
are the bytes behind its header as far as it goes. -/
structure Receipt.Brings (r : Receipt) (p : Packet) : Prop where
  pktLen : r.pktLen = ENC28J60.clampLen p.status r.maxlen
  length : r.buf.length = r.pktLen.toNat
  buf : r.buf.take (p.size - 6) = (p.bytes.drop 6).take r.buf.length

/-- Every call looked at the packet count. Those that found zero returned nothing, and the `k`-th
of the others returned the `k`-th packet. -/
structure Recorded (rs : List Receipt) (ps : List Packet) : Prop where
  counted : ∀ r ∈ rs, r.found.isSome
  empty : ∀ r ∈ rs, r.found = some 0 → r.pktLen = 0 ∧ r.buf = []
  read : ∀ (k : ℕ) (r : Receipt), (hits rs)[k]? = some r → ∃ p, ps[k]? = some p ∧ r.Brings p

/-- The packets that no call has read yet. -/
def waiting (rs : List Receipt) (v : View Board Statics Event) : List Packet :=
  v.hw.chip.stored.drop (hits rs).length

/-- Driver and device agree on the packets between them after calls with the receipts `rs`. -/
structure InStep (rs : List Receipt) (v : View Board Statics Event) : Prop where
  rxPtr : v.loc.rxPtr.toNat = ((waiting rs v).head?.map fun p => p.start).getD v.hw.chip.wrPtr
  pktCnt : v.hw.chip.pktCnt.toNat = (waiting rs v).length
  all : (hits rs).length + (waiting rs v).length = v.hw.chip.stored.length
  recorded : Recorded rs v.hw.chip.stored

variable {rs : List Receipt} {ps ps' : List Packet} {r : Receipt} {p : Packet} {n : UInt8}
  {s : Statics} {t : Taken} {maxlen : UInt16} {past : List (Board × Event)}
  {v : View Board Statics Event}

theorem getElem?_of_prefix {k : ℕ} (h : ps <+: ps') (hp : ps[k]? = some p) : ps'[k]? = some p := by
  obtain ⟨qs, rfl⟩ := h
  rw [List.getElem?_append_left (List.getElem?_eq_some_iff.mp hp).1, hp]

theorem Recorded.mono (h : Recorded rs ps) (hps : ps <+: ps') : Recorded rs ps' :=
  ⟨h.counted, h.empty, fun k r hr =>
    have ⟨p, hp, hbrings⟩ := h.read k r hr
    ⟨p, getElem?_of_prefix hps hp, hbrings⟩⟩

theorem hits_append (rs : List Receipt) (r : Receipt) :
    hits (rs ++ [r]) = if r.found = some 0 then hits rs else hits rs ++ [r] := by
  rw [hits, List.filter_append, List.filter_singleton]
  split_ifs with h
  · simp [h, hits]
  · rw [bne_iff_ne.mpr h]
    rfl

theorem Recorded.snoc_empty (h : Recorded rs ps) (maxlen : UInt16) :
    Recorded (rs ++ [⟨maxlen, some 0, 0, []⟩]) ps := by
  refine ⟨List.forall_mem_append.mpr ⟨h.counted, by simp⟩,
    List.forall_mem_append.mpr ⟨h.empty, by simp⟩, ?_⟩
  rw [hits_append, if_pos rfl]
  exact h.read

/-- A call that finds packets returns the next one. -/
theorem Recorded.snoc_hit (h : Recorded rs ps) (hfound : r.found = some n) (hn : n ≠ 0)
    (hp : ps[(hits rs).length]? = some p) (hr : r.Brings p) : Recorded (rs ++ [r]) ps := by
  have hne : r.found ≠ some 0 := by simp [hfound, hn]
  refine ⟨List.forall_mem_append.mpr ⟨h.counted, by simp [hfound]⟩,
    List.forall_mem_append.mpr ⟨h.empty, by simp [hne]⟩, fun k r' hk => ?_⟩
  rw [hits_append, if_neg hne, List.getElem?_append] at hk
  split_ifs at hk with hlt
  · exact h.read k r' hk
  · obtain ⟨hk₀, rfl⟩ : k - (hits rs).length = 0 ∧ r = r' := by
      simpa [List.getElem?_singleton] using hk
    obtain rfl : k = (hits rs).length := by omega
    exact ⟨p, hp, hr⟩

/-- Since the log `past`, the first packet count read was `n`. -/
def Counted (past : List (Board × Event)) (n : UInt8) (v : View Board Statics Event) : Prop :=
  ∃ new, v.log = new ++ past ∧ countFound new.reverse = some n

theorem Counted.push (h : Counted past n v) (x : Board × Event) (b : Board) (loc : Statics) :
    Counted past n ⟨b, loc, x :: v.log⟩ := by
  obtain ⟨new, hlog, hfound⟩ := h
  refine ⟨x :: new, congrArg _ hlog, ?_⟩
  obtain ⟨y, hy, rfl⟩ := Option.map_eq_some_iff.mp hfound
  rw [countFound, List.reverse_cons, List.find?_append, hy]
  rfl

theorem Counted.kept {R : Board → Board → Prop} (A : List Access) (past : List (Board × Event))
    (n : UInt8) (φ : Statics → Prop) : Kept R A fun v => φ v.loc ∧ Counted past n v where
  move h _ := h
  touch {b loc _ _ mosi m} h _ _ := ⟨h.1, h.2.push (b, .spi mosi m) _ loc⟩
  look {b loc _ e} h _ := ⟨h.1, h.2.push (b, e) _ loc⟩

/-- `packetReceive` looks at `EPKTCNT` and takes a packet exactly if it does not find zero. -/
theorem packetReceive_counts {R : Board → Board → Prop} {E : DrvAssn}
    (hR : ∀ b b', R b b' → HostRegs b.chip b'.chip) (past : List (Board × Event)) (s : Statics)
    (maxlen : UInt16) :
    Triple R (fun v => v.loc = s ∧ v.log = past) (ENC28J60.packetReceive maxlen)
      (fun _ v => ∃ n, Counted past n v ∧
        v.loc.taken.length = s.taken.length + if n = 0 then 0 else 1) E := by
  have hbank : Triple R (fun v => True ∧ v.loc = s ∧ v.log = past) (ENC28J60.setBank 1)
      (fun _ v => (True ∧ v.hw.chip.At 1 .nothing) ∧ v.loc = s ∧
        ∃ b b', v.log = (b', .spi [0x9F, 1] 0) :: (b, .spi [0xBF, 3] 0) :: past)
      (fun v => E v ∧ E v) := by
    refine (ENC28J60.setBank_kept (Kept.true [.bank]) hR (by decide) (by decide)).and ?_
    unfold ENC28J60.setBank ENC28J60.writeOp spiTransmit
    refine Triple.seq (S := fun v => v.loc = s ∧ ∃ b, v.log = (b, .spi [0xBF, 3] 0) :: past) ?_ ?_
    · exact Triple.act fun v b h _ => ⟨h.1, b, congrArg _ h.2⟩
    · exact Triple.act fun v b h _ => ⟨h.1, h.2.choose, b, congrArg _ h.2.choose_spec⟩
  have hread : Triple R (fun v => (True ∧ v.hw.chip.At 1 .nothing) ∧ v.loc = s ∧
        ∃ b b', v.log = (b', .spi [0x9F, 1] 0) :: (b, .spi [0xBF, 3] 0) :: past)
      (ENC28J60.readReg 0x19) (fun n v => v.loc = s ∧ Counted past n v) E := by
    unfold ENC28J60.readReg ENC28J60.readOp spiReceive
    refine Triple.bind (Q := fun rx v => v.loc = s ∧ Counted past (rx.headD 0) v)
      (Triple.act fun v b h hb => ⟨h.2.1, ?_⟩) fun rx => Triple.pure fun _ => id
    obtain ⟨⟨-, hat⟩, -, b₁, b₂, hlog⟩ := h
    have hone : b.chip.bank = 1 := (hR _ _ hb).bank_eq.trans hat.bank
    refine ⟨[(b, .spi [0x19] 1), (b₂, .spi [0x9F, 1] 0), (b₁, .spi [0xBF, 3] 0)],
      congrArg _ hlog, ?_⟩
    rw [Chip.transact_rcr, hone]
    simp [countFound, asksCount, hone]
    rfl
  have hstart : Triple R (fun v => v.loc = s ∧ v.log = past) (ENC28J60.setBank 1) _ E :=
    hbank.conseq (fun v h => ⟨trivial, h⟩) (fun _ _ => id) fun _ h => h.1
  refine hstart.seq (hread.bind fun n => Triple.ite ?_ ?_)
  · rintro rfl
    exact Triple.pure fun v h => ⟨0, h.2, by rw [h.1]; rfl⟩
  · intro hn
    refine (ENC28J60.fetchPacket_kept (Counted.kept [.bank, .readPtr] past n fun s' => s' = s) hR
      (by decide) (by decide) maxlen).bind fun t => ?_
    refine Triple.seq (S := fun v => v.loc = t.advance s ∧ Counted past n v)
      (Triple.modify fun v h => ⟨congrArg t.advance h.1, h.2⟩) ?_
    refine (ENC28J60.freeSpace_kept (Counted.kept [.bank, .rxFree, .pktDec] past n
      fun s' => s' = t.advance s) hR (by decide) (by decide) (by decide) t.nextPtr).seq
      (Triple.pure fun v h => ⟨n, h.2, ?_⟩)
    rw [h.1, if_neg hn]
    simp [Taken.advance]

/-- The packet `t` has been taken, the one that was next for `s`. -/
def Read (maxlen : UInt16) (s : Statics) (t : Taken) (loc : Statics) (ps : List Packet) : Prop :=
  loc = t.advance s ∧ ∃ p, ps[s.taken.length]? = some p ∧ t.Fetches maxlen p

theorem Read.mono {loc : Statics} (h : Read maxlen s t loc ps) (hps : ps <+: ps') :
    Read maxlen s t loc ps' :=
  have ⟨p, hp, ht⟩ := h.2
  ⟨h.1, p, getElem?_of_prefix hps hp, ht⟩

/-- A call of `packetReceive` takes nothing and returns nothing, or takes the next packet and
returns it. -/
theorem packetReceive_reads (rs : List Receipt) (s : Statics) (maxlen : UInt16) :
    Triple (Device QueueMove) (fun v => Synced 0 v ∧ v.loc = s ∧ Recorded rs v.hw.chip.stored)
      (ENC28J60.packetReceive maxlen)
      (fun out v => Synced 0 v ∧ Recorded rs v.hw.chip.stored ∧
        ((v.loc = s ∧ out = (0, [])) ∨
          ∃ t, out = (t.pktLen, t.buf) ∧ Read maxlen s t v.loc v.hw.chip.stored))
      fun _ => True := by
  have hR := Device.host fun _ _ => QueueMove.host
  have hgrow := Device.stored fun _ _ => QueueMove.stored
  have hstart : Kept (Device QueueMove) [.bank, .readPtr]
      fun v => Synced 0 v ∧ v.loc = s ∧ Recorded rs v.hw.chip.stored :=
    ((Synced.kept 0).mono (by decide)).and
      (.of_stored _ hgrow (φ := fun loc ps => loc = s ∧ Recorded rs ps)
        fun h hps => ⟨h.1, h.2.mono hps⟩)
  refine packetReceive_queue (f := id) (A := fun t v => Synced 1 v ∧
      Read maxlen s t v.loc v.hw.chip.stored ∧ Recorded rs v.hw.chip.stored) (fun _ => rfl) hstart
    (fun v h => h.1) hR hgrow maxlen (fun v h => ⟨h.1, h.2.2, .inl ⟨h.2.1, rfl⟩⟩) ?_ fun t => ?_
  · rintro p t v ⟨hsync, rfl, hrec⟩ hp ht
    have hnext : v.hw.chip.stored[v.loc.taken.length]? = some p := by
      rw [← List.head?_drop]
      exact hp
    exact ⟨hsync.advance hp ht.toMatches, ⟨rfl, p, hnext, ht⟩, hrec⟩
  · have hkeep := ENC28J60.freeSpace_kept (R := Device QueueMove) (E := fun _ => True)
      (Kept.of_stored [.bank, .rxFree, .pktDec] hgrow
        (φ := fun loc ps => Read maxlen s t loc ps ∧ Recorded rs ps)
        fun h hps => ⟨h.1.mono hps, h.2.mono hps⟩) hR (by decide) (by decide) (by decide) t.nextPtr
    exact ((freeSpace_synced (E := fun _ => True) t.nextPtr).and hkeep).conseq (fun _ => id)
      (fun _ v h => ⟨h.1, h.2.2, .inr ⟨t, rfl, h.2.1⟩⟩) fun _ _ => trivial

/-- The queue at a call boundary, with the receipts so far. -/
structure Booked (rs : List Receipt) (v : View Board Statics Event) : Prop where
  synced : Synced 0 v
  recorded : Recorded rs v.hw.chip.stored
  hits : (hits rs).length = v.loc.taken.length

theorem Booked.kept (rs : List Receipt) :
    Kept (Device QueueMove) [.bank, .readPtr, .mii, .txPtr, .txMem, .txrts, .rxFree]
      (Booked rs) where
  move h hb := ⟨(Synced.kept 0).move h.synced hb,
    h.recorded.mono (Device.stored (fun _ _ => QueueMove.stored) _ _ hb), h.hits⟩
  touch h ha ht := ⟨(Synced.kept 0).touch h.synced ha ht,
    h.recorded.mono (by rw [ht.stored_eq]), h.hits⟩
  look h he := ⟨(Synced.kept 0).look h.synced he, h.recorded, h.hits⟩

/-- Step lemma: each call adds its receipt. -/
theorem Call.receipt_booked (rs : List Receipt) (call : Call) (hfit : call.Fits 5119) :
    Triple (Device QueueMove) (Booked rs) call.receipt (fun r => Booked (rs ++ r.toList))
      fun _ => True := by
  have hI := Booked.kept rs
  have hR := Device.host fun _ _ => QueueMove.host
  have hE : ∀ v, Booked rs v → True := fun _ _ => trivial
  have hnone : ∀ v, Booked rs v → Booked (rs ++ (none : Option Receipt).toList) v :=
    fun v h => (List.append_nil rs).symm ▸ h
  cases call with
  | packetReceive maxlen =>
    refine Triple.bind (Q := fun out => Booked (rs ++ [⟨maxlen, out.2, out.1.1, out.1.2⟩]))
      (Triple.watched fun past => ?_) fun out => Triple.pure fun _ => id
    refine Triple.pre (P := fun v => ∃ s, ((Synced 0 v ∧ v.loc = s ∧
        Recorded rs v.hw.chip.stored) ∧ v.loc = s ∧ v.log = past) ∧
        (EthernetPing.hits rs).length = s.taken.length) ?_
      fun v h => ⟨v.loc, ⟨⟨h.1.synced, rfl, h.1.recorded⟩, rfl, h.2⟩, h.1.hits⟩
    refine Triple.of_exists fun s => Triple.of_fact fun hhits => ?_
    have hboth := (packetReceive_reads rs s maxlen).and
      (packetReceive_counts (E := fun _ => True) hR past s maxlen)
    refine hboth.conseq (fun _ => id) ?_ fun _ _ => trivial
    rintro out v ⟨⟨hsync, hrec, hout⟩, n, ⟨new, hlog, hfound⟩, hcount⟩
    refine ⟨new, hlog, ?_⟩
    rw [hfound]
    obtain ⟨hloc, rfl⟩ | ⟨t, rfl, hloc, p, hp, ht⟩ := hout
    -- nothing was taken: the count found was zero
    · obtain rfl : n = 0 := by
        by_contra hn
        rw [hloc, if_neg hn] at hcount
        omega
      refine ⟨hsync, hrec.snoc_empty maxlen, ?_⟩
      rw [hits_append, if_pos rfl, hhits, hloc]
    -- a packet was taken: the count found was not zero
    · have htaken : v.loc.taken.length = s.taken.length + 1 := by simp [hloc, Taken.advance]
      have hn : n ≠ 0 := by
        rintro rfl
        rw [if_pos rfl] at hcount
        omega
      refine ⟨hsync, hrec.snoc_hit rfl hn (hhits ▸ hp) ⟨ht.pktLen, ht.length, ht.buf⟩, ?_⟩
      rw [hits_append, if_neg (by simp [hn]), List.length_append, List.length_singleton, hhits,
        htaken]
  | sendPacket fuel buf len =>
    exact (ENC28J60.sendPacket_kept hI hR hE (by decide) (by decide) (by decide) (by decide) fuel
      buf hfit).seq (Triple.pure hnone)
  | readPHY fuel phyAddr =>
    have hread : Triple _ (Booked rs) (Call.readPHY fuel phyAddr).run (fun _ => Booked rs)
        fun _ => True :=
      (ENC28J60.readPHY_kept hI hR hE (by decide) (by decide) fuel phyAddr).bind
        fun _ => Triple.pure fun _ => id
    exact hread.seq (Triple.pure hnone)
  | writePHY fuel phyAddr data =>
    exact (ENC28J60.writePHY_kept hI hR hE (by decide) (by decide) fuel phyAddr data).seq
      (Triple.pure hnone)

/-- After `init` nothing is stored, and no call has been made. -/
theorem Started.booked {mac : Fin 6 → UInt8} (hloc : v.loc = Statics.load mac)
    (h : Started mac v.hw.chip) : Booked [] v where
  synced := h.synced hloc
  recorded := ⟨by simp, by simp, by simp [EthernetPing.hits]⟩
  hits := by rw [hloc]; rfl

theorem Booked.inStep (h : Booked rs v) : InStep rs v := by
  have hwait : waiting rs v = unread v := by rw [waiting, h.hits, unread]
  have hlen : (unread v).length = v.hw.chip.stored.length - v.loc.taken.length := List.length_drop
  have hcount := h.synced.count
  have htaken := h.synced.taken
  have hhits := h.hits
  refine ⟨?_, ?_, ?_, h.recorded⟩
  · rw [hwait]
    exact h.synced.rxPtr_eq
  · rw [hwait]
    omega
  · rw [hwait]
    omega

/-- The receive side is a lossless queue: after any calls, beside any device that spares unread
packets, the driver is in step, and the `k`-th call that found packets returned the `k`-th packet
stored. -/
theorem receive_fifo {env : ℕ → Board → Board} (henv : ∀ n b, Device QueueMove b (env n b))
    {mac : Fin 6 → UInt8} {w : World Board Statics Event} (hw : w.loc = Statics.load mac)
    (fuel : ℕ) {calls : List Call} (hfit : ∀ call ∈ calls, call.Fits 5119) {rs : List Receipt}
    (hret : (receiptRun fuel calls env w).1 = some rs) :
    InStep rs (receiptRun fuel calls env w).2.toView := by
  have hinit := ENC28J60.init_spec (Device.host fun _ _ => QueueMove.host)
    (Device.idle (fun _ _ => QueueMove.host) fun _ _ => QueueMove.idle) (Statics.load mac) fuel
  have hcalls := Triple.collect calls (fun rs call hmem => call.receipt_booked rs (hfit call hmem))
    []
  have hrun := (hinit.post fun _ v h => h.2.booked h.1).seq hcalls
  exact ((hrun env henv w hw).1 rs hret).inStep

/-- A frame of 64 bytes, whose status word is its length. -/
def oneFrame (n : ℕ) : Option RxFrame :=
  if n = 39 then some ⟨(List.range 64).map UInt8.ofNat, 64, 64, 0⟩ else none

/-- Twenty bytes of the frame, then nothing. -/
theorem receiptRun_oneFrame :
    (receiptRun 1 [.packetReceive 20, .writePHY 1 0x14 0x0A40, .sendPacket 1 [0xFF] 1,
      .packetReceive 400] (feed oneFrame) benchWorld).1 =
      some [⟨20, some 1, 20, (List.range 20).map UInt8.ofNat⟩, ⟨400, some 0, 0, []⟩] := by
  decide +kernel

theorem receive_fifo_oneFrame :
    InStep [⟨20, some 1, 20, (List.range 20).map UInt8.ofNat⟩, ⟨400, some 0, 0, []⟩]
      (receiptRun 1 [.packetReceive 20, .writePHY 1 0x14 0x0A40, .sendPacket 1 [0xFF] 1,
        .packetReceive 400] (feed oneFrame) benchWorld).2.toView := by
  have hloc : benchWorld.loc = Statics.load ![0x02, 0x00, 0x00, 0x11, 0x22, 0x33] := rfl
  have hfifo := receive_fifo (feed_queue oneFrame) hloc 1 (by simp [Call.Fits])
    receiptRun_oneFrame
  exact hfifo

end Receipts

end EthernetPing
