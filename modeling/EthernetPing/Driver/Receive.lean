import EthernetPing.Driver.Config

/-!
# Reading one packet

A packet lies in the ring as header, frame with FCS and padding. `fetchPacket` reads
the header and then as many bytes as the status word says, minus four; the number
that the device put before the status word is not looked at.
-/

namespace EthernetPing

open Reg

/-- The ring bounds that `init` sets. -/
structure RingSet (c : Chip) : Prop where
  erxst : c.erxst = RXSTART.toNat
  erxnd : c.erxnd = RXEND.toNat

/-- The packet lies in memory where it says. -/
structure Packet.In (p : Packet) (mem : ℕ → UInt8) : Prop where
  start : p.start ∈ rxRing
  bytes : rxRing.read mem p.start p.size = p.bytes

/-- What was read is the packet: its header, and its bytes as far as both go. -/
structure Taken.Matches (t : Taken) (p : Packet) : Prop where
  start : t.start.toNat = p.start
  header : t.header = p.bytes.take 6
  buf : t.buf.take (p.size - 6) = (p.bytes.drop 6).take t.buf.length

/-- What was read is the packet, as many bytes of it as its status word and `maxlen` ask for. -/
structure Taken.Fetches (maxlen : UInt16) (t : Taken) (p : Packet) : Prop extends t.Matches p where
  pktLen : t.pktLen = ENC28J60.clampLen p.status maxlen
  length : t.buf.length = t.pktLen.toNat

section Ring

variable {c c' : Chip}

theorem RingSet.of_regs (h : RingSet c)
    (hregs : ∀ r ∈ [ERXSTL, ERXSTH, ERXNDL, ERXNDH], c'.regs r = c.regs r) : RingSet c' := by
  simp only [List.forall_mem_cons, List.not_mem_nil, false_implies, implies_true, and_true] at hregs
  obtain ⟨h₁, h₂, h₃, h₄⟩ := hregs
  have hst : c'.erxst = c.erxst := by rw [Chip.erxst, Chip.erxst, h₁, h₂]
  have hnd : c'.erxnd = c.erxnd := by rw [Chip.erxnd, Chip.erxnd, h₃, h₄]
  exact ⟨hst.trans h.erxst, hnd.trans h.erxnd⟩

theorem RingSet.move (h : RingSet c) (hc : HostRegs c c') : RingSet c' :=
  h.of_regs fun r hr => hc.regs r (by revert r; decide)

theorem RingSet.touch {a : Access} (h : RingSet c) (ht : c.Touch a c') (ha : a ≠ .config) :
    RingSet c' :=
  h.of_regs fun r hr => ht.regs_eq (by revert ha r; cases a <;> decide)

theorem RingSet.ring_eq (h : RingSet c) : c.ring = rxRing := by
  have hmax : max RXSTART.toNat RXEND.toNat = RXEND.toNat := by decide
  simp only [Chip.ring, rxRing, h.erxst, h.erxnd, hmax]

theorem RingSet.rdNext_eq (h : RingSet c) {x : ℕ} (hx : x ∈ rxRing) :
    c.rdNext x = rxRing.next x := by
  have hlast : x ≤ 0x0BFF := hx.2
  rw [Chip.rdNext, h.erxst, h.erxnd, Nat.mod_eq_of_lt (by omega)]
  rfl

theorem RingSet.rbmFrom_eq (h : RingSet c) (n : ℕ) {x : ℕ} (hx : x ∈ rxRing) :
    c.rbmFrom n x = (rxRing.read c.mem x n, rxRing.addr x n) := by
  induction n generalizing x with
  | zero => rw [rxRing.addr_zero hx]; rfl
  | succ n ih =>
    rw [Chip.rbmFrom, h.rdNext_eq hx, ih (rxRing.next_mem hx), rxRing.read_succ hx,
      ← rxRing.addr_one hx, rxRing.addr_addr, Nat.add_comm]

theorem ptr13_split (x : UInt16) : ptr13 x.toUInt8 (x >>> 8).toUInt8 = x.toNat % 0x2000 := by
  rw [ptr13, ofLe16_split]

/-- The read pointer holds `x`. -/
def Known.rdpt (x : UInt16) : Known :=
  (Known.nothing.set ERDPTL x.toUInt8).set ERDPTH (x >>> 8).toUInt8

theorem Chip.Holds.erdpt {x : UInt16} (h : c.Holds (.rdpt x)) : c.erdpt = x.toNat % 0x2000 := by
  rw [Chip.erdpt, h ERDPTL _ rfl (by decide), h ERDPTH _ rfl (by decide), ptr13_split]

theorem Chip.holds_setErdpt (c : Chip) (x : ℕ) : (c.setErdpt x).Holds (.rdpt (UInt16.ofNat x)) := by
  intro r v hv _
  rw [Chip.setErdpt]
  by_cases hh : r = ERDPTH
  · subst hh
    rw [Chip.setReg_self]
    exact Option.some.inj hv
  · rw [Chip.setReg_of_ne _ hh]
    rw [Known.rdpt, Known.set, Function.update_of_ne hh] at hv
    by_cases hl : r = ERDPTL
    · subst hl
      rw [Chip.setReg_self]
      exact Option.some.inj hv
    · rw [Known.set, Function.update_of_ne hl] at hv
      cases hv

theorem toNat_ofNat_of_mem {x : ℕ} (hx : x ∈ rxRing) : (UInt16.ofNat x).toNat = x := by
  have hlast : x ≤ 0x0BFF := hx.2
  rw [UInt16.toNat_ofNat', Nat.mod_eq_of_lt (by omega)]

/-- From a pointer in the ring, `rbm` reads the ring and leaves the pointer behind the block. -/
theorem RingSet.rbm_eq (h : RingSet c) {x : UInt16} (hx : x.toNat ∈ rxRing)
    (hp : c.Holds (.rdpt x)) (n : ℕ) :
    c.rbm n = (rxRing.read c.mem x.toNat n, c.setErdpt (rxRing.addr x.toNat n)) := by
  have hlast : x.toNat ≤ 0x0BFF := hx.2
  rw [Chip.rbm, hp.erdpt, Nat.mod_eq_of_lt (by omega), h.rbmFrom_eq n hx]

end Ring

section Header

variable (p : Packet)

theorem Packet.take_header :
    p.bytes.take 6 = [(UInt16.ofNat p.next).toUInt8, (UInt16.ofNat p.next >>> 8).toUInt8,
      p.count.toUInt8, (p.count >>> 8).toUInt8, p.status.toUInt8, (p.status >>> 8).toUInt8] := rfl

theorem Packet.drop_header :
    p.bytes.drop 6 = p.data ++ List.replicate (p.data.length % 2) p.pad := rfl

theorem Packet.size_ge : 6 ≤ p.size := by
  unfold RxFrame.size
  omega

/-- The length that `packetReceive` extracts is the status word less four, clamped. -/
theorem Packet.header_status :
    ofLe16 ((p.bytes.take 6).getD 4 0) ((p.bytes.take 6).getD 5 0) = p.status := by
  rw [Packet.take_header]
  exact ofLe16_split p.status

theorem Taken.Matches.nextPtr {t : Taken} {p : Packet} (h : t.Matches p) :
    t.nextPtr = UInt16.ofNat p.next := by
  rw [Taken.nextPtr, h.header, Packet.take_header]
  exact ofLe16_split _

end Header

section Fetch

variable {R : Board → Board → Prop} {I E : DrvAssn} {p : Packet}

namespace ENC28J60

theorem readBuffer_spec (hI : Kept R [.bank, .readPtr] I)
    (hR : ∀ b b', R b b' → HostRegs b.chip b'.chip) (hring : ∀ v, I v → RingSet v.hw.chip)
    {x : UInt16} (hx : x.toNat ∈ rxRing) (len : UInt16) :
    Triple R (fun v => I v ∧ v.hw.chip.At 0 (.rdpt x)) (readBuffer len)
      (fun bs v => I v ∧ v.hw.chip.At 0 (.rdpt (UInt16.ofNat (rxRing.addr x.toNat len.toNat))) ∧
        bs = rxRing.read v.hw.chip.mem x.toNat len.toNat) E := by
  apply readBuffer_kept (Q := fun bs c =>
    c.At 0 (.rdpt (UInt16.ofNat (rxRing.addr x.toNat len.toNat))) ∧
      bs = rxRing.read c.mem x.toNat len.toNat) hI (by decide) (Chip.At.stable hR)
  intro v hv hat
  rw [(hring v hv).rbm_eq hx hat.holds]
  exact ⟨⟨hat.bank, Chip.holds_setErdpt _ _⟩, rfl⟩

/-- While the packet at `rxPtr` stays where it is, `fetchPacket` reads it. -/
theorem fetchPacket_spec (hI : Kept R [.bank, .readPtr] I)
    (hR : ∀ b b', R b b' → HostRegs b.chip b'.chip) (hring : ∀ v, I v → RingSet v.hw.chip)
    (hstart : p.start ∈ rxRing) (hptr : ∀ v, I v → v.loc.rxPtr.toNat = p.start)
    (hp : ∀ v, I v → p.In v.hw.chip.mem) (maxlen : UInt16) :
    Triple R I (fetchPacket maxlen)
      (fun t v => I v ∧ t.Fetches maxlen p) E := by
  have hx := toNat_ofNat_of_mem hstart
  have hy := toNat_ofNat_of_mem (rxRing.addr_mem p.start 6)
  have hsize := p.size_ge
  apply (setBank_kept hI hR (by decide) (by decide)).seq
  apply Triple.read_bind (x := UInt16.ofNat p.start) fun v hv =>
    UInt16.toNat_inj.mp ((hptr v hv.1).trans hx.symm)
  apply (writeReg_at hI hR (a := .readPtr) (by decide) (by decide)).seq
  apply (writeReg_at hI hR (a := .readPtr) (by decide) (by decide)).seq
  -- the header
  have hhead : Triple R (fun v => I v ∧ v.hw.chip.At 0 (.rdpt (UInt16.ofNat p.start)))
      (readBuffer 6)
      (fun bs v => (I v ∧ v.hw.chip.At 0 (.rdpt (UInt16.ofNat (rxRing.addr p.start 6)))) ∧
        bs = p.bytes.take 6) E := by
    refine (readBuffer_spec hI hR hring (by rwa [hx]) 6).post fun bs v h => ?_
    rw [hx] at h
    refine ⟨⟨h.1, h.2.1⟩, h.2.2.trans ?_⟩
    rw [← (hp v h.1).bytes, rxRing.take_read, Nat.min_eq_left hsize]
    rfl
  apply hhead.bind_value
  -- the frame
  rw [Packet.header_status]
  refine (readBuffer_spec hI hR hring (by rw [hy]; exact rxRing.addr_mem _ _) _).bind fun bs =>
    Triple.pure fun v h => ?_
  rw [hy] at h
  obtain ⟨hv, -, rfl⟩ := h
  refine ⟨hv, ⟨hx, rfl, ?_⟩, rfl, rxRing.length_read _ _ _⟩
  have hrest : p.bytes.drop 6 = rxRing.read v.hw.chip.mem (rxRing.addr p.start 6) (p.size - 6) := by
    rw [← (hp v hv).bytes, ← rxRing.drop_read, Nat.add_sub_cancel' hsize]
  rw [hrest, rxRing.take_read, rxRing.take_read, rxRing.length_read, Nat.min_comm]

/-- Rule for `packetReceive`: nothing happens at packet count zero; otherwise a packet is
fetched, `rxPtr` moves on, and the space of the packet is given back. -/
theorem packetReceive_rule {S T : Taken → DrvAssn} {Q : UInt16 × List UInt8 → DrvAssn}
    (hI : Kept R [.bank, .readPtr] I) (hR : ∀ b b', R b b' → HostRegs b.chip b'.chip)
    {maxlen : UInt16} (hempty : ∀ v, I v → v.hw.chip.pktCnt = 0 → Q (0, []) v)
    (hfetch : Triple R (fun v => I v ∧ v.hw.chip.pktCnt ≠ 0) (fetchPacket maxlen) S E)
    (hadvance : ∀ t v, S t v → T t { v with loc := t.advance v.loc })
    (hfree : ∀ t, Triple R (T t) (freeSpace t.nextPtr) (fun _ => Q (t.pktLen, t.buf)) E) :
    Triple R I (packetReceive maxlen) Q E := by
  apply (setBank_kept hI hR (by decide) (by decide)).seq
  apply (readReg_kept (Q := fun x c => x = c.pktCnt) hI (Chip.At.stable hR) (fun _ h => h.bank)
    (r := EPKTCNT) rfl fun _ _ => rfl).bind
  intro pktCnt
  apply Triple.ite
  · rintro rfl
    exact Triple.pure fun v h => hempty v h.1 h.2.2.symm
  · intro hne
    refine Triple.bind (hfetch.pre fun v h => ⟨h.1, fun h₀ => hne (h.2.2.trans h₀)⟩) fun t => ?_
    refine Triple.seq (S := T t) (Triple.modify (hadvance t)) ?_
    exact (hfree t).seq (Triple.pure fun _ => id)

end ENC28J60

end Fetch

section OnePacket

/-- `packetReceive` is about to read the packet `p`, laid out as the device does. -/
structure AtPacket (p : Packet) (v : View Board Statics Event) : Prop where
  ring : RingSet v.hw.chip
  pktCnt : v.hw.chip.pktCnt ≠ 0
  rxPtr : v.loc.rxPtr.toNat = p.start
  stored : p.In v.hw.chip.mem
  count : p.count.toNat = p.data.length

/-- The device leaves the packet alone and does not lose count of it. -/
structure LeavesPacket (p : Packet) (b b' : Board) : Prop where
  host : HostRegs b.chip b'.chip
  pktCnt : b.chip.pktCnt ≠ 0 → b'.chip.pktCnt ≠ 0
  stored : p.In b.chip.mem → p.In b'.chip.mem

theorem Packet.In.touch {p : Packet} {c c' : Chip} {a : Access} (h : p.In c.mem)
    (ht : c.Touch a c') : p.In c'.mem :=
  ⟨h.start, (rxRing.read_congr fun i _ => ht.mem_eq (rxRing.addr_mem _ i)).trans h.bytes⟩

theorem AtPacket.kept (p : Packet) : Kept (LeavesPacket p) [.bank, .readPtr] (AtPacket p) where
  move h hb := ⟨h.ring.move hb.host, hb.pktCnt h.pktCnt, h.rxPtr, hb.stored h.stored, h.count⟩
  touch {b loc log a mosi n} h ha ht := by
    have hcfg : a ≠ .config := by rintro rfl; revert ha; decide
    have hdec : a ≠ .pktDec := by rintro rfl; revert ha; decide
    exact ⟨h.ring.touch ht hcfg, (ht.pktCnt_eq hdec).trans_ne h.pktCnt, h.rxPtr,
      h.stored.touch ht, h.count⟩
  look h _ := ⟨h.ring, h.pktCnt, h.rxPtr, h.stored, h.count⟩

/-- `packetReceive` returns as many bytes of the packet as the status word announces. -/
theorem packetReceive_spec (p : Packet) (maxlen : UInt16) :
    Triple (LeavesPacket p) (AtPacket p) (ENC28J60.packetReceive maxlen)
      (fun r _ => r.1 = ENC28J60.clampLen p.status maxlen ∧ r.2.length = r.1.toNat ∧
        r.2.take (p.size - 6) = (p.bytes.drop 6).take r.2.length) fun _ => False := by
  have hI := AtPacket.kept p
  have hR : ∀ b b', LeavesPacket p b b' → HostRegs b.chip b'.chip := fun _ _ h => h.host
  apply Triple.assuming
  intro v₀ hv₀
  have hfetch := ENC28J60.fetchPacket_spec (E := fun _ => False) hI hR (fun _ h => h.ring)
    hv₀.stored.start (fun _ h => h.rxPtr) (fun _ h => h.stored) maxlen
  refine Triple.pre (P := AtPacket p) ?_ (by rintro v rfl; exact hv₀)
  refine ENC28J60.packetReceive_rule (T := fun t _ => t.Fetches maxlen p) hI hR
    (fun v h h₀ => (h.pktCnt h₀).elim) (hfetch.pre fun _ h => h.1) (fun t v h => h.2) fun t => ?_
  refine Triple.pre (P := fun _ => True ∧ t.Fetches maxlen p) ?_ fun _ h => ⟨trivial, h⟩
  apply Triple.of_fact
  intro ht
  exact (ENC28J60.freeSpace_kept (Kept.true [.bank, .rxFree, .pktDec]) hR (by decide)
    (by decide) (by decide) t.nextPtr).post fun _ _ _ => ⟨ht.pktLen, ht.length, ht.buf⟩

/-- The frame is delivered whole exactly if the status word happens to be its length with the
FCS, or announces more and `maxlen` cuts just behind the frame. -/
theorem packetReceive_whole_iff {p : Packet} {n : ℕ} (hlen : p.data.length = n + 4)
    {maxlen : UInt16} (hmax : n ≤ maxlen.toNat) {env : ℕ → Board → Board}
    (henv : ∀ k b, LeavesPacket p b (env k b)) {w : World Board Statics Event}
    (hw : AtPacket p w.toView) :
    (ENC28J60.packetReceive maxlen env w).1 = some (UInt16.ofNat n, p.data.take n) ↔
      (p.status - 4).toNat = n ∨ (maxlen.toNat = n ∧ n ≤ (p.status - 4).toNat) := by
  obtain ⟨r, hr, hcl, hbuf, htake⟩ := (packetReceive_spec p maxlen).returns henv hw
  have hn : (UInt16.ofNat n).toNat = n := by
    rw [UInt16.toNat_ofNat', Nat.mod_eq_of_lt (lt_of_le_of_lt hmax maxlen.toNat_lt)]
  have hclamp : r.1.toNat = n ↔
      (p.status - 4).toNat = n ∨ (maxlen.toNat = n ∧ n ≤ (p.status - 4).toNat) := by
    rw [hcl, ENC28J60.clampLen]
    simp only [gt_iff_lt, UInt16.lt_iff_toNat_lt]
    split_ifs <;> omega
  rw [← hclamp, hr]
  constructor
  · intro h
    rw [Option.some.inj h, hn]
  · intro h
    have hsize : n ≤ p.size - 6 := by
      unfold RxFrame.size
      omega
    have hdata : r.2 = p.data.take n := by
      rw [List.take_of_length_le (by omega), Packet.drop_header, hbuf, h,
        List.take_append_of_le_length (by omega)] at htake
      exact htake
    have hfst : r.1 = UInt16.ofNat n := UInt16.toNat_inj.mp (h.trans hn.symm)
    rw [← hdata, ← hfst]

/-- A board with one packet in its ring, which the driver is about to read. -/
def packetWorld (p : Packet) : World Board Statics Event where
  hw :=
    { chip :=
        { benchChip with
          regs := fun r => if r = ERXNDL then 0xFF else if r = ERXNDH then 0x0B else 0
          mem := rxRing.write (fun _ => 0) p.start p.bytes
          pktCnt := 1 }
      tick := 0 }
  loc := { rxPtr := UInt16.ofNat p.start, macAddr := fun _ => 0, taken := [] }
  log := []
  now := 0

theorem atPacket_packetWorld {p : Packet} (hstart : p.start ∈ rxRing) (hfit : p.size ≤ rxRing.size)
    (hcount : p.count.toNat = p.data.length) : AtPacket p (packetWorld p).toView where
  ring :=
    ⟨(by decide : ptr13 0x00 0x00 = RXSTART.toNat), (by decide : ptr13 0xFF 0x0B = RXEND.toNat)⟩
  pktCnt := (by decide : (1 : UInt8) ≠ 0)
  rxPtr := toNat_ofNat_of_mem hstart
  stored := by
    refine ⟨hstart, ?_⟩
    rw [← p.length_bytes] at hfit ⊢
    exact rxRing.read_write_self hstart hfit
  count := hcount

theorem leavesPacket_refl (p : Packet) (b : Board) : LeavesPacket p b b := ⟨.refl _, id, id⟩

/-- A frame of minimum size, received without error, across the end of the ring. -/
def minimumFrame : Packet where
  data := (List.range 64).map UInt8.ofNat
  count := 64
  status := 0x0080
  pad := 0
  start := 0x0BE0
  next := 0x0026

theorem minimumFrame_atPacket : AtPacket minimumFrame (packetWorld minimumFrame).toView :=
  atPacket_packetWorld (by decide) (by decide) (by decide)

theorem packetReceive_whole_iff_minimum :
    (ENC28J60.packetReceive 400 (fun _ b => b) (packetWorld minimumFrame)).1 =
        some (UInt16.ofNat 60, minimumFrame.data.take 60) ↔
      (minimumFrame.status - 4).toNat = 60 ∨
        ((400 : UInt16).toNat = 60 ∧ 60 ≤ (minimumFrame.status - 4).toNat) :=
  packetReceive_whole_iff (n := 60) (by decide) (by decide) (fun _ => leavesPacket_refl _)
    minimumFrame_atPacket

/-- With a status word of `0x0080` the call claims 124 bytes of a frame that has 60. -/
theorem packetReceive_not_whole : ¬ ∀ (p : Packet) (n : ℕ) (maxlen : UInt16)
    (env : ℕ → Board → Board) (w : World Board Statics Event), p.data.length = n + 4 →
      n ≤ maxlen.toNat → (∀ k b, LeavesPacket p b (env k b)) → AtPacket p w.toView →
        (ENC28J60.packetReceive maxlen env w).1 = some (UInt16.ofNat n, p.data.take n) := by
  intro h
  have hwhole := h minimumFrame 60 400 (fun _ b => b) (packetWorld minimumFrame) (by decide)
    (by decide) (fun _ => leavesPacket_refl _) minimumFrame_atPacket
  obtain ⟨r, hr, hlen, -⟩ := (packetReceive_spec minimumFrame 400).returns
    (fun _ => leavesPacket_refl minimumFrame) minimumFrame_atPacket
  rw [hr, Option.some.injEq] at hwhole
  rw [hwhole] at hlen
  exact absurd hlen (by decide)

end OnePacket

end EthernetPing
