import EthernetPing.Driver.Fifo

/-!
# The limit that `ERXRDPT` sets

The device stores frames up to the address in `ERXRDPT`. As long as the driver keeps
that address inside the ring and behind the unread packets, none of them is ever
overwritten. The driver writes `nextPtr - 1`: the byte before the next packet, except
when that packet starts at `RXSTART`.
-/

namespace EthernetPing

open Reg

/-- One move of a device that stops only before the address in `ERXRDPT`. -/
inductive GuardedMove (c : Chip) : Chip → Prop
  | quiet {c' : Chip} (host : HostRegs c c') (stored : c'.stored = c.stored)
    (pktCnt : c'.pktCnt = c.pktCnt) (wrPtr : c'.wrPtr = c.wrPtr)
    (mem : ∀ x ∈ c.ring, c'.mem x = c.mem x) : GuardedMove c c'
  | arrive (f : RxFrame) (rxen : c.rxen = true) (pktCnt : c.pktCnt < 255)
    (room : ∀ i < f.size, c.ring.addr c.wrPtr i ≠ c.erxrdpt) : GuardedMove c (c.store f)

/-- The queue with room for its packets before `ERXRDPT`, which has been in the ring at every
action since the log `past`. -/
structure Guarded (lag : ℕ) (past : List (Board × Event)) (v : View Board Statics Event) :
    Prop where
  synced : Synced lag v
  erxrdpt : v.hw.chip.erxrdpt ∈ rxRing
  room : space (unread v) ≤ rxRing.offset v.loc.rxPtr.toNat v.hw.chip.erxrdpt
  log : ∃ new, v.log = new ++ past ∧ ∀ x ∈ new, x.1.chip.erxrdpt ∈ rxRing

section Moves

variable {c c' : Chip}

theorem GuardedMove.host (h : GuardedMove c c') : HostRegs c c' := by
  cases h with
  | quiet host => exact host
  | arrive => exact ⟨fun _ _ => rfl, rfl, rfl, rfl, rfl⟩

theorem GuardedMove.stored (h : GuardedMove c c') : c.stored <+: c'.stored := by
  cases h with
  | quiet _ stored => rw [stored]
  | arrive => exact List.prefix_append _ _

theorem GuardedMove.idle (h : GuardedMove c c') (hrxen : c.rxen = false) :
    c'.stored = c.stored ∧ c'.pktCnt = c.pktCnt ∧ c'.wrPtr = c.wrPtr := by
  cases h with
  | quiet _ stored pktCnt wrPtr => exact ⟨stored, pktCnt, wrPtr⟩
  | arrive f rxen =>
    rw [hrxen] at rxen
    cases rxen

end Moves

section Step

variable {lag : ℕ} {past : List (Board × Event)} {v : View Board Statics Event}

/-- A frame for which the device finds room fits between the unread packets and `ERXRDPT`. -/
theorem Guarded.fits (h : Guarded lag past v) {f : RxFrame}
    (room : ∀ i < f.size, v.hw.chip.ring.addr v.hw.chip.wrPtr i ≠ v.hw.chip.erxrdpt) :
    space (unread v) + f.size ≤ rxRing.offset v.loc.rxPtr.toNat v.hw.chip.erxrdpt := by
  have hend := h.synced.chain.end_eq h.synced.rxPtr
  rw [h.synced.ring.ring_eq] at room
  have hwr : v.hw.chip.wrPtr ∈ rxRing := hend ▸ rxRing.addr_mem _ _
  have hle : f.size ≤ rxRing.offset v.hw.chip.wrPtr v.hw.chip.erxrdpt := by
    by_contra hlt
    exact room _ (by omega) (rxRing.addr_offset hwr h.erxrdpt)
  have hoff := rxRing.offset_addr_left h.synced.rxPtr h.erxrdpt h.room
  rw [← hend] at hoff
  have hroom := h.room
  omega

/-- Storing a frame where there is room overwrites no unread packet. -/
theorem Guarded.store (h : Guarded lag past v) {f : RxFrame} (hcnt : v.hw.chip.pktCnt < 255)
    (room : ∀ i < f.size, v.hw.chip.ring.addr v.hw.chip.wrPtr i ≠ v.hw.chip.erxrdpt) {b : Board}
    (hb : b.chip = v.hw.chip.store f) : Guarded lag past { v with hw := b } := by
  have hfit := h.fits room
  have hlt := rxRing.offset_lt v.loc.rxPtr.toNat v.hw.chip.erxrdpt
  have hend := h.synced.chain.end_eq h.synced.rxPtr
  have hwr : v.hw.chip.wrPtr ∈ rxRing := hend ▸ rxRing.addr_mem _ _
  have hlen : (v.hw.chip.place f).bytes.length = f.size := (v.hw.chip.place f).length_bytes
  have hring := h.synced.ring.ring_eq
  have hsync : Synced lag { v with hw := b } := by
    refine h.synced.deliver hcnt ⟨hwr, ?_⟩ (fun p hp hin => ⟨hin.start, ?_⟩) hb
    · rw [hring]
      conv_lhs => rw [show (v.hw.chip.place f).size = (v.hw.chip.place f).bytes.length
        from hlen.symm]
      exact rxRing.read_write_self hwr (by omega)
    · obtain ⟨u, hu, hle⟩ := h.synced.chain.position h.synced.rxPtr hp
      rw [hring, hend, hu, rxRing.read_write_before h.synced.rxPtr hle (by omega), ← hu]
      exact hin.bytes
  refine ⟨hsync, ?_, ?_, h.log⟩
  · rw [hb]
    exact h.erxrdpt
  · rw [unread_deliver h.synced.taken hb, hb]
    simp only [space, List.map_append, List.sum_append, List.map_singleton, List.sum_singleton]
    exact hfit

theorem Guarded.move {c : Chip} (h : Guarded lag past v) (hm : GuardedMove v.hw.chip c) :
    Guarded lag past { v with hw := { v.hw with chip := c } } := by
  cases hm with
  | quiet host stored pktCnt wrPtr mem =>
    rw [h.synced.ring.ring_eq] at mem
    have hkeep : ∀ p ∈ unread v, p.In v.hw.chip.mem → p.In c.mem := fun p _ hp =>
      ⟨hp.start, (rxRing.read_congr fun i _ => mem _ (rxRing.addr_mem _ i)).trans hp.bytes⟩
    have hunread : unread { v with hw := { v.hw with chip := c } } = unread v :=
      congrArg (List.drop _) stored
    have hcount := h.synced.count
    rw [← pktCnt] at hcount
    refine ⟨h.synced.congr (h.synced.ring.move host) stored wrPtr hcount hkeep v.log, ?_, ?_,
      h.log⟩
    · rw [host.erxrdpt]
      exact h.erxrdpt
    · rw [hunread, host.erxrdpt]
      exact h.room
  | arrive f rxen pktCnt room => exact h.store pktCnt room rfl

/-- The log grows by actions at which `ERXRDPT` is in the ring. -/
theorem Guarded.push {lag' : ℕ} {b : Board} {e : Event} (h : Guarded lag past v)
    (hsync : Synced lag' ⟨b, v.loc, (v.hw, e) :: v.log⟩) (hmem : b.chip.erxrdpt ∈ rxRing)
    (hroom : space (v.hw.chip.stored.drop v.loc.taken.length) ≤
      rxRing.offset v.loc.rxPtr.toNat b.chip.erxrdpt)
    (hstored : b.chip.stored = v.hw.chip.stored) :
    Guarded lag' past ⟨b, v.loc, (v.hw, e) :: v.log⟩ := by
  obtain ⟨new, hnew, hall⟩ := h.log
  refine ⟨hsync, hmem, ?_, (v.hw, e) :: new, congrArg _ hnew, ?_⟩
  · rw [unread, hstored]
    exact hroom
  · simp only [List.forall_mem_cons]
    exact ⟨h.erxrdpt, hall⟩

theorem Guarded.kept (lag : ℕ) (past : List (Board × Event)) :
    Kept (Device GuardedMove) [.bank, .readPtr, .mii, .txPtr, .txMem, .txrts]
      (Guarded lag past) where
  move h hb := Device.keeps (P := fun c => Guarded lag past ⟨⟨c, _⟩, _, _⟩)
    (fun _ _ h hm => Guarded.move h hm) hb
    ⟨(Synced.kept lag).move h.synced .refl, h.erxrdpt, h.room, h.log⟩
  touch {b loc log a mosi n} h ha ht := by
    have hfree : a ≠ .rxFree := by rintro rfl; revert ha; decide
    have hrd := ht.erxrdpt_eq hfree
    refine h.push ((Synced.kept lag).touch h.synced (by revert ha; cases a <;> decide) ht) ?_ ?_
      ht.stored_eq
    · exact hrd ▸ h.erxrdpt
    · exact hrd.symm ▸ h.room
  look h he := h.push ((Synced.kept lag).look h.synced he) h.erxrdpt h.room rfl

/-- Taking the oldest packet leaves room for the others. -/
theorem Guarded.advance {p : Packet} {t : Taken} (h : Guarded 0 past v)
    (hp : (unread v).head? = some p) (ht : t.Matches p) :
    Guarded 1 past { v with loc := t.advance v.loc } := by
  have hsync := h.synced.advance hp ht
  obtain ⟨hstart, -, hnext⟩ := h.synced.head hp
  have hroom := h.room
  rw [unread_eq_cons hp, space, List.map_cons, List.sum_cons] at hroom
  have hptr : (t.advance v.loc).rxPtr.toNat = rxRing.addr v.loc.rxPtr.toNat p.size := by
    rw [ht.rxPtr_advance (hnext ▸ rxRing.addr_mem _ _), hnext, hstart]
  refine ⟨hsync, h.erxrdpt, ?_, h.log⟩
  rw [unread_advance, hptr, rxRing.offset_addr_left h.synced.rxPtr h.erxrdpt (by omega), space]
  omega

/-- The driver gives back the ring up to the byte before `rxPtr`. -/
def Released (v : View Board Statics Event) : Prop :=
  v.loc.taken ≠ [] → v.hw.chip.erxrdpt = rxRing.before v.loc.rxPtr.toNat

/-- Some packet taken so far ended at `RXEND`, so that its successor starts at `RXSTART`. -/
def Wrapped (v : View Board Statics Event) : Prop :=
  ∃ p ∈ v.hw.chip.stored.take v.loc.taken.length, p.next = RXSTART.toNat

theorem Wrapped.mono {v' : View Board Statics Event} (h : Wrapped v)
    (hstored : v.hw.chip.stored <+: v'.hw.chip.stored)
    (htaken : v.loc.taken.length ≤ v'.loc.taken.length) : Wrapped v' := by
  obtain ⟨p, hp, hnext⟩ := h
  obtain ⟨qs, hqs⟩ := hstored
  refine ⟨p, ?_, hnext⟩
  rw [← hqs, List.take_append]
  exact List.mem_append_left _ (List.take_subset_take_left _ htaken hp)

theorem Wrapped.kept (A : List Access) : Kept (Device GuardedMove) A Wrapped where
  move h hb := h.mono (Device.stored (fun _ _ => GuardedMove.stored) _ _ hb) le_rfl
  touch h _ ht := h.mono (by rw [ht.stored_eq]) le_rfl
  look h _ := h

/-- `nextPtr - 1`, unless the next packet starts at `RXSTART`. -/
theorem ptr13_before {x : UInt16} (hx : x.toNat ∈ rxRing) (hne : x.toNat ≠ RXSTART.toNat) :
    ptr13 (x - 1).toUInt8 ((x - 1) >>> 8).toUInt8 = rxRing.before x.toNat := by
  have hlast : x.toNat ≤ 0x0BFF := hx.2
  have hpos : 1 ≤ x.toNat := Nat.one_le_iff_ne_zero.mpr hne
  have hsub : (x - 1).toNat = x.toNat - 1 :=
    UInt16.toNat_sub_of_le x 1 (UInt16.le_iff_toNat_le.mpr hpos)
  rw [ptr13_split, hsub, Ring.before, if_neg (show x.toNat ≠ rxRing.lo from hne)]
  exact Nat.mod_eq_of_lt (by omega)

end Step

section Driver

variable {past : List (Board × Event)} {E : DrvAssn}

/-- Giving back the ring up to the byte before `x`, where the next packet starts. -/
theorem freeSpace_guarded {x : UInt16} (hne : x.toNat ≠ RXSTART.toNat) :
    Triple (Device GuardedMove) (fun v => Guarded 1 past v ∧ v.loc.rxPtr = x)
      (ENC28J60.freeSpace x) (fun _ v => Guarded 0 past v ∧ Released v) E := by
  have hR := Device.host (fun _ _ => GuardedMove.host)
  have hI := (Guarded.kept 1 past).and_loc fun s => s.rxPtr = x
  apply (ENC28J60.setBank_kept hI hR (by decide) (by decide)).seq
  refine Triple.seq (S := fun v => (Guarded 1 past v ∧ v.loc.rxPtr = x) ∧ v.hw.chip.bank = 0 ∧
    v.hw.chip.rdptLatch = (x - 1).toUInt8) ?_ ?_
  · unfold ENC28J60.writeReg ENC28J60.writeOp spiTransmit
    apply Triple.act
    intro v b hv hb
    have hat := Chip.At.stable hR _ _ hb hv.2
    obtain ⟨hg, hx⟩ := hI.move hv.1 hb
    have ht : b.chip.Touch .rxFree (b.chip.wcr ERXRDPTL (x - 1).toUInt8) :=
      .write _ _ (by decide)
    rw [Chip.transact_wcr, hat.bank]
    exact ⟨⟨hg.push (hg.synced.touch ht (by decide) (by decide) _) hg.erxrdpt hg.room rfl, hx⟩,
      hat.bank, rfl⟩
  refine Triple.seq (S := fun v => (Guarded 1 past v ∧ v.loc.rxPtr = x) ∧
    v.hw.chip.erxrdpt = rxRing.before x.toNat) ?_ ?_
  · unfold ENC28J60.writeReg ENC28J60.writeOp spiTransmit
    apply Triple.act
    intro v b hv hb
    obtain ⟨hg, hx⟩ := hI.move hv.1 hb
    have hbank : b.chip.bank = 0 := (hR _ _ hb).bank_eq.trans hv.2.1
    have hlatch : b.chip.rdptLatch = (x - 1).toUInt8 := (hR _ _ hb).latch.trans hv.2.2
    have hmem : x.toNat ∈ rxRing := hx ▸ hg.synced.rxPtr
    have hrd : (b.chip.wcr ERXRDPTH ((x - 1) >>> 8).toUInt8).erxrdpt = rxRing.before x.toNat := by
      change ptr13 b.chip.rdptLatch _ = _
      rw [hlatch, ptr13_before hmem hne]
    have ht : b.chip.Touch .rxFree (b.chip.wcr ERXRDPTH ((x - 1) >>> 8).toUInt8) :=
      .write _ _ (by decide)
    have hroom : space (unread ⟨b, v.loc, v.log⟩) ≤
        rxRing.offset v.loc.rxPtr.toNat (rxRing.before x.toNat) := by
      have hlt := rxRing.offset_lt v.loc.rxPtr.toNat b.chip.erxrdpt
      have hold := hg.room
      rw [hx, rxRing.offset_before hmem]
      rw [hx] at hlt hold
      exact Nat.le_sub_one_of_lt (lt_of_le_of_lt hold hlt)
    rw [Chip.transact_wcr, hbank]
    refine ⟨⟨hg.push (hg.synced.touch ht (by decide) (by decide) _) ?_ ?_ rfl, hx⟩, hrd⟩
    · exact hrd ▸ rxRing.before_mem hmem
    · exact hrd.symm ▸ hroom
  unfold ENC28J60.writeOp spiTransmit
  apply Triple.act
  intro v b hv hb
  obtain ⟨hg, hx⟩ := hI.move hv.1 hb
  have hrd : b.chip.erxrdpt = rxRing.before x.toNat := (hR _ _ hb).erxrdpt.trans hv.2
  have hsame : (b.chip.bfs ECON2 0x40).erxrdpt = b.chip.erxrdpt :=
    Chip.Touch.erxrdpt_eq .pktDec (by decide)
  rw [Chip.transact_bfs]
  refine ⟨hg.push (hg.synced.pktDec _) ?_ ?_ (Chip.Touch.stored_eq .pktDec), fun _ => ?_⟩
  · exact hsame ▸ hg.erxrdpt
  · exact hsame.symm ▸ hg.room
  · exact hsame.trans (hrd.trans (congrArg (fun y : UInt16 => rxRing.before y.toNat) hx.symm))

/-- At every call boundary: the queue is guarded, and released up to `rxPtr`. -/
theorem Released.kept (past : List (Board × Event)) :
    Kept (Device GuardedMove) [.bank, .readPtr, .mii, .txPtr, .txMem, .txrts]
      fun v => Guarded 0 past v ∧ Released v where
  move h hb := by
    refine ⟨(Guarded.kept 0 past).move h.1 hb, fun htaken => ?_⟩
    exact ((Device.host (fun _ _ => GuardedMove.host)) _ _ hb).erxrdpt.trans (h.2 htaken)
  touch {b loc log a mosi n} h ha ht := by
    have hfree : a ≠ .rxFree := by rintro rfl; revert ha; decide
    exact ⟨(Guarded.kept 0 past).touch h.1 ha ht, fun htaken =>
      (ht.erxrdpt_eq hfree).trans (h.2 htaken)⟩
  look h he := ⟨(Guarded.kept 0 past).look h.1 he, h.2⟩

/-- A call leaves the queue guarded and released, or a packet has been taken that ended at
`RXEND`. -/
theorem Call.run_guarded (past : List (Board × Event)) (call : Call) (hfit : call.Fits 5119) :
    Triple (Device GuardedMove) (fun v => (Guarded 0 past v ∧ Released v) ∨ Wrapped v) call.run
      (fun _ v => (Guarded 0 past v ∧ Released v) ∨ Wrapped v)
      fun v => (Guarded 0 past v ∧ Released v) ∨ Wrapped v := by
  have hI := Released.kept past
  have hW := Wrapped.kept [.bank, .readPtr, .mii, .txPtr, .txMem, .txrts, .rxFree, .pktDec]
  have hR := Device.host fun _ _ => GuardedMove.host
  have hl : ∀ v, Guarded 0 past v ∧ Released v → (Guarded 0 past v ∧ Released v) ∨ Wrapped v :=
    fun _ => Or.inl
  have hr : ∀ v, Wrapped v → (Guarded 0 past v ∧ Released v) ∨ Wrapped v := fun _ => Or.inr
  cases call with
  | packetReceive maxlen =>
    refine Triple.bind (Q := fun _ v => (Guarded 0 past v ∧ Released v) ∨ Wrapped v)
      (Triple.or ?_ ?_) fun _ => Triple.pure fun _ => id
    · refine packetReceive_queue (f := id) (fun _ => rfl)
        (A := fun t v => ((Guarded 1 past v ∧ v.loc.rxPtr = t.nextPtr) ∧
          t.nextPtr.toNat ≠ RXSTART.toNat) ∨ Wrapped v)
        (hI.mono (by decide)) (fun v h => h.1.synced) hR
        (Device.stored fun _ _ => GuardedMove.stored) maxlen hl ?_ fun t => Triple.or ?_ ?_
      · intro p t v h hp ht
        change (unread v).head? = some p at hp
        have hmem : p.next ∈ rxRing := (h.1.synced.head hp).2.2 ▸ rxRing.addr_mem _ _
        by_cases hwrap : p.next = RXSTART.toNat
        · refine .inr ⟨p, ?_, hwrap⟩
          rw [unread, List.head?_drop] at hp
          have htaken : (t.advance v.loc).taken.length = v.loc.taken.length + 1 := by
            simp [Taken.advance]
          rw [htaken, List.take_add_one, hp]
          simp
        · refine .inl ⟨⟨h.1.advance hp ht.toMatches, rfl⟩, ?_⟩
          rwa [ht.nextPtr, toNat_ofNat_of_mem hmem]
      · exact Triple.of_fact fun hne => (freeSpace_guarded hne).post fun _ => hl
      · exact (ENC28J60.freeSpace_kept hW hR (by decide) (by decide) (by decide) t.nextPtr).post
          fun _ => hr
    · exact (ENC28J60.packetReceive_kept hW hR (by decide) (by decide) (by decide) (by decide)
        maxlen fun t v h => h.mono List.prefix_rfl (by simp [Taken.advance])).post fun _ => hr
  | sendPacket fuel buf len =>
    exact Triple.or
      ((ENC28J60.sendPacket_kept hI hR hl (by decide) (by decide) (by decide) (by decide) fuel buf
        hfit).post fun _ => hl)
      ((ENC28J60.sendPacket_kept hW hR hr (by decide) (by decide) (by decide) (by decide) fuel buf
        hfit).post fun _ => hr)
  | readPHY fuel phyAddr =>
    refine Triple.bind (Q := fun _ v => (Guarded 0 past v ∧ Released v) ∨ Wrapped v)
      (Triple.or ?_ ?_) fun _ => Triple.pure fun _ => id
    · exact (ENC28J60.readPHY_kept hI hR hl (by decide) (by decide) fuel phyAddr).post fun _ => hl
    · exact (ENC28J60.readPHY_kept hW hR hr (by decide) (by decide) fuel phyAddr).post fun _ => hr
  | writePHY fuel phyAddr data =>
    exact Triple.or
      ((ENC28J60.writePHY_kept hI hR hl (by decide) (by decide) fuel phyAddr data).post fun _ => hl)
      ((ENC28J60.writePHY_kept hW hR hr (by decide) (by decide) fuel phyAddr data).post fun _ => hr)

/-- What the driver owes to the packets it has not read yet. -/
structure Safe (past : List (Board × Event)) (v : View Board Statics Event) : Prop where
  released : v.loc.taken ≠ [] → v.hw.chip.erxrdpt = rxRing.before
    (((unread v).head?.map fun p => p.start).getD v.hw.chip.wrPtr)
  inRing : v.hw.chip.erxrdpt ∈ rxRing
  log : ∃ new, v.log = new ++ past ∧ ∀ x ∈ new, x.1.chip.erxrdpt ∈ rxRing
  unread : ∀ p ∈ unread v, p.In v.hw.chip.mem
  read : ∀ (k : ℕ) (t : Taken), v.loc.taken[k]? = some t →
    ∃ p, v.hw.chip.stored[k]? = some p ∧ t.Matches p

theorem Chain.mem_of_mem {mem : ℕ → UInt8} {x y : ℕ} {ps : List Packet} {p : Packet}
    (h : Chain mem x ps y) (hp : p ∈ ps) : p.In mem := by
  induction ps generalizing x with
  | nil => cases hp
  | cons q ps ih =>
    rcases List.mem_cons.mp hp with rfl | hp
    · exact h.2.1
    · exact ih h.2.2.2 hp

theorem Guarded.safe {v : View Board Statics Event} (h : Guarded 0 past v) (hrel : Released v) :
    Safe past v :=
  ⟨h.synced.rxPtr_eq ▸ hrel, h.erxrdpt, h.log, fun _ hp => h.synced.chain.mem_of_mem hp,
    h.synced.read⟩

theorem Started.guarded {mac : Fin 6 → UInt8} {v : View Board Statics Event}
    (hloc : v.loc = Statics.load mac) (h : Started mac v.hw.chip) : Guarded 0 v.log v := by
  refine ⟨h.synced hloc, h.erxrdpt ▸ (by decide), ?_, [], rfl, by simp⟩
  rw [unread, h.stored, List.drop_nil]
  exact Nat.zero_le _

/-- As long as no packet taken ended at `RXEND`, unread packets are never released: after every
call `ERXRDPT` is the byte before the next packet, it was in the ring at every action since
`init`, and every packet is intact until it is read. -/
theorem unread_not_released {env : ℕ → Board → Board}
    (henv : ∀ n b, Device GuardedMove b (env n b)) {mac : Fin 6 → UInt8}
    {w w₁ : World Board Statics Event} (hw : w.loc = Statics.load mac) {fuel : ℕ}
    (hinit : ENC28J60.init fuel env w = (some (), w₁)) {calls : List Call}
    (hfit : ∀ call ∈ calls, call.Fits 5119)
    (hwrap : ¬ Wrapped (Prog.each Call.run calls env w₁).2.toView) :
    Safe w₁.log (Prog.each Call.run calls env w₁).2.toView := by
  have hspec := ENC28J60.init_spec (Device.host fun _ _ => GuardedMove.host)
    (Device.idle (fun _ _ => GuardedMove.host) fun _ _ => GuardedMove.idle) (Statics.load mac) fuel
  have hstart := (hspec env henv w hw).1 ()
  rw [hinit] at hstart
  obtain ⟨hloc, hchip⟩ := hstart rfl
  have hnone : w₁.loc.taken = [] := congrArg Statics.taken hloc
  have hguard : Guarded 0 w₁.log w₁.toView := hchip.guarded hloc
  have hrun := Triple.each calls fun call hmem => Call.run_guarded w₁.log call (hfit call hmem)
  obtain ⟨hg, hrel⟩ | hw := hrun.always henv (.inl ⟨hguard, fun h => (h hnone).elim⟩)
  · exact hg.safe hrel
  · exact (hwrap hw).elim

theorem feed_guarded (arrivals : ℕ → Option RxFrame) (n : ℕ) (b : Board) :
    Device GuardedMove b (feed arrivals n b) := by
  have hprompt : Relation.ReflTransGen GuardedMove b.chip (prompt n b).chip :=
    .single (.quiet (prompt_host n b) rfl rfl rfl fun _ _ => rfl)
  unfold feed
  split
  · exact hprompt
  · split_ifs with h
    · obtain ⟨hrxen, hcnt, hring, hwr, hrd, hfit⟩ := h
      refine hprompt.tail (.arrive _ hrxen (by rw [hcnt]; decide) fun i hi hmeet => ?_)
      rw [RingSet.ring_eq ⟨hring.1, hring.2⟩] at hmeet
      have hlt := rxRing.offset_lt (prompt n b).chip.wrPtr (prompt n b).chip.erxrdpt
      have hoff := rxRing.offset_addr hwr (lt_of_lt_of_le hi (hfit.trans hlt.le))
      rw [hmeet] at hoff
      omega
    · exact hprompt

theorem init_oneArrival : (ENC28J60.init 1 (feed oneArrival) benchWorld).1 = some () := by
  decide +kernel

theorem not_wrapped_oneArrival :
    ¬ Wrapped (Prog.each Call.run [.packetReceive 400] (feed oneArrival)
      (ENC28J60.init 1 (feed oneArrival) benchWorld).2).2.toView := by
  unfold Wrapped
  decide +kernel

theorem unread_not_released_oneArrival :
    Safe (ENC28J60.init 1 (feed oneArrival) benchWorld).2.log
      (Prog.each Call.run [.packetReceive 400] (feed oneArrival)
        (ENC28J60.init 1 (feed oneArrival) benchWorld).2).2.toView := by
  have hloc : benchWorld.loc = Statics.load ![0x02, 0x00, 0x00, 0x11, 0x22, 0x33] := rfl
  have hsafe := unread_not_released (feed_guarded oneArrival) hloc
    (Prog.eq_of_returns init_oneArrival) (by simp [Call.Fits]) not_wrapped_oneArrival
  exact hsafe

/-- Three packets of 1024 bytes fill the ring exactly. -/
def threeArrivals (n : ℕ) : Option RxFrame :=
  if n = 39 ∨ n = 55 ∨ n = 69 then some ⟨List.replicate 1018 0, 1018, 4, 0⟩ else none

theorem init_threeArrivals : (ENC28J60.init 1 (feed threeArrivals) benchWorld).1 = some () := by
  decide +kernel

theorem erxrdpt_threeArrivals :
    (Prog.each Call.run [.packetReceive 400, .packetReceive 400, .packetReceive 400]
      (feed threeArrivals) (ENC28J60.init 1 (feed threeArrivals) benchWorld).2).2.hw.chip.erxrdpt =
        0x1FFF := by decide +kernel

/-- After the third packet, `ERXRDPT` is outside the ring. -/
theorem unread_released : ¬ ∀ (env : ℕ → Board → Board) (mac : Fin 6 → UInt8)
    (w w₁ : World Board Statics Event) (fuel : ℕ) (calls : List Call),
    (∀ n b, Device GuardedMove b (env n b)) → w.loc = Statics.load mac →
      ENC28J60.init fuel env w = (some (), w₁) → (∀ call ∈ calls, call.Fits 5119) →
        Safe w₁.log (Prog.each Call.run calls env w₁).2.toView := by
  intro h
  have hsafe := h (feed threeArrivals) _ benchWorld _ 1
    [.packetReceive 400, .packetReceive 400, .packetReceive 400] (feed_guarded _) rfl
    (Prog.eq_of_returns init_threeArrivals) (by simp [Call.Fits])
  have hmem := hsafe.inRing
  rw [erxrdpt_threeArrivals] at hmem
  exact absurd hmem (by decide)

end Driver

end EthernetPing
