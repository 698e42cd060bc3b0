import EthernetPing.Driver.Access

/-!
# Initialisation and configuration

What `init` leaves behind: the configuration registers with their values, an empty
receive ring and an enabled receiver. The run-time functions then change only
pointers, the bank, the transmit request and the MII registers.
-/

namespace EthernetPing

open Reg

/-- The calls that the main loop and lwIP make after `init`. -/
inductive Call where
  | packetReceive (maxlen : UInt16)
  | sendPacket (fuel : ℕ) (buf : List UInt8) (len : UInt16)
  | readPHY (fuel : ℕ) (phyAddr : UInt8)
  | writePHY (fuel : ℕ) (phyAddr : UInt8) (data : UInt16)

def Call.run : Call → Drv Unit
  | .packetReceive maxlen => do
    let _ ← ENC28J60.packetReceive maxlen
    pure ()
  | .sendPacket fuel buf len => ENC28J60.sendPacket fuel buf len
  | .readPHY fuel phyAddr => do
    let _ ← ENC28J60.readPHY fuel phyAddr
    pure ()
  | .writePHY fuel phyAddr data => ENC28J60.writePHY fuel phyAddr data

/-- Frames to be sent have at most `max` bytes. -/
def Call.Fits (max : ℕ) : Call → Prop
  | .sendPacket _ _ len => len.toNat ≤ max
  | _ => True

theorem Call.Fits.mono {max max' : ℕ} {call : Call} (h : call.Fits max) (hle : max ≤ max') :
    call.Fits max' := by
  cases call with
  | sendPacket fuel buf len => exact le_trans h hle
  | _ => exact trivial

/-- The configuration that `init` writes. -/
def initValues (mac : Fin 6 → UInt8) : Known :=
  [(ERXSTL, RXSTART.toUInt8), (ERXSTH, (RXSTART >>> 8).toUInt8), (ERXNDL, RXEND.toUInt8),
    (ERXNDH, (RXEND >>> 8).toUInt8), (MACON1, 0x0D), (MACON3, 0xF3), (MACON4, 0x40),
    (MAMXFLL, 0xEE), (MAMXFLH, 0x05), (⟨3, 0x04⟩, mac 0), (⟨3, 0x05⟩, mac 1), (⟨3, 0x00⟩, mac 2),
    (⟨3, 0x01⟩, mac 3), (⟨3, 0x02⟩, mac 4), (⟨3, 0x03⟩, mac 5), (ERXFCON, 0x00)].foldl
      (fun kv p => kv.set p.1 p.2) .nothing

/-- After a reset and before `RXEN`: no packet is stored or counted. -/
structure Fresh (s : Statics) (v : View Board Statics Event) : Prop where
  loc : v.loc = s
  rxen : v.hw.chip.rxen = false
  stored : v.hw.chip.stored = []
  pktCnt : v.hw.chip.pktCnt = 0
  erxrdpt : v.hw.chip.erxrdpt = 0x05FA

/-- The chip at the end of `init`. -/
structure Started (mac : Fin 6 → UInt8) (c : Chip) : Prop where
  config : c.Holds (initValues mac)
  rxen : c.rxen = true
  stored : c.stored = []
  pktCnt : c.pktCnt = 0
  wrPtr : c.wrPtr = RXSTART.toNat
  erxrdpt : c.erxrdpt = 0x05FA

/-- While the receiver is off the device stores nothing. -/
def IdleReceiver (R : Board → Board → Prop) : Prop :=
  ∀ b b', R b b' → b.chip.rxen = false →
    b'.chip.stored = b.chip.stored ∧ b'.chip.pktCnt = b.chip.pktCnt ∧ b'.chip.wrPtr = b.chip.wrPtr

theorem Chip.rxen_set (c : Chip) : (c.bfs ECON1 0x04).rxen = true := by
  rw [Chip.bfs_econ1, Chip.rxen, Chip.setReg_self, or_and_byte, bne_iff_ne]
  exact forall_byte_of_fin (p := fun x => x ||| 0x04 ≠ 0) (by decide +kernel) _

section Init

variable {R : Board → Board → Prop}

theorem Fresh.kept (hR : ∀ b b', R b b' → HostRegs b.chip b'.chip) (hidle : IdleReceiver R)
    (s : Statics) : Kept R [.bank, .mii, .config] (Fresh s) where
  move {v b} h hb :=
    have hsame := hidle v.hw b hb h.rxen
    { loc := h.loc
      rxen := (hR _ _ hb).rxen_eq.trans h.rxen
      stored := hsame.1.trans h.stored
      pktCnt := hsame.2.1.trans h.pktCnt
      erxrdpt := (hR _ _ hb).erxrdpt.trans h.erxrdpt }
  touch {b loc log a mosi n} h ha ht :=
    { loc := h.loc
      rxen := ht.rxen_eq.trans h.rxen
      stored := ht.stored_eq.trans h.stored
      pktCnt := (ht.pktCnt_eq (by rintro rfl; revert ha; decide)).trans h.pktCnt
      erxrdpt := (ht.erxrdpt_eq (by rintro rfl; revert ha; decide)).trans h.erxrdpt }
  look h _ := ⟨h.loc, h.rxen, h.stored, h.pktCnt, h.erxrdpt⟩

/-- A write to `ERXST` takes the receive write pointer along. -/
theorem Chip.Touch.wrPtr_config {c c' : Chip} {a : Access} (h : c.Touch a c')
    (ha : a ∈ [.bank, .mii, .config]) (hwr : c.wrPtr = c.erxst) : c'.wrPtr = c'.erxst := by
  cases h with
  | bank x hx => exact hwr
  | write r v hr =>
    have hmem : r ∈ miiRegs ++ configRegs := by
      revert ha hr
      cases a <;> simp [Access.written] <;> tauto
    simp only [miiRegs, configRegs, List.cons_append, List.nil_append, List.mem_cons,
      List.not_mem_nil, or_false] at hmem
    rcases hmem with rfl | rfl | rfl | rfl | rfl | rfl | rfl | rfl | rfl | rfl | rfl | rfl | rfl |
      rfl | rfl | rfl | rfl | rfl | rfl | rfl <;> first | rfl | exact hwr
  | _ => simp at ha

/-- From the first write to `ERXST` on, the receive write pointer stays there. -/
theorem Fresh.kept_wrPtr (hR : ∀ b b', R b b' → HostRegs b.chip b'.chip) (hidle : IdleReceiver R)
    (s : Statics) : Kept R [.bank, .mii, .config]
      fun v => Fresh s v ∧ v.hw.chip.wrPtr = v.hw.chip.erxst where
  move {v b} h hb := by
    have hst : b.chip.erxst = v.hw.chip.erxst := by
      rw [Chip.erxst, Chip.erxst, (hR _ _ hb).regs _ (by decide), (hR _ _ hb).regs _ (by decide)]
    exact ⟨(Fresh.kept hR hidle s).move h.1 hb,
      ((hidle _ _ hb h.1.rxen).2.2.trans h.2).trans hst.symm⟩
  touch h ha ht := ⟨(Fresh.kept hR hidle s).touch h.1 ha ht, ht.wrPtr_config ha h.2⟩
  look h he := ⟨(Fresh.kept hR hidle s).look h.1 he, h.2⟩

namespace ENC28J60

theorem waitClkRdy_kept {A : List Access} {I E : DrvAssn} (hI : Kept R A I)
    (hE : ∀ v, I v → E v) (fuel : ℕ) : Triple R I (waitClkRdy fuel) (fun _ => I) E := by
  induction fuel with
  | zero => exact Triple.stuck hE
  | succ fuel ih =>
    apply (readReg_look hI 0x1D).bind
    intro estat
    exact Triple.ite (fun _ => Triple.pure fun _ => id) fun _ => ih

/-- Rule for `init`: `I` holds from the reset on, `W` from the first write to `ERXST` on, and the
configuration is complete when the receiver is switched on. -/
theorem init_rule {P I W Q E : DrvAssn} {s : Statics} (hI : Kept R [.bank, .mii, .config] I)
    (hW : Kept R [.bank, .mii, .config] W) (hR : ∀ b b', R b b' → HostRegs b.chip b'.chip)
    (hIE : ∀ v, I v → E v) (hWE : ∀ v, W v → E v) (hloc : ∀ v, W v → v.loc = s) (fuel : ℕ)
    (hreset : Triple R P (spiTransmit [0xFF]) (fun _ => I) E)
    (hst : Triple R (fun v => I v ∧ v.hw.chip.At 0 .nothing) (writeReg 0x08 RXSTART.toUInt8)
      (fun _ v => W v ∧ v.hw.chip.At 0 (Known.nothing.set ERXSTL RXSTART.toUInt8)) E)
    (hrxen : Triple R (fun v => W v ∧ v.hw.chip.At 0 (initValues s.macAddr))
      (writeOp 0x80 0x1F 0x04) (fun _ => Q) E) :
    Triple R P (init fuel) (fun _ => Q) E := by
  have hcfg : ∀ {k : UInt8} {kv : Known} (addr x : UInt8),
      Reg.select k (addr &&& 0x1F) ∈ configRegs →
      Triple R (fun v => W v ∧ v.hw.chip.At k kv) (writeReg addr x)
        (fun _ v => W v ∧ v.hw.chip.At k (kv.set (Reg.select k (addr &&& 0x1F)) x)) E :=
    fun addr x hmem => (writeReg_at hW hR (a := .config) (by decide) hmem)
  apply hreset.seq
  apply Triple.seq (S := I)
    (((halDelay_kept hI (P := fun _ => True) (fun _ _ _ => id) 50).pre
      fun _ h => ⟨h, trivial⟩).post fun _ _ h => h.1)
  apply (waitClkRdy_kept hI hIE fuel).seq
  apply (setBank_kept hI hR (by decide) (by decide)).seq
  apply hst.seq
  apply (hcfg 0x09 _ (by decide)).seq
  apply (hcfg 0x0A _ (by decide)).seq
  apply (hcfg 0x0B _ (by decide)).seq
  apply (setBank_at hW hR (by decide) (by decide)).seq
  apply (hcfg 0x00 _ (by decide)).seq
  apply (hcfg 0x02 _ (by decide)).seq
  apply (hcfg 0x03 _ (by decide)).seq
  apply (hcfg 0x0A _ (by decide)).seq
  apply (hcfg 0x0B _ (by decide)).seq
  apply (setBank_at hW hR (by decide) (by decide)).seq
  apply Triple.read_bind (x := s.macAddr) fun v h => congrArg _ (hloc v h.1)
  apply (hcfg 0x04 _ (by decide)).seq
  apply (hcfg 0x05 _ (by decide)).seq
  apply (hcfg 0x00 _ (by decide)).seq
  apply (hcfg 0x01 _ (by decide)).seq
  apply (hcfg 0x02 _ (by decide)).seq
  apply (hcfg 0x03 _ (by decide)).seq
  -- the PHY write touches none of the configuration
  have hphy : ∀ {kv : Known}, kv.Within configRegs →
      Triple R (fun v => W v ∧ v.hw.chip.At 3 kv) (writePHY fuel 0x00 0x0100)
        (fun _ v => W v ∧ v.hw.chip.Holds kv) E := fun {kv} hkv =>
    have hsub : [Access.bank, .mii] ⊆ [.bank, .mii, .config] := by decide
    have hfree : ∀ r ∈ configRegs, ∀ a ∈ [Access.bank, .mii], r ∉ a.regs := by decide
    ((writePHY_kept ((hW.mono hsub).and_holds hR fun r x hx => hfree r (hkv r x hx)) hR
      (fun v h => hWE v h.1) (by decide) (by decide) fuel 0x00 0x0100).pre
        fun _ h => ⟨h.1, h.2.holds⟩)
  refine (hphy ?_).seq ?_
  · iterate 15 refine Known.Within.set ?_ (by decide) _
    exact .nothing _
  apply (setBank_of hW hR (by decide) (by decide) (Chip.Holds.stable hR) fun _ => id).seq
  apply (hcfg 0x18 _ (by decide)).seq
  exact (setBank_at hW hR (by decide) (by decide)).seq hrxen

theorem init_spec (hR : ∀ b b', R b b' → HostRegs b.chip b'.chip) (hidle : IdleReceiver R)
    (s : Statics) (fuel : ℕ) :
    Triple R (fun v => v.loc = s) (init fuel)
      (fun _ v => v.loc = s ∧ Started s.macAddr v.hw.chip) fun _ => True := by
  have hI := Fresh.kept hR hidle s
  have hW := Fresh.kept_wrPtr hR hidle s
  refine init_rule hI hW hR (fun _ _ => trivial) (fun _ _ => trivial) (fun _ h => h.1.loc) fuel
    ?_ ?_ ?_
  · apply Triple.act
    intro v b hv _
    refine ⟨hv, ?_, rfl, rfl, rfl⟩
    change (b.chip.por.regs ECON1 &&& 0x04 != 0) = false
    rw [b.chip.por.econ1]
    rfl
  -- the first write to `ERXST` brings the write pointer along
  · refine (writeReg_kept (Q := fun c => c.wrPtr = c.erxst ∧ c.At 0 (Known.nothing.set ERXSTL _))
      hI (a := .config) (by decide) (Chip.At.stable hR) (fun _ h => h.bank) (r := ERXSTL) rfl
      (by decide) fun c hc => ?_).post fun _ _ h => ⟨⟨h.1, h.2.1⟩, h.2.2⟩
    exact ⟨rfl, (Chip.bank_wcr (a := .config) (by decide) _).trans hc.bank,
      hc.holds.wcr (a := .config) (by decide) _⟩
  · unfold writeOp spiTransmit
    apply Triple.act
    intro v b hv hb
    have hfresh := hW.move hv.1 hb
    have hat := Chip.At.stable hR v.hw b hb hv.2
    rw [Chip.transact_bfs]
    have hst : b.chip.erxst = RXSTART.toNat := by
      rw [Chip.erxst, hat.holds ERXSTL _ rfl (by decide), hat.holds ERXSTH _ rfl (by decide)]
      decide
    exact ⟨hfresh.1.loc, hat.holds.econ1 _, b.chip.rxen_set, hfresh.1.stored, hfresh.1.pktCnt,
      hfresh.2.trans hst, hfresh.1.erxrdpt⟩

/-- Whatever the device does on its side, `init` leaves its values in the configuration. -/
theorem init_config (hR : ∀ b b', R b b' → HostRegs b.chip b'.chip) (s : Statics) (fuel : ℕ) :
    Triple R (fun v => v.loc = s) (init fuel)
      (fun _ v => v.loc = s ∧ v.hw.chip.Holds (initValues s.macAddr)) fun _ => True := by
  have hI : Kept R [.bank, .mii, .config] fun v => v.loc = s :=
    ⟨fun h _ => h, fun h _ _ => h, fun h _ => h⟩
  refine init_rule hI hI hR (fun _ _ => trivial) (fun _ _ => trivial) (fun _ => id) fuel
    (Triple.act fun _ _ h _ => h) (writeReg_at hI hR (a := .config) (by decide) (by decide)) ?_
  unfold writeOp spiTransmit
  apply Triple.act
  intro v b hv hb
  rw [Chip.transact_bfs]
  exact ⟨hv.1, (Chip.At.stable hR v.hw b hb hv.2).holds.econ1 _⟩

end ENC28J60

end Init

section RunTime

/-- The kinds of access of the run-time functions. -/
def runTimeAccess : List Access :=
  [.bank, .readPtr, .mii, .txPtr, .txMem, .txrts, .rxFree, .pktDec]

/-- `ERDPT`, `EWRPT`, `ERXRDPT`, `ETXST`, `ETXND`, `MIREGADR`, `MICMD` and `MIWR`. -/
def runTimeRegs : List Reg :=
  [ERDPTL, ERDPTH, ERXRDPTL, ERXRDPTH] ++ txRegs ++ miiRegs

/-- A write that leaves alone everything but the run-time registers, `ECON1.BSEL`,
`ECON1.TXRTS` and `ECON2.PKTDEC`. -/
structure RunTimeWrite (c c' : Chip) : Prop where
  regs : ∀ r, r ∉ runTimeRegs → r ≠ ECON1 → r ≠ ECON2 → c'.regs r = c.regs r
  wrPtr : c'.wrPtr = c.wrPtr
  econ1 : c'.regs ECON1 &&& 0xF4 = c.regs ECON1 &&& 0xF4
  econ2 : c'.regs ECON2 &&& 0xBF = c.regs ECON2 &&& 0xBF

/-- Receiver on, configuration as in `c₀`. -/
structure Configured (c₀ c : Chip) : Prop where
  config : ∀ r ∈ configRegs, c.regs r = c₀.regs r
  rxen : c.rxen = true

theorem Chip.Touch.runTimeWrite {c c' : Chip} {a : Access} (h : c.Touch a c')
    (ha : a ∈ runTimeAccess) : RunTimeWrite c c' := by
  have hsub : ∀ r ∈ a.regs, r ∈ runTimeRegs ∨ r = ECON1 ∨ r = ECON2 := by
    revert ha
    cases a <;> decide
  refine ⟨fun r hr h₁ h₂ => h.regs_eq fun hmem => ?_, h.wrPtr_eq ?_, h.econ1_eq, ?_⟩
  · obtain hm | hm | hm := hsub r hmem
    · exact hr hm
    · exact h₁ hm
    · exact h₂ hm
  · rintro rfl
    revert ha
    decide
  · by_cases hmem : ECON2 ∈ a.regs
    · obtain rfl : a = .pktDec := by revert hmem; cases a <;> decide
      cases h with
      | write r v hr => simp [Access.written] at hr
      | pktDec => exact c.pktDec_econ2
    · rw [h.regs_eq hmem]

theorem Configured.touch {c₀ c c' : Chip} {a : Access} (h : Configured c₀ c) (ht : c.Touch a c')
    (ha : a ∈ runTimeAccess) : Configured c₀ c' := by
  refine ⟨fun r hr => (ht.regs_eq ?_).trans (h.config r hr), ht.rxen_eq.trans h.rxen⟩
  revert ha r
  cases a <;> decide

theorem Configured.move {c₀ c c' : Chip} (h : Configured c₀ c) (hc : HostRegs c c') :
    Configured c₀ c' :=
  ⟨fun r hr => (hc.regs r ((by decide : ∀ r ∈ configRegs, r.HostOwned) r hr)).trans (h.config r hr),
    hc.rxen_eq.trans h.rxen⟩

/-- One atomic action of a run that respects the configuration of `c₀`. -/
structure Respectful (c₀ : Chip) (x : Board × Event) : Prop where
  configured : Configured c₀ x.1.chip
  write : ∀ mosi n, x.2 = .spi mosi n → RunTimeWrite x.1.chip (x.1.chip.transact mosi n).2

/-- The configuration stands, and every action since the log `past` respected it. -/
structure Undisturbed (c₀ : Chip) (past : List (Board × Event)) (v : View Board Statics Event) :
    Prop where
  configured : Configured c₀ v.hw.chip
  log : ∃ new, v.log = new ++ past ∧ ∀ x ∈ new, Respectful c₀ x

theorem Undisturbed.push {c₀ : Chip} {past log : List (Board × Event)} {b b' : Board}
    {loc loc' : Statics} {e : Event} (h : Undisturbed c₀ past ⟨b, loc, log⟩)
    (hb' : Configured c₀ b'.chip)
    (he : ∀ mosi n, e = .spi mosi n → RunTimeWrite b.chip (b.chip.transact mosi n).2) :
    Undisturbed c₀ past ⟨b', loc', (b, e) :: log⟩ := by
  obtain ⟨new, hnew, hall⟩ := h.log
  refine ⟨hb', (b, e) :: new, congrArg _ hnew, ?_⟩
  simp only [List.forall_mem_cons]
  exact ⟨⟨h.configured, he⟩, hall⟩

/-- Step lemma: device moves and run-time accesses leave the configuration undisturbed. -/
theorem Undisturbed.kept (c₀ : Chip) (past : List (Board × Event)) :
    Kept (fun b b' => HostRegs b.chip b'.chip) runTimeAccess (Undisturbed c₀ past) where
  move h hb := ⟨h.configured.move hb, h.log⟩
  touch h ha ht := h.push (h.configured.touch ht ha) fun mosi n he => by
    injection he with h₁ h₂
    subst h₁ h₂
    exact ht.runTimeWrite ha
  look {b loc log e} h he := h.push h.configured fun mosi n hs => by
    rw [he mosi n hs]
    exact ⟨fun _ _ _ _ => rfl, rfl, rfl, rfl⟩

theorem Call.run_undisturbed (c₀ : Chip) (past : List (Board × Event)) (call : Call)
    (hfit : call.Fits 5119) :
    Triple (fun b b' => HostRegs b.chip b'.chip) (Undisturbed c₀ past) call.run
      (fun _ => Undisturbed c₀ past) (Undisturbed c₀ past) := by
  have hI := Undisturbed.kept c₀ past
  have hR : ∀ b b' : Board, HostRegs b.chip b'.chip → HostRegs b.chip b'.chip := fun _ _ => id
  cases call with
  | packetReceive maxlen =>
    refine (ENC28J60.packetReceive_kept hI hR (by decide) (by decide) (by decide) (by decide)
      maxlen ?_).bind fun _ => Triple.pure fun _ => id
    exact fun t v h => ⟨h.configured, h.log⟩
  | sendPacket fuel buf len =>
    exact ENC28J60.sendPacket_kept hI hR (fun _ => id) (by decide) (by decide) (by decide)
      (by decide) fuel buf
      hfit
  | readPHY fuel phyAddr =>
    exact (ENC28J60.readPHY_kept hI hR (fun _ => id) (by decide) (by decide) fuel phyAddr).bind
      fun _ => Triple.pure fun _ => id
  | writePHY fuel phyAddr data =>
    exact ENC28J60.writePHY_kept hI hR (fun _ => id) (by decide) (by decide) fuel phyAddr data

/-- The last action of `init` switches the receiver on. -/
theorem ENC28J60.init_rxen {R : Board → Board → Prop} (fuel : ℕ) :
    Triple R (fun _ => True) (ENC28J60.init fuel) (fun _ v => v.hw.chip.rxen = true)
      fun _ => True := by
  unfold init
  repeat refine Triple.bind (Triple.trivial _) fun _ => ?_
  unfold writeOp spiTransmit
  apply Triple.act
  intro v b _ _
  rw [Chip.transact_bfs]
  exact b.chip.rxen_set

/-- After `init`, whatever the device answers and whatever the calls: the configuration stays
as `init` left it, and every SPI access changes run-time registers only. -/
theorem runTime_undisturbed {env : ℕ → Board → Board}
    (henv : ∀ n b, HostRegs b.chip (env n b).chip) {fuel : ℕ} {w w₁ : World Board Statics Event}
    (hinit : ENC28J60.init fuel env w = (some (), w₁)) (calls : List Call)
    (hfit : ∀ call ∈ calls, call.Fits 5112) :
    Undisturbed w₁.hw.chip w₁.log (Prog.each Call.run calls env w₁).2.toView := by
  have hrxen : w₁.hw.chip.rxen = true := by
    have h := (ENC28J60.init_rxen (R := fun _ _ => True) fuel env (fun _ _ => trivial) w
      trivial).1 ()
    rw [hinit] at h
    exact h rfl
  have hrun := Triple.each calls fun call hmem =>
    Call.run_undisturbed w₁.hw.chip w₁.log call ((hfit call hmem).mono (by decide))
  exact hrun.always henv ⟨⟨fun _ _ => rfl, hrxen⟩, [], rfl, by simp⟩

/-- A chip whose oscillator runs, with cleared memory and registers. -/
def benchChip : Chip where
  regs := fun _ => 0
  mem := fun _ => 0
  erxrdpt := 0x05FA
  rdptLatch := 0xFA
  wrPtr := 0
  pktCnt := 0
  estat := 0x01
  mii := none
  mird := 0
  phy := fun _ => 0
  so := 0
  stored := []
  por := ⟨fun _ => 0, rfl⟩

/-- Start-up, with the station address of the source. -/
def benchWorld : World Board Statics Event where
  hw := ⟨benchChip, 0⟩
  loc := .load ![0x02, 0x00, 0x00, 0x11, 0x22, 0x33]
  log := []
  now := 0

/-- A device that has completed every MII access and transmission when it is looked at. -/
def prompt (_ : ℕ) (b : Board) : Board :=
  { b with chip := { b.chip.setReg ECON1 (b.chip.regs ECON1 &&& ~~~0x08) with mii := none } }

theorem prompt_host (n : ℕ) (b : Board) : HostRegs b.chip (prompt n b).chip := by
  refine ⟨fun r hr => Chip.setReg_of_ne _ ?_ _, ?_, rfl, rfl, rfl⟩
  · rintro rfl
    exact hr (by decide)
  · exact (congrArg (· &&& 0xF7) (Chip.setReg_self ..)).trans (andNot_and_byte _ rfl)

theorem init_bench : (ENC28J60.init 1 prompt benchWorld).1 = some () := by decide +kernel

theorem runTime_undisturbed_bench :
    Undisturbed (ENC28J60.init 1 prompt benchWorld).2.hw.chip
      (ENC28J60.init 1 prompt benchWorld).2.log
      (Prog.each Call.run [.readPHY 1 0x01, .sendPacket 1 [0xFF, 0xFF] 2, .packetReceive 400]
        prompt (ENC28J60.init 1 prompt benchWorld).2).2.toView := by
  have hrun := runTime_undisturbed prompt_host (Prog.eq_of_returns init_bench)
  exact hrun _ (by simp [Call.Fits])

end RunTime

end EthernetPing
