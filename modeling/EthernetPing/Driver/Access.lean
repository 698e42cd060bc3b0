import EthernetPing.Driver.Enc28j60

/-!
# Register accesses of the driver

The driver's chip-select periods fall into a few kinds of access. An invariant that
is kept by the device's own moves and by some of these kinds is kept by every driver
function made of them only: the functions are walked once here, with the selected
bank and the register contents known so far as the only intermediate assertions.
-/

namespace EthernetPing

open Reg

/-- Registers that the device does not change by itself: their contents are what the host
wrote last. `ERXRDPT` is kept apart from the register file. -/
def Reg.HostOwned (r : Reg) : Prop := r ∉ [EIR, ECON1, ECON2, ERXRDPTL, ERXRDPTH]

instance (r : Reg) : Decidable r.HostOwned := inferInstanceAs (Decidable (_ ∉ _))

/-- The device leaves the host's configuration alone; of `ECON1` it may change `TXRTS`. -/
structure HostRegs (c c' : Chip) : Prop where
  regs : ∀ r : Reg, r.HostOwned → c'.regs r = c.regs r
  econ1 : c'.regs ECON1 &&& 0xF7 = c.regs ECON1 &&& 0xF7
  latch : c'.rdptLatch = c.rdptLatch
  erxrdpt : c'.erxrdpt = c.erxrdpt
  por : c'.por = c.por

inductive Access where
  /-- `ECON1.BSEL` -/
  | bank
  /-- `ERDPT`, directly or by reading the buffer memory -/
  | readPtr
  /-- `MIREGADR`, `MICMD`, `MIWR` -/
  | mii
  /-- `EWRPT`, `ETXST`, `ETXND` -/
  | txPtr
  /-- the transmit memory -/
  | txMem
  /-- `ECON1.TXRTS` -/
  | txrts
  /-- `ERXRDPT` -/
  | rxFree
  /-- `ECON2.PKTDEC` -/
  | pktDec
  /-- the registers that only `init` writes -/
  | config
  deriving DecidableEq

def miiRegs : List Reg := [MIREGADR, MICMD, MIWRL, MIWRH]

def txRegs : List Reg := [EWRPTL, EWRPTH, ETXSTL, ETXSTH, ETXNDL, ETXNDH]

def configRegs : List Reg :=
  [ERXSTL, ERXSTH, ERXNDL, ERXNDH, MACON1, MACON3, MACON4, MAMXFLL, MAMXFLH,
    MAADR1, MAADR2, MAADR3, MAADR4, MAADR5, MAADR6, ERXFCON]

def Access.written : Access → List Reg
  | .readPtr => [ERDPTL, ERDPTH]
  | .mii => miiRegs
  | .txPtr => txRegs
  | .rxFree => [ERXRDPTL, ERXRDPTH]
  | .config => configRegs
  | _ => []

/-- The registers that a kind of access can change. -/
def Access.regs : Access → List Reg
  | .bank | .txrts => [ECON1]
  | .txMem => [EWRPTL, EWRPTH]
  | .pktDec => [ECON2]
  | a => a.written

/-- The accesses of each kind, from chip state `c`. -/
inductive Chip.Touch (c : Chip) : Access → Chip → Prop
  | write {a : Access} (r : Reg) (v : UInt8) (h : r ∈ a.written) : Touch c a (c.wcr r v)
  | bank (x : UInt8) (h : x &&& 0xFC = c.regs ECON1 &&& 0xFC) : Touch c .bank (c.setReg ECON1 x)
  | txrts (x : UInt8) (h : x &&& 0xF7 = c.regs ECON1 &&& 0xF7) : Touch c .txrts (c.setReg ECON1 x)
  | readMem (n : ℕ) : Touch c .readPtr (c.rbm n).2
  | txMem (bs : List UInt8) (h : c.ewrpt = TXSTART.toNat) (hlen : bs.length ≤ 0x1400) :
    Touch c .txMem (c.wbm bs)
  | pktDec : Touch c .pktDec (c.bfs ECON2 0x40)

/-- What is known of the contents of host-owned registers. -/
abbrev Known := Reg → Option UInt8

def Known.nothing : Known := fun _ => none

def Known.set (kv : Known) (r : Reg) (x : UInt8) : Known := Function.update kv r (some x)

/-- Only registers of `rs` are known. -/
def Known.Within (kv : Known) (rs : List Reg) : Prop := ∀ r x, kv r = some x → r ∈ rs

def Chip.Holds (c : Chip) (kv : Known) : Prop :=
  ∀ r x, kv r = some x → r.HostOwned → c.regs r = x

structure Chip.At (bank : UInt8) (kv : Known) (c : Chip) : Prop where
  bank : c.bank = bank
  holds : c.Holds kv

abbrev DrvAssn := Assn Board Statics Event

/-- `I` is kept by device moves within `R`, by accesses of the kinds `A` and by whatever
leaves the chip as it is. -/
structure Kept (R : Board → Board → Prop) (A : List Access) (I : DrvAssn) : Prop where
  move : ∀ {v b}, I v → R v.hw b → I { v with hw := b }
  touch : ∀ {b loc log a mosi n}, I ⟨b, loc, log⟩ → a ∈ A →
    b.chip.Touch a (b.chip.transact mosi n).2 →
    I ⟨{ b with chip := (b.chip.transact mosi n).2 }, loc, (b, .spi mosi n) :: log⟩
  look : ∀ {b loc log e}, I ⟨b, loc, log⟩ →
    (∀ mosi n, e = .spi mosi n → (b.chip.transact mosi n).2 = b.chip) → I ⟨b, loc, (b, e) :: log⟩

/-- What holds of the chip and survives every move of the device. -/
def Stable (R : Board → Board → Prop) (P : Chip → Prop) : Prop :=
  ∀ b b', R b b' → P b.chip → P b'.chip

section Registers

variable {R : Board → Board → Prop} {c c' : Chip} {a : Access}

theorem Access.plain_of_written {r : Reg} (hr : r ∈ a.written) : r ≠ ECON1 ∧ r ≠ ECON2 := by
  have hall : ∀ r ∈ a.written, r ≠ ECON1 ∧ r ≠ ECON2 := by cases a <;> decide
  exact hall r hr

theorem Access.regs_of_written {r : Reg} (hr : r ∈ a.written) : r ∈ a.regs := by
  cases a <;> first | exact hr | simp [Access.written] at hr

/-- Frame rule of the register file. -/
theorem Chip.Touch.regs_eq {r : Reg} (h : c.Touch a c') (hr : r ∉ a.regs) :
    c'.regs r = c.regs r := by
  cases h with
  | write r' v hr' =>
    refine Chip.wcr_regs_of_ne c ?_ (Access.plain_of_written hr').2 v
    rintro rfl
    exact hr (Access.regs_of_written hr')
  | bank x h => exact c.setReg_of_ne (by simpa [Access.regs] using hr) x
  | txrts x h => exact c.setReg_of_ne (by simpa [Access.regs] using hr) x
  | readMem n =>
    simp only [Access.regs, Access.written, List.mem_cons, not_or] at hr
    exact (Chip.setReg_of_ne _ hr.2.1 _).trans (Chip.setReg_of_ne _ hr.1 _)
  | txMem bs hp hlen =>
    simp only [Access.regs, List.mem_cons, not_or] at hr
    exact (Chip.setReg_of_ne _ hr.2.1 _).trans (Chip.setReg_of_ne _ hr.1 _)
  | pktDec => exact c.pktDec_regs (by simpa [Access.regs] using hr)

theorem Chip.Touch.econ1_eq (h : c.Touch a c') :
    c'.regs ECON1 &&& 0xF4 = c.regs ECON1 &&& 0xF4 := by
  cases h with
  | write r v hr =>
    rw [Chip.wcr_regs_of_ne c (Access.plain_of_written hr).1.symm (Access.plain_of_written hr).2]
  | bank x h => rw [Chip.setReg_self, and_byte_of_mask 0xF4 h rfl]
  | txrts x h => rw [Chip.setReg_self, and_byte_of_mask 0xF4 h rfl]
  | readMem n => rfl
  | txMem bs hp hlen => rfl
  | pktDec => rw [c.pktDec_regs (by decide)]

theorem Chip.Touch.rxen_eq (h : c.Touch a c') : c'.rxen = c.rxen := by
  rw [Chip.rxen, Chip.rxen, and_byte_of_mask 0x04 h.econ1_eq rfl]

theorem Chip.Touch.mem_eq (h : c.Touch a c') {x : ℕ} (hx : x ∈ rxRing) : c'.mem x = c.mem x := by
  cases h with
  | write r v hr => rw [Chip.wcr_mem]
  | txMem bs hp hlen =>
    have htx : TXSTART.toNat = 0x0C00 := rfl
    have hlast : x < TXSTART.toNat := Nat.lt_succ_of_le hx.2
    change (Chip.wbmFrom bs c.mem c.ewrpt).1 x = c.mem x
    rw [Chip.wbmFrom_mem _ _ _ (by omega), if_neg (by omega)]
  | pktDec => exact congrFun (Chip.pktDec_mem _) x
  | _ => rfl

theorem Chip.Touch.stored_eq (h : c.Touch a c') : c'.stored = c.stored := by
  cases h with
  | write r v hr => rw [Chip.wcr_stored]
  | pktDec => exact Chip.pktDec_stored _
  | _ => rfl

theorem Chip.Touch.pktCnt_eq (h : c.Touch a c') (ha : a ≠ .pktDec) : c'.pktCnt = c.pktCnt := by
  cases h with
  | write r v hr => exact c.wcr_pktCnt (Access.plain_of_written hr).2 v
  | pktDec => exact (ha rfl).elim
  | _ => rfl

theorem Chip.Touch.erxrdpt_eq (h : c.Touch a c') (ha : a ≠ .rxFree) : c'.erxrdpt = c.erxrdpt := by
  cases h with
  | write r v hr =>
    refine c.wcr_erxrdpt ?_ (Access.plain_of_written hr).2 v
    rintro rfl
    exact absurd hr (by revert ha; cases a <;> decide)
  | pktDec => exact Chip.pktDec_erxrdpt _
  | _ => rfl

theorem Chip.Touch.wrPtr_eq (h : c.Touch a c') (ha : a ≠ .config) : c'.wrPtr = c.wrPtr := by
  cases h with
  | write r v hr =>
    have hst : r ≠ ERXSTL ∧ r ≠ ERXSTH := by
      have hall : ∀ r ∈ a.written, r ≠ ERXSTL ∧ r ≠ ERXSTH := by
        revert ha
        cases a <;> decide
      exact hall r hr
    exact c.wcr_wrPtr hst.1 hst.2 (Access.plain_of_written hr).2 v
  | pktDec => exact Chip.pktDec_wrPtr _
  | _ => rfl

theorem HostRegs.refl (c : Chip) : HostRegs c c := ⟨fun _ _ => rfl, rfl, rfl, rfl, rfl⟩

theorem HostRegs.trans {c₁ c₂ c₃ : Chip} (h : HostRegs c₁ c₂) (h' : HostRegs c₂ c₃) :
    HostRegs c₁ c₃ :=
  ⟨fun r hr => (h'.regs r hr).trans (h.regs r hr), h'.econ1.trans h.econ1, h'.latch.trans h.latch,
    h'.erxrdpt.trans h.erxrdpt, h'.por.trans h.por⟩

theorem HostRegs.bank_eq (h : HostRegs c c') : c'.bank = c.bank := and_byte_of_mask 0x03 h.econ1 rfl

theorem HostRegs.rxen_eq (h : HostRegs c c') : c'.rxen = c.rxen := by
  rw [Chip.rxen, Chip.rxen, and_byte_of_mask 0x04 h.econ1 rfl]

@[simp] theorem Chip.holds_nothing (c : Chip) : c.Holds Known.nothing := nofun

theorem Known.Within.nothing (rs : List Reg) : Known.nothing.Within rs := nofun

theorem Known.Within.set {kv : Known} {rs : List Reg} (h : kv.Within rs) {r : Reg} (hr : r ∈ rs)
    (x : UInt8) : (kv.set r x).Within rs := by
  intro r' x' hx'
  by_cases he : r' = r
  · exact he ▸ hr
  · rw [Known.set, Function.update_of_ne he] at hx'
    exact h r' x' hx'

theorem Chip.Holds.of_le {kv kv' : Known} (h : c.Holds kv)
    (hle : ∀ r x, kv' r = some x → kv r = some x) : c.Holds kv' :=
  fun r x hx => h r x (hle r x hx)

/-- Contents that an access leaves alone stay known. -/
theorem Chip.Holds.congr {kv : Known} (h : c.Holds kv)
    (hregs : ∀ r x, kv r = some x → r.HostOwned → c'.regs r = c.regs r) : c'.Holds kv :=
  fun r x hx hr => (hregs r x hx hr).trans (h r x hx hr)

theorem Chip.Holds.econ1 {kv : Known} (h : c.Holds kv) (x : UInt8) :
    (c.setReg ECON1 x).Holds kv :=
  h.congr fun r _ _ hr => Chip.setReg_of_ne _ (by rintro rfl; exact hr (by decide)) _

theorem Chip.Holds.wcr {kv : Known} {r : Reg} (h : c.Holds kv) (hr : r ∈ a.written) (x : UInt8) :
    (c.wcr r x).Holds (kv.set r x) := by
  have he := (Access.plain_of_written hr).2
  intro r' x' hx' hown
  by_cases hrr : r' = r
  · subst hrr
    have hown' : r' ≠ ERXRDPTL ∧ r' ≠ ERXRDPTH := by
      constructor <;> rintro rfl <;> exact hown (by decide)
    rw [Chip.wcr_regs c hown'.1 hown'.2 he]
    simpa [Known.set] using hx'
  · rw [Known.set, Function.update_of_ne hrr] at hx'
    rw [Chip.wcr_regs_of_ne c hrr he]
    exact h r' x' hx' hown

theorem Chip.Holds.stable {kv : Known} (hR : ∀ b b', R b b' → HostRegs b.chip b'.chip) :
    Stable R fun c => c.Holds kv :=
  fun b b' hb h => h.congr fun r _ _ hr => (hR b b' hb).regs r hr

/-- The selected bank and host-owned registers are stable. -/
theorem Chip.At.stable {bank : UInt8} {kv : Known}
    (hR : ∀ b b', R b b' → HostRegs b.chip b'.chip) : Stable R (Chip.At bank kv) :=
  fun b b' hb h =>
    ⟨(hR b b' hb).bank_eq.trans h.bank, Chip.Holds.stable hR b b' hb h.holds⟩

theorem Kept.and {A : List Access} {I J : DrvAssn} (hI : Kept R A I) (hJ : Kept R A J) :
    Kept R A fun v => I v ∧ J v :=
  ⟨fun h hb => ⟨hI.move h.1 hb, hJ.move h.2 hb⟩,
    fun h ha ht => ⟨hI.touch h.1 ha ht, hJ.touch h.2 ha ht⟩,
    fun h he => ⟨hI.look h.1 he, hJ.look h.2 he⟩⟩

/-- Only the driver itself changes its variables. -/
theorem Kept.and_loc {A : List Access} {I : DrvAssn} (hI : Kept R A I) (φ : Statics → Prop) :
    Kept R A fun v => I v ∧ φ v.loc :=
  ⟨fun h hb => ⟨hI.move h.1 hb, h.2⟩, fun h ha ht => ⟨hI.touch h.1 ha ht, h.2⟩,
    fun h he => ⟨hI.look h.1 he, h.2⟩⟩

/-- An invariant may be about the variables as `f` sees them. -/
theorem Kept.mapLoc {A : List Access} {I : DrvAssn} (hI : Kept R A I) (f : Statics → Statics) :
    Kept R A fun v => I (v.mapLoc f) :=
  ⟨fun h hb => hI.move h hb, fun h ha ht => hI.touch h ha ht, fun h he => hI.look h he⟩

theorem Kept.true (A : List Access) : Kept R A fun _ => True :=
  ⟨fun _ _ => trivial, fun _ _ _ => trivial, fun _ _ => trivial⟩

/-- Contents that no access of the kinds `A` can change are kept with any invariant. -/
theorem Kept.and_holds {A : List Access} {I : DrvAssn} {kv : Known} (hI : Kept R A I)
    (hR : ∀ b b', R b b' → HostRegs b.chip b'.chip)
    (hkv : ∀ r x, kv r = some x → ∀ a ∈ A, r ∉ a.regs) :
    Kept R A fun v => I v ∧ v.hw.chip.Holds kv where
  move h hb := ⟨hI.move h.1 hb, h.2.congr fun r _ _ hr => (hR _ _ hb).regs r hr⟩
  touch h ha ht := ⟨hI.touch h.1 ha ht, h.2.congr fun r x hx _ => ht.regs_eq (hkv r x hx _ ha)⟩
  look h he := ⟨hI.look h.1 he, h.2⟩

theorem Chip.bank_bfc (m : UInt8) : (c.bfc ECON1 m).bank = c.bank &&& ~~~m := by
  rw [Chip.bfc_econ1, Chip.bank, Chip.setReg_self, Chip.bank, UInt8.and_assoc, UInt8.and_assoc,
    UInt8.and_comm 0x03]

theorem Chip.bank_bfs (m : UInt8) : (c.bfs ECON1 m).bank = c.bank ||| (m &&& 0x03) := by
  rw [Chip.bfs_econ1, Chip.bank, Chip.setReg_self, Chip.bank, or_and_byte]

theorem Kept.mono {A A' : List Access} {I : DrvAssn} (h : Kept R A I) (hsub : A' ⊆ A) :
    Kept R A' I :=
  ⟨h.move, fun hv ha => h.touch hv (hsub ha), h.look⟩

theorem Chip.bank_rbm (n : ℕ) : (c.rbm n).2.bank = c.bank := rfl

theorem Chip.bank_wcr {r : Reg} (hr : r ∈ a.written) (v : UInt8) : (c.wcr r v).bank = c.bank := by
  obtain ⟨h₁, h₂⟩ := Access.plain_of_written hr
  rw [Chip.bank, Chip.bank, Chip.wcr_regs_of_ne c h₁.symm h₂]

end Registers

section Walk

variable {R : Board → Board → Prop} {A : List Access} {I E : DrvAssn} {P Q : Chip → Prop}
  {a : Access} {k k₀ : UInt8} {kv : Known}

theorem spiTransmit_kept {mosi : List UInt8} (hI : Kept R A I) (ha : a ∈ A) (hP : Stable R P)
    (h : ∀ c, P c → c.Touch a (c.transact mosi 0).2 ∧ Q (c.transact mosi 0).2) :
    Triple R (fun v => I v ∧ P v.hw.chip) (spiTransmit mosi) (fun _ v => I v ∧ Q v.hw.chip) E :=
  Triple.act fun v b hv hb =>
    have hc := h b.chip (hP v.hw b hb hv.2)
    ⟨hI.touch (hI.move hv.1 hb) ha hc.1, hc.2⟩

/-- A read that leaves the chip alone; `Q` is what the bytes received say about it. -/
theorem spiReceive_kept {mosi : List UInt8} {n : ℕ} {Q : List UInt8 → Chip → Prop}
    (hI : Kept R A I) (hP : Stable R P) (hlook : ∀ c, P c → (c.transact mosi n).2 = c)
    (h : ∀ c, P c → Q (c.transact mosi n).1 c) :
    Triple R (fun v => I v ∧ P v.hw.chip) (spiReceive mosi n)
      (fun bs v => I v ∧ P v.hw.chip ∧ Q bs v.hw.chip) E := by
  apply Triple.act
  intro v b hv hb
  have hc := hP v.hw b hb hv.2
  have hsame := hlook b.chip hc
  have hI' := hI.look (e := .spi mosi n) (hI.move hv.1 hb)
    fun mosi' n' he => by injection he with h₁ h₂; subst h₁ h₂; exact hsame
  simp only [hsame]
  exact ⟨hI', hc, h _ hc⟩

theorem readBuffer_kept {len : UInt16} {Q : List UInt8 → Chip → Prop} (hI : Kept R A I)
    (ha : .readPtr ∈ A) (hP : Stable R P)
    (h : ∀ v, I v → P v.hw.chip → Q (v.hw.chip.rbm len.toNat).1 (v.hw.chip.rbm len.toNat).2) :
    Triple R (fun v => I v ∧ P v.hw.chip) (ENC28J60.readBuffer len)
      (fun bs v => I v ∧ Q bs v.hw.chip) E := by
  unfold ENC28J60.readBuffer spiReceive
  apply Triple.act
  intro v b hv hb
  have hmoved := hI.move hv.1 hb
  exact ⟨hI.touch hmoved ha (.readMem len.toNat), h _ hmoved (hP v.hw b hb hv.2)⟩

theorem halGetTick_kept (hI : Kept R A I) (hP : Stable R P) :
    Triple R (fun v => I v ∧ P v.hw.chip) halGetTick (fun _ v => I v ∧ P v.hw.chip) E :=
  Triple.act fun v b hv hb =>
    ⟨hI.look (hI.move hv.1 hb) nofun, hP v.hw b hb hv.2⟩

theorem halDelay_kept (hI : Kept R A I) (hP : Stable R P) (ms : UInt32) :
    Triple R (fun v => I v ∧ P v.hw.chip) (halDelay ms) (fun _ v => I v ∧ P v.hw.chip) E :=
  Triple.act fun v b hv hb =>
    ⟨hI.look (hI.move hv.1 hb) nofun, hP v.hw b hb hv.2⟩

namespace ENC28J60

theorem writeReg_kept {r : Reg} {addr x : UInt8} (hI : Kept R A I) (ha : a ∈ A)
    (hP : Stable R P) (hbank : ∀ c, P c → c.bank = k) (hr : Reg.select k (addr &&& 0x1F) = r)
    (hw : r ∈ a.written) (h : ∀ c, P c → Q (c.wcr r x)) :
    Triple R (fun v => I v ∧ P v.hw.chip) (writeReg addr x) (fun _ v => I v ∧ Q v.hw.chip) E :=
  spiTransmit_kept hI ha hP fun c hc => by
    rw [Chip.transact_wcr, hbank c hc, hr]
    exact ⟨.write r x hw, h c hc⟩

theorem readReg_look (hI : Kept R A I) (addr : UInt8) :
    Triple R I (readReg addr) (fun _ => I) E := by
  have hread : Triple R (fun v => I v ∧ True) (spiReceive [0x00 ||| (addr &&& 0x1F)] 1)
      (fun _ v => I v ∧ True ∧ True) E :=
    spiReceive_kept (P := fun _ => True) (Q := fun _ _ => True) hI (fun _ _ _ => id)
      (fun c _ => by rw [Chip.transact_rcr]) fun _ _ => trivial
  exact (hread.pre fun _ h => ⟨h, trivial⟩).bind fun bs => Triple.pure fun _ h => h.1

theorem readReg_kept {r : Reg} {addr : UInt8} {Q : UInt8 → Chip → Prop} (hI : Kept R A I)
    (hP : Stable R P) (hbank : ∀ c, P c → c.bank = k) (hr : Reg.select k (addr &&& 0x1F) = r)
    (h : ∀ c, P c → Q ((c.rcr r 1).headD 0) c) :
    Triple R (fun v => I v ∧ P v.hw.chip) (readReg addr)
      (fun x v => I v ∧ P v.hw.chip ∧ Q x v.hw.chip) E := by
  refine Triple.bind (Q := fun bs v => I v ∧ P v.hw.chip ∧ Q (bs.headD 0) v.hw.chip)
    (spiReceive_kept hI hP (fun c _ => ?_) (fun c hc => ?_)) fun bs => Triple.pure fun _ => id
  · rw [Chip.transact_rcr]
  · rw [Chip.transact_rcr, hbank c hc, hr]
    exact h c hc

section Driver

variable (hI : Kept R A I) (hR : ∀ b b', R b b' → HostRegs b.chip b'.chip)
include hI hR

/-- Bank selection, with the register contents `kv` known before and after. -/
theorem setBank_of (hbank : .bank ∈ A) (hk : k &&& 0x03 = k) (hP : Stable R P)
    (hPkv : ∀ c, P c → c.Holds kv) :
    Triple R (fun v => I v ∧ P v.hw.chip) (setBank k) (fun _ v => I v ∧ v.hw.chip.At k kv) E := by
  have hmask : k &&& 0xFC = 0 := by
    rw [← hk, UInt8.and_assoc]
    exact UInt8.and_zero
  have hclear : Triple R (fun v => I v ∧ P v.hw.chip) (writeOp 0xA0 0x1F 0x03)
      (fun _ v => I v ∧ v.hw.chip.At 0 kv) E := by
    apply spiTransmit_kept hI hbank hP
    intro c hc
    rw [Chip.transact_bfc]
    refine ⟨.bank _ (andNot_and_byte _ rfl), ?_, (hPkv c hc).econ1 _⟩
    exact (Chip.bank_bfc 0x03).trans (by rw [Chip.bank, UInt8.and_assoc]; exact UInt8.and_zero)
  apply hclear.seq
  apply spiTransmit_kept hI hbank (Chip.At.stable hR)
  intro c hc
  rw [Chip.transact_bfs, hk]
  refine ⟨.bank _ (or_and_byte_of_disjoint _ hmask), ?_, hc.holds.econ1 _⟩
  exact (Chip.bank_bfs k).trans (by rw [hc.bank, UInt8.zero_or, hk])

/-- After `setBank` the bank is known, whatever it was. -/
theorem setBank_kept (hbank : .bank ∈ A) (hk : k &&& 0x03 = k) :
    Triple R I (setBank k) (fun _ v => I v ∧ v.hw.chip.At k .nothing) E :=
  (setBank_of hI hR (P := fun _ => True) hbank hk (fun _ _ _ => id) (by simp)).pre
    fun _ h => ⟨h, trivial⟩

theorem setBank_at (hbank : .bank ∈ A) (hk : k &&& 0x03 = k) :
    Triple R (fun v => I v ∧ v.hw.chip.At k₀ kv) (setBank k)
      (fun _ v => I v ∧ v.hw.chip.At k kv) E :=
  setBank_of hI hR hbank hk (Chip.At.stable hR) fun _ h => h.holds

theorem writeReg_at {addr x : UInt8} (ha : a ∈ A)
    (hw : Reg.select k (addr &&& 0x1F) ∈ a.written) :
    Triple R (fun v => I v ∧ v.hw.chip.At k kv) (writeReg addr x)
      (fun _ v => I v ∧ v.hw.chip.At k (kv.set (Reg.select k (addr &&& 0x1F)) x)) E :=
  writeReg_kept hI ha (Chip.At.stable hR) (fun _ h => h.bank) rfl hw fun _ hc =>
    ⟨(Chip.bank_wcr hw x).trans hc.bank, hc.holds.wcr hw x⟩

/-- A register write between two points where only the bank matters. -/
theorem writeReg_bank {addr x : UInt8} (ha : a ∈ A)
    (hw : Reg.select k (addr &&& 0x1F) ∈ a.written) :
    Triple R (fun v => I v ∧ v.hw.chip.At k .nothing) (writeReg addr x)
      (fun _ v => I v ∧ v.hw.chip.At k .nothing) E :=
  writeReg_kept hI ha (Chip.At.stable hR) (fun _ h => h.bank) rfl hw fun _ hc =>
    ⟨(Chip.bank_wcr hw x).trans hc.bank, by simp⟩

theorem readReg_at (addr : UInt8) :
    Triple R (fun v => I v ∧ v.hw.chip.At k kv) (readReg addr)
      (fun _ v => I v ∧ v.hw.chip.At k kv) E :=
  (readReg_kept (Q := fun _ _ => True) hI (Chip.At.stable hR) (fun _ h => h.bank) rfl
    fun _ _ => trivial).post fun _ _ h => ⟨h.1, h.2.1⟩

theorem busyWait_at (hE : ∀ v, I v → E v) (addr mask : UInt8) (limit start : UInt32)
    (fuel : ℕ) :
    Triple R (fun v => I v ∧ v.hw.chip.At k kv) (busyWait addr mask limit start fuel)
      (fun _ v => I v ∧ v.hw.chip.At k kv) E := by
  induction fuel with
  | zero => exact Triple.stuck fun v h => hE v h.1
  | succ fuel ih =>
    apply (readReg_at hI hR addr).bind
    intro status
    apply Triple.ite
    · intro _
      apply (halGetTick_kept hI (Chip.At.stable hR)).bind
      intro now
      exact Triple.ite (fun _ => Triple.pure fun _ => id) fun _ => ih
    · intro _
      exact Triple.pure fun _ => id

theorem readPHY_kept (hE : ∀ v, I v → E v) (hbank : .bank ∈ A) (hmii : .mii ∈ A) (fuel : ℕ)
    (phyAddr : UInt8) : Triple R I (readPHY fuel phyAddr) (fun _ => I) E := by
  apply (setBank_kept hI hR hbank (by decide)).seq
  apply (writeReg_bank hI hR hmii (by decide)).seq
  apply (writeReg_bank hI hR hmii (by decide)).seq
  apply (setBank_at hI hR hbank (by decide)).seq
  apply (halGetTick_kept hI (Chip.At.stable hR)).bind
  intro timeout
  apply (busyWait_at hI hR hE 0x0A 0x01 100 timeout fuel).seq
  apply (setBank_at hI hR hbank (by decide)).seq
  apply (writeReg_bank hI hR hmii (by decide)).seq
  apply (readReg_at hI hR 0x18).bind
  intro lo
  apply (readReg_at hI hR 0x19).bind
  intro hi
  exact Triple.pure fun _ h => h.1

theorem writePHY_kept (hE : ∀ v, I v → E v) (hbank : .bank ∈ A) (hmii : .mii ∈ A) (fuel : ℕ)
    (phyAddr : UInt8) (data : UInt16) : Triple R I (writePHY fuel phyAddr data) (fun _ => I) E := by
  apply (setBank_kept hI hR hbank (by decide)).seq
  apply (writeReg_bank hI hR hmii (by decide)).seq
  apply (writeReg_bank hI hR hmii (by decide)).seq
  apply (writeReg_bank hI hR hmii (by decide)).seq
  apply (setBank_at hI hR hbank (by decide)).seq
  apply (halGetTick_kept hI (Chip.At.stable hR)).bind
  intro timeout
  exact (busyWait_at hI hR hE 0x0A 0x01 100 timeout fuel).post fun _ _ h => h.1

/-- `sendPacket` selects bank 0, moves the transmit pointers, fills the transmit memory from
`TXSTART` on and switches `TXRTS`. -/
theorem sendPacket_kept (hE : ∀ v, I v → E v) (hbank : .bank ∈ A) (hptr : .txPtr ∈ A)
    (hmem : .txMem ∈ A) (hrts : .txrts ∈ A) (fuel : ℕ) (buf : List UInt8) {len : UInt16}
    (hlen : len.toNat ≤ 5119) :
    Triple R I (sendPacket fuel buf len) (fun _ => I) E := by
  have hclear : Triple R I (writeOp 0xA0 0x1F 0x08) (fun _ => I) E :=
    ((spiTransmit_kept hI hrts (P := fun _ => True) (Q := fun _ => True) (fun _ _ _ => id)
      fun c _ => by
        rw [Chip.transact_bfc]
        exact ⟨.txrts _ (andNot_and_byte _ rfl), trivial⟩).pre
      fun _ h => ⟨h, trivial⟩).post fun _ _ h => h.1
  apply hclear.seq
  apply (setBank_kept hI hR hbank (by decide)).seq
  apply (writeReg_bank hI hR hptr (by decide)).seq
  apply (writeReg_bank hI hR hptr (by decide)).seq
  apply (writeReg_at hI hR hptr (by decide)).seq
  apply (writeReg_at hI hR hptr (by decide)).seq
  have hfill : Triple R
      (fun v => I v ∧ v.hw.chip.At 0
        ((Known.nothing.set EWRPTL TXSTART.toUInt8).set EWRPTH (TXSTART >>> 8).toUInt8))
      (spiTransmit ([0x7A, 0x00] ++ buf.take len.toNat))
      (fun _ v => I v ∧ v.hw.chip.At 0 .nothing) E := by
    apply spiTransmit_kept hI hmem (Chip.At.stable hR)
    intro c hc
    have hlow : c.regs EWRPTL = TXSTART.toUInt8 := hc.holds _ _ rfl (by decide)
    have hhigh : c.regs EWRPTH = (TXSTART >>> 8).toUInt8 := hc.holds _ _ rfl (by decide)
    have hewrpt : c.ewrpt = TXSTART.toNat := by
      rw [Chip.ewrpt, hlow, hhigh]
      decide
    refine ⟨.txMem (0x00 :: buf.take len.toNat) hewrpt ?_, hc.bank, by simp⟩
    simp only [List.length_cons, List.length_take]
    omega
  apply hfill.seq
  apply (writeReg_bank hI hR hptr (by decide)).seq
  apply (writeReg_bank hI hR hptr (by decide)).seq
  have hstart : Triple R (fun v => I v ∧ v.hw.chip.At 0 .nothing) (writeOp 0x80 0x1F 0x08)
      (fun _ v => I v ∧ v.hw.chip.At 0 .nothing) E := by
    apply spiTransmit_kept hI hrts (Chip.At.stable hR)
    intro c hc
    rw [Chip.transact_bfs]
    refine ⟨.txrts _ (or_and_byte_of_disjoint _ rfl), ?_, by simp⟩
    exact (Chip.bank_bfs 0x08).trans (by rw [hc.bank]; rfl)
  apply hstart.seq
  apply (halGetTick_kept hI (Chip.At.stable hR)).bind
  intro t
  apply (setBank_at hI hR hbank (by decide)).seq
  exact (busyWait_at hI hR hE 0x1F 0x08 200 t fuel).post fun _ _ h => h.1

theorem fetchPacket_kept (hbank : .bank ∈ A) (hread : .readPtr ∈ A) (maxlen : UInt16) :
    Triple R I (fetchPacket maxlen) (fun _ => I) E := by
  have hbuf : ∀ len : UInt16, Triple R (fun v => I v ∧ v.hw.chip.At 0 .nothing) (readBuffer len)
      (fun _ v => I v ∧ v.hw.chip.At 0 .nothing) E := fun len =>
    readBuffer_kept hI hread (Chip.At.stable hR) fun _ _ hc =>
      ⟨(Chip.bank_rbm len.toNat).trans hc.bank, by simp⟩
  apply (setBank_kept hI hR hbank (by decide)).seq
  refine Triple.bind (Q := fun _ v => I v ∧ v.hw.chip.At 0 .nothing) (Triple.read fun _ => id) ?_
  intro rxPtr
  apply (writeReg_bank hI hR hread (by decide)).seq
  apply (writeReg_bank hI hR hread (by decide)).seq
  apply (hbuf 6).bind
  intro header
  apply (hbuf _).bind
  intro buf
  exact Triple.pure fun _ h => h.1

theorem freeSpace_kept (hbank : .bank ∈ A) (hfree : .rxFree ∈ A) (hdec : .pktDec ∈ A)
    (nextPtr : UInt16) : Triple R I (freeSpace nextPtr) (fun _ => I) E := by
  apply (setBank_kept hI hR hbank (by decide)).seq
  apply (writeReg_bank hI hR hfree (by decide)).seq
  apply (writeReg_bank hI hR hfree (by decide)).seq
  refine (spiTransmit_kept (Q := fun _ => True) hI hdec (Chip.At.stable hR) fun c _ => ?_).post
    fun _ _ h => h.1
  rw [Chip.transact_bfs]
  exact ⟨.pktDec, trivial⟩

theorem packetReceive_kept (hbank : .bank ∈ A) (hread : .readPtr ∈ A) (hfree : .rxFree ∈ A)
    (hdec : .pktDec ∈ A) (maxlen : UInt16)
    (hloc : ∀ (t : Taken) v, I v → I { v with loc := t.advance v.loc }) :
    Triple R I (packetReceive maxlen) (fun _ => I) E := by
  apply (setBank_kept hI hR hbank (by decide)).seq
  apply (readReg_at hI hR 0x19).bind
  intro pktCnt
  apply Triple.ite
  · intro _
    exact Triple.pure fun _ h => h.1
  · intro _
    apply ((fetchPacket_kept hI hR hbank hread maxlen).pre fun _ h => h.1).bind
    intro t
    refine Triple.seq (S := I) (Triple.modify (hloc t)) ?_
    apply (freeSpace_kept hI hR hbank hfree hdec t.nextPtr).seq
    exact Triple.pure fun _ => id

end Driver

end ENC28J60

end Walk

end EthernetPing
