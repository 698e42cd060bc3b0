import EthernetPing.Driver.Output

/-!
# One transmission at a time

While `TXRTS` is set the device reads the transmit buffer, so the driver has to keep
away from it. Which commands could disturb a transmission is read off their bytes
here, whatever bank is selected: `sendPacket` issues them only between clearing and
setting `TXRTS`, and the other functions never issue one.
-/

namespace EthernetPing

open Reg

/-- The instructions that write a control register. -/
def Instr.writesReg : Instr → Bool
  | .wcr | .bfs | .bfc => true
  | _ => false

/-- The command writes buffer memory or, with the right bank selected, one of `EWRPT`, `ETXST`
and `ETXND`. A reset counts as one that does. -/
def txCommand (cmd : UInt8) : Bool :=
  Instr.decode cmd == .wbm || Instr.decode cmd == .src ||
    ((Instr.decode cmd).writesReg && txRegs.contains (Reg.select 0 (cmd &&& 0x1F)))

def econ1Command (cmd : UInt8) : Bool :=
  Instr.decode cmd == .src || ((Instr.decode cmd).writesReg && cmd &&& 0x1F == 0x1F)

/-- The action writes to the transmit buffer or to its pointers. -/
def Event.writesTx : Event → Bool
  | .spi (cmd :: _) _ => txCommand cmd
  | _ => false

/-- The action may change `TXRTS`: all writes to `ECON1` but bit-field instructions for other
bits. -/
def Event.switchesTxrts : Event → Bool
  | .spi (cmd :: data) _ =>
    econ1Command cmd &&
      !((Instr.decode cmd == .bfs || Instr.decode cmd == .bfc) && data.headD 0 &&& 0x08 == 0)
  | _ => false

/-- The action does not concern transmission. -/
def Event.Calm (e : Event) : Prop := e.writesTx = false ∧ e.switchesTxrts = false

instance (e : Event) : Decidable e.Calm := inferInstanceAs (Decidable (_ ∧ _))

/-- A device that starts no transmission of its own accord. -/
def NoSelfStart (b b' : Board) : Prop := b.chip.txrts = false → b'.chip.txrts = false

/-- Since the log `past`, nothing was written to the transmit buffer or its pointers while
`TXRTS` was set. -/
def Exclusive (past : List (Board × Event)) (v : View Board Statics Event) : Prop :=
  ∃ new, v.log = new ++ past ∧ ∀ x ∈ new, x.1.chip.txrts = true → x.2.writesTx = false

/-- Since the log `past`, no action set or cleared `TXRTS`. -/
def LeavesTxrts (past : List (Board × Event)) (v : View Board Statics Event) : Prop :=
  ∃ new, v.log = new ++ past ∧ ∀ x ∈ new, (after x).txrts = x.1.chip.txrts

/-- `I` is kept by device moves within `R` and by every action of the driver that satisfies
`φ`. -/
structure EventKept (R : Board → Board → Prop) (φ : Event → Prop) (I : DrvAssn) : Prop where
  move : ∀ {v b}, I v → R v.hw b → I { v with hw := b }
  act : ∀ {b loc log e}, I ⟨b, loc, log⟩ → φ e →
    I ⟨{ b with chip := after (b, e) }, loc, (b, e) :: log⟩

abbrev CalmKept (R : Board → Board → Prop) (I : DrvAssn) : Prop := EventKept R Event.Calm I

section Commands

variable {c : Chip} {b : Board}

theorem Event.calm_of_cmd {cmd : UInt8} (htx : txCommand cmd = false)
    (hecon1 : econ1Command cmd = false) (data : List UInt8) (n : ℕ) :
    (Event.spi (cmd :: data) n).Calm :=
  ⟨htx, by rw [switchesTxrts, hecon1, Bool.false_and]⟩

theorem Chip.txrts_of_regs {c' : Chip} (h : c'.regs ECON1 = c.regs ECON1) :
    c'.txrts = c.txrts := by
  rw [Chip.txrts, Chip.txrts, h]

theorem Chip.pktDec_regs_of_ne {r : Reg} (h : r ≠ ECON2) : c.pktDec.regs r = c.regs r := by
  unfold Chip.pktDec
  split_ifs
  · exact Chip.setReg_of_ne c h _
  · exact Chip.setReg_of_ne c h _
  · rfl

theorem Chip.wcr_regs_other {r r' : Reg} (hr : r ≠ r') (h : r ≠ ECON2) (v : UInt8) :
    (c.wcr r' v).regs r = c.regs r := by
  by_cases he : r' = ECON2
  · subst he
    exact (Chip.pktDec_regs_of_ne (c := c.setReg ECON2 v) h).trans (Chip.setReg_of_ne c hr v)
  · exact Chip.wcr_regs_of_ne c hr he v

theorem Chip.wcr_txrts {r : Reg} (h : r ≠ ECON1) (v : UInt8) : (c.wcr r v).txrts = c.txrts :=
  Chip.txrts_of_regs (Chip.wcr_regs_other (Ne.symm h) (by decide) v)

theorem Reg.select_ne_econ1 {bank addr : UInt8} (h : addr ≠ 0x1F) :
    Reg.select bank addr ≠ ECON1 := by
  unfold Reg.select
  split_ifs
  · exact fun heq => h (congrArg Reg.addr heq)
  · exact fun heq => h (congrArg Reg.addr heq)

/-- Bit-field instructions for other bits of `ECON1` leave `TXRTS` alone. -/
theorem Chip.bitField_txrts {m : UInt8} (h : m &&& 0x08 = 0) :
    (c.bfs ECON1 m).txrts = c.txrts ∧ (c.bfc ECON1 m).txrts = c.txrts := by
  have hclear : ∀ m : UInt8, m &&& 0x08 = 0 → ~~~m &&& 0x08 = 0x08 :=
    forall_byte_of_fin (by decide +kernel)
  rw [Chip.bfs_econ1, Chip.bfc_econ1]
  simp only [Chip.txrts, Chip.setReg_self]
  rw [or_and_byte_of_disjoint _ h, andNot_and_byte _ (hclear m h)]
  exact ⟨rfl, rfl⟩

theorem Chip.writeReg_txrts {cmd m : UInt8}
    (h : (cmd &&& 0x1F == 0x1F && !(m &&& 0x08 == 0)) = false) (k : UInt8) :
    (c.bfs (Reg.select k (cmd &&& 0x1F)) m).txrts = c.txrts ∧
      (c.bfc (Reg.select k (cmd &&& 0x1F)) m).txrts = c.txrts := by
  by_cases haddr : cmd &&& 0x1F = 0x1F
  · have hm : m &&& 0x08 = 0 := by simpa [haddr] using h
    rw [haddr]
    exact Chip.bitField_txrts hm
  · have hr : Reg.select k (cmd &&& 0x1F) ≠ ECON1 := Reg.select_ne_econ1 haddr
    unfold Chip.bfs Chip.bfc
    split_ifs
    · exact ⟨rfl, rfl⟩
    · exact ⟨Chip.wcr_txrts hr _, Chip.wcr_txrts hr _⟩

theorem after_txrts {e : Event} (h : e.switchesTxrts = false) :
    (after (b, e)).txrts = b.chip.txrts := by
  cases e with
  | spi mosi n =>
    cases mosi with
    | nil => rfl
    | cons cmd data =>
      rw [after_spi, Chip.transact]
      simp only [Event.switchesTxrts, econ1Command] at h
      cases hcmd : Instr.decode cmd with
      | rcr => rfl
      | rbm => rfl
      | wbm => rfl
      | undefined => rfl
      | src => simp [hcmd] at h
      | wcr =>
        have haddr : cmd &&& 0x1F ≠ 0x1F := by simpa [hcmd, Instr.writesReg] using h
        exact Chip.wcr_txrts (Reg.select_ne_econ1 haddr) _
      | bfs => exact (Chip.writeReg_txrts (by simpa [hcmd, Instr.writesReg] using h) _).1
      | bfc => exact (Chip.writeReg_txrts (by simpa [hcmd, Instr.writesReg] using h) _).2
  | getTick => rfl
  | delay ms => rfl

/-- Register writes of another address do not reach the transmit pointers. -/
theorem Reg.ne_select_of_txRegs {bank addr : UInt8} {r : Reg} (hr : r ∈ txRegs)
    (h : Reg.select 0 addr ∉ txRegs) : r ≠ Reg.select bank addr := by
  have hbank : ∀ r ∈ txRegs, r.bank = 0 ∧ r.addr < 0x1B := by decide
  rintro rfl
  unfold Reg.select at h hr
  split_ifs at h hr with haddr
  · exact h hr
  · have hzero : bank = 0 := (hbank _ hr).1
    rw [hzero] at hr
    exact h hr

theorem Chip.bitField_wcr (r : Reg) (m : UInt8) :
    (c.bfs r m = c ∨ ∃ v, c.bfs r m = c.wcr r v) ∧
      (c.bfc r m = c ∨ ∃ v, c.bfc r m = c.wcr r v) := by
  unfold Chip.bfs Chip.bfc
  split_ifs
  · exact ⟨.inl rfl, .inl rfl⟩
  · exact ⟨.inr ⟨_, rfl⟩, .inr ⟨_, rfl⟩⟩

/-- Nothing happened to the transmit buffer and its pointers. -/
def SparesTx (c c' : Chip) : Prop := c'.mem = c.mem ∧ ∀ r ∈ txRegs, c'.regs r = c.regs r

theorem Chip.wcr_sparesTx {r : Reg} (h : ∀ r' ∈ txRegs, r' ≠ r) (v : UInt8) :
    SparesTx c (c.wcr r v) := by
  have hecon2 : ∀ r' ∈ txRegs, r' ≠ ECON2 := by decide
  exact ⟨Chip.wcr_mem .., fun r' hr' => Chip.wcr_regs_other (h r' hr') (hecon2 r' hr') v⟩

/-- What does not write to the transmit buffer leaves it alone. -/
theorem after_sparesTx {e : Event} (h : e.writesTx = false) : SparesTx b.chip (after (b, e)) := by
  have hsame : SparesTx b.chip b.chip := ⟨rfl, fun _ _ => rfl⟩
  cases e with
  | spi mosi n =>
    cases mosi with
    | nil => exact hsame
    | cons cmd data =>
      rw [after_spi, Chip.transact]
      simp only [Event.writesTx, txCommand] at h
      have hother : (Instr.decode cmd).writesReg = true → ∀ r ∈ txRegs,
          r ≠ Reg.select b.chip.bank (cmd &&& 0x1F) := by
        intro hw r hr
        refine Reg.ne_select_of_txRegs hr fun hmem => ?_
        rw [hw, List.contains_iff_mem.mpr hmem] at h
        simp at h
      cases hcmd : Instr.decode cmd with
      | rcr => exact hsame
      | rbm => exact ⟨rfl, fun r hr => (Chip.Touch.readMem n).regs_eq (by revert r; decide)⟩
      | wbm => simp [hcmd] at h
      | undefined => exact hsame
      | src => simp [hcmd] at h
      | wcr => exact Chip.wcr_sparesTx (hother (by rw [hcmd]; rfl)) _
      | bfs =>
        have hr := hother (by rw [hcmd]; rfl)
        rcases (Chip.bitField_wcr (Reg.select b.chip.bank (cmd &&& 0x1F)) (data.headD 0)).1 with
          hc | ⟨v, hc⟩
        · exact hc ▸ hsame
        · exact hc ▸ Chip.wcr_sparesTx hr v
      | bfc =>
        have hr := hother (by rw [hcmd]; rfl)
        rcases (Chip.bitField_wcr (Reg.select b.chip.bank (cmd &&& 0x1F)) (data.headD 0)).2 with
          hc | ⟨v, hc⟩
        · exact hc ▸ hsame
        · exact hc ▸ Chip.wcr_sparesTx hr v
  | getTick => exact hsame
  | delay ms => exact hsame

end Commands

section Walk

variable {R : Board → Board → Prop} {φ : Event → Prop} {I E : DrvAssn}

theorem spiReceive_event (hI : EventKept R φ I) {mosi : List UInt8} {n : ℕ}
    (h : φ (.spi mosi n)) : Triple R I (spiReceive mosi n) (fun _ => I) E :=
  Triple.act fun _ _ hv hb => hI.act (hI.move hv hb) h

theorem spiTransmit_event (hI : EventKept R φ I) {mosi : List UInt8} (h : φ (.spi mosi 0)) :
    Triple R I (spiTransmit mosi) (fun _ => I) E :=
  Triple.act fun _ _ hv hb => hI.act (hI.move hv hb) h

theorem halGetTick_event (hI : EventKept R φ I) (h : φ .getTick) :
    Triple R I halGetTick (fun _ => I) E :=
  Triple.act fun _ _ hv hb => hI.act (e := .getTick) (hI.move hv hb) h

namespace ENC28J60

variable (hI : CalmKept R I)
include hI

theorem setBank_calm (k : UInt8) : Triple R I (setBank k) (fun _ => I) E := by
  have hmask : k &&& 0x03 &&& 0x08 = 0 := by
    rw [UInt8.and_assoc]
    exact UInt8.and_zero
  refine (spiTransmit_event hI (by decide)).seq (spiTransmit_event hI ⟨by rfl, ?_⟩)
  simp only [Event.switchesTxrts, List.headD_cons, hmask]
  decide

/-- A write to a register that has nothing to do with transmission. -/
theorem writeReg_calm {addr : UInt8} (x : UInt8)
    (htx : txCommand (0x40 ||| (addr &&& 0x1F)) = false)
    (hecon1 : econ1Command (0x40 ||| (addr &&& 0x1F)) = false) :
    Triple R I (writeReg addr x) (fun _ => I) E :=
  spiTransmit_event hI (Event.calm_of_cmd htx hecon1 _ _)

theorem readReg_calm (addr : UInt8) : Triple R I (readReg addr) (fun _ => I) E := by
  have hread : Instr.decode (0x00 ||| (addr &&& 0x1F)) = .rcr :=
    Chip.decode_or_addr 0x00 addr (by decide)
  refine (spiReceive_event hI (Event.calm_of_cmd ?_ ?_ _ _)).bind fun _ => Triple.pure fun _ => id
  · rw [txCommand, hread]
    rfl
  · rw [econ1Command, hread]
    rfl

theorem readBuffer_calm (len : UInt16) : Triple R I (readBuffer len) (fun _ => I) E :=
  spiReceive_event hI (Event.calm_of_cmd (by decide) (by decide) _ _)

theorem busyWait_calm (hE : ∀ v, I v → E v) (addr mask : UInt8) (limit start : UInt32)
    (fuel : ℕ) : Triple R I (busyWait addr mask limit start fuel) (fun _ => I) E := by
  induction fuel with
  | zero => exact Triple.stuck hE
  | succ fuel ih =>
    apply (readReg_calm hI addr).bind
    intro status
    apply Triple.ite
    · intro _
      apply (halGetTick_event hI (by decide)).bind
      intro now
      exact Triple.ite (fun _ => Triple.pure fun _ => id) fun _ => ih
    · intro _
      exact Triple.pure fun _ => id

theorem readPHY_calm (hE : ∀ v, I v → E v) (fuel : ℕ) (phyAddr : UInt8) :
    Triple R I (readPHY fuel phyAddr) (fun _ => I) E := by
  apply (setBank_calm hI _).seq
  apply (writeReg_calm hI _ (by decide) (by decide)).seq
  apply (writeReg_calm hI _ (by decide) (by decide)).seq
  apply (setBank_calm hI _).seq
  apply (halGetTick_event hI (by decide)).bind
  intro timeout
  apply (busyWait_calm hI hE 0x0A 0x01 100 timeout fuel).seq
  apply (setBank_calm hI _).seq
  apply (writeReg_calm hI _ (by decide) (by decide)).seq
  apply (readReg_calm hI 0x18).bind
  intro lo
  apply (readReg_calm hI 0x19).bind
  intro hi
  exact Triple.pure fun _ => id

theorem writePHY_calm (hE : ∀ v, I v → E v) (fuel : ℕ) (phyAddr : UInt8) (data : UInt16) :
    Triple R I (writePHY fuel phyAddr data) (fun _ => I) E := by
  apply (setBank_calm hI _).seq
  apply (writeReg_calm hI _ (by decide) (by decide)).seq
  apply (writeReg_calm hI _ (by decide) (by decide)).seq
  apply (writeReg_calm hI _ (by decide) (by decide)).seq
  apply (setBank_calm hI _).seq
  apply (halGetTick_event hI (by decide)).bind
  intro timeout
  exact busyWait_calm hI hE 0x0A 0x01 100 timeout fuel

theorem fetchPacket_calm (maxlen : UInt16) : Triple R I (fetchPacket maxlen) (fun _ => I) E := by
  apply (setBank_calm hI 0).seq
  refine Triple.bind (Q := fun _ => I) (Triple.read fun _ => id) ?_
  intro rxPtr
  apply (writeReg_calm hI _ (by decide) (by decide)).seq
  apply (writeReg_calm hI _ (by decide) (by decide)).seq
  apply (readBuffer_calm hI 6).bind
  intro header
  apply (readBuffer_calm hI _).bind
  intro buf
  exact Triple.pure fun _ => id

theorem freeSpace_calm (nextPtr : UInt16) : Triple R I (freeSpace nextPtr) (fun _ => I) E := by
  apply (setBank_calm hI 0).seq
  apply (writeReg_calm hI _ (by decide) (by decide)).seq
  apply (writeReg_calm hI _ (by decide) (by decide)).seq
  exact spiTransmit_event hI (Event.calm_of_cmd (by decide) (by decide) _ _)

theorem packetReceive_calm (maxlen : UInt16)
    (hloc : ∀ (t : Taken) v, I v → I { v with loc := t.advance v.loc }) :
    Triple R I (packetReceive maxlen) (fun _ => I) E := by
  apply (setBank_calm hI 1).seq
  apply (readReg_calm hI 0x19).bind
  intro pktCnt
  apply Triple.ite
  · intro _
    exact Triple.pure fun _ => id
  · intro _
    apply (fetchPacket_calm hI maxlen).bind
    intro t
    refine Triple.seq (S := I) (Triple.modify (hloc t)) ?_
    apply (freeSpace_calm hI t.nextPtr).seq
    exact Triple.pure fun _ => id

end ENC28J60

end Walk

section Exclusive

variable {R : Board → Board → Prop} {E : DrvAssn} {past : List (Board × Event)}

theorem Exclusive.push {log : List (Board × Event)} {b b' b'' : Board} {loc : Statics} {e : Event}
    (h : Exclusive past ⟨b', loc, log⟩) (he : b.chip.txrts = true → e.writesTx = false) :
    Exclusive past ⟨b'', loc, (b, e) :: log⟩ := by
  obtain ⟨new, hnew, hall⟩ := h
  refine ⟨(b, e) :: new, congrArg _ hnew, ?_⟩
  simp only [List.forall_mem_cons]
  exact ⟨he, hall⟩

theorem Exclusive.kept (R : Board → Board → Prop) (past : List (Board × Event)) :
    CalmKept R (Exclusive past) where
  move h _ := h
  act h he := h.push fun _ => he.1

theorem LeavesTxrts.kept (R : Board → Board → Prop) (past : List (Board × Event)) :
    CalmKept R (LeavesTxrts past) where
  move h _ := h
  act {b loc log e} h he := by
    obtain ⟨new, hnew, hall⟩ := h
    refine ⟨(b, e) :: new, congrArg _ hnew, ?_⟩
    simp only [List.forall_mem_cons]
    exact ⟨after_txrts he.2, hall⟩

def Idle (past : List (Board × Event)) (v : View Board Statics Event) : Prop :=
  Exclusive past v ∧ v.hw.chip.txrts = false

/-- While no transmission is running, the driver may write what it likes. -/
theorem spiTransmit_idle {mosi : List UInt8} (h : (Event.spi mosi 0).switchesTxrts = false) :
    Triple NoSelfStart (Idle past) (spiTransmit mosi) (fun _ => Idle past) E := by
  apply Triple.act
  intro v b hv hb
  have hrts : b.chip.txrts = false := hb hv.2
  refine ⟨hv.1.push fun hset => ?_, (after_txrts h).trans hrts⟩
  rw [hrts] at hset
  cases hset

namespace ENC28J60

theorem writeReg_idle {addr x : UInt8} (h : econ1Command (0x40 ||| (addr &&& 0x1F)) = false) :
    Triple NoSelfStart (Idle past) (writeReg addr x) (fun _ => Idle past) E :=
  spiTransmit_idle (by rw [Event.switchesTxrts, h, Bool.false_and])

/-- Step lemma: `sendPacket` fills the buffer between clearing and setting `TXRTS`. -/
theorem sendPacket_exclusive (past : List (Board × Event)) (fuel : ℕ) (buf : List UInt8)
    (len : UInt16) : Triple NoSelfStart (Exclusive past) (sendPacket fuel buf len)
      (fun _ => Exclusive past) (Exclusive past) := by
  have hI := Exclusive.kept NoSelfStart past
  have hclear : Triple NoSelfStart (Exclusive past) (writeOp 0xA0 0x1F 0x08)
      (fun _ => Idle past) (Exclusive past) := by
    unfold writeOp spiTransmit
    apply Triple.act
    intro v b hv _
    refine ⟨hv.push fun _ => by rfl, ?_⟩
    rw [Chip.transact_bfc]
    change (b.chip.bfc ECON1 0x08).txrts = false
    rw [Chip.bfc_econ1, Chip.txrts, Chip.setReg_self, UInt8.and_assoc]
    simp
  apply hclear.seq
  apply Triple.seq (S := Idle past)
    ((spiTransmit_idle (by decide)).seq (spiTransmit_idle (by decide)))
  apply (writeReg_idle (by decide)).seq
  apply (writeReg_idle (by decide)).seq
  apply (writeReg_idle (by decide)).seq
  apply (writeReg_idle (by decide)).seq
  apply Triple.seq (S := Idle past) (spiTransmit_idle (by rfl))
  apply (writeReg_idle (by decide)).seq
  apply (writeReg_idle (by decide)).seq
  have hstart : Triple NoSelfStart (Idle past) (writeOp 0x80 0x1F 0x08)
      (fun _ => Exclusive past) (Exclusive past) :=
    Triple.act fun v b hv _ => hv.1.push fun _ => by rfl
  apply hstart.seq
  apply (halGetTick_event hI (by decide)).bind
  intro t
  apply (setBank_calm hI 0).seq
  exact busyWait_calm hI (fun _ => id) 0x1F 0x08 200 t fuel

end ENC28J60

def Call.Sends : Call → Prop
  | .sendPacket .. => True
  | _ => False

theorem Call.run_calm {I : DrvAssn} (hI : CalmKept R I)
    (hloc : ∀ (t : Taken) v, I v → I { v with loc := t.advance v.loc }) {call : Call}
    (h : ¬ call.Sends) : Triple R I call.run (fun _ => I) I := by
  cases call with
  | packetReceive maxlen =>
    exact (ENC28J60.packetReceive_calm hI maxlen hloc).bind fun _ => Triple.pure fun _ => id
  | sendPacket fuel buf len => exact (h trivial).elim
  | readPHY fuel phyAddr =>
    exact (ENC28J60.readPHY_calm hI (fun _ => id) fuel phyAddr).bind
      fun _ => Triple.pure fun _ => id
  | writePHY fuel phyAddr data => exact ENC28J60.writePHY_calm hI (fun _ => id) fuel phyAddr data

theorem Call.run_exclusive (past : List (Board × Event)) (call : Call) :
    Triple NoSelfStart (Exclusive past) call.run (fun _ => Exclusive past) (Exclusive past) := by
  by_cases hsend : call.Sends
  · cases call with
    | sendPacket fuel buf len => exact ENC28J60.sendPacket_exclusive past fuel buf len
    | _ => exact hsend.elim
  · exact Call.run_calm (Exclusive.kept _ past) (fun _ _ => id) hsend

/-- From any state on, and so after `init`: whatever the calls and whenever the device completes
a transmission, nothing is written to the transmit buffer while `TXRTS` is set, and only
`sendPacket` switches `TXRTS`. -/
theorem txBuffer_exclusive {env : ℕ → Board → Board} (henv : ∀ n b, NoSelfStart b (env n b))
    (calls : List Call) (w : World Board Statics Event) :
    Exclusive w.log (Prog.each Call.run calls env w).2.toView ∧
      ∀ call : Call, ¬ call.Sends → ∀ w : World Board Statics Event,
        LeavesTxrts w.log (call.run env w).2.toView := by
  constructor
  · have hrun := Triple.each calls fun call _ => Call.run_exclusive w.log call
    exact hrun.always henv ⟨[], rfl, by simp⟩
  · intro call hsend w'
    have hrun := Call.run_calm (LeavesTxrts.kept NoSelfStart w'.log) (fun _ _ => id) hsend
    exact hrun.always henv ⟨[], rfl, by simp⟩

theorem prompt_noSelfStart (n : ℕ) (b : Board) : NoSelfStart b (prompt n b) :=
  (prompt_txDevice n b).txrts

theorem txBuffer_exclusive_bench :
    Exclusive benchWorld.log (Prog.each Call.run
        [.sendPacket 1 [0xFF, 0xFF] 2, .readPHY 1 0x01, .sendPacket 1 [0xFF] 1]
        prompt benchWorld).2.toView ∧
      ∀ call : Call, ¬ call.Sends → ∀ w : World Board Statics Event,
        LeavesTxrts w.log (call.run prompt w).2.toView :=
  txBuffer_exclusive prompt_noSelfStart _ _

end Exclusive

end EthernetPing
