import EthernetPing.Driver.Config
import EthernetPing.Net.Pbuf

/-!
# Sending a frame

`enc28j60_low_level_output` copies a pbuf chain into one buffer of 600 bytes and hands
it to `sendPacket`, which fills the transmit memory and then sets `TXRTS`. The log of
the call tells what the chip was like at that moment.
-/

namespace EthernetPing

open Reg

/-- `uint8_t tx_buf[600]`, by index. -/
abbrev TxBuf := ℕ → UInt8

/-- `memcpy(&tx_buf[len], payload, n)`; `none` if it would write outside `tx_buf`. -/
def TxBuf.memcpy (txBuf : TxBuf) (len : ℕ) (payload : ℕ → UInt8) (n : ℕ) : Option TxBuf :=
  if len + n ≤ 600 then
    some fun i => if len ≤ i ∧ i < len + n then payload (i - len) else txBuf i
  else none

/-- The `for` loop of `enc28j60_low_level_output`. -/
def gather : List Pbuf → TxBuf → UInt16 → Option (TxBuf × UInt16)
  | [], txBuf, len => some (txBuf, len)
  | q :: qs, txBuf, len =>
    (txBuf.memcpy len.toNat q.payload q.len.toNat).bind fun txBuf => gather qs txBuf (len + q.len)

/-- `enc28j60_low_level_output` for a chain; `stack` is the initial content of `tx_buf`, and
`none` means that `tx_buf` would overflow. The result is always `ERR_OK`. -/
def lowLevelOutput (fuel : ℕ) (stack : TxBuf) (p : List Pbuf) : Option (Drv Unit) :=
  (gather p stack 0).map fun out => ENC28J60.sendPacket fuel ((List.range 600).map out.1) out.2

section Gather

/-- A copy behind the first `len` bytes appends to them. -/
theorem map_range_memcpy (txBuf : TxBuf) (len n : ℕ) (payload : ℕ → UInt8) :
    (List.range (len + n)).map
        (fun i => if len ≤ i ∧ i < len + n then payload (i - len) else txBuf i) =
      (List.range len).map txBuf ++ (List.range n).map payload := by
  rw [List.range_add, List.map_append, List.map_map]
  congr 1 <;> apply List.map_congr_left <;> intro i hi <;> rw [List.mem_range] at hi
  · rw [if_neg (by omega)]
  · simp [hi]

/-- The loop keeps what is gathered so far and appends the rest of the chain. -/
theorem gather_spec (p : List Pbuf) (txBuf : TxBuf) (len : UInt16)
    (hfit : len.toNat + (chainBytes p).length ≤ 600) :
    ∃ out : TxBuf × UInt16, gather p txBuf len = some out ∧
      out.2.toNat = len.toNat + (chainBytes p).length ∧
      (List.range out.2.toNat).map out.1 = (List.range len.toNat).map txBuf ++ chainBytes p := by
  induction p generalizing txBuf len with
  | nil => exact ⟨(txBuf, len), rfl, rfl, by simp [chainBytes]⟩
  | cons q qs ih =>
    rw [length_chainBytes_cons] at hfit
    have hsum : (len + q.len).toNat = len.toNat + q.len.toNat := by
      rw [UInt16.toNat_add, Nat.mod_eq_of_lt (by omega)]
    obtain ⟨out, hout, hlen, hbytes⟩ := ih (fun i =>
      if len.toNat ≤ i ∧ i < len.toNat + q.len.toNat then q.payload (i - len.toNat) else txBuf i)
      (len + q.len) (by omega)
    refine ⟨out, ?_, by rw [hlen, hsum, length_chainBytes_cons, Nat.add_assoc], ?_⟩
    · rw [gather, TxBuf.memcpy, if_pos (by omega)]
      exact hout
    · rw [hbytes, hsum, map_range_memcpy, List.append_assoc]
      rfl

end Gather

section Transmit

/-- What the device may do during a transmission: with `TXRTS` clear it leaves all memory but
the receive ring alone, and it never sets `TXRTS`. -/
structure TxDevice (b b' : Board) : Prop where
  host : HostRegs b.chip b'.chip
  txrts : b.chip.txrts = false → b'.chip.txrts = false
  mem : b.chip.txrts = false → ∀ x, x ∉ rxRing → b'.chip.mem x = b.chip.mem x

/-- The chip after an action of the driver. -/
def after (x : Board × Event) : Chip :=
  match x.2 with
  | .spi mosi n => (x.1.chip.transact mosi n).2
  | _ => x.1.chip

def Starts (x : Board × Event) : Prop := x.1.chip.txrts = false ∧ (after x).txrts = true

def SparesRing (x : Board × Event) : Prop := ∀ y ∈ rxRing, (after x).mem y = x.1.chip.mem y

/-- The transmit memory from `TXSTART` on holds these bytes. -/
def Chip.TxHolds (c : Chip) (bs : List UInt8) : Prop :=
  (List.range bs.length).map (fun i => c.mem (TXSTART.toNat + i)) = bs

/-- Control byte and frame are in place, and the transmit pointers enclose them. -/
structure ReadyToSend (data : List UInt8) (c : Chip) : Prop where
  mem : c.TxHolds (0x00 :: data)
  etxst : c.etxst = TXSTART.toNat
  etxnd : c.etxnd = TXSTART.toNat + data.length

/-- Since the log `past` no action set `TXRTS` or changed the receive ring. -/
def Clean (past : List (Board × Event)) (v : View Board Statics Event) : Prop :=
  ∃ new, v.log = new ++ past ∧ ∀ x ∈ new, ¬ Starts x ∧ SparesRing x

/-- Since the log `past` exactly one action set `TXRTS`, with `data` ready to be sent, and none
changed the receive ring. -/
def Sent (past : List (Board × Event)) (data : List UInt8) (v : View Board Statics Event) : Prop :=
  ∃ later x earlier, v.log = later ++ x :: earlier ++ past ∧ Starts x ∧ ReadyToSend data x.1.chip ∧
    SparesRing x ∧ ∀ y ∈ later ++ earlier, ¬ Starts y ∧ SparesRing y

theorem not_mem_rxRing (i : ℕ) : TXSTART.toNat + i ∉ rxRing := by
  rintro ⟨_, hi⟩
  have htop : TXSTART.toNat = RXEND.toNat + 1 := rfl
  exact absurd hi (by change ¬ _ ≤ RXEND.toNat; omega)

theorem Chip.Touch.txrts_eq {c c' : Chip} {a : Access} (h : c.Touch a c') (ha : a ≠ .txrts) :
    c'.txrts = c.txrts := by
  cases h with
  | bank x h => rw [Chip.txrts, Chip.txrts, Chip.setReg_self, and_byte_of_mask 0x08 h rfl]
  | txrts x h => exact (ha rfl).elim
  | write r v hr =>
    have hplain := Access.plain_of_written hr
    rw [Chip.txrts, Chip.txrts, Chip.wcr_regs_of_ne c hplain.1.symm hplain.2]
  | pktDec => rw [Chip.txrts, Chip.txrts, c.pktDec_regs (by decide)]
  | _ => rfl

/-- Only `WBM` writes the memory. -/
theorem Chip.Touch.mem_of_ne {c c' : Chip} {a : Access} (h : c.Touch a c') (ha : a ≠ .txMem) :
    c'.mem = c.mem := by
  cases h with
  | write r v hr => exact Chip.wcr_mem ..
  | txMem bs hp hlen => exact (ha rfl).elim
  | pktDec => exact Chip.pktDec_mem _
  | _ => rfl

theorem Chip.TxHolds.congr {c c' : Chip} {bs : List UInt8} (h : c.TxHolds bs)
    (hmem : ∀ x, x ∉ rxRing → c'.mem x = c.mem x) : c'.TxHolds bs :=
  (List.map_congr_left fun i _ => hmem _ (not_mem_rxRing i)).trans h

theorem Chip.txHolds_wbm {c : Chip} {bs : List UInt8} (hp : c.ewrpt = TXSTART.toNat)
    (hlen : bs.length ≤ 0x1400) : (c.wbm bs).TxHolds bs := by
  have htx : TXSTART.toNat = 0x0C00 := rfl
  change (List.range bs.length).map
    (fun i => (Chip.wbmFrom bs c.mem c.ewrpt).1 (TXSTART.toNat + i)) = bs
  apply List.ext_getElem
  · simp
  · intro i h₁ h₂
    simp only [List.getElem_map, List.getElem_range]
    rw [Chip.wbmFrom_mem _ _ _ (by omega), hp, if_pos (by omega), Nat.add_sub_cancel_left]
    simp [h₂]

theorem TxDevice.hostRegs (b b' : Board) (h : TxDevice b b') : HostRegs b.chip b'.chip := h.host

theorem after_spi (b : Board) (mosi : List UInt8) (n : ℕ) :
    after (b, .spi mosi n) = (b.chip.transact mosi n).2 := rfl

theorem after_of_look {b : Board} {e : Event}
    (he : ∀ mosi n, e = .spi mosi n → (b.chip.transact mosi n).2 = b.chip) :
    after (b, e) = b.chip := by
  cases e with
  | spi mosi n => exact he mosi n rfl
  | _ => rfl

theorem Clean.push {past log : List (Board × Event)} {b b' b'' : Board} {loc : Statics} {e : Event}
    (h : Clean past ⟨b', loc, log⟩) (hrts : ¬ Starts (b, e)) (hring : SparesRing (b, e)) :
    Clean past ⟨b'', loc, (b, e) :: log⟩ := by
  obtain ⟨new, hnew, hall⟩ := h
  refine ⟨(b, e) :: new, congrArg _ hnew, ?_⟩
  simp only [List.forall_mem_cons]
  exact ⟨⟨hrts, hring⟩, hall⟩

theorem Sent.push {past log : List (Board × Event)} {data : List UInt8} {b b' b'' : Board}
    {loc : Statics} {e : Event} (h : Sent past data ⟨b', loc, log⟩) (hrts : ¬ Starts (b, e))
    (hring : SparesRing (b, e)) : Sent past data ⟨b'', loc, (b, e) :: log⟩ := by
  obtain ⟨later, x, earlier, hlog, hx, hready, hspare, hall⟩ := h
  refine ⟨(b, e) :: later, x, earlier, congrArg _ hlog, hx, hready, hspare, ?_⟩
  simp only [List.cons_append, List.forall_mem_cons]
  exact ⟨⟨hrts, hring⟩, hall⟩

/-- Before the start: `TXRTS` is clear, and was not touched. -/
def Filling (past : List (Board × Event)) (v : View Board Statics Event) : Prop :=
  Clean past v ∧ v.hw.chip.txrts = false

theorem Filling.kept (past : List (Board × Event)) :
    Kept TxDevice [.bank, .txPtr, .txMem] (Filling past) where
  move h hb := ⟨h.1, hb.txrts h.2⟩
  touch {b loc log a mosi n} h ha ht := by
    have hrts : (after (b, .spi mosi n)).txrts = b.chip.txrts :=
      ht.txrts_eq (by rintro rfl; exact absurd ha (by decide))
    exact ⟨h.1.push (fun hs => by simp [Starts, hrts] at hs) fun y hy => ht.mem_eq hy,
      hrts.trans h.2⟩
  look {b loc log e} h he := by
    refine ⟨h.1.push (fun hs => ?_) fun y hy => ?_, h.2⟩
    · simp [Starts, after_of_look he] at hs
    · rw [after_of_look he]

/-- The frame stays in place until it is started. -/
theorem Filling.kept_txHolds (past : List (Board × Event)) (bs : List UInt8) :
    Kept TxDevice [.bank, .txPtr] fun v => Filling past v ∧ v.hw.chip.TxHolds bs where
  move h hb := ⟨(Filling.kept past).move h.1 hb, h.2.congr (hb.mem h.1.2)⟩
  touch {b loc log a mosi n} h ha ht := by
    have hmem := ht.mem_of_ne (by rintro rfl; exact absurd ha (by decide))
    exact ⟨(Filling.kept past).touch h.1 (by revert ha; cases a <;> decide) ht,
      h.2.congr fun x _ => congrFun hmem x⟩
  look h he := ⟨(Filling.kept past).look h.1 he, h.2⟩

theorem Sent.kept (past : List (Board × Event)) (data : List UInt8) :
    Kept TxDevice [.bank] (Sent past data) where
  move h _ := h
  touch {b loc log a mosi n} h ha ht := by
    have hrts : (after (b, .spi mosi n)).txrts = b.chip.txrts :=
      ht.txrts_eq (by rintro rfl; exact absurd ha (by decide))
    exact h.push (fun hs => by simp [Starts, hrts] at hs) fun y hy => ht.mem_eq hy
  look {b loc log e} h he := by
    refine h.push (fun hs => ?_) fun y hy => ?_
    · simp [Starts, after_of_look he] at hs
    · rw [after_of_look he]

theorem ptr13_halves {p : UInt16} (h : p.toNat < 0x2000) :
    ptr13 p.toUInt8 (p >>> 8).toUInt8 = p.toNat := by
  rw [ptr13, ofLe16_split, Nat.mod_eq_of_lt h]

namespace ENC28J60

/-- The first access aborts a transmission in progress. -/
theorem clearTxrts_spec (past : List (Board × Event)) {E : DrvAssn} :
    Triple TxDevice (fun v => v.log = past) (writeOp 0xA0 0x1F 0x08)
      (fun _ => Filling past) E := by
  unfold writeOp spiTransmit
  apply Triple.act
  intro v b hv _
  rw [Chip.transact_bfc]
  have hclear : (b.chip.bfc ECON1 0x08).txrts = false := by
    rw [Chip.bfc_econ1, Chip.txrts, Chip.setReg_self, UInt8.and_assoc]
    simp
  refine ⟨⟨[_], congrArg _ hv, ?_⟩, hclear⟩
  rw [List.forall_mem_singleton]
  constructor
  · rintro ⟨_, hset⟩
    rw [after_spi, Chip.transact_bfc] at hset
    exact absurd (hclear.symm.trans hset) (by decide)
  · intro y _
    rw [after_spi, Chip.transact_bfc]
    rfl

def txFrom : Known :=
  (Known.nothing.set ETXSTL TXSTART.toUInt8).set ETXSTH (TXSTART >>> 8).toUInt8

theorem txFrom_within : txFrom.Within [ETXSTL, ETXSTH] :=
  ((Known.Within.nothing _).set (by decide) _).set (by decide) _

def txWriting : Known := (txFrom.set EWRPTL TXSTART.toUInt8).set EWRPTH (TXSTART >>> 8).toUInt8

def txPointers (len : UInt16) : Known :=
  (txFrom.set ETXNDL (TXSTART + len).toUInt8).set ETXNDH ((TXSTART + len) >>> 8).toUInt8

/-- Control byte and frame are written behind `TXSTART`. -/
theorem fill_spec (past : List (Board × Event)) {data : List UInt8} {E : DrvAssn}
    (hfit : data.length ≤ 5119) :
    Triple TxDevice (fun v => Filling past v ∧ v.hw.chip.At 0 txWriting)
      (spiTransmit ([0x7A, 0x00] ++ data))
      (fun _ v => (Filling past v ∧ v.hw.chip.TxHolds (0x00 :: data)) ∧ v.hw.chip.At 0 txFrom)
      E := by
  have hroom : (0x00 :: data).length ≤ 0x1400 := by
    rw [List.length_cons]
    omega
  refine (spiTransmit_kept (Q := fun c => c.TxHolds (0x00 :: data) ∧ c.At 0 txFrom)
    (Filling.kept past) (a := .txMem) (by decide) (Chip.At.stable TxDevice.hostRegs) ?_).post
    fun _ _ h => ⟨⟨h.1, h.2.1⟩, h.2.2⟩
  intro c hc
  have hewrpt : c.ewrpt = TXSTART.toNat := by
    rw [Chip.ewrpt, hc.holds EWRPTL _ rfl (by decide), hc.holds EWRPTH _ rfl (by decide)]
    decide
  have ht := Chip.Touch.txMem _ hewrpt hroom
  refine ⟨ht, Chip.txHolds_wbm hewrpt hroom, hc.bank, ?_⟩
  have hother : ∀ r x, txFrom r = some x → r ≠ EWRPTL ∧ r ≠ EWRPTH := fun r x hx =>
    (by decide : ∀ r ∈ [ETXSTL, ETXSTH], r ≠ EWRPTL ∧ r ≠ EWRPTH) r (txFrom_within r x hx)
  refine Chip.Holds.congr (hc.holds.of_le fun r x hx => ?_) fun r x hx _ => ht.regs_eq ?_
  · rw [txWriting, Known.set, Function.update_of_ne (hother r x hx).2, Known.set,
      Function.update_of_ne (hother r x hx).1]
    exact hx
  · simpa [Access.regs] using hother r x hx

/-- The last access before the wait starts the transmission. -/
theorem setTxrts_spec {past : List (Board × Event)} {data : List UInt8} {len : UInt16}
    {E : DrvAssn} (hlen : len.toNat = data.length) (hfit : data.length ≤ 5119) :
    Triple TxDevice
      (fun v => (Filling past v ∧ v.hw.chip.TxHolds (0x00 :: data)) ∧
        v.hw.chip.At 0 (txPointers len))
      (writeOp 0x80 0x1F 0x08) (fun _ => Sent past data) E := by
  unfold writeOp spiTransmit
  apply Triple.act
  rintro v b ⟨hfill, hat⟩ hb
  obtain ⟨⟨⟨new, hnew, hall⟩, hrts⟩, hmem⟩ := (Filling.kept_txHolds past _).move hfill hb
  have hregs := (Chip.At.stable TxDevice.hostRegs v.hw b hb hat).holds
  have hend : (TXSTART + len).toNat = TXSTART.toNat + data.length := by
    rw [UInt16.toNat_add, hlen, Nat.mod_eq_of_lt (by have : TXSTART.toNat = 0x0C00 := rfl; omega)]
  refine ⟨[], _, new, congrArg _ hnew, ⟨hrts, ?_⟩, ⟨hmem, ?_, ?_⟩, ?_, by simpa using hall⟩
  · rw [after_spi, Chip.transact_bfs]
    change (b.chip.bfs ECON1 0x08).txrts = true
    rw [Chip.bfs_econ1, Chip.txrts, Chip.setReg_self]
    exact (forall_byte_of_fin (by decide +kernel) :
      ∀ x : UInt8, ((x ||| 0x08) &&& 0x08 != 0) = true) _
  · rw [Chip.etxst, hregs _ _ rfl (by decide), hregs _ _ rfl (by decide)]
    decide
  · rw [Chip.etxnd, hregs _ _ rfl (by decide), hregs _ _ rfl (by decide), ptr13_halves, hend]
    have : TXSTART.toNat = 0x0C00 := rfl
    omega
  · intro y _
    rw [after_spi, Chip.transact_bfs]
    rfl

/-- `sendPacket` sends `buf`, and nothing else. -/
theorem sendPacket_spec (past : List (Board × Event)) (fuel : ℕ) (buf : List UInt8) (len : UInt16)
    (hbuf : len.toNat ≤ buf.length) (hlen : len.toNat ≤ 5119) :
    Triple TxDevice (fun v => v.log = past) (sendPacket fuel buf len)
      (fun _ => Sent past (buf.take len.toNat)) (Sent past (buf.take len.toNat)) := by
  have hdata : len.toNat = (buf.take len.toNat).length := by rw [List.length_take]; omega
  have hI := Filling.kept past
  have hH := Filling.kept_txHolds past (0x00 :: buf.take len.toNat)
  have hS := Sent.kept past (buf.take len.toNat)
  have hR := TxDevice.hostRegs
  apply (clearTxrts_spec past).seq
  apply (setBank_kept hI hR (by decide) (by decide)).seq
  apply (writeReg_at hI hR (a := .txPtr) (by decide) (by decide)).seq
  apply (writeReg_at hI hR (a := .txPtr) (by decide) (by decide)).seq
  apply (writeReg_at hI hR (a := .txPtr) (by decide) (by decide)).seq
  apply (writeReg_at hI hR (a := .txPtr) (by decide) (by decide)).seq
  apply (fill_spec past (hdata ▸ hlen)).seq
  apply (writeReg_at hH hR (a := .txPtr) (by decide) (by decide)).seq
  apply (writeReg_at hH hR (a := .txPtr) (by decide) (by decide)).seq
  apply (setTxrts_spec hdata (hdata ▸ hlen)).seq
  have htick : Triple TxDevice (Sent past (buf.take len.toNat)) halGetTick
      (fun _ => Sent past (buf.take len.toNat)) (Sent past (buf.take len.toNat)) :=
    ((halGetTick_kept (P := fun _ => True) hS fun _ _ _ => id).pre fun _ h => ⟨h, trivial⟩).post
      fun _ _ h => h.1
  apply htick.bind
  intro t
  apply (setBank_kept hS hR (by decide) (by decide)).seq
  exact (busyWait_at hS hR (fun _ => id) 0x1F 0x08 200 t fuel).post fun _ _ h => h.1

end ENC28J60

/-- Whatever the chain and the device: the buffer does not overflow, the frame is in place
when its transmission is started, which happens once, and the receive ring is not written. -/
theorem lowLevelOutput_sent {env : ℕ → Board → Board} (henv : ∀ n b, TxDevice b (env n b))
    (fuel : ℕ) (stack : TxBuf) (p : List Pbuf) (hfit : (chainBytes p).length ≤ 600)
    (w : World Board Statics Event) :
    ∃ prog, lowLevelOutput fuel stack p = some prog ∧
      Sent w.log (chainBytes p) (prog env w).2.toView := by
  obtain ⟨out, hout, hlen, hbytes⟩ := gather_spec p stack 0 (by simpa using hfit)
  rw [show (0 : UInt16).toNat = 0 from rfl, Nat.zero_add] at hlen
  have htake : ((List.range 600).map out.1).take out.2.toNat = chainBytes p := by
    rw [← List.map_take, List.take_range, Nat.min_eq_left (by omega)]
    simpa using hbytes
  refine ⟨_, congrArg (Option.map _) hout, ?_⟩
  have hsend := ENC28J60.sendPacket_spec w.log fuel ((List.range 600).map out.1) out.2
    (by simp; omega) (by omega)
  rw [htake] at hsend
  exact hsend.always henv rfl

theorem prompt_txDevice (n : ℕ) (b : Board) : TxDevice b (prompt n b) := by
  refine ⟨prompt_host n b, fun _ => ?_, fun _ _ _ => rfl⟩
  change (b.chip.setReg ECON1 (b.chip.regs ECON1 &&& ~~~0x08)).txrts = false
  rw [Chip.txrts, Chip.setReg_self, UInt8.and_assoc]
  simp

/-- Two buffers with an empty one between them. -/
def benchChain : List Pbuf :=
  [⟨fun i => UInt8.ofNat i, 5, 2⟩, ⟨fun _ => 0xEE, 3, 0⟩, ⟨fun _ => 0xFF, 3, 3⟩]

theorem lowLevelOutput_sent_bench :
    ∃ prog, lowLevelOutput 1 (fun _ => 0xAA) benchChain = some prog ∧
      Sent benchWorld.log [0x00, 0x01, 0xFF, 0xFF, 0xFF] (prog prompt benchWorld).2.toView := by
  have hsent := lowLevelOutput_sent prompt_txDevice 1 (fun _ => 0xAA) benchChain (by decide)
    benchWorld
  exact hsent

end Transmit

end EthernetPing
