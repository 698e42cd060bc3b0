import EthernetPing.Lib.Ring
import EthernetPing.Lib.Bytes
import Mathlib.Logic.Function.Basic
import Mathlib.Tactic

/-!
# The ENC28J60 behind its SPI port

Four banks of control registers selected by `ECON1.BSEL`, an 8 KB packet memory
with a circular receive area, the MII access to the PHY, and the seven SPI
instructions. This is the device the driver talks to, with the datasheet behaviour
that the driver's comments describe. What the device does of its own accord is not
fixed here: each result names the moves it relies on. The history `stored` and the
reset values `por` are not device state that the host can see.
-/

namespace EthernetPing

/-- A control register: bank and 5-bit address. The registers common to all banks
are listed under bank 0. -/
structure Reg where
  bank : UInt8
  addr : UInt8
  deriving DecidableEq, Repr

namespace Reg

/-- The register that a 5-bit address names while `bank` is selected. -/
def select (bank addr : UInt8) : Reg := if 0x1B ≤ addr then ⟨0, addr⟩ else ⟨bank, addr⟩

abbrev ERDPTL : Reg := ⟨0, 0x00⟩
abbrev ERDPTH : Reg := ⟨0, 0x01⟩
abbrev EWRPTL : Reg := ⟨0, 0x02⟩
abbrev EWRPTH : Reg := ⟨0, 0x03⟩
abbrev ETXSTL : Reg := ⟨0, 0x04⟩
abbrev ETXSTH : Reg := ⟨0, 0x05⟩
abbrev ETXNDL : Reg := ⟨0, 0x06⟩
abbrev ETXNDH : Reg := ⟨0, 0x07⟩
abbrev ERXSTL : Reg := ⟨0, 0x08⟩
abbrev ERXSTH : Reg := ⟨0, 0x09⟩
abbrev ERXNDL : Reg := ⟨0, 0x0A⟩
abbrev ERXNDH : Reg := ⟨0, 0x0B⟩
abbrev ERXRDPTL : Reg := ⟨0, 0x0C⟩
abbrev ERXRDPTH : Reg := ⟨0, 0x0D⟩
abbrev EIR : Reg := ⟨0, 0x1C⟩
abbrev ESTAT : Reg := ⟨0, 0x1D⟩
abbrev ECON2 : Reg := ⟨0, 0x1E⟩
abbrev ECON1 : Reg := ⟨0, 0x1F⟩
abbrev ERXFCON : Reg := ⟨1, 0x18⟩
abbrev EPKTCNT : Reg := ⟨1, 0x19⟩
abbrev MACON1 : Reg := ⟨2, 0x00⟩
abbrev MACON3 : Reg := ⟨2, 0x02⟩
abbrev MACON4 : Reg := ⟨2, 0x03⟩
abbrev MAMXFLL : Reg := ⟨2, 0x0A⟩
abbrev MAMXFLH : Reg := ⟨2, 0x0B⟩
abbrev MICMD : Reg := ⟨2, 0x12⟩
abbrev MIREGADR : Reg := ⟨2, 0x14⟩
abbrev MIWRL : Reg := ⟨2, 0x16⟩
abbrev MIWRH : Reg := ⟨2, 0x17⟩
abbrev MIRDL : Reg := ⟨2, 0x18⟩
abbrev MIRDH : Reg := ⟨2, 0x19⟩
abbrev MISTAT : Reg := ⟨3, 0x0A⟩
abbrev MAADR1 : Reg := ⟨3, 0x04⟩
abbrev MAADR2 : Reg := ⟨3, 0x05⟩
abbrev MAADR3 : Reg := ⟨3, 0x02⟩
abbrev MAADR4 : Reg := ⟨3, 0x03⟩
abbrev MAADR5 : Reg := ⟨3, 0x00⟩
abbrev MAADR6 : Reg := ⟨3, 0x01⟩

/-- MAC and MII registers: reads clock out a dummy byte first, bit-field instructions
do not apply. -/
def isMacMii (r : Reg) : Bool :=
  (r.bank == 2 && r.addr < 0x1B) || (r.bank == 3 && (r.addr ≤ 0x05 || r.addr == 0x0A))

end Reg

open Reg

/-- A frame as it comes off the wire: its bytes with the FCS, the two 16-bit words
that the device puts in the receive status vector, and the byte it pads with. -/
structure RxFrame where
  data : List UInt8
  count : UInt16
  status : UInt16
  pad : UInt8

/-- A frame stored in the receive ring, with its address and that of its successor. -/
structure Packet extends RxFrame where
  start : ℕ
  next : ℕ

/-- Header, frame with FCS, and padding to even length. -/
def RxFrame.size (f : RxFrame) : ℕ := 6 + f.data.length + f.data.length % 2

/-- Next-packet pointer, receive status vector, frame with FCS, padding. -/
def Packet.bytes (p : Packet) : List UInt8 :=
  le16 (UInt16.ofNat p.next) ++ le16 p.count ++ le16 p.status ++ p.data ++
    List.replicate (p.data.length % 2) p.pad

@[simp] theorem Packet.length_bytes (p : Packet) : p.bytes.length = p.size := by
  simp [Packet.bytes, RxFrame.size]
  omega

inductive MiiOp where
  | read (addr : UInt8)
  | write (addr : UInt8) (data : UInt16)
  deriving DecidableEq

/-- Reset values of the registers. `ECON1` is cleared: bank 0, receiver and transmitter idle. -/
structure PowerOn where
  regs : Reg → UInt8
  econ1 : regs ECON1 = 0

/-- Device state. `rdptLatch` holds the low byte written to `ERXRDPTL` until the high byte
follows; `stored` lists every packet stored since the last reset. -/
structure Chip where
  regs : Reg → UInt8
  mem : ℕ → UInt8
  erxrdpt : ℕ
  rdptLatch : UInt8
  wrPtr : ℕ
  pktCnt : UInt8
  estat : UInt8
  mii : Option MiiOp
  mird : UInt16
  phy : UInt8 → UInt16
  so : UInt8
  stored : List Packet
  por : PowerOn

/-- A 13-bit pointer from its two register bytes. -/
def ptr13 (lo hi : UInt8) : ℕ := (ofLe16 lo hi).toNat % 0x2000

namespace Chip

variable (c : Chip)

def bank : UInt8 := c.regs ECON1 &&& 0x03

def txrts : Bool := c.regs ECON1 &&& 0x08 != 0

def rxen : Bool := c.regs ECON1 &&& 0x04 != 0

def erdpt : ℕ := ptr13 (c.regs ERDPTL) (c.regs ERDPTH)
def ewrpt : ℕ := ptr13 (c.regs EWRPTL) (c.regs EWRPTH)
def etxst : ℕ := ptr13 (c.regs ETXSTL) (c.regs ETXSTH)
def etxnd : ℕ := ptr13 (c.regs ETXNDL) (c.regs ETXNDH)
def erxst : ℕ := ptr13 (c.regs ERXSTL) (c.regs ERXSTH)
def erxnd : ℕ := ptr13 (c.regs ERXNDL) (c.regs ERXNDH)

/-- The receive ring `[ERXST, ERXND]`. -/
def ring : Ring := ⟨c.erxst, max c.erxst c.erxnd, le_max_left _ _⟩

/-- What a register reads as; the status registers are views of the device state. -/
def value (r : Reg) : UInt8 :=
  if r = EPKTCNT then c.pktCnt
  else if r = ESTAT then c.estat
  else if r = ERXRDPTL then (UInt16.ofNat c.erxrdpt).toUInt8
  else if r = ERXRDPTH then (UInt16.ofNat c.erxrdpt >>> 8).toUInt8
  else if r = MISTAT then if c.mii.isSome then 0x01 else 0x00
  else if r = MIRDL then c.mird.toUInt8
  else if r = MIRDH then (c.mird >>> 8).toUInt8
  else c.regs r

def setReg (r : Reg) (v : UInt8) : Chip := { c with regs := Function.update c.regs r v }

/-- `ECON2.PKTDEC` takes one packet off the count and clears itself. -/
def pktDec : Chip :=
  if c.regs ECON2 &&& 0x40 ≠ 0 then
    { c.setReg ECON2 (c.regs ECON2 &&& ~~~0x40) with
      pktCnt := if c.pktCnt = 0 then 0 else c.pktCnt - 1 }
  else c

/-- Write a control register. `ERXST` moves the receive write pointer, `ERXRDPT` changes when
its high byte is written, `MIWRH` starts a PHY write and `MICMD.MIIRD` a PHY read. -/
def wcr (r : Reg) (v : UInt8) : Chip :=
  if r = ERXSTL ∨ r = ERXSTH then { c.setReg r v with wrPtr := (c.setReg r v).erxst }
  else if r = ERXRDPTL then { c with rdptLatch := v }
  else if r = ERXRDPTH then { c with erxrdpt := ptr13 c.rdptLatch v }
  else if r = MIWRH then
    { c.setReg r v with mii := some (.write (c.regs MIREGADR) (ofLe16 (c.regs MIWRL) v)) }
  else if r = MICMD then
    { c.setReg r v with mii := if v &&& 0x01 ≠ 0 then some (.read (c.regs MIREGADR)) else c.mii }
  else if r = ECON2 then (c.setReg r v).pktDec
  else c.setReg r v

/-- Bit field set. -/
def bfs (r : Reg) (m : UInt8) : Chip := if r.isMacMii then c else c.wcr r (c.value r ||| m)

/-- Bit field clear. -/
def bfc (r : Reg) (m : UInt8) : Chip := if r.isMacMii then c else c.wcr r (c.value r &&& ~~~m)

/-- The bytes clocked out by a register read of `n` bytes. -/
def rcr (r : Reg) (n : ℕ) : List UInt8 :=
  if r.isMacMii then (c.so :: List.replicate n (c.value r)).take n else List.replicate n (c.value r)

/-- The read pointer after one byte: it wraps from `ERXND` to `ERXST`. -/
def rdNext (a : ℕ) : ℕ := if a = c.erxnd then c.erxst else (a + 1) % 0x2000

/-- Bytes found by `n` reads from `a` on, and the pointer after them. -/
def rbmFrom : ℕ → ℕ → List UInt8 × ℕ
  | 0, a => ([], a)
  | n + 1, a =>
    let rest := rbmFrom n (c.rdNext a)
    (c.mem a :: rest.1, rest.2)

def setErdpt (a : ℕ) : Chip :=
  (c.setReg ERDPTL (UInt16.ofNat a).toUInt8).setReg ERDPTH (UInt16.ofNat a >>> 8).toUInt8

def setEwrpt (a : ℕ) : Chip :=
  (c.setReg EWRPTL (UInt16.ofNat a).toUInt8).setReg EWRPTH (UInt16.ofNat a >>> 8).toUInt8

/-- Read buffer memory: `n` bytes from `ERDPT`, which moves along. -/
def rbm (n : ℕ) : List UInt8 × Chip :=
  let out := c.rbmFrom n c.erdpt
  (out.1, c.setErdpt out.2)

/-- Store bytes from `a` on, linearly; also the pointer after them. -/
def wbmFrom : List UInt8 → (ℕ → UInt8) → ℕ → (ℕ → UInt8) × ℕ
  | [], mem, a => (mem, a)
  | b :: bs, mem, a => wbmFrom bs (Function.update mem a b) ((a + 1) % 0x2000)

/-- Write buffer memory: the bytes go to `EWRPT`, which moves along. -/
def wbm (bs : List UInt8) : Chip :=
  let out := wbmFrom bs c.mem c.ewrpt
  { c with mem := out.1 }.setEwrpt out.2

/-- Soft reset: registers to their reset values (`0x05FA` for `ERXRDPT`), receive memory and
packet count emptied. -/
def reset : Chip :=
  { c with
    regs := c.por.regs, erxrdpt := 0x05FA, rdptLatch := 0xFA, wrPtr := 0, pktCnt := 0
    mii := none, stored := [] }

end Chip

inductive Instr where
  | rcr | rbm | wcr | wbm | bfs | bfc | src | undefined
  deriving DecidableEq

/-- The three opcode bits of a command byte. -/
def Instr.decode (cmd : UInt8) : Instr :=
  match (cmd >>> 5).toNat with
  | 0 => rcr
  | 1 => rbm
  | 2 => wcr
  | 3 => wbm
  | 4 => bfs
  | 5 => bfc
  | 7 => src
  | _ => undefined

/-- One chip-select period: the command byte and the bytes after it are clocked in, then
`rx` bytes are clocked out. -/
def Chip.transact (c : Chip) (mosi : List UInt8) (rx : ℕ) : List UInt8 × Chip :=
  match mosi with
  | [] => (List.replicate rx c.so, c)
  | cmd :: data =>
    let r := Reg.select c.bank (cmd &&& 0x1F)
    match Instr.decode cmd with
    | .rcr => (c.rcr r rx, c)
    | .rbm => c.rbm rx
    | .wcr => (List.replicate rx c.so, c.wcr r (data.headD 0))
    | .wbm => (List.replicate rx c.so, c.wbm data)
    | .bfs => (List.replicate rx c.so, c.bfs r (data.headD 0))
    | .bfc => (List.replicate rx c.so, c.bfc r (data.headD 0))
    | .src => (List.replicate rx c.so, c.reset)
    | .undefined => (List.replicate rx c.so, c)

namespace Chip

variable (c : Chip)

@[simp] theorem setReg_self (r : Reg) (v : UInt8) : (c.setReg r v).regs r = v :=
  Function.update_self ..

@[simp] theorem setReg_of_ne {r r' : Reg} (h : r' ≠ r) (v : UInt8) :
    (c.setReg r v).regs r' = c.regs r' :=
  Function.update_of_ne h ..

/-- What a register write does to the register file. `ERXRDPT` is kept apart from it and
`ECON2` clears `PKTDEC` itself. -/
theorem wcr_regs {r : Reg} (hl : r ≠ ERXRDPTL) (hh : r ≠ ERXRDPTH) (he : r ≠ ECON2) (v : UInt8) :
    (c.wcr r v).regs = Function.update c.regs r v := by
  unfold wcr
  split_ifs <;> rfl

theorem wcr_regs_of_ne {r r' : Reg} (hr : r ≠ r') (he : r' ≠ ECON2) (v : UInt8) :
    (c.wcr r' v).regs r = c.regs r := by
  by_cases hl : r' = ERXRDPTL
  · subst hl; rfl
  by_cases hh : r' = ERXRDPTH
  · subst hh; rfl
  rw [c.wcr_regs hl hh he, Function.update_of_ne hr]

@[simp] theorem pktDec_mem : c.pktDec.mem = c.mem := by unfold pktDec; split_ifs <;> rfl

@[simp] theorem pktDec_stored : c.pktDec.stored = c.stored := by unfold pktDec; split_ifs <;> rfl

@[simp] theorem pktDec_wrPtr : c.pktDec.wrPtr = c.wrPtr := by unfold pktDec; split_ifs <;> rfl

@[simp] theorem pktDec_erxrdpt : c.pktDec.erxrdpt = c.erxrdpt := by
  unfold pktDec
  split_ifs <;> rfl

@[simp] theorem wcr_mem (r : Reg) (v : UInt8) : (c.wcr r v).mem = c.mem := by
  unfold wcr
  split_ifs <;> simp [setReg]

@[simp] theorem wcr_stored (r : Reg) (v : UInt8) : (c.wcr r v).stored = c.stored := by
  unfold wcr
  split_ifs <;> simp [setReg]

theorem wcr_pktCnt {r : Reg} (h : r ≠ ECON2) (v : UInt8) : (c.wcr r v).pktCnt = c.pktCnt := by
  unfold wcr
  split_ifs <;> rfl

theorem wcr_erxrdpt {r : Reg} (h : r ≠ ERXRDPTH) (he : r ≠ ECON2) (v : UInt8) :
    (c.wcr r v).erxrdpt = c.erxrdpt := by
  unfold wcr
  split_ifs <;> rfl

theorem wcr_wrPtr {r : Reg} (hl : r ≠ ERXSTL) (hh : r ≠ ERXSTH) (he : r ≠ ECON2) (v : UInt8) :
    (c.wcr r v).wrPtr = c.wrPtr := by
  unfold wcr
  split_ifs <;> first | rfl | simp_all

@[simp] theorem bfs_econ1 (m : UInt8) : c.bfs ECON1 m = c.setReg ECON1 (c.regs ECON1 ||| m) := rfl

@[simp] theorem bfc_econ1 (m : UInt8) :
    c.bfc ECON1 m = c.setReg ECON1 (c.regs ECON1 &&& ~~~m) := rfl

theorem bfs_pktDec : c.bfs ECON2 0x40 = (c.setReg ECON2 (c.regs ECON2 ||| 0x40)).pktDec := rfl

theorem pktDec_regs {r : Reg} (h : r ≠ ECON2) : (c.bfs ECON2 0x40).regs r = c.regs r := by
  rw [bfs_pktDec, pktDec]
  split_ifs <;> simp [h, setReg]

theorem pktDec_pktCnt (h : c.pktCnt ≠ 0) : (c.bfs ECON2 0x40).pktCnt = c.pktCnt - 1 := by
  have hmask : ∀ x : UInt8, (x ||| 0x40) &&& 0x40 ≠ 0 := forall_byte_of_fin (by decide +kernel)
  rw [bfs_pktDec, pktDec, setReg_self, if_pos (hmask _)]
  exact if_neg h

/-- `PKTDEC` itself is the only bit of `ECON2` involved. -/
theorem pktDec_econ2 : (c.bfs ECON2 0x40).regs ECON2 &&& 0xBF = c.regs ECON2 &&& 0xBF := by
  have hmask : ∀ x : UInt8, (x ||| 0x40) &&& 0x40 ≠ 0 ∧
      ((x ||| 0x40) &&& ~~~0x40) &&& 0xBF = x &&& 0xBF :=
    forall_byte_of_fin (by decide +kernel)
  rw [bfs_pktDec, pktDec, setReg_self, if_pos (hmask _).1]
  exact (congrArg (· &&& 0xBF) (setReg_self ..)).trans (hmask _).2

@[simp] theorem length_rbmFrom (n a : ℕ) : (c.rbmFrom n a).1.length = n := by
  induction n generalizing a with
  | zero => rfl
  | succ n ih => simp [rbmFrom, ih]

@[simp] theorem length_rbm (n : ℕ) : (c.rbm n).1.length = n := c.length_rbmFrom n _

/-- Where the write pointer stays inside the memory, `wbm` is a linear copy. -/
theorem wbmFrom_mem (bs : List UInt8) (mem : ℕ → UInt8) (a : ℕ) (h : a + bs.length ≤ 0x2000)
    (x : ℕ) :
    (wbmFrom bs mem a).1 x = if a ≤ x then (bs[x - a]?).getD (mem x) else mem x := by
  induction bs generalizing mem a with
  | nil => simp [wbmFrom]
  | cons b bs ih =>
    rw [List.length_cons] at h
    rw [wbmFrom]
    by_cases hlast : bs = []
    · subst hlast
      by_cases hx : x = a
      · simp [wbmFrom, hx]
      · simp only [wbmFrom, Function.update_of_ne hx]
        split_ifs with hle
        · obtain ⟨k, hk⟩ := Nat.exists_eq_succ_of_ne_zero (show x - a ≠ 0 by omega)
          simp [hk]
        · rfl
    · have hpos := List.length_pos_iff.mpr hlast
      rw [Nat.mod_eq_of_lt (by omega), ih _ _ (by omega)]
      rcases Nat.lt_trichotomy x a with hx | hx | hx
      · rw [if_neg (by omega), if_neg (by omega), Function.update_of_ne (by omega)]
      · subst hx
        rw [if_neg (by omega), if_pos le_rfl, Function.update_self]
        simp
      · rw [if_pos (by omega), if_pos (by omega), Function.update_of_ne (by omega),
          show x - a = x - (a + 1) + 1 by omega, List.getElem?_cons_succ]

end Chip

namespace Chip

theorem decode_or_addr (op : UInt8) {i : Instr} (addr : UInt8)
    (h : ∀ x : Fin 32, Instr.decode (op ||| UInt8.ofNat x) = i) :
    Instr.decode (op ||| (addr &&& 0x1F)) = i := by
  have hx : (addr &&& 0x1F).toNat < 32 := by
    rw [UInt8.toNat_and]
    exact Nat.and_lt_two_pow _ (by decide : (0x1F : UInt8).toNat < 2 ^ 5)
  simpa using h ⟨_, hx⟩

theorem or_addr_and (op addr : UInt8) (h : op &&& 0x1F = 0) :
    (op ||| (addr &&& 0x1F)) &&& 0x1F = addr &&& 0x1F := by
  rw [or_and_byte, h, UInt8.and_assoc]
  simp

variable (c : Chip) (addr v : UInt8) (n : ℕ)

theorem transact_rcr : c.transact [0x00 ||| (addr &&& 0x1F)] n =
    (c.rcr (Reg.select c.bank (addr &&& 0x1F)) n, c) := by
  rw [transact, or_addr_and 0x00 addr rfl,
    decode_or_addr 0x00 addr (by decide : ∀ _, _ = Instr.rcr)]

theorem transact_wcr : c.transact [0x40 ||| (addr &&& 0x1F), v] n =
    (List.replicate n c.so, c.wcr (Reg.select c.bank (addr &&& 0x1F)) v) := by
  rw [transact, or_addr_and 0x40 addr rfl,
    decode_or_addr 0x40 addr (by decide : ∀ _, _ = Instr.wcr)]
  rfl

theorem transact_bfs : c.transact [0x80 ||| (addr &&& 0x1F), v] n =
    (List.replicate n c.so, c.bfs (Reg.select c.bank (addr &&& 0x1F)) v) := by
  rw [transact, or_addr_and 0x80 addr rfl,
    decode_or_addr 0x80 addr (by decide : ∀ _, _ = Instr.bfs)]
  rfl

theorem transact_bfc : c.transact [0xA0 ||| (addr &&& 0x1F), v] n =
    (List.replicate n c.so, c.bfc (Reg.select c.bank (addr &&& 0x1F)) v) := by
  rw [transact, or_addr_and 0xA0 addr rfl,
    decode_or_addr 0xA0 addr (by decide : ∀ _, _ = Instr.bfc)]
  rfl

theorem transact_rbm : c.transact [0x3A] n = c.rbm n := rfl

end Chip

end EthernetPing
