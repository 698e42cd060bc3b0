import EthernetPing.Lib.Prog
import EthernetPing.Driver.Chip

/-!
# The ENC28J60 driver

The functions of `enc28j60.c`, statement by statement, as programs over the board
(chip and millisecond tick). One chip-select period is one atomic action; the chip
moves between any two of them. The unbounded polling loops take a budget of
iterations, and a run that exhausts it is cut off.
-/

namespace EthernetPing

/-- The hardware outside the CPU: the Ethernet chip and the SysTick counter. -/
structure Board where
  chip : Chip
  tick : UInt32

/-- Atomic actions of the driver. -/
inductive Event where
  /-- A chip-select period that sends `mosi` and receives `rx` bytes. -/
  | spi (mosi : List UInt8) (rx : ℕ)
  | getTick
  | delay (ms : UInt32)
  deriving DecidableEq

/-- What one `packetReceive` took out of the ring: where it read, and what. -/
structure Taken where
  start : UInt16
  header : List UInt8
  pktLen : UInt16
  buf : List UInt8
  deriving DecidableEq

/-- `header[0] | (header[1] << 8)` -/
def Taken.nextPtr (t : Taken) : UInt16 := ofLe16 (t.header.getD 0 0) (t.header.getD 1 0)

/-- The bytes of an address have numerals for indices. -/
instance neZeroSix : NeZero 6 := ⟨by decide⟩

/-- Static variables. The history `taken` records the packets read so far. -/
structure Statics where
  rxPtr : UInt16
  macAddr : Fin 6 → UInt8
  taken : List Taken

/-- `rxPtr = nextPtr;` -/
def Taken.advance (t : Taken) (s : Statics) : Statics :=
  { s with rxPtr := t.nextPtr, taken := s.taken ++ [t] }

abbrev Drv := Prog Board Statics Event

def RXSTART : UInt16 := 0x0000
def RXEND : UInt16 := 0x0BFF
def TXSTART : UInt16 := 0x0C00

/-- The receive ring that `init` configures. -/
def rxRing : Ring := ⟨RXSTART.toNat, RXEND.toNat, by decide⟩

/-- The value `rxPtr` is loaded with at start-up. -/
def Statics.load (mac : Fin 6 → UInt8) : Statics :=
  { rxPtr := RXSTART, macAddr := mac, taken := [] }

/-- `HAL_SPI_Transmit` between chip-select edges. -/
def spiTransmit (mosi : List UInt8) : Drv Unit :=
  Prog.act (.spi mosi 0) fun b => ((), { b with chip := (b.chip.transact mosi 0).2 })

/-- `HAL_SPI_Transmit`, then `HAL_SPI_Receive` of `n` bytes, between chip-select edges. -/
def spiReceive (mosi : List UInt8) (n : ℕ) : Drv (List UInt8) :=
  Prog.act (.spi mosi n) fun b =>
    ((b.chip.transact mosi n).1, { b with chip := (b.chip.transact mosi n).2 })

def halGetTick : Drv UInt32 := Prog.act .getTick fun b => (b.tick, b)

def halDelay (ms : UInt32) : Drv Unit := Prog.act (.delay ms) fun b => ((), b)

namespace ENC28J60

def writeOp (op addr data : UInt8) : Drv Unit := spiTransmit [op ||| (addr &&& 0x1F), data]

def readOp (op addr : UInt8) : Drv UInt8 := do
  let rx ← spiReceive [op ||| (addr &&& 0x1F)] 1
  pure (rx.headD 0)

def setBank (bank : UInt8) : Drv Unit := do
  writeOp 0xA0 0x1F 0x03
  writeOp 0x80 0x1F (bank &&& 0x03)

def readReg (addr : UInt8) : Drv UInt8 := readOp 0x00 addr

def writeReg (addr data : UInt8) : Drv Unit := writeOp 0x40 addr data

/-- `while (ReadReg(addr) & mask) { if (HAL_GetTick() - start > limit) break; }` -/
def busyWait (addr mask : UInt8) (limit start : UInt32) : ℕ → Drv Unit
  | 0 => Prog.stuck
  | fuel + 1 => do
    let status ← readReg addr
    if status &&& mask ≠ 0 then do
      let now ← halGetTick
      if now - start > limit then pure () else busyWait addr mask limit start fuel
    else pure ()

def readPHY (fuel : ℕ) (phyAddr : UInt8) : Drv UInt16 := do
  setBank 2
  writeReg 0x14 phyAddr
  writeReg 0x12 0x01
  setBank 3
  let timeout ← halGetTick
  busyWait 0x0A 0x01 100 timeout fuel
  setBank 2
  writeReg 0x12 0x00
  let lo ← readReg 0x18
  let hi ← readReg 0x19
  pure (ofLe16 lo hi)

def writePHY (fuel : ℕ) (phyAddr : UInt8) (data : UInt16) : Drv Unit := do
  setBank 2
  writeReg 0x14 phyAddr
  writeReg 0x16 data.toUInt8
  writeReg 0x17 (data >>> 8).toUInt8
  setBank 3
  let timeout ← halGetTick
  busyWait 0x0A 0x01 100 timeout fuel

/-- `while (!(ReadReg(0x1D) & 0x01));` -/
def waitClkRdy : ℕ → Drv Unit
  | 0 => Prog.stuck
  | fuel + 1 => do
    let estat ← readReg 0x1D
    if estat &&& 0x01 ≠ 0 then pure () else waitClkRdy fuel

def init (fuel : ℕ) : Drv Unit := do
  spiTransmit [0xFF]
  halDelay 50
  waitClkRdy fuel
  setBank 0
  writeReg 0x08 RXSTART.toUInt8
  writeReg 0x09 (RXSTART >>> 8).toUInt8
  writeReg 0x0A RXEND.toUInt8
  writeReg 0x0B (RXEND >>> 8).toUInt8
  setBank 2
  writeReg 0x00 0x0D
  writeReg 0x02 0xF3
  writeReg 0x03 0x40
  writeReg 0x0A 0xEE
  writeReg 0x0B 0x05
  setBank 3
  let mac ← Prog.read Statics.macAddr
  writeReg 0x04 (mac 0)
  writeReg 0x05 (mac 1)
  writeReg 0x00 (mac 2)
  writeReg 0x01 (mac 3)
  writeReg 0x02 (mac 4)
  writeReg 0x03 (mac 5)
  writePHY fuel 0x00 0x0100
  setBank 1
  writeReg 0x18 0x00
  setBank 0
  writeOp 0x80 0x1F 0x04

def readBuffer (len : UInt16) : Drv (List UInt8) := spiReceive [0x3A] len.toNat

def writeBuffer (buf : List UInt8) (len : UInt16) : Drv Unit :=
  spiTransmit (0x7A :: buf.take len.toNat)

/-- `pktLen -= 4; if (pktLen > maxlen) pktLen = maxlen;` in 16-bit arithmetic. -/
def clampLen (pktLen maxlen : UInt16) : UInt16 :=
  if pktLen - 4 > maxlen then maxlen else pktLen - 4

/-- `packetReceive` from the non-zero packet count to the second `ReadBuffer`: the header and
the frame are read from `rxPtr` on. -/
def fetchPacket (maxlen : UInt16) : Drv Taken := do
  setBank 0
  let rxPtr ← Prog.read Statics.rxPtr
  writeReg 0x00 rxPtr.toUInt8
  writeReg 0x01 (rxPtr >>> 8).toUInt8
  let header ← readBuffer 6
  let pktLen := clampLen (ofLe16 (header.getD 4 0) (header.getD 5 0)) maxlen
  let buf ← readBuffer pktLen
  pure ⟨rxPtr, header, pktLen, buf⟩

/-- The end of `packetReceive`: the ring up to `nextPtr` is given back, the packet count is
decremented. -/
def freeSpace (nextPtr : UInt16) : Drv Unit := do
  setBank 0
  writeReg 0x0C (nextPtr - 1).toUInt8
  writeReg 0x0D ((nextPtr - 1) >>> 8).toUInt8
  writeOp 0x80 0x1E 0x40

/-- The returned length, and the bytes written to `buf`. -/
def packetReceive (maxlen : UInt16) : Drv (UInt16 × List UInt8) := do
  setBank 1
  let pktCnt ← readReg 0x19
  if pktCnt = 0 then pure (0, [])
  else do
    let t ← fetchPacket maxlen
    Prog.modify t.advance
    freeSpace t.nextPtr
    pure (t.pktLen, t.buf)

def sendPacket (fuel : ℕ) (buf : List UInt8) (len : UInt16) : Drv Unit := do
  writeOp 0xA0 0x1F 0x08
  setBank 0
  writeReg 0x04 TXSTART.toUInt8
  writeReg 0x05 (TXSTART >>> 8).toUInt8
  writeReg 0x02 TXSTART.toUInt8
  writeReg 0x03 (TXSTART >>> 8).toUInt8
  spiTransmit ([0x7A, 0x00] ++ buf.take len.toNat)
  let txEnd := TXSTART + len
  writeReg 0x06 txEnd.toUInt8
  writeReg 0x07 (txEnd >>> 8).toUInt8
  writeOp 0x80 0x1F 0x08
  let t ← halGetTick
  setBank 0
  busyWait 0x1F 0x08 200 t fuel

end ENC28J60

end EthernetPing
