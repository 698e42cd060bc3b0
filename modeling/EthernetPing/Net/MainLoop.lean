import EthernetPing.Driver.Receive
import EthernetPing.Net.Pbuf

/-!
# From the driver to the stack

The main loop reads a packet into `pkt_buf`, copies it into a chain of pool buffers and
passes the chain to `enc_netif.input`. What it can carry is bounded by the size of
`pkt_buf`, which is smaller than a frame of the announced MTU.
-/

namespace EthernetPing

/-- The fields of `struct netif` that the interface fills in for the stack. -/
structure Netif where
  hwaddrLen : UInt8
  hwaddr : Fin 6 → UInt8
  mtu : UInt16
  flags : UInt8

/-- The flags are `NETIF_FLAG_BROADCAST`, `NETIF_FLAG_ETHARP` and `NETIF_FLAG_LINK_UP`. -/
def enc28j60NetifInit (macAddr : Fin 6 → UInt8) : Netif where
  hwaddrLen := 6
  hwaddr := macAddr
  mtu := 500
  flags := 0x02 ||| 0x08 ||| 0x04

def pktBufSize : UInt16 := 400

/-- What the main loop does with `len` received bytes: the chain passed to `enc_netif.input`, or
`none` if it is not called. `pool` are the free pool elements. -/
def passUp (pool : List (ℕ → UInt8)) (pktBuf : ℕ → UInt8) (len : UInt16) : Option (List Pbuf) :=
  if 0 < len then (pbufAllocPool pool len).map fun out => pbufTake out.1 pktBuf len else none

/-- The receiving part of one main-loop iteration, up to the call of `enc_netif.input`. -/
def receiveOnce (pool : List (ℕ → UInt8)) (pktBuf : ℕ → UInt8) : Drv (Option (List Pbuf)) := do
  let r ← ENC28J60.packetReceive pktBufSize
  pure (passUp pool (fun i => (r.2[i]?).getD (pktBuf i)) r.1)

section Carry

variable {p : Packet} {n : ℕ} {env : ℕ → Board → Board} {w : World Board Statics Event}

theorem chainBytes_passUp {pool : List (ℕ → UInt8)} {pktBuf : ℕ → UInt8} {len : UInt16}
    {q : List Pbuf} (h : passUp pool pktBuf len = some q) :
    chainBytes q = (List.range len.toNat).map pktBuf := by
  rw [passUp] at h
  split_ifs at h
  obtain ⟨out, hout, rfl⟩ := Option.map_eq_some_iff.mp h
  obtain ⟨hlen, q, qs, hq, htot⟩ := length_of_pbufAllocPool hout
  exact chainBytes_pbufTake hq htot hlen pktBuf

theorem passUp_isSome (pool : List (ℕ → UInt8)) (pktBuf : ℕ → UInt8) (len : UInt16) :
    (passUp pool pktBuf len).isSome ↔ 0 < len.toNat ∧ len.toNat ≤ 256 * pool.length := by
  have hpos : 0 < len ↔ 0 < len.toNat := UInt16.lt_iff_toNat_lt
  rw [passUp]
  split_ifs with h
  · rw [Option.isSome_map, pbufAllocPool_isSome]
    rw [hpos] at h
    omega
  · simpa using fun h₀ => (h (hpos.mpr h₀)).elim

/-- If the chip reports the frame's length with the checksum, `input` gets the frame up to the
size of `pkt_buf`; it is called if the pool can hold that much. -/
theorem receiveOnce_spec (hlen : p.data.length = n + 4) (hstatus : p.status.toNat = n + 4)
    (pool : List (ℕ → UInt8)) (pktBuf : ℕ → UInt8) :
    Triple (LeavesPacket p) (AtPacket p) (receiveOnce pool pktBuf)
      (fun chain _ => (∀ q, chain = some q → chainBytes q = p.data.take (min n 400)) ∧
        (chain.isSome ↔ 0 < n ∧ min n 400 ≤ 256 * pool.length)) fun _ => False := by
  apply (packetReceive_spec p pktBufSize).bind
  rintro ⟨len, buf⟩
  apply Triple.pure
  rintro v ⟨hcl, hbuf, htake⟩
  dsimp only at hcl hbuf htake
  have hclamp : len.toNat = min n 400 := by
    have hsub : (p.status - 4).toNat = n := by
      rw [UInt16.toNat_sub_of_le _ _ (UInt16.le_iff_toNat_le.mpr (hstatus ▸ Nat.le_add_left 4 n)),
        hstatus]
      rfl
    have hmax : pktBufSize.toNat = 400 := rfl
    rw [hcl, ENC28J60.clampLen]
    simp only [gt_iff_lt, UInt16.lt_iff_toNat_lt]
    split_ifs <;> omega
  have hdata : buf = p.data.take (min n 400) := by
    have hsize : p.size - 6 = p.data.length + p.data.length % 2 := by
      rw [RxFrame.size]
      omega
    rw [List.take_of_length_le (by omega), Packet.drop_header, hbuf, hclamp,
      List.take_append_of_le_length (by omega)] at htake
    exact htake
  constructor
  · intro q hq
    rw [chainBytes_passUp hq, ← hdata, ← hbuf]
    apply List.ext_getElem
    · simp
    · intro i h₁ h₂
      simp [h₂]
  · rw [passUp_isSome, hclamp]
    omega

/-- The frame arrives whole, whenever it arrives, exactly if it fits into `pkt_buf` or the pool
is too empty for any frame that does not. -/
theorem receiveOnce_whole_iff (hlen : p.data.length = n + 4) (hstatus : p.status.toNat = n + 4)
    (henv : ∀ k b, LeavesPacket p b (env k b)) (hw : AtPacket p w.toView)
    (pool : List (ℕ → UInt8)) (pktBuf : ℕ → UInt8) :
    (∀ q, (receiveOnce pool pktBuf env w).1 = some (some q) → chainBytes q = p.data.take n) ↔
      n ≤ 400 ∨ pool.length < 2 := by
  obtain ⟨chain, hrun, hbytes, hsome⟩ :=
    (receiveOnce_spec hlen hstatus pool pktBuf).returns henv hw
  rw [hrun]
  constructor
  · intro h
    by_contra! hcut
    have hcalled : chain.isSome := hsome.mpr ⟨by omega, by omega⟩
    obtain ⟨q, rfl⟩ := Option.isSome_iff_exists.mp hcalled
    have hwhole := congrArg List.length ((hbytes q rfl).symm.trans (h q rfl))
    simp only [List.length_take] at hwhole
    omega
  · rintro hfit q hq
    have hcalled : chain = some q := Option.some.inj hq
    subst hcalled
    have hroom := hsome.mp rfl
    rw [hbytes q rfl, Nat.min_eq_left (by omega)]

/-- The longest frame that the announced MTU allows. -/
def longestFrame : Packet where
  data := List.replicate 518 0x5A
  count := 518
  status := 518
  pad := 0
  start := 0
  next := 524

theorem longestFrame_length : longestFrame.data.length = 514 + 4 := List.length_replicate

theorem longestFrame_atPacket : AtPacket longestFrame (packetWorld longestFrame).toView := by
  have hlen := longestFrame_length
  refine atPacket_packetWorld (by decide) ?_ (by rw [hlen]; rfl)
  rw [RxFrame.size, hlen]
  decide

theorem receiveOnce_whole_iff_longest :
    (∀ q, (receiveOnce (List.replicate 4 fun _ => 0) (fun _ => 0) (fun _ b => b)
        (packetWorld longestFrame)).1 = some (some q) →
          chainBytes q = longestFrame.data.take 514) ↔
      514 ≤ 400 ∨ (List.replicate 4 fun _ : ℕ => (0 : UInt8)).length < 2 :=
  receiveOnce_whole_iff longestFrame_length rfl (fun _ => leavesPacket_refl _)
    longestFrame_atPacket _ _

/-- With a full pool the longest frame is passed up without its last 114 bytes. -/
theorem receiveOnce_cut : ¬ ∀ (p : Packet) (n : ℕ) (macAddr : Fin 6 → UInt8)
    (pool : List (ℕ → UInt8)) (pktBuf : ℕ → UInt8) (env : ℕ → Board → Board)
    (w : World Board Statics Event), p.data.length = n + 4 → p.status.toNat = n + 4 →
      n ≤ (enc28j60NetifInit macAddr).mtu.toNat + 14 → pool.length ≤ 4 →
      (∀ k b, LeavesPacket p b (env k b)) → AtPacket p w.toView →
        ∀ q, (receiveOnce pool pktBuf env w).1 = some (some q) → chainBytes q = p.data.take n := by
  intro h
  obtain ⟨chain, hrun, hbytes, hsome⟩ := (receiveOnce_spec (p := longestFrame)
    longestFrame_length rfl (List.replicate 4 fun _ => 0) fun _ => 0).returns
    (fun _ => leavesPacket_refl longestFrame) longestFrame_atPacket
  have hcalled : chain.isSome := hsome.mpr (by decide)
  obtain ⟨q, rfl⟩ := Option.isSome_iff_exists.mp hcalled
  have hwhole := h longestFrame 514 (fun _ => 0) (List.replicate 4 fun _ => 0) (fun _ => 0)
    (fun _ b => b) (packetWorld longestFrame) longestFrame_length rfl (by decide) (by decide)
    (fun _ => leavesPacket_refl _) longestFrame_atPacket q hrun
  have hcut := congrArg List.length ((hbytes q rfl).symm.trans hwhole)
  simp only [List.length_take, longestFrame_length] at hcut
  omega

end Carry

end EthernetPing
