import EthernetPing.Driver.Config
import EthernetPing.Net.MainLoop

/-!
# The station address

The address of the interface is kept in two places: `init` writes it into the chip, and
`enc28j60_netif_init` hands it to the stack. The six registers of the chip do not lie in
the order of the bytes on the wire.
-/

namespace EthernetPing

open Reg

/-- The station address of the chip, `MAADR1` to `MAADR6`. -/
def Chip.station (c : Chip) : Fin 6 → UInt8 :=
  ![c.regs MAADR1, c.regs MAADR2, c.regs MAADR3, c.regs MAADR4, c.regs MAADR5, c.regs MAADR6]

/-- The order in which `init` writes the bytes: the last two pairs are exchanged. -/
def exchanged (mac : Fin 6 → UInt8) : Fin 6 → UInt8 := ![mac 0, mac 1, mac 4, mac 5, mac 2, mac 3]

theorem exchanged_eq_iff (mac : Fin 6 → UInt8) :
    exchanged mac = mac ↔ mac 2 = mac 4 ∧ mac 3 = mac 5 := by
  constructor
  · intro h
    exact ⟨congrFun h 4, congrFun h 5⟩
  · rintro ⟨h₁, h₂⟩
    funext i
    fin_cases i
    · rfl
    · rfl
    · exact h₁.symm
    · exact h₂.symm
    · exact h₁
    · exact h₂

section Station

variable {env : ℕ → Board → Board} {fuel : ℕ} {w w₁ : World Board Statics Event}

theorem station_init (henv : ∀ n b, HostRegs b.chip (env n b).chip)
    (hinit : ENC28J60.init fuel env w = (some (), w₁)) :
    w₁.hw.chip.station = exchanged w.loc.macAddr := by
  have hspec := ENC28J60.init_config (R := fun b b' => HostRegs b.chip b'.chip)
    (fun _ _ => id) w.loc fuel env henv w rfl
  rw [hinit] at hspec
  obtain ⟨-, hconfig⟩ := hspec.1 () rfl
  simp only [Chip.station, exchanged]
  rw [hconfig MAADR1 _ rfl (by decide), hconfig MAADR2 _ rfl (by decide),
    hconfig MAADR3 _ rfl (by decide), hconfig MAADR4 _ rfl (by decide),
    hconfig MAADR5 _ rfl (by decide), hconfig MAADR6 _ rfl (by decide)]

/-- The chip has the address of the stack exactly if the exchange is not seen. -/
theorem station_agrees_iff (henv : ∀ n b, HostRegs b.chip (env n b).chip)
    (hinit : ENC28J60.init fuel env w = (some (), w₁)) :
    (w₁.hw.chip.station = w.loc.macAddr ∧
        w₁.hw.chip.station = (enc28j60NetifInit w.loc.macAddr).hwaddr) ↔
      w.loc.macAddr 2 = w.loc.macAddr 4 ∧ w.loc.macAddr 3 = w.loc.macAddr 5 := by
  rw [station_init henv hinit, ← exchanged_eq_iff]
  exact and_self_iff

theorem station_agrees_iff_bench :
    ((ENC28J60.init 1 prompt benchWorld).2.hw.chip.station = benchWorld.loc.macAddr ∧
        (ENC28J60.init 1 prompt benchWorld).2.hw.chip.station =
          (enc28j60NetifInit benchWorld.loc.macAddr).hwaddr) ↔
      benchWorld.loc.macAddr 2 = benchWorld.loc.macAddr 4 ∧
        benchWorld.loc.macAddr 3 = benchWorld.loc.macAddr 5 :=
  station_agrees_iff prompt_host (Prog.eq_of_returns init_bench)

/-- With the address of the source, `MAADR3` is `0x22` where the stack has `0x00`. -/
theorem station_differs : ¬ ∀ (env : ℕ → Board → Board) (fuel : ℕ)
    (w w₁ : World Board Statics Event), (∀ n b, HostRegs b.chip (env n b).chip) →
      ENC28J60.init fuel env w = (some (), w₁) → w₁.hw.chip.station = w.loc.macAddr ∧
        w₁.hw.chip.station = (enc28j60NetifInit w.loc.macAddr).hwaddr := by
  intro h
  have hsame := (h prompt 1 benchWorld _ prompt_host (Prog.eq_of_returns init_bench)).1
  rw [station_init prompt_host (Prog.eq_of_returns init_bench), exchanged_eq_iff] at hsame
  exact absurd hsame.1 (by decide)

end Station

end EthernetPing
