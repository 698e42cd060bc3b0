import Mathlib.Data.Nat.ModEq
import Mathlib.Tactic

/-!
# The button counter

The main loop reads PA0 once in each iteration and counts the iterations that find the pin
set. A press that lasts over several iterations is counted in each of them.
-/

namespace EthernetPing

/-- One look at PA0. `HAL_Delay` puts off the next look only. -/
def sampleButton (buttonCount : UInt16) (pinSet : Bool) : UInt16 :=
  if pinSet then buttonCount + 1 else buttonCount

/-- The counter after the iterations that read these levels. -/
def countButton (buttonCount : UInt16) (samples : List Bool) : UInt16 :=
  samples.foldl sampleButton buttonCount

/-- The changes from released to pressed, after the level `last`. -/
def presses (last : Bool) : List Bool → ℕ
  | [] => 0
  | pinSet :: samples => (if pinSet && !last then 1 else 0) + presses pinSet samples

/-- The levels read with the button still pressed from the reading before. -/
def heldOver (last : Bool) : List Bool → ℕ
  | [] => 0
  | pinSet :: samples => (if pinSet && last then 1 else 0) + heldOver pinSet samples

/-- Every level read as pressed is counted, whether it begins a press or not. -/
theorem countButton_eq (last : Bool) (buttonCount : UInt16) (samples : List Bool) :
    countButton buttonCount samples =
      buttonCount + UInt16.ofNat (presses last samples + heldOver last samples) := by
  induction samples generalizing last buttonCount with
  | nil => exact (UInt16.add_zero buttonCount).symm
  | cons pinSet samples ih =>
    have hone : presses last (pinSet :: samples) + heldOver last (pinSet :: samples) =
        (if pinSet then 1 else 0) + (presses pinSet samples + heldOver pinSet samples) := by
      cases pinSet <;> cases last <;> simp [presses, heldOver] <;> omega
    rw [hone, countButton, List.foldl_cons, ← countButton, ih pinSet]
    cases pinSet with
    | false => simp [sampleButton]
    | true => simp [sampleButton, UInt16.ofNat_add, UInt16.add_assoc]

/-- The increments are the presses modulo 2^16 exactly if the levels read while a press goes on
are a multiple of 2^16, such as none. -/
theorem countButton_presses_iff (buttonCount : UInt16) (samples : List Bool) :
    countButton buttonCount samples = buttonCount + UInt16.ofNat (presses false samples) ↔
      2 ^ 16 ∣ heldOver false samples := by
  rw [countButton_eq false, UInt16.add_right_inj, ← UInt16.toNat_inj]
  simp only [UInt16.toNat_ofNat', Nat.dvd_iff_mod_eq_zero]
  omega

/-- A button that is held while two iterations read it is counted twice. -/
theorem countButton_held : ¬ ∀ (buttonCount : UInt16) (samples : List Bool),
    countButton buttonCount samples = buttonCount + UInt16.ofNat (presses false samples) := by
  intro h
  exact absurd (h 0 [true, true]) (by decide)

end EthernetPing
