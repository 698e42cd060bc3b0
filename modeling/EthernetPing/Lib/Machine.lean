import Mathlib.Tactic

/-!
# Machines

A machine answers each input with outputs and goes on in another state. What is known of
a state may depend on all outputs given so far, so invariants are properties of a state
together with the history of outputs.
-/

namespace EthernetPing

/-- A step takes a state and an input to the next state and the outputs. -/
structure Machine (σ ι ο : Type*) where
  step : σ → ι → σ × List ο

namespace Machine

variable {σ ι ο : Type*} (m : Machine σ ι ο)

/-- The state after a run, and the outputs of all its steps in order. -/
def run : σ → List ι → σ × List ο
  | s, [] => (s, [])
  | s, i :: is =>
    let rest := run (m.step s i).1 is
    (rest.1, (m.step s i).2 ++ rest.2)

/-- Every input of the run satisfies `P` in the state and with the history with which it comes. -/
def Allowed (P : σ → List ο → ι → Prop) : σ → List ο → List ι → Prop
  | _, _, [] => True
  | s, h, i :: is => P s h i ∧ Allowed P (m.step s i).1 (h ++ (m.step s i).2) is

variable {m} {P : σ → List ο → ι → Prop}

instance Allowed.decidable [∀ s h i, Decidable (P s h i)] :
    ∀ s h is, Decidable (m.Allowed P s h is)
  | _, _, [] => isTrue trivial
  | s, h, i :: is =>
    have := Allowed.decidable (m.step s i).1 (h ++ (m.step s i).2) is
    inferInstanceAs (Decidable (P s h i ∧ m.Allowed P (m.step s i).1 (h ++ (m.step s i).2) is))

theorem allowed_of_forall {s : σ} {h : List ο} {is : List ι} (hall : ∀ i ∈ is, ∀ s h, P s h i) :
    m.Allowed P s h is := by
  induction is generalizing s h with
  | nil => trivial
  | cons i is ih =>
    exact ⟨hall i List.mem_cons_self s h, ih fun j hj => hall j (List.mem_cons_of_mem i hj)⟩

/-- What each allowed step keeps of state and history, each allowed run keeps. -/
theorem run_inv {Inv : σ → List ο → Prop}
    (hstep : ∀ s h i, Inv s h → P s h i → Inv (m.step s i).1 (h ++ (m.step s i).2))
    {s : σ} {h : List ο} {is : List ι} (hinv : Inv s h) (hok : m.Allowed P s h is) :
    Inv (m.run s is).1 (h ++ (m.run s is).2) := by
  induction is generalizing s h with
  | nil => simpa [run] using hinv
  | cons i is ih =>
    have hrest := ih (hstep s h i hinv hok.1) hok.2
    rwa [List.append_assoc] at hrest

theorem run_inv_nil {Inv : σ → List ο → Prop}
    (hstep : ∀ s h i, Inv s h → P s h i → Inv (m.step s i).1 (h ++ (m.step s i).2))
    {s : σ} {is : List ι} (hinv : Inv s []) (hok : m.Allowed P s [] is) :
    Inv (m.run s is).1 (m.run s is).2 :=
  run_inv hstep hinv hok

end Machine

end EthernetPing
