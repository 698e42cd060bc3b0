import Mathlib.Logic.Basic
import Mathlib.Tactic

/-!
# Programs beside an autonomous device

A program performs atomic actions on hardware that also moves by itself. The
device is an oracle: before the `n`-th atomic action of a run it may change the
hardware in any way, `env n`. A specification names the moves it relies on by a
relation, and holds for every oracle whose moves stay in it, so that every
interleaving of device and program is covered.

Runs may be cut off (an exhausted loop budget). The history of atomic actions is
kept in either case; a triple therefore has two postconditions, one for runs that
return and one for runs that are cut off.
-/

namespace EthernetPing

/-- What an assertion may speak about: the hardware, the private variables of the
program, and the atomic actions so far, latest first, each with the hardware state
it was issued in. -/
structure View (σ ρ τ : Type*) where
  hw : σ
  loc : ρ
  log : List (σ × τ)

/-- A view with other private variables. -/
def View.mapLoc {σ ρ τ : Type*} (f : ρ → ρ) (v : View σ ρ τ) : View σ ρ τ :=
  { v with loc := f v.loc }

/-- A view together with the index of the next atomic action. -/
structure World (σ ρ τ : Type*) extends View σ ρ τ where
  now : ℕ

/-- Programs with result type `α`; `none` is a run that was cut off. -/
def Prog (σ ρ τ : Type*) (α : Type) : Type _ :=
  (ℕ → σ → σ) → World σ ρ τ → Option α × World σ ρ τ

namespace Prog

variable {σ ρ τ ι : Type*} {α β : Type}

instance : Monad (Prog σ ρ τ) where
  pure a := fun _ w => (some a, w)
  bind m f := fun env w =>
    match m env w with
    | (some a, w') => f a env w'
    | (none, w') => (none, w')

/-- One atomic action `t` with effect `f`. The device moves first. -/
def act (t : τ) (f : σ → β × σ) : Prog σ ρ τ β := fun env w =>
  let s := env w.now w.hw
  (some (f s).1, { hw := (f s).2, loc := w.loc, log := (s, t) :: w.log, now := w.now + 1 })

def read (f : ρ → α) : Prog σ ρ τ α := fun _ w => (some (f w.loc), w)

def modify (f : ρ → ρ) : Prog σ ρ τ Unit := fun _ w => (some (), { w with loc := f w.loc })

def stuck : Prog σ ρ τ α := fun _ w => (none, w)

def each (body : ι → Prog σ ρ τ Unit) : List ι → Prog σ ρ τ Unit
  | [] => pure ()
  | i :: is => do
    body i
    each body is

/-- Run `body` on every entry of a list in turn and list what it leaves. -/
def collect (body : ι → Prog σ ρ τ (Option α)) : List ι → Prog σ ρ τ (List α)
  | [] => pure []
  | i :: is => do
    let r ← body i
    let rest ← collect body is
    pure (r.toList ++ rest)

/-- The result, and what `f` sees in the atomic actions on the way to it, first one first. -/
def watched (f : List (σ × τ) → β) (m : Prog σ ρ τ α) : Prog σ ρ τ (α × β) := fun env w =>
  let out := m env w
  let acts := (out.2.log.take (out.2.log.length - w.log.length)).reverse
  (out.1.map fun a => (a, f acts), out.2)

theorem eq_of_returns {o : Option α × World σ ρ τ} {a : α} (h : o.1 = some a) :
    o = (some a, o.2) := by
  obtain ⟨r, w⟩ := o
  exact congrArg (·, w) h

theorem bind_eq {m : Prog σ ρ τ α} {f : α → Prog σ ρ τ β} {env : ℕ → σ → σ}
    {w w' : World σ ρ τ} {a : α} (h : m env w = (some a, w')) : (m >>= f) env w = f a env w' := by
  change (match m env w with
    | (some a, w') => f a env w'
    | (none, w') => (none, w')) = _
  rw [h]

end Prog

/-- Assertions. -/
abbrev Assn (σ ρ τ : Type*) := View σ ρ τ → Prop

/-- The outcome satisfies `Q` if it is a result, and `E` if the run was cut off. -/
def Meets {σ ρ τ : Type*} {α : Type} (Q : α → Assn σ ρ τ) (E : Assn σ ρ τ)
    (o : Option α × World σ ρ τ) : Prop :=
  (∀ a, o.1 = some a → Q a o.2.toView) ∧ (o.1 = none → E o.2.toView)

/-- `m`, started where `P` holds and beside any device that moves within `R`,
returns with `Q` or is cut off with `E`. -/
def Triple {σ ρ τ : Type*} {α : Type} (R : σ → σ → Prop) (P : Assn σ ρ τ) (m : Prog σ ρ τ α)
    (Q : α → Assn σ ρ τ) (E : Assn σ ρ τ) : Prop :=
  ∀ env : ℕ → σ → σ, (∀ n s, R s (env n s)) → ∀ w, P w.toView → Meets Q E (m env w)

namespace Triple

variable {σ ρ τ ι : Type*} {α β : Type} {R R' : σ → σ → Prop} {P P' : Assn σ ρ τ}
  {Q Q' : α → Assn σ ρ τ} {T : β → Assn σ ρ τ} {E E' : Assn σ ρ τ}

theorem pure {a : α} (h : ∀ v, P v → Q a v) : Triple R P (Pure.pure a) Q E :=
  fun _ _ w hw => ⟨fun _ ha => Option.some.inj ha ▸ h w.toView hw, nofun⟩

theorem bind {m : Prog σ ρ τ α} {f : α → Prog σ ρ τ β}
    (hm : Triple R P m Q E) (hf : ∀ a, Triple R (Q a) (f a) T E) : Triple R P (m >>= f) T E := by
  intro env henv w hw
  have h := hm env henv w hw
  change Meets T E (match m env w with
    | (some a, w') => f a env w'
    | (none, w') => (none, w'))
  rcases hout : m env w with ⟨_ | a, w'⟩
  · rw [hout] at h
    exact ⟨nofun, fun _ => h.2 rfl⟩
  · rw [hout] at h
    exact hf a env henv w' (h.1 a rfl)

theorem seq {m : Prog σ ρ τ Unit} {m' : Prog σ ρ τ β} {S : Assn σ ρ τ}
    (hm : Triple R P m (fun _ => S) E) (hm' : Triple R S m' T E) :
    Triple R P (m >>= fun _ => m') T E :=
  hm.bind fun _ => hm'

theorem conseq {m : Prog σ ρ τ α} (h : Triple R P m Q E) (hP : ∀ v, P' v → P v)
    (hQ : ∀ a v, Q a v → Q' a v) (hE : ∀ v, E v → E' v) : Triple R P' m Q' E' := by
  intro env henv w hw
  have hm := h env henv w (hP _ hw)
  exact ⟨fun a ha => hQ a _ (hm.1 a ha), fun hn => hE _ (hm.2 hn)⟩

theorem pre {m : Prog σ ρ τ α} (h : Triple R P m Q E) (hP : ∀ v, P' v → P v) :
    Triple R P' m Q E :=
  h.conseq hP (fun _ _ => id) (fun _ => id)

theorem post {m : Prog σ ρ τ α} (h : Triple R P m Q E) (hQ : ∀ a v, Q a v → Q' a v) :
    Triple R P m Q' E :=
  h.conseq (fun _ => id) hQ (fun _ => id)

/-- An atomic action: the postcondition must hold after every move the device can make
before it. -/
theorem act {t : τ} {f : σ → α × σ}
    (h : ∀ v s, P v → R v.hw s → Q (f s).1 ⟨(f s).2, v.loc, (s, t) :: v.log⟩) :
    Triple R P (Prog.act t f) Q E :=
  fun _ henv w hw =>
    ⟨fun _ ha => Option.some.inj ha ▸ h w.toView _ hw (henv w.now w.hw), nofun⟩

theorem read {f : ρ → α} (h : ∀ v, P v → Q (f v.loc) v) : Triple R P (Prog.read f) Q E :=
  fun _ _ w hw => ⟨fun _ ha => Option.some.inj ha ▸ h w.toView hw, nofun⟩

theorem modify {f : ρ → ρ} {Q : Unit → Assn σ ρ τ}
    (h : ∀ v, P v → Q () { v with loc := f v.loc }) : Triple R P (Prog.modify f) Q E :=
  fun _ _ w hw => ⟨fun _ _ => h w.toView hw, nofun⟩

theorem stuck (h : ∀ v, P v → E v) : Triple R P (Prog.stuck : Prog σ ρ τ α) Q E :=
  fun _ _ w hw => ⟨nofun, fun _ => h w.toView hw⟩

theorem ite {c : Prop} [Decidable c] {m m' : Prog σ ρ τ α}
    (hm : c → Triple R P m Q E) (hm' : ¬ c → Triple R P m' Q E) :
    Triple R P (if c then m else m') Q E := by
  split_ifs with hc
  · exact hm hc
  · exact hm' hc

/-- Names for what the precondition asserts to exist. -/
theorem of_exists {m : Prog σ ρ τ α} {P : ι → Assn σ ρ τ}
    (h : ∀ i, Triple R (P i) m Q E) : Triple R (fun v => ∃ i, P i v) m Q E :=
  fun env henv w ⟨i, hi⟩ => h i env henv w hi

/-- Sequencing of a statement whose result is known. -/
theorem bind_value {m : Prog σ ρ τ α} {f : α → Prog σ ρ τ β} {x : α} {S : Assn σ ρ τ}
    (hm : Triple R P m (fun a v => S v ∧ a = x) E) (hf : Triple R S (f x) T E) :
    Triple R P (m >>= f) T E := by
  refine hm.bind ?_
  rintro a env henv w ⟨hw, rfl⟩
  exact hf env henv w hw

/-- Reading a private variable whose value the precondition determines. -/
theorem read_bind {f : ρ → α} {g : α → Prog σ ρ τ β} {x : α} (hx : ∀ v, P v → f v.loc = x)
    (h : Triple R P (g x) T E) : Triple R P (Prog.read f >>= g) T E :=
  bind_value (read fun v hv => ⟨hv, hx v hv⟩) h

/-- A fact that does not speak about the view. -/
theorem of_fact {m : Prog σ ρ τ α} {φ : Prop} (h : φ → Triple R P m Q E) :
    Triple R (fun v => P v ∧ φ) m Q E :=
  fun env henv w hw => h hw.2 env henv w hw.1

/-- The starting view may be named. -/
theorem assuming {m : Prog σ ρ τ α} (h : ∀ v₀, P v₀ → Triple R (fun v => v = v₀) m Q E) :
    Triple R P m Q E :=
  fun env henv w hw => h w.toView hw env henv w rfl

theorem or {m : Prog σ ρ τ α} (h : Triple R P m Q E) (h' : Triple R P' m Q E) :
    Triple R (fun v => P v ∨ P' v) m Q E :=
  fun env henv w hw => hw.elim (h env henv w) (h' env henv w)

theorem and {m : Prog σ ρ τ α} (h : Triple R P m Q E) (h' : Triple R P' m Q' E') :
    Triple R (fun v => P v ∧ P' v) m (fun a v => Q a v ∧ Q' a v) (fun v => E v ∧ E' v) := by
  intro env henv w hw
  have h₁ := h env henv w hw.1
  have h₂ := h' env henv w hw.2
  exact ⟨fun a ha => ⟨h₁.1 a ha, h₂.1 a ha⟩, fun hn => ⟨h₁.2 hn, h₂.2 hn⟩⟩

theorem each {body : ι → Prog σ ρ τ Unit} {I : Assn σ ρ τ} (is : List ι)
    (h : ∀ i ∈ is, Triple R I (body i) (fun _ => I) E) :
    Triple R I (Prog.each body is) (fun _ => I) E := by
  induction is with
  | nil => exact pure fun _ => id
  | cons i is ih => exact seq (h i (by simp)) (ih fun j hj => h j (by simp [hj]))

/-- Run rule with the entries left so far: `I rs` holds when they are `rs`. -/
theorem collect {body : ι → Prog σ ρ τ (Option α)} {I : List α → Assn σ ρ τ} (is : List ι)
    (h : ∀ rs, ∀ i ∈ is, Triple R (I rs) (body i) (fun r => I (rs ++ r.toList)) E) (rs : List α) :
    Triple R (I rs) (Prog.collect body is) (fun out => I (rs ++ out)) E := by
  induction is generalizing rs with
  | nil => exact pure fun v hv => (List.append_nil rs).symm ▸ hv
  | cons i is ih =>
    refine bind (h rs i (by simp)) fun r => ?_
    refine bind (ih (fun rs j hj => h rs j (by simp [hj])) (rs ++ r.toList)) fun rest => ?_
    exact pure fun v hv => List.append_assoc rs r.toList rest ▸ hv

/-- The actions of a program are those it adds to the log. -/
theorem watched {f : List (σ × τ) → β} {m : Prog σ ρ τ α} {Q : α × β → Assn σ ρ τ}
    (h : ∀ past, Triple R (fun v => P v ∧ v.log = past) m
      (fun a v => ∃ new, v.log = new ++ past ∧ Q (a, f new.reverse) v) E) :
    Triple R P (m.watched f) Q E := by
  intro env henv w hw
  have hm := h w.log env henv w ⟨hw, rfl⟩
  refine ⟨fun out hout => ?_, fun hnone => hm.2 (Option.map_eq_none_iff.mp hnone)⟩
  obtain ⟨a, ha, rfl⟩ := Option.map_eq_some_iff.mp hout
  obtain ⟨new, hlog, hQ⟩ := hm.1 a ha
  have hnew : (m env w).2.log.take ((m env w).2.log.length - w.log.length) = new := by
    change (m env w).2.log = new ++ w.log at hlog
    rw [hlog, List.length_append, Nat.add_sub_cancel]
    exact List.take_left
  rw [hnew]
  exact hQ

/-- What holds after returning and after a cut-off holds at the end of every run. -/
theorem always {m : Prog σ ρ τ α} (h : Triple R P m (fun _ => E) E) {env : ℕ → σ → σ}
    (henv : ∀ n s, R s (env n s)) {w : World σ ρ τ} (hw : P w.toView) :
    E (m env w).2.toView := by
  have hm := h env henv w hw
  rcases ha : (m env w).1 with _ | a
  · exact hm.2 ha
  · exact hm.1 a ha

theorem trivial (m : Prog σ ρ τ α) : Triple R P m (fun _ _ => True) fun _ => True :=
  fun _ _ _ _ => ⟨fun _ _ => True.intro, fun _ => True.intro⟩

/-- A run that cannot be cut off returns. -/
theorem returns {m : Prog σ ρ τ α} (h : Triple R P m Q fun _ => False) {env : ℕ → σ → σ}
    (henv : ∀ n s, R s (env n s)) {w : World σ ρ τ} (hw : P w.toView) :
    ∃ a, (m env w).1 = some a ∧ Q a (m env w).2.toView := by
  have hm := h env henv w hw
  rcases ha : (m env w).1 with _ | a
  · exact (hm.2 ha).elim
  · exact ⟨a, rfl, hm.1 a ha⟩

end Triple

/-- With a large enough loop budget `m` returns from `w`, always in the same way, and with `Q`. -/
def Returns {σ ρ τ : Type*} {α : Type} (env : ℕ → σ → σ) (w : World σ ρ τ) (m : ℕ → Prog σ ρ τ α)
    (Q : α → World σ ρ τ → Prop) : Prop :=
  ∃ a w', Q a w' ∧ ∃ N, ∀ fuel > N, m fuel env w = (some a, w')

namespace Returns

variable {σ ρ τ : Type*} {α β : Type} {env : ℕ → σ → σ} {w : World σ ρ τ}
  {m : ℕ → Prog σ ρ τ α} {f : ℕ → α → Prog σ ρ τ β} {Q : α → World σ ρ τ → Prop}
  {T : β → World σ ρ τ → Prop}

theorem bind (hm : Returns env w m Q) (hf : ∀ a w', Q a w' → Returns env w' (fun n => f n a) T) :
    Returns env w (fun n => m n >>= f n) T := by
  obtain ⟨a, w₁, hQ, N₁, hrun₁⟩ := hm
  obtain ⟨b, w₂, hT, N₂, hrun₂⟩ := hf a w₁ hQ
  refine ⟨b, w₂, hT, max N₁ N₂, fun fuel hfuel => ?_⟩
  have h₁ := hrun₁ fuel (lt_of_le_of_lt (le_max_left ..) hfuel)
  have h₂ := hrun₂ fuel (lt_of_le_of_lt (le_max_right ..) hfuel)
  exact (Prog.bind_eq h₁).trans h₂

theorem pure {a : α} (h : Q a w) : Returns env w (fun _ => Pure.pure a) Q :=
  ⟨a, w, h, 0, fun _ _ => rfl⟩

theorem post {Q' : α → World σ ρ τ → Prop} (hm : Returns env w m Q)
    (hQ : ∀ a w', Q a w' → Q' a w') : Returns env w m Q' := by
  obtain ⟨a, w', h, hrun⟩ := hm
  exact ⟨a, w', hQ a w' h, hrun⟩

end Returns

end EthernetPing
