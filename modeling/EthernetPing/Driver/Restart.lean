import EthernetPing.Driver.Guard

/-!
# Initialisation after a run

A reset takes the device back to an empty ring, but the driver's `rxPtr` is a static
variable that `init` does not touch. Packets taken before the reset stay in the driver's
history and are hidden here, so that the queue after a reset is the queue of a start.
-/

namespace EthernetPing

/-- The variables without the packets taken so far. -/
def Statics.forget (s : Statics) : Statics := { s with taken := [] }

/-- Driver and device agree on where the next packet is stored, and the next call, if it reads a
packet, reads the first one stored after the reset. -/
structure Resynced (env : ℕ → Board → Board) (w : World Board Statics Event) : Prop where
  rxPtr : w.loc.rxPtr.toNat = w.hw.chip.wrPtr
  first : ∀ (maxlen : UInt16) (t : Taken),
    (ENC28J60.packetReceive maxlen env w).2.loc.taken = w.loc.taken ++ [t] →
      ∃ p, (ENC28J60.packetReceive maxlen env w).2.hw.chip.stored.head? = some p ∧ t.Matches p

/-- The driver from start-up: `init`, then any calls. -/
def driverRun (fuel : ℕ) (calls : List Call) : Drv Unit := do
  ENC28J60.init fuel
  Prog.each Call.run calls

section Restart

variable {s : Statics} {E : DrvAssn}

theorem Statics.forget_eq_load (h : s.rxPtr = RXSTART) : s.forget = .load s.macAddr := by
  rw [forget, load, h]

/-- The first call on an empty ring takes nothing, or the first packet stored. -/
theorem packetReceive_first (past : List (Board × Event)) (s : Statics) (maxlen : UInt16) :
    Triple (Device GuardedMove) (fun v => Guarded 0 past (v.mapLoc Statics.forget) ∧ v.loc = s)
      (ENC28J60.packetReceive maxlen) (fun _ v => v.loc.taken = s.taken ∨
        ∃ p t, v.loc.taken = s.taken ++ [t] ∧ t.Matches p ∧ v.hw.chip.stored.head? = some p)
      E := by
  have hR := Device.host (fun _ _ => GuardedMove.host)
  have hgrow := Device.stored (fun _ _ => GuardedMove.stored)
  have hJ := (((Guarded.kept 0 past).mono (by decide)).mapLoc Statics.forget).and_loc
    (A := [.bank, .readPtr]) fun s' => s' = s
  refine packetReceive_queue (f := Statics.forget) (A := fun t v => ∃ p, t.Matches p ∧
      v.loc.taken = s.taken ++ [t] ∧ v.hw.chip.stored.head? = some p) (fun _ => rfl) hJ
    (fun v h => h.1.synced) hR hgrow maxlen (fun v h => .inl (congrArg Statics.taken h.2)) ?_ ?_
  · rintro p t v ⟨-, rfl⟩ hp ht
    exact ⟨p, ht.toMatches, rfl, hp⟩
  · intro t
    apply Triple.of_exists
    intro p
    refine Triple.pre (P := fun v => (v.loc.taken = s.taken ++ [t] ∧
      v.hw.chip.stored.head? = some p) ∧ t.Matches p) ?_ fun v h => ⟨h.2, h.1⟩
    apply Triple.of_fact
    intro ht
    -- what was stored first stays first
    have hkept : Kept (Device GuardedMove) [.bank, .rxFree, .pktDec] fun v =>
        v.loc.taken = s.taken ++ [t] ∧ v.hw.chip.stored.head? = some p :=
      .of_stored _ hgrow (φ := fun s' ps => s'.taken = s.taken ++ [t] ∧ ps.head? = some p)
        fun h ⟨qs, hqs⟩ => ⟨h.1, by rw [← hqs, List.head?_append, h.2]; rfl⟩
    exact (ENC28J60.freeSpace_kept hkept hR (by decide) (by decide) (by decide) t.nextPtr).post
      fun _ v h => .inr ⟨p, t, h.1, ht, h.2⟩

/-- From whatever state, `init` brings driver and device together exactly if `rxPtr` happens to be
`RXSTART` when it is called. -/
theorem init_resynced_iff {env : ℕ → Board → Board} (henv : ∀ n b, Device GuardedMove b (env n b))
    {fuel : ℕ} {w w₁ : World Board Statics Event}
    (hinit : ENC28J60.init fuel env w = (some (), w₁)) :
    Resynced env w₁ ↔ w.loc.rxPtr = RXSTART := by
  have hspec := ENC28J60.init_spec (Device.host fun _ _ => GuardedMove.host)
    (Device.idle (fun _ _ => GuardedMove.host) fun _ _ => GuardedMove.idle) w.loc fuel env henv w
    rfl
  rw [hinit] at hspec
  obtain ⟨hloc, hchip⟩ := hspec.1 () rfl
  have hptr : w₁.loc.rxPtr = w.loc.rxPtr := congrArg Statics.rxPtr hloc
  constructor
  · intro h
    have hsame := h.rxPtr
    rw [hptr, hchip.wrPtr] at hsame
    exact UInt16.toNat_inj.mp hsame
  · intro h
    refine ⟨by rw [hptr, hchip.wrPtr, h], fun maxlen t ht => ?_⟩
    have hload : w₁.loc.forget = .load w.loc.macAddr := by
      rw [hloc]
      exact Statics.forget_eq_load h
    have hguard : Guarded 0 w₁.log (w₁.toView.mapLoc Statics.forget) :=
      Started.guarded (v := w₁.toView.mapLoc Statics.forget) hload hchip
    have hfirst := (packetReceive_first w₁.log w₁.loc maxlen (E := fun v =>
      v.loc.taken = w₁.loc.taken ∨ ∃ p t, v.loc.taken = w₁.loc.taken ++ [t] ∧ t.Matches p ∧
        v.hw.chip.stored.head? = some p)).always henv ⟨hguard, rfl⟩
    rw [ht] at hfirst
    obtain hnone | ⟨p, t', htaken, hmatch, hp⟩ := hfirst
    · simp at hnone
    · obtain rfl : t = t' := by simpa using htaken
      exact ⟨p, hp, hmatch⟩

theorem init_resynced_iff_bench :
    Resynced (feed fun _ => none) (ENC28J60.init 1 (feed fun _ => none) benchWorld).2 ↔
      benchWorld.loc.rxPtr = RXSTART :=
  init_resynced_iff (feed_guarded _) (Prog.eq_of_returns (by decide +kernel))

/-- After one packet, `rxPtr` is behind it, and a second `init` leaves it there. -/
theorem init_not_resynced : ¬ ∀ (env : ℕ → Board → Board) (mac : Fin 6 → UInt8)
    (w w₁ : World Board Statics Event) (fuel : ℕ) (calls : List Call),
    (∀ n b, Device GuardedMove b (env n b)) → w.loc = Statics.load mac →
      (do driverRun fuel calls; ENC28J60.init fuel : Drv Unit) env w = (some (), w₁) →
        Resynced env w₁ := by
  intro h
  have hret : ((do driverRun 1 [.packetReceive 400]; ENC28J60.init 1 : Drv Unit)
      (feed oneArrival) benchWorld).1 = some () := by decide +kernel
  have hsync := (h (feed oneArrival) _ benchWorld _ 1 [.packetReceive 400]
    (feed_guarded oneArrival) rfl (Prog.eq_of_returns hret)).rxPtr
  have hptr : ((do driverRun 1 [.packetReceive 400]; ENC28J60.init 1 : Drv Unit)
      (feed oneArrival) benchWorld).2.loc.rxPtr = 0x46 := by decide +kernel
  have hwr : ((do driverRun 1 [.packetReceive 400]; ENC28J60.init 1 : Drv Unit)
      (feed oneArrival) benchWorld).2.hw.chip.wrPtr = 0 := by decide +kernel
  rw [hptr, hwr] at hsync
  exact absurd hsync (by decide)

end Restart

end EthernetPing
