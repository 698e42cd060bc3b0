import EthernetPing.Net.TimerLoop

/-!
# The timers over whole runs of the main loop

What happens between two looks at the timeouts lets time pass and may start the timer of TCP.
So the list is right after every round, and the calls of a run can be counted.
-/

namespace EthernetPing

section Rounds

variable {t₀ checked lo : ℕ} {prompt : Prop} {log : List TimerEvent} {t : Timeouts}
  {d : Due SysTimeoutHandler} {ds : List (Due SysTimeoutHandler)} {env : TimerCalls} {L : ℕ}

/-- What happens in the main loop starts the timer of TCP at most. -/
theorem Happening.run_keeps (x : Happening) (h : t.Keeps t₀ checked lo prompt log ds)
    (hlo : lo ≤ t.now) (hroom : t.now + x.ms + 1000 < lo + 2 ^ 31) :
    (∃ ds', (x.run t).Keeps t₀ checked lo prompt log ds') ∧ (x.run t).now = t.now + x.ms := by
  cases x with
  | pass ms =>
    exact ⟨⟨ds, h.lists.pass rfl rfl (Nat.le_add_right _ _), h.onTime, h.timers, h.active,
      fun x hx => (h.past x hx).mono (Nat.add_le_add_right (Nat.le_add_right _ _) _)⟩, rfl⟩
  | tcpRmv =>
    exact ⟨⟨ds, h.lists.pass rfl rfl le_rfl, h.onTime, h.timers,
      fun hp => absurd hp Bool.false_ne_true, h.past⟩, rfl⟩
  | tcpReg active =>
    rw [Happening.run, tcpTimerNeeded]
    split_ifs with hstart
    · rw [Bool.and_eq_true, Bool.not_eq_true'] at hstart
      have htimers := h.timers
      rw [hstart.1] at htimers
      refine ⟨⟨Agenda.insert ⟨t.now + 250, .tcpip⟩ ds, ?_⟩, sysTimeoutAbs_now _ _ _⟩
      rw [sysTimeout, Timeouts.sysNow, ofNat_add_interval]
      exact Timeouts.Keeps.put (d := ⟨t.now + 250, .tcpip⟩) (h.lists.pass rfl rfl le_rfl) h.onTime
        (htimers.cons _) (fun _ => rfl) (by dsimp only; omega)
        (Nat.add_le_add_left (by decide) _) hroom
        (fun _ _ hcyclic => SysTimeoutHandler.noConfusion hcyclic) (fun _ => h.past) h.past
    · refine ⟨⟨ds, h.lists.pass rfl rfl le_rfl, h.onTime, h.timers, fun hp => ?_, h.past⟩, rfl⟩
      by_contra hoff
      rw [Bool.not_eq_true] at hoff
      rw [Bool.and_eq_true, Bool.not_eq_true'] at hstart
      exact hstart ⟨hoff, hp⟩

/-- How long the main loop is busy before it looks at the timeouts. -/
def busyMs (round : List Happening) : ℕ := (round.map Happening.ms).sum

theorem foldl_run_keeps (round : List Happening) (h : t.Keeps t₀ checked lo prompt log ds)
    (hlo : lo ≤ t.now) (hroom : t.now + busyMs round + 1000 < lo + 2 ^ 31) :
    (∃ ds', (round.foldl Happening.run t).Keeps t₀ checked lo prompt log ds') ∧
      (round.foldl Happening.run t).now = t.now + busyMs round := by
  induction round generalizing t ds with
  | nil => exact ⟨⟨ds, h⟩, rfl⟩
  | cons x xs ih =>
    rw [busyMs, List.map_cons, List.sum_cons, ← busyMs] at hroom ⊢
    obtain ⟨⟨ds', hkeeps⟩, hnow⟩ := x.run_keeps h hlo (by omega)
    obtain ⟨hrest, hend⟩ := ih hkeeps (by omega) (by omega)
    exact ⟨hrest, by rw [List.foldl_cons, hend, hnow, Nat.add_assoc]⟩

def lastCheck (t₀ : ℕ) (log : List TimerEvent) : ℕ :=
  log.foldl (fun last x => match x with
    | .check now => now
    | .call _ _ => last) t₀

theorem lastCheck_append (t₀ : ℕ) (l₁ l₂ : List TimerEvent) :
    lastCheck t₀ (l₁ ++ l₂) = lastCheck (lastCheck t₀ l₁) l₂ := List.foldl_append

theorem lastCheck_loop {now : UInt32} {fuel : ℕ} {t' : Timeouts} {calls : List TimerEvent}
    (h : sysCheckTimeoutsLoop env now fuel t = some (t', calls)) : lastCheck t₀ calls = t₀ := by
  induction fuel generalizing t t' calls with
  | zero => cases h
  | succ fuel ih =>
    rw [sysCheckTimeoutsLoop] at h
    split at h
    · cases h
      rfl
    · split at h
      · cases h
        rfl
      · obtain ⟨r, hr, heq⟩ := Option.map_eq_some_iff.mp h
        cases heq
        change lastCheck t₀ r.2 = t₀
        exact ih hr

/-- What holds between the rounds. -/
def Timed (t₀ L : ℕ) (prompt : Prop) (s : Option Timeouts) (log : List TimerEvent) : Prop :=
  ∃ t ds, s = some t ∧ t.Keeps t₀ (lastCheck t₀ log) (lastCheck t₀ log) prompt log ds ∧
    lastCheck t₀ log ≤ t.now ∧ t.now ≤ lastCheck t₀ log + 6 * L

/-- Step lemma: a round of the main loop, with a look at the timeouts that ends. -/
theorem timedLoop_timed {B fuel : ℕ} (hL : ∀ n, env.lapse n ≤ L)
    (hroom : 12 * L + B + 1000 < 2 ^ 31) (hfuel : 6 < fuel) {s : Option Timeouts}
    {round : List Happening} (h : Timed t₀ L (12 * L + B ≤ 1001) s log)
    (hround : busyMs round ≤ B) :
    Timed t₀ L (12 * L + B ≤ 1001) ((timedLoop env fuel).step s round).1
      (log ++ ((timedLoop env fuel).step s round).2) := by
  obtain ⟨t, ds, rfl, hkeeps, hlo, hhi⟩ := h
  obtain ⟨⟨ds₁, hk⟩, hnow⟩ := foldl_run_keeps round hkeeps hlo (by omega)
  generalize ht : round.foldl Happening.run t = t₁ at hk hnow
  have hchecked : t₁.Keeps t₀ t₁.now (lastCheck t₀ log) (12 * L + B ≤ 1001)
      (log ++ [.check t₁.now]) ds₁ := by
    refine ⟨hk.lists, hk.onTime.check (by omega), hk.timers, hk.active, fun x hx => ?_⟩
    rcases List.mem_append.mp hx with hx | hx
    · exact hk.past x hx
    · rw [List.mem_singleton.mp hx]
      trivial
  have hweight : Agenda.weight t₁.now ds₁ ≤ 6 :=
    (Agenda.weight_le _ _).trans (Nat.mul_le_mul_left 2 hk.length_le)
  have hmul := Nat.mul_le_mul_right L hweight
  have hlater : lastCheck t₀ log ≤ t₁.now := by omega
  obtain ⟨t', ds', calls, hloop, hkeeps', hle, hend⟩ := sysCheckTimeoutsLoop_keeps hL hlater
    hchecked le_rfl (hweight.trans_lt hfuel) (by omega) (fun hp => by omega)
  have hlast : lastCheck t₀ (log ++ .check t₁.now :: calls) = t₁.now := by
    rw [lastCheck_append]
    exact lastCheck_loop hloop
  have hstep : (timedLoop env fuel).step (some t) round = (some t', .check t₁.now :: calls) := by
    have hlook : sysCheckTimeouts env fuel t₁ = some (t', .check t₁.now :: calls) := by
      rw [sysCheckTimeouts, Timeouts.sysNow, hloop]
      rfl
    simp only [timedLoop, Option.bind_some, ht, hlook]
  rw [hstep]
  refine ⟨t', ds', rfl, ?_, by rw [hlast]; exact hle, by rw [hlast]; omega⟩
  rw [hlast]
  rw [List.append_assoc] at hkeeps'
  exact hkeeps'

/-- The module as `lwip_init` leaves it. -/
def initTimeouts (t₀ : ℕ) : Timeouts :=
  sysTimeoutsInit { poolFree := memNumSysTimeout, now := t₀ }

/-- The two timers that always run, due after a second. -/
def firstAgenda (t₀ : ℕ) : List (Due SysTimeoutHandler) :=
  [⟨t₀ + 1000, .cyclic .ipReassTmr⟩, ⟨t₀ + 1000, .cyclic .etharpTmr⟩]

theorem sysTimeout_second (t : Timeouts) {tmr : LwipCyclicTimer} (htmr : tmr ≠ .tcpTmr)
    (hfree : t.poolFree ≠ 0) : sysTimeout t tmr.intervalMs (.cyclic tmr) =
      { t with
        poolFree := t.poolFree - 1
        nextTimeout := linkTimeout (Due.timeout ⟨t.now + 1000, .cyclic tmr⟩) t.nextTimeout } := by
  rw [sysTimeout, Timeouts.sysNow, ofNat_add_interval, toNat_intervalMs htmr, sysTimeoutAbs,
    if_neg hfree]
  rfl

theorem initTimeouts_eq (t₀ : ℕ) : initTimeouts t₀ =
    { poolFree := 1, now := t₀, nextTimeout := (firstAgenda t₀).map Due.timeout } := by
  have hsame : timeLessThan (UInt32.ofNat (t₀ + 1000)) (UInt32.ofNat (t₀ + 1000)) = false := by
    rw [timeLessThan, UInt32.sub_self]
    rfl
  have hreass : LwipCyclicTimer.ipReassTmr ≠ .tcpTmr := by decide
  have harp : LwipCyclicTimer.etharpTmr ≠ .tcpTmr := by decide
  rw [initTimeouts, sysTimeoutsInit, List.foldl_cons, List.foldl_cons, List.foldl_nil,
    sysTimeout_second _ hreass (Nat.succ_ne_zero 2), sysTimeout_second _ harp (Nat.succ_ne_zero 1)]
  dsimp only [linkTimeout, Due.timeout]
  rw [hsame]
  rfl

theorem timed_init (t₀ L : ℕ) (prompt : Prop) :
    Timed t₀ L prompt (some (initTimeouts t₀)) [] := by
  have hall : ∀ d ∈ firstAgenda t₀, d.time = t₀ + 1000 := fun d hd => by
    rcases List.mem_pair.mp hd with rfl | rfl <;> rfl
  have hlast : lastCheck t₀ [] = t₀ := rfl
  have hnone (tmr : LwipCyclicTimer) : callsOf tmr [] = 0 := rfl
  refine ⟨_, firstAgenda t₀, congrArg some (initTimeouts_eq t₀), ⟨⟨rfl, ?_, rfl, fun d hd => ?_⟩,
    ⟨fun tmr _ d hd _ => ?_, fun tmr _ => ?_, .nil, nofun⟩, List.Perm.refl _, nofun, nofun⟩,
    le_rfl, Nat.le_add_right _ _⟩
  · exact List.pairwise_pair.mpr le_rfl
  · rw [hall d hd, hlast]
    exact ⟨Nat.lt_add_of_pos_right (by decide), le_rfl⟩
  · rw [hall d hd, hnone, Nat.zero_add, Nat.one_mul]
    exact ⟨le_rfl, fun _ => rfl⟩
  · rw [hnone, Nat.zero_mul]
    exact le_rfl

/-- Rounds with a held button, with a connection that comes and goes. -/
def buttonRounds : List (List Happening) :=
  [[.pass 200, .tcpReg true], [.pass 600], [.tcpReg false, .pass 200, .tcpRmv], [.pass 500]]

def shortCalls : TimerCalls := ⟨fun _ => 3, fun _ => true⟩

/-- If no round takes longer than a second with the calls in it and in the round before, the timers
that always run have been called exactly once for every second that was over when the timeouts
were looked at. -/
theorem timers_exact {B fuel : ℕ} {rounds : List (List Happening)} {tmr : LwipCyclicTimer}
    (hL : ∀ n, env.lapse n ≤ L) (hB : ∀ round ∈ rounds, busyMs round ≤ B)
    (hprompt : 12 * L + B ≤ 1001) (hfuel : 6 < fuel) (htmr : tmr ≠ .tcpTmr) (t₀ : ℕ) :
    let r := (timedLoop env fuel).run (some (initTimeouts t₀)) rounds
    callsOf tmr r.2 = (lastCheck t₀ r.2 - t₀) / 1000 := by
  intro r
  obtain ⟨t, ds, hsome, hkeeps, -, -⟩ := Machine.run_inv_nil (m := timedLoop env fuel)
    (P := fun _ _ round => busyMs round ≤ B)
    (fun _ _ _ h hround => timedLoop_timed hL (by omega) hfuel h hround)
    (timed_init t₀ L (12 * L + B ≤ 1001))
    (Machine.allowed_of_forall fun round hround _ _ => hB round hround)
  have hmem : (.cyclic tmr : SysTimeoutHandler) ∈ ds.map Due.what := by
    rw [hkeeps.timers.mem_iff, runningTimers, List.mem_append, List.mem_pair]
    cases tmr with
    | tcpTmr => exact absurd rfl htmr
    | ipReassTmr => exact Or.inr (Or.inl rfl)
    | etharpTmr => exact Or.inr (Or.inr rfl)
  obtain ⟨d, hd, hwhat⟩ := List.mem_map.mp hmem
  have hdue := (hkeeps.onTime.due tmr htmr d hd hwhat).2 hprompt
  have hlate := (hkeeps.lists.ahead d hd).1
  have hcalled := hkeeps.onTime.called tmr htmr
  change t₀ + callsOf tmr r.2 * 1000 ≤ lastCheck t₀ r.2 at hcalled
  change d.time = t₀ + (callsOf tmr r.2 + 1) * 1000 at hdue
  change lastCheck t₀ r.2 < d.time at hlate
  omega

theorem timers_exact_wrapping :
    let r := (timedLoop shortCalls 7).run (some (initTimeouts (2 ^ 32 - 500))) buttonRounds
    callsOf .etharpTmr r.2 = (lastCheck (2 ^ 32 - 500) r.2 - (2 ^ 32 - 500)) / 1000 :=
  timers_exact (fun _ => le_rfl) (by decide) (by decide : 12 * 3 + 600 ≤ 1001) (by decide)
    (by decide) _

end Rounds

end EthernetPing
