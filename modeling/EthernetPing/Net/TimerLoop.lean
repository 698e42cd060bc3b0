import EthernetPing.Net.Timeouts

/-!
# One look at the timeouts

Each timer is in the list once, so its pool never runs empty. The timers that always run keep
to the seconds since the start: what a call comes late is made up for by the next one.
-/

namespace EthernetPing

section OnTime

variable {t₀ checked lo n : ℕ} {prompt : Prop} {log : List TimerEvent} {t : Timeouts}
  {d e : Due SysTimeoutHandler} {ds : List (Due SysTimeoutHandler)}

def TimerEvent.isCall (tmr : LwipCyclicTimer) : TimerEvent → Bool
  | .call c _ => c == tmr
  | .check _ => false

def callsOf (tmr : LwipCyclicTimer) (log : List TimerEvent) : ℕ := log.countP (·.isCall tmr)

/-- Calls of `tcp_tmr` are at least 250 milliseconds apart. -/
def TimerEvent.Apart : TimerEvent → TimerEvent → Prop
  | .call .tcpTmr m, .call .tcpTmr n => m + 250 ≤ n
  | _, _ => True

/-- The callbacks in the list. -/
def runningTimers (tcpipTcpTimerActive : Bool) : List SysTimeoutHandler :=
  (if tcpipTcpTimerActive then [.tcpip] else []) ++ [.cyclic .ipReassTmr, .cyclic .etharpTmr]

/-- What the log says of the agenda: the next call of a timer that always runs is due a second
after the one before was due, or later if the calls were not `prompt`. -/
structure OnTime (t₀ checked : ℕ) (prompt : Prop) (log : List TimerEvent)
    (ds : List (Due SysTimeoutHandler)) : Prop where
  due : ∀ tmr, tmr ≠ .tcpTmr → ∀ d ∈ ds, d.what = .cyclic tmr →
    t₀ + (callsOf tmr log + 1) * 1000 ≤ d.time ∧
      (prompt → d.time = t₀ + (callsOf tmr log + 1) * 1000)
  called : ∀ tmr, tmr ≠ .tcpTmr → t₀ + callsOf tmr log * 1000 ≤ checked
  apart : log.Pairwise TimerEvent.Apart
  tcp : ∀ d ∈ ds, d.what = .tcpip → ∀ x ∈ log, x.Apart (.call .tcpTmr d.time)

theorem callsOf_append (tmr : LwipCyclicTimer) (l₁ l₂ : List TimerEvent) :
    callsOf tmr (l₁ ++ l₂) = callsOf tmr l₁ + callsOf tmr l₂ := List.countP_append

theorem callsOf_call (tmr c : LwipCyclicTimer) (n : ℕ) :
    callsOf tmr [.call c n] = if c = tmr then 1 else 0 := by
  simp [callsOf, TimerEvent.isCall, List.countP_cons]

theorem TimerEvent.Apart.mono {x : TimerEvent} {m : ℕ} (h : x.Apart (.call .tcpTmr m))
    (hmn : m ≤ n) : x.Apart (.call .tcpTmr n) := by
  cases x with
  | check => trivial
  | call c k =>
    cases c with
    | tcpTmr => exact h.trans hmn
    | ipReassTmr => trivial
    | etharpTmr => trivial

theorem TimerEvent.apart_of_ne (x : TimerEvent) {c : LwipCyclicTimer} (hc : c ≠ .tcpTmr) :
    x.Apart (.call c n) := by
  cases c with
  | tcpTmr => exact absurd rfl hc
  | ipReassTmr => cases x <;> simp [TimerEvent.Apart]
  | etharpTmr => cases x <;> simp [TimerEvent.Apart]

theorem OnTime.check (h : OnTime t₀ checked prompt log ds) (hle : checked ≤ n) :
    OnTime t₀ n prompt (log ++ [.check n]) ds := by
  have hsame (tmr : LwipCyclicTimer) : callsOf tmr (log ++ [.check n]) = callsOf tmr log :=
    (callsOf_append tmr log _).trans (Nat.add_zero _)
  refine ⟨fun tmr htmr e he hw => ?_, fun tmr htmr => ?_, ?_, fun e he hw x hx => ?_⟩
  · rw [hsame]
    exact h.due tmr htmr e he hw
  · rw [hsame]
    exact (h.called tmr htmr).trans hle
  · refine List.pairwise_append.mpr ⟨h.apart, List.pairwise_singleton _ _, fun x _ y hy => ?_⟩
    rw [List.mem_singleton.mp hy]
    cases x <;> simp [TimerEvent.Apart]
  · rcases List.mem_append.mp hx with hx | hx
    · exact h.tcp e he hw x hx
    · rw [List.mem_singleton.mp hx]
      trivial

theorem OnTime.call (h : OnTime t₀ checked prompt log (d :: ds))
    (hnodup : ((d :: ds).map Due.what).Nodup) (hvalid : d.what ≠ .cyclic .tcpTmr)
    (hd : d.time ≤ checked) (hn : d.time ≤ n) :
    OnTime t₀ checked prompt (log ++ [.call d.what.tmr n]) ds := by
  have hother : ∀ e ∈ ds, e.what ≠ d.what := fun e he heq =>
    (List.nodup_cons.mp hnodup).1 (heq ▸ List.mem_map_of_mem he)
  refine ⟨fun tmr htmr e he hw => ?_, fun tmr htmr => ?_, ?_, fun e he hw x hx => ?_⟩
  · have hne : ¬ d.what.tmr = tmr := by
      intro heq
      cases hwhat : d.what with
      | tcpip => exact htmr (heq.symm.trans (congrArg SysTimeoutHandler.tmr hwhat))
      | cyclic c =>
        rw [hwhat] at heq
        exact hother e he (hw.trans (hwhat.trans (congrArg _ heq)).symm)
    rw [callsOf_append, callsOf_call, if_neg hne, Nat.add_zero]
    exact h.due tmr htmr e (List.mem_cons_of_mem d he) hw
  · rw [callsOf_append, callsOf_call]
    split_ifs with heq
    · cases hwhat : d.what with
      | tcpip => exact absurd (heq.symm.trans (congrArg SysTimeoutHandler.tmr hwhat)) htmr
      | cyclic c =>
        rw [hwhat] at heq
        have hdue := (h.due tmr htmr d List.mem_cons_self (hwhat.trans (congrArg _ heq))).1
        omega
    · exact h.called tmr htmr
  · refine List.pairwise_append.mpr ⟨h.apart, List.pairwise_singleton _ _, fun x hx y hy => ?_⟩
    rw [List.mem_singleton.mp hy]
    cases hwhat : d.what with
    | tcpip => exact (h.tcp d List.mem_cons_self hwhat x hx).mono hn
    | cyclic c => exact x.apart_of_ne fun hc => hvalid (hwhat.trans (congrArg _ hc))
  · rcases List.mem_append.mp hx with hx | hx
    · exact h.tcp e (List.mem_cons_of_mem d he) hw x hx
    · have hne : d.what.tmr ≠ .tcpTmr := by
        intro heq
        cases hwhat : d.what with
        | tcpip => exact hother e he (hw.trans hwhat.symm)
        | cyclic c =>
          rw [hwhat] at heq
          exact hvalid (hwhat.trans (congrArg _ heq))
      rw [List.mem_singleton.mp hx]
      cases htmr : d.what.tmr with
      | tcpTmr => exact absurd htmr hne
      | ipReassTmr => trivial
      | etharpTmr => trivial

theorem OnTime.put (h : OnTime t₀ checked prompt log ds)
    (hdue : ∀ tmr, tmr ≠ .tcpTmr → d.what = .cyclic tmr →
      t₀ + (callsOf tmr log + 1) * 1000 ≤ d.time ∧
        (prompt → d.time = t₀ + (callsOf tmr log + 1) * 1000))
    (htcp : d.what = .tcpip → ∀ x ∈ log, x.Apart (.call .tcpTmr d.time)) :
    OnTime t₀ checked prompt log (Agenda.insert d ds) := by
  refine ⟨fun tmr htmr e he => ?_, h.called, h.apart, fun e he => ?_⟩
  · rcases Agenda.mem_insert.mp he with rfl | he
    · exact hdue tmr htmr
    · exact h.due tmr htmr e he
  · rcases Agenda.mem_insert.mp he with rfl | he
    · exact htcp
    · exact h.tcp e he

end OnTime

section Loop

variable {t₀ checked lo : ℕ} {prompt : Prop} {log : List TimerEvent} {t : Timeouts}
  {d : Due SysTimeoutHandler} {ds : List (Due SysTimeoutHandler)} {env : TimerCalls} {L : ℕ}

/-- The invariant: the callbacks in the list are those that should be, each once, and the one of
TCP is there while there are connections. -/
structure Timeouts.Keeps (t₀ checked lo : ℕ) (prompt : Prop) (log : List TimerEvent)
    (t : Timeouts) (ds : List (Due SysTimeoutHandler)) : Prop where
  lists : t.Lists lo ds
  onTime : OnTime t₀ checked prompt log ds
  timers : (ds.map Due.what).Perm (runningTimers t.tcpipTcpTimerActive)
  active : t.tcpPcbs = true → t.tcpipTcpTimerActive = true
  past : ∀ x ∈ log, x.Apart (.call .tcpTmr (t.now + 250))

theorem runningTimers_nodup (active : Bool) : (runningTimers active).Nodup := by
  cases active <;> decide

theorem length_runningTimers (active : Bool) :
    (runningTimers active).length ≤ memNumSysTimeout := by
  cases active <;> decide

theorem tcp_not_running : (.tcpip : SysTimeoutHandler) ∉ runningTimers false := by decide

theorem not_running_cyclic (active : Bool) :
    (.cyclic .tcpTmr : SysTimeoutHandler) ∉ runningTimers active := by
  cases active <;> decide

theorem Timeouts.Keeps.length_le (h : t.Keeps t₀ checked lo prompt log ds) :
    ds.length ≤ memNumSysTimeout := by
  rw [← List.length_map (f := Due.what), h.timers.length_eq]
  exact length_runningTimers _

theorem ofNat_add_interval (n : ℕ) (tmr : LwipCyclicTimer) :
    UInt32.ofNat n + tmr.intervalMs = UInt32.ofNat (n + tmr.intervalMs.toNat) := by
  rw [UInt32.ofNat_add, UInt32.ofNat_toNat]

theorem toNat_intervalMs {tmr : LwipCyclicTimer} (htmr : tmr ≠ .tcpTmr) :
    tmr.intervalMs.toNat = 1000 := by
  cases tmr with
  | tcpTmr => exact absurd rfl htmr
  | ipReassTmr => rfl
  | etharpTmr => rfl

theorem Timeouts.Lists.pass (h : t.Lists lo ds) {t' : Timeouts}
    (hqueue : t'.nextTimeout = t.nextTimeout) (hfree : t'.poolFree = t.poolFree)
    (hnow : t.now ≤ t'.now) : t'.Lists lo ds :=
  ⟨hqueue.trans h.queue, h.sorted, hfree ▸ h.poolFree,
    fun d hd => ⟨(h.ahead d hd).1, (h.ahead d hd).2.trans (by omega)⟩⟩

@[simp] theorem sysTimeoutAbs_now (t : Timeouts) (absTime : UInt32) (h : SysTimeoutHandler) :
    (sysTimeoutAbs t absTime h).now = t.now := by
  unfold sysTimeoutAbs
  split <;> rfl

@[simp] theorem sysTimeoutAbs_tcpPcbs (t : Timeouts) (absTime : UInt32) (h : SysTimeoutHandler) :
    (sysTimeoutAbs t absTime h).tcpPcbs = t.tcpPcbs := by
  unfold sysTimeoutAbs
  split <;> rfl

@[simp] theorem sysTimeoutAbs_active (t : Timeouts) (absTime : UInt32) (h : SysTimeoutHandler) :
    (sysTimeoutAbs t absTime h).tcpipTcpTimerActive = t.tcpipTcpTimerActive := by
  unfold sysTimeoutAbs
  split <;> rfl

theorem Timeouts.Keeps.put (hlists : t.Lists lo ds) (honTime : OnTime t₀ checked prompt log ds)
    (htimers : (d.what :: ds.map Due.what).Perm (runningTimers t.tcpipTcpTimerActive))
    (hactive : t.tcpPcbs = true → t.tcpipTcpTimerActive = true) (hlo : lo < d.time)
    (hhi : d.time ≤ t.now + 1000) (hroom : t.now + 1000 < lo + 2 ^ 31)
    (hdue : ∀ tmr, tmr ≠ .tcpTmr → d.what = .cyclic tmr →
      t₀ + (callsOf tmr log + 1) * 1000 ≤ d.time ∧
        (prompt → d.time = t₀ + (callsOf tmr log + 1) * 1000))
    (htcp : d.what = .tcpip → ∀ x ∈ log, x.Apart (.call .tcpTmr d.time))
    (hpast : ∀ x ∈ log, x.Apart (.call .tcpTmr (t.now + 250))) :
    (sysTimeoutAbs t (UInt32.ofNat d.time) d.what).Keeps t₀ checked lo prompt log
      (Agenda.insert d ds) := by
  have hlen := htimers.length_eq.le.trans (length_runningTimers _)
  rw [List.length_cons, List.length_map] at hlen
  refine ⟨hlists.put hlen hlo hhi hroom, honTime.put hdue htcp, ?_, ?_, ?_⟩
  · rw [sysTimeoutAbs_active]
    exact ((Agenda.insert_perm d ds).map _).trans htimers
  · rw [sysTimeoutAbs_active, sysTimeoutAbs_tcpPcbs]
    exact hactive
  · rw [sysTimeoutAbs_now]
    exact hpast

variable (env) in
/-- `tcp_tmr` is called, and its timer is put down again if there are connections. -/
theorem tcpipTcpTimer_keeps (h : t.Lists lo ds) (honTime : OnTime t₀ checked prompt log ds)
    (hlog : ∀ x ∈ log, x.Apart (.call .tcpTmr (t.now + env.lapse t.calls + 250)))
    (htimers : (ds.map Due.what).Perm (runningTimers false)) (hact : t.tcpipTcpTimerActive = true)
    (hlo : lo ≤ t.now) (hroom : t.now + env.lapse t.calls + 1000 < lo + 2 ^ 31) :
    (∃ ds', (tcpipTcpTimer env t).Keeps t₀ checked lo prompt log ds' ∧
      (ds' = ds ∨ ∃ d : Due SysTimeoutHandler, t.now + 250 ≤ d.time ∧
        ds' = Agenda.insert d ds)) ∧
      (tcpipTcpTimer env t).now = t.now + env.lapse t.calls := by
  have hpass : (t.callTmr env .tcpTmr).Lists lo ds := h.pass rfl rfl (Nat.le_add_right _ _)
  unfold tcpipTcpTimer
  dsimp only
  split
  · next hpcbs =>
    refine ⟨⟨_, ?_, Or.inr ⟨⟨t.now + env.lapse t.calls + 250, .tcpip⟩, ?_, rfl⟩⟩,
      sysTimeoutAbs_now _ _ _⟩
    · rw [sysTimeout, Timeouts.sysNow, ofNat_add_interval]
      refine Timeouts.Keeps.put (d := ⟨t.now + env.lapse t.calls + 250, .tcpip⟩) hpass honTime
        ?_ (fun _ => hact) ?_ ?_ hroom nofun (fun _ => hlog) hlog
      · exact hact ▸ htimers.cons _
      · dsimp only
        omega
      · exact Nat.add_le_add_left (by decide) _
    · dsimp only
      omega
  · next hpcbs =>
    exact ⟨⟨ds, ⟨hpass.pass rfl rfl le_rfl, honTime, htimers, fun hp => absurd hp hpcbs, hlog⟩,
      Or.inl rfl⟩, rfl⟩

variable (env) in
/-- A timer that always runs is called, and put down again for a second after it was due, or a
second from now if that is over. -/
theorem lwipCyclicTimer_keeps {tmr : LwipCyclicTimer} {due : ℕ} (h : t.Lists lo ds)
    (hcur : t.currentTimeoutDueTime = UInt32.ofNat due)
    (honTime : OnTime t₀ checked prompt log ds) (htmr : tmr ≠ .tcpTmr)
    (hdue : t₀ + callsOf tmr log * 1000 ≤ due ∧ (prompt → due = t₀ + callsOf tmr log * 1000))
    (htimers : (.cyclic tmr :: ds.map Due.what).Perm (runningTimers t.tcpipTcpTimerActive))
    (hact : t.tcpPcbs = true → t.tcpipTcpTimerActive = true)
    (hlo : lo < due) (hhi : due ≤ t.now)
    (hroom : t.now + env.lapse t.calls + 1000 < lo + 2 ^ 31)
    (hprompt : prompt → t.now + env.lapse t.calls ≤ due + 1000)
    (hpast : ∀ x ∈ log, x.Apart (.call .tcpTmr (t.now + env.lapse t.calls + 250))) :
    (∃ d : Due SysTimeoutHandler, due + 1000 ≤ d.time ∧ t.now ≤ d.time ∧
      (lwipCyclicTimer env t tmr).Keeps t₀ checked lo prompt log (Agenda.insert d ds)) ∧
      (lwipCyclicTimer env t tmr).now = t.now + env.lapse t.calls := by
  have hms := toNat_intervalMs htmr
  have hpass : (t.callTmr env tmr).Lists lo ds := h.pass rfl rfl (Nat.le_add_right _ _)
  have hover : timeLessThan (UInt32.ofNat (due + 1000)) (UInt32.ofNat (t.now + env.lapse t.calls)) =
      true ↔ due + 1000 < t.now + env.lapse t.calls :=
    timeLessThan_ofNat (by omega) (by omega)
  have hput {time : ℕ} (htime : due + 1000 ≤ time)
      (hsoon : time ≤ t.now + env.lapse t.calls + 1000) (hexact : prompt → time = due + 1000) :
      (sysTimeoutAbs (t.callTmr env tmr) (UInt32.ofNat time) (.cyclic tmr)).Keeps t₀ checked lo
        prompt log (Agenda.insert ⟨time, .cyclic tmr⟩ ds) := by
    refine Timeouts.Keeps.put (d := ⟨time, .cyclic tmr⟩) hpass honTime htimers ?_ (by
      dsimp only; omega) hsoon hroom (fun c _ hc => ?_) nofun hpast
    · intro hp
      change (if tmr = .tcpTmr then _ else t.tcpPcbs) = true at hp
      rw [if_neg htmr] at hp
      exact hact hp
    · cases hc
      dsimp only
      refine ⟨by omega, fun hp => ?_⟩
      have := hexact hp
      have := hdue.2 hp
      omega
  have hnow : (t.callTmr env tmr).sysNow = UInt32.ofNat (t.now + env.lapse t.calls) := rfl
  have hcur' : (t.callTmr env tmr).currentTimeoutDueTime = UInt32.ofNat due := hcur
  unfold lwipCyclicTimer
  dsimp only
  rw [hcur', hnow, ofNat_add_interval, ofNat_add_interval, hms]
  split
  · next hlt =>
    have hlt' := hover.mp hlt
    refine ⟨⟨_, ?_, ?_, hput (by omega) le_rfl fun hp => ?_⟩, sysTimeoutAbs_now _ _ _⟩
    · dsimp only
      omega
    · dsimp only
      omega
    · have := hprompt hp
      omega
  · next hle =>
    rw [hover, not_lt] at hle
    exact ⟨⟨_, le_rfl, (Nat.le_add_right _ _).trans hle, hput le_rfl (by omega) fun _ => rfl⟩,
      sysTimeoutAbs_now _ _ _⟩

/-- Step lemma: the callback that has expired is called, and its timer is put down again. -/
theorem call_keeps (h : t.Keeps t₀ checked lo prompt log (d :: ds)) (hd : d.time ≤ checked)
    (hnow : checked ≤ t.now) (hlapse : env.lapse t.calls ≤ L)
    (hroom : t.now + L + 1000 < lo + 2 ^ 31) (hprompt : prompt → t.now + L ≤ lo + 1001) :
    let t' := d.what.call env { t with
      nextTimeout := ds.map Due.timeout
      currentTimeoutDueTime := UInt32.ofNat d.time
      poolFree := t.poolFree + 1 }
    (∃ ds', t'.Keeps t₀ checked lo prompt (log ++ [.call d.what.tmr t'.now]) ds' ∧
      Agenda.weight checked ds' < Agenda.weight checked (d :: ds)) ∧
      t'.now = t.now + env.lapse t.calls := by
  obtain ⟨time, what⟩ := d
  have hpop := h.lists.pop (UInt32.ofNat time)
  have hahead := h.lists.ahead _ List.mem_cons_self
  have hnodup := h.timers.nodup_iff.mpr (runningTimers_nodup _)
  have hmem : what ∈ runningTimers t.tcpipTcpTimerActive := h.timers.mem_iff.mp List.mem_cons_self
  have hvalid : what ≠ .cyclic .tcpTmr := fun heq => not_running_cyclic _ (heq ▸ hmem)
  dsimp only at hd hahead ⊢
  have hcalled := h.onTime.call (n := t.now + env.lapse t.calls) hnodup hvalid hd (by
    dsimp only; omega)
  have hgone := Agenda.weight_pos (d := ⟨time, what⟩) hd
  cases what with
  | tcpip =>
    have hact : t.tcpipTcpTimerActive = true := by
      by_contra hoff
      rw [Bool.not_eq_true] at hoff
      exact tcp_not_running (hoff ▸ hmem)
    have htimers := h.timers
    rw [hact] at htimers
    have hlog : ∀ x ∈ log ++ [.call .tcpTmr (t.now + env.lapse t.calls)],
        x.Apart (.call .tcpTmr (t.now + env.lapse t.calls + 250)) := by
      intro x hx
      rcases List.mem_append.mp hx with hx | hx
      · exact (h.onTime.tcp _ List.mem_cons_self rfl x hx).mono (by dsimp only; omega)
      · rw [List.mem_singleton.mp hx]
        exact le_rfl
    obtain ⟨⟨ds', hkeeps, hds⟩, hnow'⟩ := tcpipTcpTimer_keeps env hpop hcalled hlog
      htimers.cons_inv hact (by dsimp only; omega) (by dsimp only; omega)
    refine ⟨⟨ds', hnow' ▸ hkeeps, ?_⟩, hnow'⟩
    rw [Agenda.weight_cons]
    rcases hds with rfl | ⟨e, he, rfl⟩
    · omega
    · dsimp only at he
      have hlt := Agenda.weight_lt (d := ⟨time, .tcpip⟩) (e := e) hd (by dsimp only; omega)
        (by omega)
      rw [Agenda.weight_insert]
      omega
  | cyclic tmr =>
    have htmr : tmr ≠ .tcpTmr := fun heq => hvalid (congrArg _ heq)
    have hdue : t₀ + callsOf tmr (log ++ [.call tmr (t.now + env.lapse t.calls)]) * 1000 ≤ time ∧
        (prompt → time =
          t₀ + callsOf tmr (log ++ [.call tmr (t.now + env.lapse t.calls)]) * 1000) := by
      rw [callsOf_append, callsOf_call, if_pos rfl]
      exact h.onTime.due tmr htmr _ List.mem_cons_self rfl
    obtain ⟨⟨e, hlate, hnext, hkeeps⟩, hnow'⟩ := lwipCyclicTimer_keeps env hpop rfl
      hcalled htmr hdue h.timers h.active hahead.1 (by dsimp only; omega) (by dsimp only; omega)
      (fun hp => by
        have := hprompt hp
        dsimp only
        omega)
      (fun x hx => by
        rcases List.mem_append.mp hx with hx | hx
        · exact (h.past x hx).mono (by dsimp only; omega)
        · rw [List.mem_singleton.mp hx]
          cases tmr with
          | tcpTmr => exact absurd rfl htmr
          | ipReassTmr => trivial
          | etharpTmr => trivial)
    dsimp only at hnext
    refine ⟨⟨_, hnow' ▸ hkeeps, ?_⟩, hnow'⟩
    have hlt := Agenda.weight_lt (d := ⟨time, .cyclic tmr⟩) (e := e) hd (by dsimp only; omega)
      (by omega)
    rw [Agenda.weight_cons, Agenda.weight_insert]
    omega

/-- What comes later in the list is due later. -/
theorem Timeouts.Keeps.raise (h : t.Keeps t₀ checked lo prompt log ds)
    (hlate : ∀ d ∈ ds, checked < d.time) : t.Keeps t₀ checked checked prompt log ds :=
  ⟨⟨h.lists.queue, h.lists.sorted, h.lists.poolFree,
    fun d hd => ⟨hlate d hd, (h.lists.ahead d hd).2⟩⟩, h.onTime, h.timers, h.active, h.past⟩

/-- Run lemma for the loop: it ends, and leaves nothing that was due when it began. -/
theorem sysCheckTimeoutsLoop_keeps (hL : ∀ n, env.lapse n ≤ L) (hlo : lo ≤ checked) {fuel : ℕ}
    (h : t.Keeps t₀ checked lo prompt log ds) (hnow : checked ≤ t.now)
    (hfuel : Agenda.weight checked ds < fuel)
    (hroom : t.now + Agenda.weight checked ds * L + 1000 < lo + 2 ^ 31)
    (hprompt : prompt → t.now + Agenda.weight checked ds * L ≤ lo + 1001) :
    ∃ t' ds' calls, sysCheckTimeoutsLoop env (UInt32.ofNat checked) fuel t = some (t', calls) ∧
      t'.Keeps t₀ checked checked prompt (log ++ calls) ds' ∧ checked ≤ t'.now ∧
      t'.now ≤ t.now + Agenda.weight checked ds * L := by
  induction fuel generalizing t ds log with
  | zero => exact absurd hfuel (Nat.not_lt_zero _)
  | succ fuel ih =>
    rw [sysCheckTimeoutsLoop, h.lists.queue]
    cases ds with
    | nil =>
      refine ⟨t, [], [], rfl, ?_, hnow, Nat.le_add_right _ _⟩
      rw [List.append_nil]
      exact h.raise fun d hd => absurd hd List.not_mem_nil
    | cons d ds =>
      have hahead := h.lists.ahead d List.mem_cons_self
      have hcmp : timeLessThan (UInt32.ofNat checked) (UInt32.ofNat d.time) = true ↔
          checked < d.time :=
        timeLessThan_ofNat (by omega) (by omega)
      change ∃ t' ds' calls, (if timeLessThan (UInt32.ofNat checked) (UInt32.ofNat d.time) then _
        else _) = _ ∧ _
      split
      · next hlt =>
        refine ⟨t, d :: ds, [], rfl, ?_, hnow, Nat.le_add_right _ _⟩
        rw [List.append_nil]
        exact h.raise fun e he => (hcmp.mp hlt).trans_le (h.lists.sorted.first_le e he)
      · next hge =>
        rw [hcmp, not_lt] at hge
        have hone : L ≤ Agenda.weight checked (d :: ds) * L :=
          Nat.le_mul_of_pos_left L ((Agenda.weight_pos hge).trans_le (Nat.le_add_right _ _))
        obtain ⟨⟨ds', hkeeps, hless⟩, hnow'⟩ := call_keeps h hge hnow (hL t.calls) (by omega)
          fun hp => (Nat.add_le_add_left hone _).trans (hprompt hp)
        generalize hcall : d.what.call env _ = t₁ at hkeeps hnow'
        have hmul : Agenda.weight checked ds' * L + L ≤ Agenda.weight checked (d :: ds) * L := by
          rw [← Nat.succ_mul]
          exact Nat.mul_le_mul_right L hless
        have hlapse := hL t.calls
        obtain ⟨t', ds'', calls, hloop, hk, hle, hend⟩ := ih hkeeps (by omega) (by omega)
          (by omega) fun hp => by
            have := hprompt hp
            omega
        refine ⟨t', ds'', .call d.what.tmr t₁.now :: calls, ?_, ?_, hle, by omega⟩
        · dsimp only [Due.timeout]
          rw [hcall, hloop]
          rfl
        · rw [List.append_assoc] at hk
          exact hk

end Loop

end EthernetPing
