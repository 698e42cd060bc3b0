import EthernetPing.Lib.Agenda
import EthernetPing.Lib.Machine
import EthernetPing.Lib.SeqNum

/-!
# The timers of the stack

The timeouts wait in one list in the order of their times, which are readings of a 32-bit
millisecond counter that wraps. The main loop looks at the list once in each round. The
timers of IP reassembly and of ARP always run, the one of TCP while there are connections.
-/

namespace EthernetPing

/-- The elements of `lwip_cyclic_timers`. -/
inductive LwipCyclicTimer where
  | tcpTmr | ipReassTmr | etharpTmr
  deriving DecidableEq, Repr

def LwipCyclicTimer.intervalMs : LwipCyclicTimer → UInt32
  | .tcpTmr => 250
  | .ipReassTmr => 1000
  | .etharpTmr => 1000

/-- A callback of a timeout, with its argument. -/
inductive SysTimeoutHandler where
  | tcpip
  | cyclic (timer : LwipCyclicTimer)
  deriving DecidableEq, Repr

structure SysTimeo where
  time : UInt32
  h : SysTimeoutHandler
  deriving DecidableEq, Repr

/-- The variables of the module, the free elements of its memory pool, and what it looks at:
whether there are active or waiting connections, and the milliseconds since the start. -/
structure Timeouts where
  nextTimeout : List SysTimeo := []
  currentTimeoutDueTime : UInt32 := 0
  tcpipTcpTimerActive : Bool := false
  poolFree : ℕ
  tcpPcbs : Bool := false
  now : ℕ
  calls : ℕ := 0
  deriving DecidableEq, Repr

/-- What the timer functions do in their calls, in order: how long they take, and whether
`tcp_tmr` leaves a connection. -/
structure TimerCalls where
  lapse : ℕ → ℕ
  leaves : ℕ → Bool

/-- What is noted of a round of the main loop: when the timeouts are looked at, and which timer
functions have returned when. -/
inductive TimerEvent where
  | check (now : ℕ)
  | call (tmr : LwipCyclicTimer) (now : ℕ)
  deriving DecidableEq, Repr

def timeLessThan (t compareTo : UInt32) : Bool := 0x7fffffff < t - compareTo

/-- `MEMP_NUM_SYS_TIMEOUT`: one for each timer. -/
def memNumSysTimeout : ℕ := 3

def Timeouts.sysNow (t : Timeouts) : UInt32 := UInt32.ofNat t.now

/-- Where the loop of `sys_timeout_abs` links a timeout into the list. -/
def linkTimeout (timeout : SysTimeo) : List SysTimeo → List SysTimeo
  | [] => [timeout]
  | t :: rest =>
    if timeLessThan timeout.time t.time then timeout :: t :: rest
    else t :: linkTimeout timeout rest

def sysTimeoutAbs (t : Timeouts) (absTime : UInt32) (h : SysTimeoutHandler) : Timeouts :=
  if t.poolFree = 0 then t
  else
    { t with
      poolFree := t.poolFree - 1, nextTimeout := linkTimeout ⟨absTime, h⟩ t.nextTimeout }

def sysTimeout (t : Timeouts) (msecs : UInt32) (h : SysTimeoutHandler) : Timeouts :=
  sysTimeoutAbs t (t.sysNow + msecs) h

/-- A call of a timer function. -/
def Timeouts.callTmr (env : TimerCalls) (t : Timeouts) (tmr : LwipCyclicTimer) : Timeouts :=
  { t with
    now := t.now + env.lapse t.calls
    tcpPcbs := if tmr = .tcpTmr then t.tcpPcbs && env.leaves t.calls else t.tcpPcbs
    calls := t.calls + 1 }

def tcpipTcpTimer (env : TimerCalls) (t : Timeouts) : Timeouts :=
  let t := t.callTmr env .tcpTmr
  if t.tcpPcbs then sysTimeout t LwipCyclicTimer.tcpTmr.intervalMs .tcpip
  else { t with tcpipTcpTimerActive := false }

def tcpTimerNeeded (t : Timeouts) : Timeouts :=
  if !t.tcpipTcpTimerActive && t.tcpPcbs then
    sysTimeout { t with tcpipTcpTimerActive := true } LwipCyclicTimer.tcpTmr.intervalMs .tcpip
  else t

def lwipCyclicTimer (env : TimerCalls) (t : Timeouts) (cyclic : LwipCyclicTimer) : Timeouts :=
  let t := t.callTmr env cyclic
  let nextTimeoutTime := t.currentTimeoutDueTime + cyclic.intervalMs
  if timeLessThan nextTimeoutTime t.sysNow then
    sysTimeoutAbs t (t.sysNow + cyclic.intervalMs) (.cyclic cyclic)
  else sysTimeoutAbs t nextTimeoutTime (.cyclic cyclic)

/-- The timer function that a callback calls. -/
def SysTimeoutHandler.tmr : SysTimeoutHandler → LwipCyclicTimer
  | .tcpip => .tcpTmr
  | .cyclic timer => timer

def SysTimeoutHandler.call (env : TimerCalls) (t : Timeouts) : SysTimeoutHandler → Timeouts
  | .tcpip => tcpipTcpTimer env t
  | .cyclic timer => lwipCyclicTimer env t timer

/-- The timer of TCP is not among those that are started. -/
def sysTimeoutsInit (t : Timeouts) : Timeouts :=
  [LwipCyclicTimer.ipReassTmr, .etharpTmr].foldl
    (fun t cyclic => sysTimeout t cyclic.intervalMs (.cyclic cyclic)) t

/-- The loop of `sys_check_timeouts`, which looks at the clock only once; `none` if it has not
ended after `fuel` rounds. -/
def sysCheckTimeoutsLoop (env : TimerCalls) (now : UInt32) :
    ℕ → Timeouts → Option (Timeouts × List TimerEvent)
  | 0, _ => none
  | fuel + 1, t =>
    match t.nextTimeout with
    | [] => some (t, [])
    | tmptimeout :: rest =>
      if timeLessThan now tmptimeout.time then some (t, [])
      else
        let t :=
          { t with
            nextTimeout := rest
            currentTimeoutDueTime := tmptimeout.time
            poolFree := t.poolFree + 1 }
        let t := tmptimeout.h.call env t
        (sysCheckTimeoutsLoop env now fuel t).map fun r =>
          (r.1, .call tmptimeout.h.tmr (t.now) :: r.2)

def sysCheckTimeouts (env : TimerCalls) (fuel : ℕ) (t : Timeouts) :
    Option (Timeouts × List TimerEvent) :=
  (sysCheckTimeoutsLoop env t.sysNow fuel t).map fun r => (r.1, .check t.now :: r.2)

/-- What happens in the main loop before it looks at the timeouts: time passes, a connection is
registered, as active or in another list, or the last active one is removed. -/
inductive Happening where
  | pass (ms : ℕ)
  | tcpReg (active : Bool)
  | tcpRmv
  deriving DecidableEq, Repr

/-- `TCP_REG` registers a connection and then asks for the timer. -/
def Happening.run (t : Timeouts) : Happening → Timeouts
  | .pass ms => { t with now := t.now + ms }
  | .tcpReg active => tcpTimerNeeded { t with tcpPcbs := t.tcpPcbs || active }
  | .tcpRmv => { t with tcpPcbs := false }

def Happening.ms : Happening → ℕ
  | .pass ms => ms
  | _ => 0

/-- The main loop as a machine: a step is one round. Its state is lost if the look at the timeouts
does not come to an end. -/
def timedLoop (env : TimerCalls) (fuel : ℕ) :
    Machine (Option Timeouts) (List Happening) TimerEvent where
  step t round :=
    match t.bind fun t => sysCheckTimeouts env fuel (round.foldl Happening.run t) with
    | none => (none, [])
    | some r => (some r.1, r.2)

section List

variable {lo : ℕ} {t : Timeouts} {d : Due SysTimeoutHandler} {ds : List (Due SysTimeoutHandler)}

theorem timeLessThan_eq (t compareTo : UInt32) : timeLessThan t compareTo = seqLt t compareTo := by
  rw [Bool.eq_iff_iff, seqLt_iff, timeLessThan, decide_eq_true_iff, UInt32.lt_iff_toNat_lt]
  exact Nat.succ_le_iff.symm

/-- Readings of the counter are compared like the times, less than half the circle apart. -/
theorem timeLessThan_ofNat {a b : ℕ} (hba : b ≤ a + 2 ^ 31) (hab : a < b + 2 ^ 31) :
    timeLessThan (UInt32.ofNat a) (UInt32.ofNat b) = true ↔ a < b := by
  have hat (n : ℕ) : UInt32.ofNat n = seqAt 0 n := (UInt32.zero_add _).symm
  rw [timeLessThan_eq, hat, hat, seqLt_seqAt hba hab]

/-- How an entry of the agenda stands in the list. -/
def Due.timeout (d : Due SysTimeoutHandler) : SysTimeo := ⟨UInt32.ofNat d.time, d.what⟩

theorem linkTimeout_eq (hnear : ∀ e ∈ ds, e.time ≤ d.time + 2 ^ 31 ∧ d.time < e.time + 2 ^ 31) :
    linkTimeout d.timeout (ds.map Due.timeout) = (Agenda.insert d ds).map Due.timeout := by
  induction ds with
  | nil => rfl
  | cons e es ih =>
    obtain ⟨hle, hlt⟩ := hnear e List.mem_cons_self
    have hcmp : timeLessThan d.timeout.time e.timeout.time = true ↔ d.time < e.time :=
      timeLessThan_ofNat hle hlt
    rw [List.map_cons, linkTimeout, Agenda.insert, List.orderedInsert_cons]
    simp only [hcmp]
    split_ifs
    · rfl
    · rw [List.map_cons, ← Agenda.insert, ih fun x hx => hnear x (List.mem_cons_of_mem e hx)]

/-- The list of timeouts is that of an agenda; all that is in it is due after `lo`, and in a
second at the latest. -/
structure Timeouts.Lists (lo : ℕ) (t : Timeouts) (ds : List (Due SysTimeoutHandler)) : Prop where
  queue : t.nextTimeout = ds.map Due.timeout
  sorted : Agenda.Sorted ds
  poolFree : t.poolFree + ds.length = memNumSysTimeout
  ahead : ∀ d ∈ ds, lo < d.time ∧ d.time ≤ t.now + 1000

theorem Timeouts.Lists.pop (h : t.Lists lo (d :: ds)) (due : UInt32) :
    Timeouts.Lists lo { t with
      nextTimeout := ds.map Due.timeout
      currentTimeoutDueTime := due
      poolFree := t.poolFree + 1 } ds := by
  refine ⟨rfl, (List.pairwise_cons.mp h.sorted).2, ?_,
    fun e he => h.ahead e (List.mem_cons_of_mem d he)⟩
  have hfree := h.poolFree
  rw [List.length_cons] at hfree
  dsimp only
  omega

/-- The pool has an element for a timeout as long as not all timers are in the list. -/
theorem Timeouts.Lists.put (h : t.Lists lo ds) (hlen : ds.length < memNumSysTimeout)
    (hlo : lo < d.time) (hhi : d.time ≤ t.now + 1000) (hroom : t.now + 1000 < lo + 2 ^ 31) :
    (sysTimeoutAbs t (UInt32.ofNat d.time) d.what).Lists lo (Agenda.insert d ds) := by
  have hfree := h.poolFree
  have hlink := linkTimeout_eq (d := d) fun e he => by
    have he' := h.ahead e he
    constructor <;> omega
  rw [sysTimeoutAbs, if_neg (by omega)]
  refine ⟨?_, h.sorted.insert d, ?_, fun e he => ?_⟩
  · rw [h.queue]
    exact hlink
  · rw [(Agenda.insert_perm d ds).length_eq, List.length_cons]
    dsimp only
    omega
  · rcases Agenda.mem_insert.mp he with rfl | he
    · exact ⟨hlo, hhi⟩
    · exact h.ahead e he

end List

end EthernetPing
