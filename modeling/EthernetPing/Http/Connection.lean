import EthernetPing.Http.Server

/-!
# The life of a connection

Packets and timers act on a connection in any order. The history `calls` tells what the
server did on it: whether it went on after closing, and how far the receive window was
open each time `http_recv` returned.
-/

namespace EthernetPing

/-- What happens on a connection. The slow timer may retransmit, which changes the send side, drop
what came out of order, or give the connection up. -/
inductive Step where
  | packet (buttonCount : UInt16) (p : List Pbuf)
  | fasttmr
  | slowtmr (out : Out) (dropOoseq : Bool)
  | giveUp

def Step.run : Step → Net → Net
  | packet buttonCount p, n => tcpInput (httpServer buttonCount) n p
  | fasttmr, n => if n.conn.active then tcpFasttmr n else n
  | slowtmr out dropOoseq, n =>
    { conn := { n.conn with ooseq := if dropOoseq then [] else n.conn.ooseq }, out }
  | giveUp, n => tcpPcbRemove n

def AppEvent.isClose : AppEvent → Bool
  | .close .ok _ => true
  | _ => false

def AppEvent.isCall : AppEvent → Bool
  | .ret _ => false
  | _ => true

def AppEvent.rsts : AppEvent → ℕ
  | .close _ k => k
  | _ => 0

section Close

theorem alloc_wire (o : Out) : o.alloc.2.wire = o.wire := rfl

theorem tcpEnqueueFin_fst (o : Out) : (tcpEnqueueFin o).1 = .ok ∨ (tcpEnqueueFin o).1 = .mem := by
  unfold tcpEnqueueFin
  split_ifs <;> simp

theorem tcpSendFin_fst (o : Out) : (tcpSendFin o).1 = .ok ∨ (tcpSendFin o).1 = .mem := by
  unfold tcpSendFin
  split
  · split_ifs
    · exact tcpEnqueueFin_fst o
    · exact .inl rfl
  · exact tcpEnqueueFin_fst o

theorem tcpEnqueueFin_wire (o : Out) : (tcpEnqueueFin o).2.wire = o.wire := by
  unfold tcpEnqueueFin
  split_ifs <;> rfl

theorem tcpSendFin_wire (o : Out) : (tcpSendFin o).2.wire = o.wire := by
  unfold tcpSendFin
  split
  · split_ifs
    · exact tcpEnqueueFin_wire o
    · rfl
  · exact tcpEnqueueFin_wire o

theorem tcpRst_wire (o : Out) (seqno ackno : UInt32) :
    (tcpRst o seqno ackno).wire = o.wire ∨
      (tcpRst o seqno ackno).wire = .rst seqno ackno :: o.wire := by
  unfold tcpRst Out.ipOutput
  split_ifs <;> simp [alloc_wire]

theorem tcpPcbPurge_wire (n : Net) : (tcpPcbPurge n).out.wire = n.out.wire := by
  unfold tcpPcbPurge
  split_ifs <;> rfl

theorem tcpCloseShutdownFin_fst (n : Net) : (tcpCloseShutdownFin n).1 = .ok := by
  unfold tcpCloseShutdownFin
  split
  · rfl
  · dsimp only
    rcases tcpSendFin_fst n.out with h | h
    · rw [if_pos h]
    · rw [if_neg (by rw [h]; decide), if_pos h]

theorem tcpCloseShutdownFin_wire {n : Net} (h : n.conn.inputPcb = true) :
    (tcpCloseShutdownFin n).2.out.wire = n.out.wire := by
  have hfin := tcpSendFin_wire n.out
  unfold tcpCloseShutdownFin
  split
  · rfl
  · dsimp only
    split_ifs
    · simpa [tcpOutput, h] using hfin
    · exact hfin
    · exact hfin

theorem tcpClose_fst (n : Net) : (tcpClose n).1 = .ok := by
  unfold tcpClose tcpCloseShutdown
  split_ifs
  · rfl
  · rfl
  · exact tcpCloseShutdownFin_fst _

theorem tcpClose_held (n : Net) :
    (tcpClose n).2.conn.held = (true, n.conn.inputPcb, n.conn.calls) := by
  unfold tcpClose tcpCloseShutdown
  split_ifs
  · exact tcpPcbPurge_held _
  · rfl
  · exact tcpCloseShutdownFin_held _

theorem tcpClose_rsts {n : Net} (h : n.conn.inputPcb = true) :
    (tcpClose n).2.rsts ≤ n.rsts + 1 := by
  unfold Net.rsts tcpClose tcpCloseShutdown
  split_ifs
  · dsimp only
    rw [tcpPcbPurge_wire]
    rcases tcpRst_wire n.out n.out.sndNxt n.conn.rcvNxt with hw | hw
    · rw [hw]
      exact Nat.le_succ _
    · rw [hw, List.countP_cons_of_pos rfl]
  · exact Nat.le_succ _
  · rw [tcpCloseShutdownFin_wire (by exact h)]
    exact Nat.le_succ _

theorem tcpClose_gotFin (n : Net) : (tcpClose n).2.conn.gotFin = n.conn.gotFin := by
  unfold tcpClose tcpCloseShutdown
  split_ifs
  · unfold tcpPcbPurge
    dsimp only
    split_ifs <;> rfl
  · rfl
  · unfold tcpCloseShutdownFin
    split
    · rfl
    · dsimp only
      split_ifs <;> rfl

end Close

section Callbacks

variable {n : Net} {buttonCount : UInt16}

/-- `tcp_close` is logged, with one reset at most. -/
theorem appClose_spec (h : n.conn.inputPcb = true) :
    ∃ k ≤ 1, (appClose n).conn.held = (true, true, .close .ok k :: n.conn.calls) := by
  have hheld := tcpClose_held n
  have hrsts := tcpClose_rsts h
  rw [Conn.held, Prod.mk.injEq, Prod.mk.injEq] at hheld
  refine ⟨(tcpClose n).2.rsts - n.rsts, by omega, ?_⟩
  rw [appClose, Net.log, Conn.held, tcpClose_fst, hheld.1, hheld.2.1, hheld.2.2, h]

/-- In the callback, `tcp_output` does nothing. -/
theorem appOutput_input (h : n.conn.inputPcb = true) : appOutput n = n.log (.output .ok) := by
  rw [appOutput, tcpOutput, if_pos h]

theorem httpAnswer_spec (h : n.conn.inputPcb = true) (buttonCount : UInt16) :
    ∃ k ≤ 1, ∃ err, (httpAnswer buttonCount n).conn.held =
      (true, true, .close .ok k :: .output .ok :: .write (httpResponse buttonCount) err ::
        n.conn.calls) := by
  obtain ⟨k, hk, hheld⟩ := appClose_spec
    (n := appOutput (appWrite n (httpResponse buttonCount))) h
  refine ⟨k, hk, (tcpWrite n.conn n.out (httpResponse buttonCount)).1, ?_⟩
  rw [httpAnswer, hheld, appOutput_input (by exact h)]
  rfl

theorem httpRecv_gotFin (p : Option (List Pbuf)) (n : Net) :
    (httpRecv buttonCount p n).conn.gotFin = n.conn.gotFin := by
  cases p with
  | none => exact tcpClose_gotFin n
  | some p =>
    rw [httpRecv]
    split_ifs
    · exact tcpClose_gotFin _
    · rfl

theorem httpRecv_none (buttonCount : UInt16) (h : n.conn.inputPcb = true) : ∃ k ≤ 1, ∃ wnd,
    (httpRecv buttonCount none n).conn.held =
      (true, true, .ret wnd :: .close .ok k :: n.conn.calls) := by
  obtain ⟨k, hk, hheld⟩ := appClose_spec h
  rw [Conn.held, Prod.mk.injEq, Prod.mk.injEq] at hheld
  refine ⟨k, hk, (appClose n).conn.rcvWnd, ?_⟩
  simp only [httpRecv, Net.log, Conn.held, hheld]

theorem httpRecv_request (buttonCount : UInt16) {p : List Pbuf} (h : n.conn.inputPcb = true)
    (hp : recognised p = true) :
    ∃ k ≤ 1, ∃ wnd err, (httpRecv buttonCount (some p) n).conn.held =
      (true, true, .ret wnd :: .close .ok k :: .output .ok ::
        .write (httpResponse buttonCount) err :: n.conn.calls) := by
  obtain ⟨k, hk, err, hheld⟩ := httpAnswer_spec h buttonCount
  rw [Conn.held, Prod.mk.injEq, Prod.mk.injEq] at hheld
  refine ⟨k, hk, (httpAnswer buttonCount n).conn.rcvWnd, err, ?_⟩
  simp only [httpRecv, hp, if_true, Net.log, Conn.held, hheld]

theorem httpRecv_other {p : List Pbuf} (hp : recognised p = false) :
    httpRecv buttonCount (some p) n = n.log (.ret n.conn.rcvWnd) := by
  simp [httpRecv, hp]

end Callbacks

section Delivery

/-- The connection when `tcp_process` is done with a packet and nothing has been passed up. -/
def processed (buttonCount : UInt16) (n : Net) (p : List Pbuf) : Option Net :=
  if n.conn.active then
    (tcpHeader p).map fun s => (tcpProcess (httpServer buttonCount) n.enter s).2
  else none

/-- What passing up from `m` leaves of the receive side and of the history. -/
inductive Delivery (buttonCount : UInt16) (m : Net) : Bool → List AppEvent → Prop
  | quiet : Delivery buttonCount m m.conn.rxClosed m.conn.calls
  | fin {k wnd} (hdata : m.conn.recvData = none) (hfin : m.conn.gotFin = true) (hk : k ≤ 1) :
    Delivery buttonCount m true (.ret wnd :: .close .ok k :: m.conn.calls)
  | other {p} (hdata : m.conn.recvData = some p) (hopen : m.conn.rxClosed = false)
      (hp : recognised p = false) :
    Delivery buttonCount m false (.ret m.conn.rcvWnd :: m.conn.calls)
  | otherFin {p k wnd} (hdata : m.conn.recvData = some p) (hopen : m.conn.rxClosed = false)
      (hp : recognised p = false) (hfin : m.conn.gotFin = true) (hk : k ≤ 1) :
    Delivery buttonCount m true
      (.ret wnd :: .close .ok k :: .ret m.conn.rcvWnd :: m.conn.calls)
  | request {p k wnd err} (hdata : m.conn.recvData = some p) (hopen : m.conn.rxClosed = false)
      (hp : recognised p = true) (hk : k ≤ 1) :
    Delivery buttonCount m true
      (.ret wnd :: .close .ok k :: .output .ok :: .write (httpResponse buttonCount) err ::
        m.conn.calls)
  | requestFin {p k k' wnd wnd' err} (hdata : m.conn.recvData = some p)
      (hopen : m.conn.rxClosed = false) (hp : recognised p = true) (hfin : m.conn.gotFin = true)
      (hk : k ≤ 1) (hk' : k' ≤ 1) :
    Delivery buttonCount m true
      (.ret wnd' :: .close .ok k' :: .ret wnd :: .close .ok k :: .output .ok ::
        .write (httpResponse buttonCount) err :: m.conn.calls)

variable {buttonCount : UInt16} {n m : Net}

theorem Conn.held_eq {c : Conn} {x y : Bool} {l : List AppEvent} (h : c.held = (x, y, l)) :
    c.rxClosed = x ∧ c.inputPcb = y ∧ c.calls = l := by
  simpa [Conn.held] using h

theorem tcpInputDone_life (n : Net) : (tcpInputDone n).conn.rxClosed = n.conn.rxClosed ∧
    (tcpInputDone n).conn.calls = n.conn.calls := by
  unfold tcpInputDone
  dsimp only
  split_ifs
  · obtain ⟨h₁, -, h₂⟩ := Conn.held_eq (tcpPcbRemove_held
      { n with conn := { n.conn with inputPcb := false } })
    exact ⟨h₁, h₂⟩
  · exact ⟨rfl, rfl⟩

theorem tcpInputFin_life (buttonCount : UInt16) (h : n.conn.inputPcb = true) :
    ∃ k ≤ 1, ∃ wnd, (tcpInputFin (httpServer buttonCount) n).conn.rxClosed = true ∧
      (tcpInputFin (httpServer buttonCount) n).conn.calls =
        .ret wnd :: .close .ok k :: n.conn.calls := by
  obtain ⟨k, hk, wnd, hheld⟩ := httpRecv_none (n := { n with conn := { n.conn with
    rcvWnd := if n.conn.rcvWnd ≠ tcpWnd then n.conn.rcvWnd + 1 else n.conn.rcvWnd } }) buttonCount h
  obtain ⟨h₁, -, h₂⟩ := Conn.held_eq hheld
  exact ⟨k, hk, wnd, h₁, h₂⟩

theorem Delivery.of_held {n : Net} (h : n.conn.held = m.conn.held) :
    Delivery buttonCount m n.conn.rxClosed n.conn.calls := by
  obtain ⟨h₁, -, h₂⟩ := Conn.held_eq h
  rw [h₁, h₂]
  exact .quiet

/-- Nothing is passed up but the end of the stream, if it has come. -/
theorem tcpInputEnd_delivery (h : m.conn.inputPcb = true) (hdata : m.conn.recvData = none) :
    Delivery buttonCount m (tcpInputEnd (httpServer buttonCount) m).conn.rxClosed
      (tcpInputEnd (httpServer buttonCount) m).conn.calls := by
  rw [tcpInputEnd, (tcpInputDone_life _).1, (tcpInputDone_life _).2]
  split_ifs with hfin
  · obtain ⟨k, hk, wnd, hclosed, hcalls⟩ := tcpInputFin_life buttonCount h
    rw [hclosed, hcalls]
    exact .fin hdata hfin hk
  · exact .quiet

theorem tcpInputEnd_other {p : List Pbuf} (h : m.conn.inputPcb = true)
    (hdata : m.conn.recvData = some p) (hopen : m.conn.rxClosed = false)
    (hp : recognised p = false) :
    Delivery buttonCount m
      (tcpInputEnd (httpServer buttonCount) (httpRecv buttonCount (some p) m)).conn.rxClosed
      (tcpInputEnd (httpServer buttonCount) (httpRecv buttonCount (some p) m)).conn.calls := by
  rw [tcpInputEnd, (tcpInputDone_life _).1, (tcpInputDone_life _).2, httpRecv_other hp]
  split_ifs with hfin
  · obtain ⟨k, hk, wnd, hclosed, hcalls⟩ :=
      tcpInputFin_life (n := m.log (.ret m.conn.rcvWnd)) buttonCount h
    rw [hclosed, hcalls]
    exact .otherFin hdata hopen hp hfin hk
  · change Delivery buttonCount m m.conn.rxClosed _
    rw [hopen]
    exact .other hdata hopen hp

theorem tcpInputEnd_request {p : List Pbuf} (h : m.conn.inputPcb = true)
    (hdata : m.conn.recvData = some p) (hopen : m.conn.rxClosed = false)
    (hp : recognised p = true) :
    Delivery buttonCount m
      (tcpInputEnd (httpServer buttonCount) (httpRecv buttonCount (some p) m)).conn.rxClosed
      (tcpInputEnd (httpServer buttonCount) (httpRecv buttonCount (some p) m)).conn.calls := by
  obtain ⟨k, hk, wnd, err, hheld⟩ := httpRecv_request buttonCount h hp
  obtain ⟨hclosed, hinput, hcalls⟩ := Conn.held_eq hheld
  rw [tcpInputEnd, (tcpInputDone_life _).1, (tcpInputDone_life _).2]
  split_ifs with hfin
  · obtain ⟨k', hk', wnd', hclosed', hcalls'⟩ :=
      tcpInputFin_life buttonCount hinput
    rw [hclosed', hcalls', hcalls]
    exact .requestFin hdata hopen hp (by rwa [httpRecv_gotFin] at hfin) hk hk'
  · rw [hclosed, hcalls]
    exact .request hdata hopen hp hk

/-- What is passed up when `tcp_process` is done, by cases. -/
theorem tcpInputDeliver_delivery (h : m.conn.inputPcb = true) :
    Delivery buttonCount m (tcpInputDeliver (httpServer buttonCount) m).conn.rxClosed
      (tcpInputDeliver (httpServer buttonCount) m).conn.calls := by
  unfold tcpInputDeliver
  split
  · exact .of_held (tcpPcbRemove_held m)
  · cases hdata : m.conn.recvData with
    | none => exact tcpInputEnd_delivery h hdata
    | some p =>
      dsimp only
      split_ifs with hclosed
      · exact .of_held (tcpAbort_held m)
      · rw [Bool.not_eq_true] at hclosed
        cases hp : recognised p with
        | false => exact tcpInputEnd_other h hdata hclosed hp
        | true => exact tcpInputEnd_request h hdata hclosed hp

end Delivery

section Runs

variable {n m : Net}

/-- What is processed of a packet satisfies `ok`. -/
def Step.When (ok : Net → Prop) : Step → Net → Prop
  | packet buttonCount p, n => ∀ m, processed buttonCount n p = some m → ok m
  | _, _ => True

/-- A connection goes from one state to another by steps that satisfy `ok`. -/
abbrev Runs (ok : Net → Prop) : Net → Net → Prop :=
  Relation.ReflTransGen fun n m => ∃ step : Step, step.When ok n ∧ step.run n = m

theorem httpAccept_held (n : Net) (err : Err) : (httpAccept n err).2.conn.held = n.conn.held := by
  unfold httpAccept
  split_ifs <;> rfl

theorem processed_held {buttonCount : UInt16} {p : List Pbuf}
    (h : processed buttonCount n p = some m) :
    m.conn.rxClosed = n.conn.rxClosed ∧ m.conn.inputPcb = true ∧ m.conn.calls = n.conn.calls := by
  unfold processed at h
  split_ifs at h
  obtain ⟨s, -, rfl⟩ := Option.map_eq_some_iff.mp h
  exact Conn.held_eq (tcpProcess_held (fun n => httpAccept_held n .ok) n.enter s)

/-- A packet either leaves the history alone or is passed up. -/
theorem tcpInput_delivery (buttonCount : UInt16) (n : Net) (p : List Pbuf) :
    ((tcpInput (httpServer buttonCount) n p).conn.rxClosed = n.conn.rxClosed ∧
      (tcpInput (httpServer buttonCount) n p).conn.calls = n.conn.calls) ∨
    ∃ m, processed buttonCount n p = some m ∧
      Delivery buttonCount m (tcpInput (httpServer buttonCount) n p).conn.rxClosed
        (tcpInput (httpServer buttonCount) n p).conn.calls := by
  unfold tcpInput
  cases hp : tcpHeader p with
  | none => exact .inl ⟨rfl, rfl⟩
  | some s =>
    dsimp only
    unfold tcpInputSegment
    by_cases hact : n.conn.active
    · have hm : processed buttonCount n p =
          some (tcpProcess (httpServer buttonCount) n.enter s).2 := by
        rw [processed, if_pos hact, hp, Option.map_some]
      rw [if_pos hact]
      refine .inr ⟨_, hm, ?_⟩
      dsimp only [Net.leave]
      split_ifs
      · exact .quiet
      · exact tcpInputDeliver_delivery (processed_held hm).2.1
    · rw [if_neg hact]
      exact .inl ⟨rfl, rfl⟩

/-- Step lemma: the history stays as it is, or something that satisfies `ok` is passed up. -/
theorem Step.run_delivery {ok : Net → Prop} {step : Step} (h : step.When ok n) :
    ((step.run n).conn.rxClosed = n.conn.rxClosed ∧ (step.run n).conn.calls = n.conn.calls) ∨
    ∃ buttonCount m, ok m ∧ m.conn.rxClosed = n.conn.rxClosed ∧ m.conn.calls = n.conn.calls ∧
      Delivery buttonCount m (step.run n).conn.rxClosed (step.run n).conn.calls := by
  cases step with
  | packet buttonCount p =>
    rcases tcpInput_delivery buttonCount n p with hsame | ⟨m, hm, hdel⟩
    · exact .inl hsame
    · obtain ⟨hclosed, -, hcalls⟩ := processed_held hm
      exact .inr ⟨buttonCount, m, h m hm, hclosed, hcalls, hdel⟩
  | fasttmr =>
    refine .inl ?_
    rw [Step.run]
    split_ifs
    · obtain ⟨hclosed, -, hcalls⟩ := Conn.held_eq (tcpFasttmr_held n)
      exact ⟨hclosed, hcalls⟩
    · exact ⟨rfl, rfl⟩
  | slowtmr out dropOoseq => exact .inl ⟨rfl, rfl⟩
  | giveUp =>
    obtain ⟨hclosed, -, hcalls⟩ := Conn.held_eq (tcpPcbRemove_held n)
    exact .inl ⟨hclosed, hcalls⟩

/-- A connection on which nothing has been received yet. -/
def benchNet : Net where
  conn :=
    { state := .established, rcvNxt := 1, rcvWnd := tcpWnd, ooseq := [], rxClosed := false
      closePend := false, active := true, inputPcb := false, recvData := none, gotFin := false
      tfClosed := false, tfReset := false, calls := [] }
  out :=
    { sndNxt := 1, lastack := 1, sndWl1 := 0, sndWl2 := 1, sndLbb := 1, sndWnd := 4096
      sndWndMax := 4096, cwnd := 2144, ssthresh := 4096, bytesAcked := 0, mss := tcpMss
      sndBuf := tcpSndBuf, sndQueuelen := 0, unsent := [], unacked := [], rtime := false
      dupacks := 0, rtoEnd := 0, rcvAnnWnd := tcpWnd, rcvAnnRightEdge := 1 + tcpWnd.toUInt32
      ackDelay := false, ackNow := false, inFr := false, finQueued := false, noDelay := true
      nagleMemErr := false, rto := false, recvAcked := 0, mem := fun _ => true, wire := [] }

/-- A segment in one buffer, for ports 1024 and 80, with the sequence number `seqno`. -/
def benchPacket (seqno : UInt8) (flags : UInt8) (data : List UInt8) : List Pbuf :=
  let bytes := [4, 0, 0, 80, 0, 0, 0, seqno, 0, 0, 0, 1, 0x50, flags, 0x10, 0, 0, 0, 0, 0] ++ data
  [{ payload := fun i => bytes.getD i 0
     totLen := UInt16.ofNat bytes.length
     len := UInt16.ofNat bytes.length }]

def benchGet : List Pbuf := benchPacket 1 0x10 [0x47, 0x45, 0x54]

end Runs

section Window

variable {n m : Net}

/-- Each time `http_recv` returned, the window was full or the server had closed. -/
def ClosedOrFull : List AppEvent → Prop
  | [] => True
  | .ret wnd :: calls => (wnd = tcpWnd ∨ calls.any AppEvent.isClose) ∧ ClosedOrFull calls
  | _ :: calls => ClosedOrFull calls

/-- Data that `http_recv` gets is a request. -/
def OnlyRequests (m : Net) : Prop :=
  m.conn.rxClosed = false → ∀ p, m.conn.recvData = some p → recognised p = true

theorem Delivery.closedOrFull {buttonCount : UInt16} {closed : Bool} {calls : List AppEvent}
    (hdel : Delivery buttonCount m closed calls) (hm : OnlyRequests m)
    (h : ClosedOrFull m.conn.calls) : ClosedOrFull calls := by
  cases hdel with
  | quiet => exact h
  | fin => exact ⟨.inr rfl, h⟩
  | other hdata hopen hp => exact absurd (hm hopen _ hdata) (by rw [hp]; exact Bool.false_ne_true)
  | otherFin hdata hopen hp =>
    exact absurd (hm hopen _ hdata) (by rw [hp]; exact Bool.false_ne_true)
  | request => exact ⟨.inr rfl, h⟩
  | requestFin => exact ⟨.inr rfl, .inr rfl, h⟩

/-- As long as the data on a connection are requests, `http_recv` returns with a full window or
after closing. -/
theorem window_reopened (hn : n.conn.calls = []) (hrun : Runs OnlyRequests n m) :
    ClosedOrFull m.conn.calls := by
  induction hrun with
  | refl =>
    rw [hn]
    trivial
  | tail _ hstep ih =>
    obtain ⟨step, hwhen, rfl⟩ := hstep
    rcases Step.run_delivery hwhen with ⟨-, hcalls⟩ | ⟨buttonCount, m, hm, -, hcalls, hdel⟩
    · rw [hcalls]
      exact ih
    · exact hdel.closedOrFull hm (by rwa [hcalls])

theorem onlyRequests_benchGet : (Step.packet 0 benchGet).When OnlyRequests benchNet := by
  intro m hm hopen p hp
  have hall : (processed 0 benchNet benchGet).all fun m => m.conn.recvData.all recognised := by
    decide +kernel
  rw [hm, Option.all_some, hp, Option.all_some] at hall
  exact hall

theorem window_reopened_benchGet :
    ClosedOrFull ((Step.packet 0 benchGet).run benchNet).conn.calls :=
  window_reopened rfl (.single ⟨_, onlyRequests_benchGet, rfl⟩)

/-- After data that is not a request, `http_recv` leaves the window as it is. -/
theorem window_not_reopened : ¬ ∀ n m : Net, n.conn.rcvWnd = tcpWnd → n.conn.rxClosed = false →
    n.conn.calls = [] → Runs (fun _ => True) n m → ClosedOrFull m.conn.calls := by
  intro h
  let post := Step.packet 0 (benchPacket 1 0x10 [0x50, 0x4F, 0x53, 0x54])
  have hfull := h benchNet (post.run benchNet) rfl rfl rfl (.single ⟨post, fun _ _ => trivial, rfl⟩)
  have hcalls : (post.run benchNet).conn.calls = [.ret 1068] := by decide +kernel
  rw [hcalls] at hfull
  exact absurd hfull.1 (by decide)

end Window

section Use

variable {n m : Net}

/-- Nothing was called after a successful `tcp_close`. -/
def Unused : List AppEvent → Prop
  | [] => True
  | e :: calls => (e.isCall → ¬ calls.any AppEvent.isClose) ∧ Unused calls

def callRsts (calls : List AppEvent) : ℕ := (calls.map AppEvent.rsts).sum

/-- The end of the stream comes when the server has closed or is about to. -/
def ClosesAgain (m : Net) : Prop :=
  m.conn.gotFin = true ∧
    match m.conn.recvData with
    | none => m.conn.rxClosed = true
    | some p => m.conn.rxClosed = false ∧ recognised p = true

/-- The invariant: an open connection has not been closed, a closed one was closed last. -/
def UsedOnce (closed : Bool) (calls : List AppEvent) : Prop :=
  Unused calls ∧ callRsts calls ≤ 1 ∧
    (closed = false → ¬ calls.any AppEvent.isClose ∧ callRsts calls = 0)

variable {closed : Bool} {calls : List AppEvent}

/-- Before the close, anything else may be called. -/
theorem UsedOnce.call {e : AppEvent} (h : UsedOnce false calls) (he : e.isClose = false)
    (hrsts : e.rsts = 0) : UsedOnce false (e :: calls) := by
  obtain ⟨hun, hle, hopen⟩ := h
  obtain ⟨hnone, hzero⟩ := hopen rfl
  have hsum : callRsts (e :: calls) = 0 := by
    rw [callRsts, List.map_cons, List.sum_cons, hrsts]
    exact (Nat.zero_add _).trans hzero
  refine ⟨⟨fun _ => hnone, hun⟩, by omega, fun _ => ⟨?_, hsum⟩⟩
  rwa [List.any_cons, he, Bool.false_or]

theorem UsedOnce.ret {wnd : UInt16} (h : UsedOnce closed calls) :
    UsedOnce closed (.ret wnd :: calls) := by
  obtain ⟨hun, hle, hopen⟩ := h
  have hsum : callRsts (.ret wnd :: calls) = callRsts calls := Nat.zero_add _
  refine ⟨⟨fun hcall => (Bool.false_ne_true hcall).elim, hun⟩, hsum ▸ hle, fun hclosed => ?_⟩
  exact ⟨(hopen hclosed).1, hsum.trans (hopen hclosed).2⟩

theorem UsedOnce.close {k : ℕ} (h : UsedOnce false calls) (hk : k ≤ 1) :
    UsedOnce true (.close .ok k :: calls) := by
  obtain ⟨hun, -, hopen⟩ := h
  obtain ⟨hnone, hzero⟩ := hopen rfl
  have hsum : callRsts (.close .ok k :: calls) = k + callRsts calls := List.sum_cons
  exact ⟨⟨fun _ => hnone, hun⟩, by omega, nofun⟩

theorem Delivery.usedOnce {buttonCount : UInt16} (hdel : Delivery buttonCount m closed calls)
    (hm : ¬ ClosesAgain m) (h : UsedOnce m.conn.rxClosed m.conn.calls) :
    UsedOnce closed calls := by
  cases hdel with
  | quiet => exact h
  | fin hdata hfin hk =>
    have hopen : m.conn.rxClosed = false := by
      rw [← Bool.not_eq_true]
      exact fun hclosed => hm ⟨hfin, by rwa [hdata]⟩
    exact ((hopen ▸ h).close hk).ret
  | other hdata hopen hp => exact (hopen ▸ h).ret
  | otherFin hdata hopen hp hfin hk => exact ((hopen ▸ h).ret.close hk).ret
  | request hdata hopen hp hk => exact ((((hopen ▸ h).call rfl rfl).call rfl rfl).close hk).ret
  | requestFin hdata hopen hp hfin => exact absurd ⟨hfin, by rw [hdata]; exact ⟨hopen, hp⟩⟩ hm

/-- As long as no end of the stream comes with a request or after the close, nothing is called
after `tcp_close`, and its calls send one reset at most. -/
theorem unused_after_close (hopen : n.conn.rxClosed = false) (hn : n.conn.calls = [])
    (hrun : Runs (fun m => ¬ ClosesAgain m) n m) :
    Unused m.conn.calls ∧ callRsts m.conn.calls ≤ 1 := by
  have hinv : UsedOnce m.conn.rxClosed m.conn.calls := by
    induction hrun with
    | refl =>
      rw [hopen, hn]
      exact ⟨trivial, Nat.zero_le _, fun _ => ⟨Bool.false_ne_true, rfl⟩⟩
    | tail _ hstep ih =>
      obtain ⟨step, hwhen, rfl⟩ := hstep
      rcases Step.run_delivery hwhen with ⟨hclosed, hcalls⟩ | ⟨_, m, hm, hclosed, hcalls, hdel⟩
      · rwa [hclosed, hcalls]
      · exact hdel.usedOnce hm (by rwa [hclosed, hcalls])
  exact ⟨hinv.1, hinv.2.1⟩

theorem not_closesAgain_benchGet :
    (Step.packet 0 benchGet).When (fun m => ¬ ClosesAgain m) benchNet := by
  intro m hm hagain
  have hall : (processed 0 benchNet benchGet).all fun m => !m.conn.gotFin := by decide +kernel
  rw [hm, Option.all_some, hagain.1] at hall
  exact Bool.false_ne_true hall

theorem unused_after_close_benchGet :
    Unused ((Step.packet 0 benchGet).run benchNet).conn.calls ∧
      callRsts ((Step.packet 0 benchGet).run benchNet).conn.calls ≤ 1 :=
  unused_after_close rfl rfl (.single ⟨_, not_closesAgain_benchGet, rfl⟩)

/-- A request with a FIN in the same segment is closed twice. -/
theorem used_after_close : ¬ ∀ n m : Net, n.conn.rxClosed = false → n.conn.calls = [] →
    Runs (fun _ => True) n m → Unused m.conn.calls ∧ callRsts m.conn.calls ≤ 1 := by
  intro h
  let getFin := Step.packet 0 (benchPacket 1 0x11 [0x47, 0x45, 0x54])
  have hunused := h benchNet (getFin.run benchNet) rfl rfl
    (.single ⟨getFin, fun _ _ => trivial, rfl⟩)
  have hcalls : (getFin.run benchNet).conn.calls =
      [.ret 1069, .close .ok 1, .ret 1068, .close .ok 1, .output .ok,
        .write (httpResponse 0) .ok] := by
    decide +kernel
  rw [hcalls] at hunused
  exact absurd hunused.2 (by decide)

end Use

end EthernetPing
