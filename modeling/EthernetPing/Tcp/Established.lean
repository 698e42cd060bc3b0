import EthernetPing.Tcp.InOrder

/-!
# Segments on an established connection

There `tcp_process` is `tcp_receive`, with an answer to the end of the stream. It keeps what
belongs to the application, and sends acknowledgements only.
-/

namespace EthernetPing

section Established

/-- The flags by which `tcp_input` ends a connection. -/
def Conn.ends (c : Conn) : Bool × Bool × Bool := (c.active, c.tfClosed, c.tfReset)

/-- The segments that were sent, latest first. -/
def Out.segsSent (o : Out) : List OutSeg :=
  o.wire.filterMap fun
    | .seg s _ _ => some s
    | _ => none

variable {c : Conn} {o : Out} {n : Net}

theorem drainOoseq_ends (q : List InSeg) (c : Conn) (o : Out) :
    (drainOoseq q c o).1.ends = c.ends := by
  induction q generalizing c o with
  | nil => rfl
  | cons s rest ih =>
    rw [drainOoseq]
    split_ifs
    · exact ih (c.takeQueued s) _
    · rfl

theorem tcpReceive_ends (c : Conn) (o : Out) (s : Segment) :
    (tcpReceive c o s).1.ends = c.ends := by
  rw [tcpReceive, tcpReceiveData]
  split_ifs
  · exact drainOoseq_ends ..
  all_goals rfl

theorem drainOoseq_state (q : List InSeg) {c : Conn} (o : Out)
    (h : c.state = .established ∨ c.state = .closeWait) :
    (drainOoseq q c o).1.state = .established ∨ (drainOoseq q c o).1.state = .closeWait := by
  induction q generalizing c o with
  | nil => exact h
  | cons s rest ih =>
    rw [drainOoseq]
    split_ifs
    · refine ih (c := c.takeQueued s) _ ?_
      change (if _ then _ else _) = _ ∨ (if _ then _ else _) = _
      split_ifs
      · exact .inr rfl
      · exact h
    · exact h

theorem tcpReceive_state (s : Segment) (h : c.state = .established ∨ c.state = .closeWait) :
    (tcpReceive c o s).1.state = .established ∨ (tcpReceive c o s).1.state = .closeWait := by
  rw [tcpReceive, tcpReceiveData]
  split_ifs
  · exact drainOoseq_state _ _ h
  all_goals exact h

theorem ipOutput_ack_segsSent (o : Out) (seqno ackno : UInt32) (wnd : UInt16) :
    (o.ipOutput (.ack seqno ackno wnd)).2.segsSent = o.segsSent := by
  unfold Out.ipOutput
  split_ifs <;> rfl

theorem tcpSendEmptyAck_segsSent (c : Conn) (o : Out) :
    (tcpSendEmptyAck c o).2.segsSent = o.segsSent := by
  unfold tcpSendEmptyAck
  dsimp only
  split_ifs
  · exact ipOutput_ack_segsSent ..
  · exact ipOutput_ack_segsSent ..
  · rfl

theorem tcpUpdateRcvAnnWnd_segsSent (c : Conn) (o : Out) :
    (tcpUpdateRcvAnnWnd c o).segsSent = o.segsSent := by
  unfold tcpUpdateRcvAnnWnd
  split_ifs <;> rfl

theorem tcpRexmitFast_segsSent (o : Out) : (tcpRexmitFast o).segsSent = o.segsSent := by
  have hrexmit : (tcpRexmit o).2.segsSent = o.segsSent := by
    unfold tcpRexmit
    split
    · rfl
    · split_ifs <;> rfl
  unfold tcpRexmitFast
  dsimp only
  split_ifs
  · rfl
  all_goals exact hrexmit

theorem tcpReceiveAck_segsSent (c : Conn) (o : Out) (s : Segment) :
    (tcpReceiveAck c o s).segsSent = o.segsSent := by
  have hwnd : (tcpReceiveWnd o s).segsSent = o.segsSent := by
    unfold tcpReceiveWnd
    split_ifs <;> rfl
  unfold tcpReceiveAck
  dsimp only
  split_ifs
  · rfl
  · rw [← hwnd]
    unfold tcpReceiveDupAck
    dsimp only
    split_ifs <;> first | rfl | exact tcpRexmitFast_segsSent _
  · exact hwnd
  · rw [← hwnd]
    unfold tcpReceiveNewAck
    dsimp only
    split_ifs <;> rfl
  · exact (tcpSendEmptyAck_segsSent ..).trans hwnd

theorem drainOoseq_segsSent (q : List InSeg) (c : Conn) (o : Out) :
    (drainOoseq q c o).2.segsSent = o.segsSent := by
  induction q generalizing c o with
  | nil => rfl
  | cons s rest ih =>
    rw [drainOoseq]
    split_ifs
    · exact (ih ..).trans (tcpUpdateRcvAnnWnd_segsSent ..)
    · rfl

theorem tcpReceiveInSeq_segsSent (c : Conn) (o : Out) (s : InSeg) :
    (tcpReceiveInSeq c o s).2.segsSent = o.segsSent := by
  have hack : ∀ o, (tcpAck o).segsSent = o.segsSent := by
    intro o
    unfold tcpAck
    split_ifs <;> rfl
  exact (hack _).trans ((drainOoseq_segsSent ..).trans (tcpUpdateRcvAnnWnd_segsSent ..))

/-- `tcp_receive` sends acknowledgements only. -/
theorem tcpReceive_segsSent (c : Conn) (o : Out) (s : Segment) :
    (tcpReceive c o s).2.segsSent = o.segsSent := by
  have hold : (s.ackOld c.rcvNxt (tcpReceiveAck c o s)).segsSent = o.segsSent := by
    rw [← tcpReceiveAck_segsSent c o s, Segment.ackOld]
    split_ifs <;> rfl
  rw [tcpReceive, tcpReceiveData]
  split_ifs
  · exact (tcpReceiveInSeq_segsSent ..).trans hold
  · exact (tcpSendEmptyAck_segsSent ..).trans hold
  · exact (tcpSendEmptyAck_segsSent ..).trans hold
  · exact tcpReceiveAck_segsSent ..
  · exact tcpReceiveAck_segsSent ..

/-- What `tcp_process` makes of a segment in `ESTABLISHED`. -/
def Net.process (n : Net) (s : Segment) : Net :=
  let m := n.enter
  (({ m with out := { m.out with mss := tcpParseopt s.opts.length s.opts m.out.mss } } :
    Net).receive s).gotFin .closeWait

theorem tcpProcess_established (app : App) {s : Segment} (hstate : n.conn.state = .established)
    (hsyn : s.syn = false) (hrst : s.rst = false) :
    tcpProcess app n.enter s = (.ok, n.process s) := by
  have hstate' : n.enter.conn.state = .established := hstate
  rw [tcpProcess, hsyn, hrst, if_neg Bool.false_ne_true, if_neg (by simp)]
  dsimp only
  rw [if_neg (by rw [hstate']; decide), tcpProcessState]
  dsimp only
  rw [hstate']
  rfl

theorem tcpInput_established (app : App) {p : List Pbuf} {s : Segment} (hp : tcpHeader p = some s)
    (hact : n.conn.active = true) (hstate : n.conn.state = .established) (hsyn : s.syn = false)
    (hrst : s.rst = false) :
    tcpInput app n p = (tcpInputDeliver app (n.process s)).leave := by
  rw [tcpInput, hp]
  dsimp only
  rw [tcpInputSegment, if_pos hact, tcpProcess_established app hstate hsyn hrst]
  rfl

theorem Net.process_held (n : Net) (s : Segment) :
    (n.process s).conn.held = (n.conn.rxClosed, true, n.conn.calls) := by
  unfold Net.process
  exact (held_stackKept _).gotFin (tcpReceive_held ..) .closeWait

theorem Net.gotFin_ends (n : Net) (state : TcpState) :
    (n.gotFin state).conn.ends = n.conn.ends := by
  unfold Net.gotFin
  split_ifs <;> rfl

theorem Net.process_ends (n : Net) (s : Segment) :
    (n.process s).conn.ends = (n.conn.active, false, false) :=
  (Net.gotFin_ends _ _).trans (tcpReceive_ends ..)

theorem Net.process_segsSent (n : Net) (s : Segment) :
    (n.process s).out.segsSent = n.out.segsSent := by
  have hreceive := tcpReceive_segsSent n.enter.conn
    { n.enter.out with mss := tcpParseopt s.opts.length s.opts n.enter.out.mss } s
  unfold Net.process Net.gotFin
  dsimp only
  split_ifs <;> exact hreceive

theorem Net.process_state (s : Segment) (h : n.conn.state = .established) :
    (n.process s).conn.state = .established ∨ (n.process s).conn.state = .closeWait := by
  unfold Net.process Net.gotFin
  dsimp only
  split_ifs
  · exact .inr rfl
  · exact tcpReceive_state (c := n.enter.conn) s (.inl h)

/-- The receive side is that of `tcp_receive`, apart from the state if the stream has ended. -/
theorem Net.process_conn (n : Net) (s : Segment) : ∃ o, (n.process s).conn =
    if (tcpReceive n.enter.conn o s).1.gotFin then
      { (tcpReceive n.enter.conn o s).1 with state := .closeWait }
    else (tcpReceive n.enter.conn o s).1 := by
  refine ⟨{ n.enter.out with mss := tcpParseopt s.opts.length s.opts n.enter.out.mss }, ?_⟩
  unfold Net.process Net.gotFin
  rw [apply_ite Net.conn]
  rfl

theorem Net.process_rcvWnd (n : Net) (s : Segment) : ∃ o,
    (n.process s).conn.rcvWnd = (tcpReceive n.enter.conn o s).1.rcvWnd := by
  obtain ⟨o, ho⟩ := n.process_conn s
  refine ⟨o, ?_⟩
  rw [ho]
  split_ifs <;> rfl

end Established

end EthernetPing
