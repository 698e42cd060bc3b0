import EthernetPing.Tcp.Output

/-!
# `tcp_receive`

The acknowledgement part works on the send side. The data part trims the segment, moves
the receive window, and hands up what is in sequence with what waited for it on `ooseq`.
-/

namespace EthernetPing

/-- A segment as `tcp_input` leaves it: the header in host order, the options, and the chain
behind the header. -/
structure Segment where
  seqno : UInt32
  ackno : UInt32
  wnd : UInt16
  fin : Bool
  syn : Bool
  rst : Bool
  ack : Bool
  opts : List UInt8
  p : List Pbuf

/-- `tcplen` of `tcp_input` -/
def Segment.tcplen (s : Segment) : UInt16 := totLen s.p + if s.fin || s.syn then 1 else 0

/-- What `inseg` is set to. -/
def Segment.inseg (s : Segment) : InSeg :=
  { seqno := s.seqno, len := totLen s.p, syn := s.syn, fin := s.fin, p := s.p }

/-- An ACK that acknowledges new data. -/
def tcpReceiveNewAck (o : Out) (ackno : UInt32) : Out :=
  let o := if o.inFr then { o with inFr := false, cwnd := o.ssthresh, bytesAcked := 0 } else o
  let acked := (ackno - o.lastack).toUInt16
  let o := { o with dupacks := 0, lastack := ackno }
  let o :=
    if o.cwnd < o.ssthresh then
      { o with cwnd := tcpWndInc o.cwnd (lwipMin acked ((if o.rto then 1 else 2) * o.mss)) }
    else
      let bytesAcked := tcpWndInc o.bytesAcked acked
      if o.cwnd ≤ bytesAcked then
        { o with bytesAcked := bytesAcked - o.cwnd, cwnd := tcpWndInc o.cwnd o.mss }
      else { o with bytesAcked }
  let unacked := tcpFreeAckedSegments ackno o.unacked
  let unsent := tcpFreeAckedSegments ackno o.unsent
  let recvAcked := o.recvAcked + unacked.2.2 + unsent.2.2
  let rtoOver :=
    match unacked.1, unsent.1 with
    | [], [] => true
    | [], seg :: _ => seqLeq o.rtoEnd seg.seqno
    | seg :: _, _ => seqLeq o.rtoEnd seg.seqno
  { o with
    unacked := unacked.1
    unsent := unsent.1
    sndQueuelen := o.sndQueuelen - unacked.2.1 - unsent.2.1
    recvAcked
    rtime := !unacked.1.isEmpty
    sndBuf := o.sndBuf + recvAcked
    rto := o.rto && !rtoOver }

/-- The window update of an ACK. -/
def tcpReceiveWnd (o : Out) (s : Segment) : Out :=
  if seqLt o.sndWl1 s.seqno || (o.sndWl1 == s.seqno && seqLt o.sndWl2 s.ackno) ||
      (o.sndWl2 == s.ackno && o.sndWnd < s.wnd) then
    { o with
      sndWnd := s.wnd
      sndWndMax := if o.sndWndMax < s.wnd then s.wnd else o.sndWndMax
      sndWl1 := s.seqno
      sndWl2 := s.ackno }
  else o

/-- A duplicate ACK; the third one starts a fast retransmission. -/
def tcpReceiveDupAck (o : Out) : Out :=
  let o := { o with dupacks := if o.dupacks < o.dupacks + 1 then o.dupacks + 1 else o.dupacks }
  let o := if 3 < o.dupacks then { o with cwnd := tcpWndInc o.cwnd o.mss } else o
  if 3 ≤ o.dupacks then tcpRexmitFast o else o

/-- The acknowledgement part of `tcp_receive`. -/
def tcpReceiveAck (c : Conn) (o : Out) (s : Segment) : Out :=
  if !s.ack then o
  else
    let rightWndEdge := o.sndWnd.toUInt32 + o.sndWl2
    let o := tcpReceiveWnd o s
    if seqLeq s.ackno o.lastack then
      if s.tcplen = 0 ∧ o.sndWl2 + o.sndWnd.toUInt32 = rightWndEdge ∧ o.rtime ∧
          o.lastack = s.ackno then
        tcpReceiveDupAck o
      else o
    else if seqBetween s.ackno (o.lastack + 1) o.sndNxt then tcpReceiveNewAck o s.ackno
    else (tcpSendEmptyAck c o).2

def tcpAck (o : Out) : Out :=
  if o.ackDelay then { o with ackDelay := false, ackNow := true } else { o with ackDelay := true }

/-- Cut `off` bytes off the front; `newTotLen` bytes are left. Buffers in front of the cut stay in
the chain, with length 0. -/
def trimFront (newTotLen : UInt16) : List Pbuf → UInt16 → List Pbuf
  | [], _ => []
  | q :: qs, off =>
    if q.len < off then
      { q with totLen := newTotLen, len := 0 } :: trimFront newTotLen qs (off - q.len)
    else q.removeHeader off :: qs

/-- Drop the bytes of a segment that are in front of `rcvNxt`. -/
def InSeg.trimFront (s : InSeg) (rcvNxt : UInt32) : InSeg :=
  let off := (rcvNxt - s.seqno).toUInt16
  { s with
    seqno := rcvNxt
    len := s.len - off
    p := EthernetPing.trimFront (totLen s.p - off) s.p off }

def InSeg.realloc (s : InSeg) (len : UInt16) : InSeg := { s with len, p := pbufRealloc s.p len }

/-- A segment that overruns the window is cut, and loses its FIN. -/
def InSeg.fitWindow (s : InSeg) (rcvWnd : UInt16) : InSeg :=
  if rcvWnd < s.tcplen then
    { s with fin := false }.realloc (if s.syn then rcvWnd - 1 else rcvWnd)
  else s

/-- Queued segments that the segment in sequence covers are dropped, handing on their FIN; if it
overlaps the next one, it is cut. -/
def coverOoseq : InSeg → List InSeg → InSeg × List InSeg
  | s, [] => (s, [])
  | s, next :: rest =>
    if seqGeq (s.seqno + s.tcplen.toUInt32) (next.seqno + next.len.toUInt32) then
      coverOoseq (if next.fin && !s.syn then { s with fin := true } else s) rest
    else if seqGt (s.seqno + s.tcplen.toUInt32) next.seqno then
      let len := (next.seqno - s.seqno).toUInt16
      (s.realloc (if s.syn then len - 1 else len), next :: rest)
    else (s, next :: rest)

/-- `recv_data` with the chain of one more segment. -/
def chainData (recvData : Option (List Pbuf)) (p : List Pbuf) : Option (List Pbuf) :=
  if totLen p = 0 then recvData
  else
    match recvData with
    | none => some p
    | some q => some (pbufCat q p)

/-- Take a segment in sequence: the window moves on, the data is to be handed up. -/
def Conn.take (c : Conn) (s : InSeg) : Conn :=
  { c with
    rcvNxt := c.rcvNxt + s.tcplen.toUInt32
    rcvWnd := c.rcvWnd - s.tcplen
    recvData := chainData c.recvData s.p
    gotFin := c.gotFin || s.fin }

/-- Take a queued segment; its FIN changes the state at once. -/
def Conn.takeQueued (c : Conn) (s : InSeg) : Conn :=
  { c.take s with state := if s.fin && c.state == .established then .closeWait else c.state }

/-- Queued segments that are in sequence now are taken too. -/
def drainOoseq : List InSeg → Conn → Out → Conn × Out
  | [], c, o => ({ c with ooseq := [] }, o)
  | s :: rest, c, o =>
    if s.seqno = c.rcvNxt then
      drainOoseq rest (c.takeQueued s) (tcpUpdateRcvAnnWnd (c.takeQueued s) o)
    else ({ c with ooseq := s :: rest }, o)

/-- The segment starts at `rcv_nxt`. -/
def tcpReceiveInSeq (c : Conn) (o : Out) (s : InSeg) : Conn × Out :=
  let s := s.fitWindow c.rcvWnd
  let merged := if s.fin then (s, []) else coverOoseq s c.ooseq
  let c := { c with rcvNxt := s.seqno }.take merged.1
  let r := drainOoseq merged.2 c (tcpUpdateRcvAnnWnd c o)
  (r.1, tcpAck r.2)

def tcpOosInsertSegment (s : InSeg) (next : List InSeg) : List InSeg :=
  if s.fin then [s]
  else
    let covered := fun x : InSeg =>
      seqGeq (s.seqno + s.len.toUInt32) (x.seqno + x.len.toUInt32)
    let s := if (next.takeWhile covered).any InSeg.fin then { s with fin := true } else s
    match next.dropWhile covered with
    | [] => [s]
    | x :: rest =>
      if seqGt (s.seqno + s.len.toUInt32) x.seqno then
        s.realloc (x.seqno - s.seqno).toUInt16 :: x :: rest
      else s :: x :: rest

/-- A queued segment is cut where `seqno` begins. -/
def InSeg.cutAt (s : InSeg) (seqno : UInt32) : InSeg :=
  if seqGt (s.seqno + s.len.toUInt32) seqno then s.realloc (seqno - s.seqno).toUInt16 else s

/-- The last segment of the queue is cut at the window edge, and loses its FIN. -/
def InSeg.cutAtEdge (s : InSeg) (tcplen : UInt16) (edge : UInt32) : InSeg :=
  if seqGt (tcplen.toUInt32 + s.seqno) edge then
    { s with fin := false }.realloc (edge - s.seqno).toUInt16
  else s

/-- The walk through the non-empty queue `ooseq`; `prev` is the segment before the current one.
`copied` is the outcome of `tcp_seg_copy`, `tcplen` the length with which the segment arrived. -/
def oosWalk (copied : Bool) (s : InSeg) (tcplen : UInt16) (edge : UInt32) :
    Option InSeg → List InSeg → List InSeg
  | prev, [] => prev.toList
  | prev, next :: rest =>
    let keep := prev.toList ++ next :: rest
    if s.seqno = next.seqno then
      if next.len < s.len && !rest.isEmpty && copied then
        prev.toList ++ tcpOosInsertSegment s (next :: rest)
      else keep
    else
      let here :=
        match prev with
        | none => seqLt s.seqno next.seqno
        | some prev => seqBetween s.seqno (prev.seqno + 1) (next.seqno - 1)
      if here then
        if copied then
          (prev.map fun prev => prev.cutAt s.seqno).toList ++ tcpOosInsertSegment s (next :: rest)
        else keep
      else if rest.isEmpty && seqGt s.seqno next.seqno then
        if next.fin || !copied then keep
        else prev.toList ++ [next.cutAt s.seqno, s.cutAtEdge tcplen edge]
      else prev.toList ++ oosWalk copied s tcplen edge (some next) rest

/-- The segment starts behind `rcv_nxt`: it is queued, and answered by a duplicate ACK. -/
def tcpReceiveOutOfSeq (c : Conn) (o : Out) (s : InSeg) (tcplen : UInt16) : Conn × Out :=
  let copied := o.alloc.1
  let ooseq :=
    if c.ooseq.isEmpty then if copied then [s] else []
    else oosWalk copied s tcplen (c.rcvNxt + c.rcvWnd.toUInt32) none c.ooseq
  let c := { c with ooseq }
  (c, (tcpSendEmptyAck c o.alloc.2).2)

def Conn.inWindow (c : Conn) (seqno : UInt32) : Bool :=
  seqBetween seqno c.rcvNxt (c.rcvNxt + c.rcvWnd.toUInt32 - 1)

/-- The front of the segment has been received before. -/
def Segment.overlaps (s : Segment) (rcvNxt : UInt32) : Bool :=
  seqBetween rcvNxt (s.seqno + 1) (s.seqno + s.tcplen.toUInt32 - 1)

/-- `inseg` without what has been received before. -/
def Segment.fresh (s : Segment) (rcvNxt : UInt32) : InSeg :=
  if s.overlaps rcvNxt then s.inseg.trimFront rcvNxt else s.inseg

/-- All of the segment has been received before: it is acknowledged again. -/
def Segment.ackOld (s : Segment) (rcvNxt : UInt32) (o : Out) : Out :=
  if !s.overlaps rcvNxt && seqLt s.seqno rcvNxt then { o with ackNow := true } else o

/-- The data part of `tcp_receive`. -/
def tcpReceiveData (c : Conn) (o : Out) (s : Segment) : Conn × Out :=
  if 0 < s.tcplen ∧ c.state.num < TcpState.closeWait.num then
    if c.inWindow (s.fresh c.rcvNxt).seqno then
      if c.rcvNxt = (s.fresh c.rcvNxt).seqno then
        tcpReceiveInSeq c (s.ackOld c.rcvNxt o) (s.fresh c.rcvNxt)
      else tcpReceiveOutOfSeq c (s.ackOld c.rcvNxt o) (s.fresh c.rcvNxt) s.tcplen
    else (c, (tcpSendEmptyAck c (s.ackOld c.rcvNxt o)).2)
  else (c, if c.inWindow s.seqno then o else { o with ackNow := true })

def tcpReceive (c : Conn) (o : Out) (s : Segment) : Conn × Out :=
  tcpReceiveData c (tcpReceiveAck c o s) s

section Held

/-- What the stack leaves alone while it receives: only the application closes the receive side
and adds to the history of calls. -/
def Conn.held (c : Conn) : Bool × Bool × List AppEvent := (c.rxClosed, c.inputPcb, c.calls)

variable (c : Conn) (o : Out)

theorem drainOoseq_held (ss : List InSeg) : (drainOoseq ss c o).1.held = c.held := by
  induction ss generalizing c o with
  | nil => rfl
  | cons s rest ih =>
    rw [drainOoseq]
    split_ifs
    · exact ih (c.takeQueued s) _
    · rfl

theorem tcpReceiveInSeq_held (s : InSeg) : (tcpReceiveInSeq c o s).1.held = c.held :=
  drainOoseq_held ..

@[simp] theorem tcpReceive_held (s : Segment) : (tcpReceive c o s).1.held = c.held := by
  rw [tcpReceive, tcpReceiveData]
  split_ifs
  · exact tcpReceiveInSeq_held ..
  all_goals rfl

end Held

end EthernetPing
