import EthernetPing.Tcp.Pcb

/-!
# The send side of TCP

The functions of `tcp_out.c` that a connection uses, and those of `tcp_in.c` that work
on the send queues. They read the state and the receive side and change the send side
only, which their types say.
-/

namespace EthernetPing

def tcpSendEmptyAck (c : Conn) (o : Out) : Err × Out :=
  if o.alloc.1 then
    let o := { o.alloc.2 with rcvAnnRightEdge := c.rcvNxt + o.rcvAnnWnd.toUInt32 }
    let sent := o.ipOutput (.ack o.sndNxt c.rcvNxt o.rcvAnnWnd)
    if sent.1 then (.ok, { sent.2 with ackDelay := false, ackNow := false })
    else (.rte, { sent.2 with ackDelay := true, ackNow := true })
  else (.buf, { o.alloc.2 with ackDelay := true, ackNow := true })

/-- `tcp_rst`; without memory no segment is sent. -/
def tcpRst (o : Out) (seqno ackno : UInt32) : Out :=
  if o.alloc.1 then (o.alloc.2.ipOutput (.rst seqno ackno)).2 else o.alloc.2

/-- Put a segment in front of the first one that is not before it. -/
def insertSorted (seg : OutSeg) : List OutSeg → List OutSeg
  | [] => [seg]
  | s :: rest => if seqLt s.seqno seg.seqno then s :: insertSorted seg rest else seg :: s :: rest

/-- `tcp_output_segment`. Nothing is sent, without an error, while the driver still refers to the
segment. -/
def tcpOutputSegment (c : Conn) (o : Out) (seg : OutSeg) : Bool × Out :=
  if o.alloc.1 then
    let o := { o.alloc.2 with rcvAnnRightEdge := c.rcvNxt + o.rcvAnnWnd.toUInt32, rtime := true }
    o.ipOutput (.seg seg c.rcvNxt o.rcvAnnWnd)
  else (true, o.alloc.2)

def tcpDoOutputNagle (o : Out) : Bool :=
  o.unacked.isEmpty || o.noDelay || o.inFr ||
    (match o.unsent with
      | [] => false
      | seg :: rest => !rest.isEmpty || o.mss ≤ seg.len) ||
    o.sndBuf == 0 || tcpSndQueuelen ≤ o.sndQueuelen

/-- The segment ends behind the window. -/
def Out.beyondWindow (o : Out) (seg : OutSeg) : Bool :=
  (lwipMin o.sndWnd o.cwnd).toUInt32 < seg.seqno - o.lastack + seg.len.toUInt32

/-- The queue of unacknowledged segments after `seg` was sent. -/
def enqueueUnacked (unacked : List OutSeg) (seg : OutSeg) : List OutSeg :=
  if seg.tcplen = 0 then unacked
  else
    match unacked.getLast? with
    | none => [seg]
    | some useg =>
      if seqLt seg.seqno useg.seqno then insertSorted seg unacked else unacked ++ [seg]

/-- The loop of `tcp_output` over the unsent queue. -/
def tcpOutputLoop (c : Conn) : List OutSeg → Out → Err × Out
  | [], o => (.ok, { o with unsent := [], nagleMemErr := false })
  | seg :: rest, o =>
    let o := { o with unsent := seg :: rest }
    if o.beyondWindow seg || !(tcpDoOutputNagle o || o.nagleMemErr || o.finQueued) then
      (.ok, { o with nagleMemErr := false })
    else
      let sent := tcpOutputSegment c o seg
      if sent.1 then
        let sndNxt := seg.seqno + seg.tcplen
        tcpOutputLoop c rest
          { sent.2 with
            ackDelay := false
            ackNow := false
            sndNxt := if seqLt sent.2.sndNxt sndNxt then sndNxt else sent.2.sndNxt
            unacked := enqueueUnacked sent.2.unacked seg }
      else (.rte, { sent.2 with nagleMemErr := true })

/-- `tcp_output`; a call from inside `tcp_input` does nothing. -/
def tcpOutput (c : Conn) (o : Out) : Err × Out :=
  if c.inputPcb then (.ok, o)
  else
    match o.unsent with
    | [] => if o.ackNow then tcpSendEmptyAck c o else (.ok, { o with nagleMemErr := false })
    | seg :: _ =>
      if o.beyondWindow seg && o.ackNow then tcpSendEmptyAck c o else tcpOutputLoop c o.unsent o

def tcpWriteChecks (c : Conn) (o : Out) (len : UInt16) : Err × Out :=
  if c.state ≠ .established ∧ c.state ≠ .closeWait ∧ c.state ≠ .synRcvd then (.conn, o)
  else if len = 0 then (.ok, o)
  else if o.sndBuf < len then (.mem, { o with nagleMemErr := true })
  else if tcpSndQueuelen ≤ o.sndQueuelen then (.mem, { o with nagleMemErr := true })
  else (.ok, o)

/-- Phase 3 of `tcp_write`: cut `data` into segments of at most `mssLocal` bytes. Each needs a
pbuf, room in the queue, and a `tcp_seg`; `none` is `memerr`. -/
def tcpCreateSegments (mssLocal : UInt16) :
    ℕ → List UInt8 → UInt32 → UInt16 → Out → Option (List OutSeg × UInt16) × Out
  | _, [], _, queuelen, o => (some ([], queuelen), o)
  | 0, _ :: _, _, _, o => (none, o)
  | fuel + 1, data, seqno, queuelen, o =>
    let seglen := lwipMin (UInt16.ofNat data.length) mssLocal
    let seg : OutSeg :=
      { seqno, data := data.take seglen.toNat, clen := 1, syn := false, fin := false }
    if !o.alloc.1 then (none, o.alloc.2)
    else if tcpSndQueuelen < queuelen + 1 then (none, o.alloc.2)
    else if !o.alloc.2.alloc.1 then (none, o.alloc.2.alloc.2)
    else
      let rest := tcpCreateSegments mssLocal fuel (data.drop seglen.toNat)
        (seqno + seglen.toUInt32) (queuelen + 1) o.alloc.2.alloc.2
      (rest.1.map fun r => (seg :: r.1, r.2), rest.2)

/-- Phase 2 of `tcp_write` hangs this many bytes on the last unsent segment. -/
def tcpWriteSpace (mssLocal : UInt16) (o : Out) (len : UInt16) : UInt16 :=
  match o.unsent.getLast? with
  | none => 0
  | some last => if 0 < last.len then lwipMin (mssLocal - last.len) len else 0

/-- The unsent queue with `data` hung on its last segment, in a pbuf of its own. -/
def extendLast (unsent : List OutSeg) (data : List UInt8) : List OutSeg :=
  match unsent.getLast? with
  | none => unsent
  | some last => unsent.dropLast ++ [{ last with data := last.data ++ data, clen := last.clen + 1 }]

/-- `tcp_write` with `TCP_WRITE_FLAG_COPY`: all of `data` is queued, or nothing. -/
def tcpWrite (c : Conn) (o : Out) (data : List UInt8) : Err × Out :=
  let len := UInt16.ofNat data.length
  let half := lwipMin o.mss (o.sndWndMax / 2)
  let mssLocal := if half = 0 then o.mss else half
  let check := tcpWriteChecks c o len
  if check.1 ≠ .ok then check
  else
    let seglen := tcpWriteSpace mssLocal o len
    let concat := if seglen = 0 then (true, o) else o.alloc
    if !concat.1 then (.mem, { concat.2 with nagleMemErr := true })
    else
      let pbufs : UInt16 := if seglen = 0 then 0 else 1
      let made := tcpCreateSegments mssLocal data.length (data.drop seglen.toNat)
        (o.sndLbb + seglen.toUInt32) (o.sndQueuelen + pbufs) concat.2
      match made.1 with
      | none => (.mem, { made.2 with nagleMemErr := true })
      | some (queue, queuelen) =>
        (.ok, { made.2 with
          unsent :=
            (if seglen = 0 then o.unsent else extendLast o.unsent (data.take seglen.toNat)) ++ queue
          sndLbb := o.sndLbb + len.toUInt32
          sndBuf := o.sndBuf - len
          sndQueuelen := queuelen })

/-- `tcp_enqueue_flags` with `TCP_FIN` -/
def tcpEnqueueFin (o : Out) : Err × Out :=
  if !o.alloc.1 then (.mem, { o.alloc.2 with nagleMemErr := true })
  else if !o.alloc.2.alloc.1 then (.mem, { o.alloc.2.alloc.2 with nagleMemErr := true })
  else
    let seg : OutSeg := { seqno := o.sndLbb, data := [], clen := 1, syn := false, fin := true }
    (.ok, { o.alloc.2.alloc.2 with
      unsent := o.unsent ++ [seg]
      sndLbb := o.sndLbb + 1
      finQueued := true
      sndQueuelen := o.sndQueuelen + 1 })

def tcpSendFin (o : Out) : Err × Out :=
  match o.unsent.getLast? with
  | some last =>
    if last.syn || last.fin then tcpEnqueueFin o
    else
      (.ok, { o with
        unsent := o.unsent.dropLast ++ [{ last with fin := true }]
        finQueued := true })
  | none => tcpEnqueueFin o

/-- `tcp_rexmit` moves the first unacknowledged segment back to the unsent queue, unless the
driver still refers to it. -/
def tcpRexmit (o : Out) : Err × Out :=
  match o.unacked with
  | [] => (.val, o)
  | seg :: rest =>
    if o.alloc.1 then (.ok, { o.alloc.2 with unacked := rest, unsent := insertSorted seg o.unsent })
    else (.val, o.alloc.2)

def tcpRexmitFast (o : Out) : Out :=
  if o.unacked.isEmpty || o.inFr then o
  else
    let sent := tcpRexmit o
    if sent.1 = .ok then
      let half := lwipMin o.cwnd o.sndWnd / 2
      let ssthresh := if half.toNat < 2 * o.mss.toNat then 2 * o.mss else half
      { sent.2 with ssthresh, cwnd := ssthresh + 3 * o.mss, inFr := true, rtime := true }
    else sent.2

/-- `TCP_WND_INC`: no overflow. -/
def tcpWndInc (wnd inc : UInt16) : UInt16 := if wnd + inc < wnd then 0xFFFF else wnd + inc

/-- `tcp_free_acked_segments` on a queue: the segments that stay, and the pbufs and bytes of those
that do not. -/
def tcpFreeAckedSegments (ackno : UInt32) : List OutSeg → List OutSeg × UInt16 × UInt16
  | [] => ([], 0, 0)
  | seg :: rest =>
    if seqLeq (seg.seqno + seg.tcplen) ackno then
      let r := tcpFreeAckedSegments ackno rest
      (r.1, seg.clen + r.2.1, seg.len + r.2.2)
    else (seg :: rest, 0, 0)

end EthernetPing
