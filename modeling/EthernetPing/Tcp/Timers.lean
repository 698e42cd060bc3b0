import EthernetPing.Tcp.Close

/-!
# Retransmission and the slow timer

The functions that `tcp_slowtmr` uses on one active connection. How often something was
tried and how long ago is not part of the block here: which of the limits are reached is
the input of the timer.
-/

namespace EthernetPing

/-- None of the segments is in use by the driver any more; the first one that is ends the test. -/
def segsIdle : List OutSeg → Out → Bool × Out
  | [], o => (true, o)
  | _ :: rest, o => if o.alloc.1 then segsIdle rest o.alloc.2 else (false, o.alloc.2)

/-- `tcp_rexmit_rto_prepare` moves all unacknowledged segments to the head of the unsent queue. -/
def tcpRexmitRtoPrepare (o : Out) : Err × Out :=
  match o.unacked.getLast? with
  | none => (.val, o)
  | some seg =>
    let idle := segsIdle o.unacked o
    if idle.1 then
      (.ok, { idle.2 with
        unsent := o.unacked ++ o.unsent
        unacked := []
        rto := true
        rtoEnd := seg.seqno + seg.tcplen })
    else (.val, idle.2)

def tcpRexmitRtoCommit (c : Conn) (o : Out) : Out := (tcpOutput c o).2

/-- `tcp_split_unsent_seg` splits the first unsent segment; `clen` is `pbuf_clen` of what
`pbuf_realloc` leaves of it. The remainder gets the FIN. The flags of the first part are set by
`TCPH_SET_FLAG`, which takes none away. -/
def tcpSplitUnsentSeg (o : Out) (split clen : UInt16) : Err × Out :=
  match o.unsent with
  | [] => (.mem, o)
  | useg :: rest =>
    if split = 0 then (.val, o)
    else if useg.len ≤ split then (.ok, o)
    else if !o.alloc.1 then (.mem, o.alloc.2)
    else if !o.alloc.2.alloc.1 then (.mem, o.alloc.2.alloc.2)
    else
      let seg : OutSeg :=
        { seqno := useg.seqno + split.toUInt32
          data := useg.data.drop split.toNat
          clen := 1
          syn := false
          fin := useg.fin }
      (.ok, { o.alloc.2.alloc.2 with
        unsent := { useg with data := useg.data.take split.toNat, clen } :: seg :: rest
        sndQueuelen := o.sndQueuelen - useg.clen + clen + seg.clen })

/-- `tcp_zero_window_probe` sends one number of the first unsent segment: a FIN that is alone, or
one byte. `junk` is what `tcp_output_alloc_header` left where the byte goes. -/
def tcpZeroWindowProbe (c : Conn) (o : Out) (junk : UInt8) : Err × Out :=
  match o.unsent with
  | [] => (.ok, o)
  | seg :: _ =>
    if !o.alloc.1 then (.mem, o.alloc.2)
    else
      let isFin := seg.fin && seg.len == 0
      let probe : OutSeg :=
        { seqno := seg.seqno
          data := if isFin then [] else [seg.data.headD junk]
          clen := 1
          syn := false
          fin := isFin }
      let sndNxt := seg.seqno + 1
      let o :=
        { o.alloc.2 with
          rcvAnnRightEdge := c.rcvNxt + o.rcvAnnWnd.toUInt32
          sndNxt := if seqLt o.sndNxt sndNxt then sndNxt else o.sndNxt }
      let sent := o.ipOutput (.seg probe c.rcvNxt o.rcvAnnWnd)
      (if sent.1 then .ok else .rte, sent.2)

/-- What the counters of a connection tell `tcp_slowtmr`. -/
structure SlowDue where
  /-- `nrtx` or, with the persist timer, `persist_probe` has reached `TCP_MAXRTX`. -/
  maxRtx : Bool
  /-- `persist_backoff > 0` -/
  persist : Bool
  /-- `persist_cnt` has reached the slot. -/
  slot : Bool
  /-- `rtime` has reached `rto`. -/
  rto : Bool
  /-- One of the time-outs of FIN-WAIT-2, SYN-RCVD and LAST-ACK. -/
  stuck : Bool
  /-- `TCP_OOSEQ_TIMEOUT` -/
  ooseq : Bool
  /-- `polltmr` has reached `pollinterval`. -/
  poll : Bool
  clen : UInt16
  junk : UInt8

/-- The persist timer: a probe, or as much of the first segment as the window takes. -/
def tcpPersist (due : SlowDue) (c : Conn) (o : Out) : Out :=
  if !due.slot then o
  else if o.sndWnd = 0 then (tcpZeroWindowProbe c o due.junk).2
  else
    let split := tcpSplitUnsentSeg o o.sndWnd due.clen
    if split.1 = .ok then (tcpOutput c split.2).2 else split.2

/-- The retransmission timer has expired. -/
def tcpRtoExpired (c : Conn) (o : Out) : Out :=
  let prepared := tcpRexmitRtoPrepare o
  if prepared.1 = .ok ∨ (prepared.2.unacked.isEmpty ∧ !prepared.2.unsent.isEmpty) then
    let o := prepared.2
    let half := lwipMin o.cwnd o.sndWnd >>> 1
    tcpRexmitRtoCommit c
      { o with
        rtime := true
        ssthresh := if half < o.mss <<< 1 then o.mss <<< 1 else half
        cwnd := o.mss
        bytesAcked := 0 }
  else prepared.2

/-- `tcp_slowtmr` does not know a state in which the connection is stuck but these. -/
def Conn.mayStick (c : Conn) : Bool :=
  (c.state == .finWait2 && c.rxClosed) || c.state == .synRcvd || c.state == .lastAck

/-- The part of `tcp_slowtmr` for one active connection without callbacks for polling and errors,
and without the option for keeping it alive. -/
def tcpSlowtmr (due : SlowDue) (n : Net) : Net :=
  let out :=
    if due.maxRtx then n.out
    else if due.persist then tcpPersist due n.conn n.out
    else if due.rto && n.out.rtime then tcpRtoExpired n.conn n.out
    else n.out
  let ooseq := if due.ooseq then [] else n.conn.ooseq
  let m : Net := { conn := { n.conn with ooseq }, out }
  if due.maxRtx || (due.stuck && n.conn.mayStick) then
    let m := tcpPcbPurge m
    { m with conn := { m.conn with active := false } }
  else if due.poll then { m with out := (tcpOutput m.conn m.out).2 }
  else m

end EthernetPing
