import EthernetPing.Tcp.Input

/-!
# Opening a connection

A listening block answers a SYN by a new block in SYN-RCVD, which sends its own SYN. Other
connections that `tcp_alloc` may have to end for it have no place here.
-/

namespace EthernetPing

/-- `tcp_alloc`; `mem` are the answers that allocations will give from then on. -/
def tcpAlloc (mem : ℕ → Bool) : Net where
  conn :=
    { state := .closed, rcvNxt := 0, rcvWnd := tcpWnd, ooseq := [], rxClosed := false
      closePend := false, active := false, inputPcb := false, recvData := none, gotFin := false
      tfClosed := false, tfReset := false, calls := [] }
  out :=
    { sndNxt := 0, lastack := 0, sndWl1 := 0, sndWl2 := 0, sndLbb := 0, sndWnd := 0
      sndWndMax := 0, cwnd := 1, ssthresh := tcpSndBuf, bytesAcked := 0, mss := tcpMss
      sndBuf := tcpSndBuf, sndQueuelen := 0, unsent := [], unacked := [], rtime := false
      dupacks := 0, rtoEnd := 0, rcvAnnWnd := tcpWnd, rcvAnnRightEdge := 0, ackDelay := false
      ackNow := false, inFr := false, finQueued := false, noDelay := false, nagleMemErr := false
      rto := false, recvAcked := 0, mem, wire := [] }

/-- `tcp_eff_send_mss` for an interface with this MTU. -/
def tcpEffSendMss (sendmss mtu : UInt16) : UInt16 :=
  if mtu = 0 then sendmss else lwipMin sendmss (if 40 < mtu then mtu - 40 else 0)

/-- `tcp_enqueue_flags` with `TCP_SYN | TCP_ACK` -/
def tcpEnqueueSyn (o : Out) : Err × Out :=
  if !o.alloc.1 then (.mem, { o.alloc.2 with nagleMemErr := true })
  else if !o.alloc.2.alloc.1 then (.mem, { o.alloc.2.alloc.2 with nagleMemErr := true })
  else
    let seg : OutSeg := { seqno := o.sndLbb, data := [], clen := 1, syn := true, fin := false }
    (.ok, { o.alloc.2.alloc.2 with
      unsent := o.unsent ++ [seg]
      sndLbb := o.sndLbb + 1
      sndQueuelen := o.sndQueuelen + 1 })

/-- The new block of `tcp_listen_input` before its SYN is sent. -/
def listenPcb (mem : ℕ → Bool) (iss : UInt32) (mtu : UInt16) (s : Segment) : Net :=
  let n := tcpAlloc mem
  { conn := { n.conn with state := .synRcvd, rcvNxt := s.seqno + 1, active := true }
    out :=
      { n.out with
        rcvAnnRightEdge := s.seqno + 1
        sndWl2 := iss
        sndNxt := iss
        lastack := iss
        sndLbb := iss
        sndWl1 := s.seqno - 1
        sndWnd := s.wnd
        sndWndMax := s.wnd
        mss := tcpEffSendMss (tcpParseopt s.opts.length s.opts n.out.mss) mtu } }

/-- `tcp_listen_input`: the connection that a segment opens. `iss` is the answer of `tcp_next_iss`,
`pending` whether fewer connections than the backlog are waiting, `mem 0` whether there is a free
block. -/
def tcpListenInput (mem : ℕ → Bool) (iss : UInt32) (mtu : UInt16) (pending : Bool) (s : Segment) :
    Option Net :=
  if s.rst || s.ack || !s.syn || !pending || !mem 0 then none
  else
    let n := listenPcb (fun i => mem (i + 1)) iss mtu s
    let syn := tcpEnqueueSyn n.out
    if syn.1 = .ok then some { n with out := (tcpOutput n.conn syn.2).2 } else none

end EthernetPing
