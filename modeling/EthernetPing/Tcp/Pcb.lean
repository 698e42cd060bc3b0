import EthernetPing.Lib.SeqNum
import EthernetPing.Net.Pbuf

/-!
# A TCP connection

The protocol control block of one passively opened connection, with the variables of
`tcp_input` that belong to the segment being processed. The block is split in two:
`Out` is what the output functions change, with the segments put on the wire and the
answers of the memory pools; `Conn` is the rest, which they only read. Fields that
only the timers use are left out, and so are header flags that nothing reads.
-/

namespace EthernetPing

/-- Connection states, without those of listening and of active opening. -/
inductive TcpState where
  | closed | synRcvd | established | finWait1 | finWait2 | closeWait | closing | lastAck | timeWait
  deriving DecidableEq, Repr

/-- `err_t` -/
inductive Err where
  | ok | mem | buf | rte | val | conn | abrt | rst
  deriving DecidableEq, Repr

/-- The values of `enum tcp_state`, by which states are compared. -/
def TcpState.num : TcpState → ℕ
  | closed => 0
  | synRcvd => 3
  | established => 4
  | finWait1 => 5
  | finWait2 => 6
  | closeWait => 7
  | closing => 8
  | lastAck => 9
  | timeWait => 10

def tcpMss : UInt16 := 536
def tcpWnd : UInt16 := 2 * tcpMss
def tcpSndBuf : UInt16 := 2 * tcpMss
def tcpSndQueuelen : UInt16 := 4

/-- A segment of the send queues; `clen` is `pbuf_clen(seg->p)`. -/
structure OutSeg where
  seqno : UInt32
  data : List UInt8
  clen : UInt16
  syn : Bool
  fin : Bool

def OutSeg.len (s : OutSeg) : UInt16 := UInt16.ofNat s.data.length

/-- `TCP_TCPLEN` -/
def OutSeg.tcplen (s : OutSeg) : UInt32 := s.len.toUInt32 + if s.fin || s.syn then 1 else 0

/-- A received segment; what `tcphdr` and `inseg` hold of it. -/
structure InSeg where
  seqno : UInt32
  len : UInt16
  syn : Bool
  fin : Bool
  p : List Pbuf

/-- `TCP_TCPLEN` -/
def InSeg.tcplen (s : InSeg) : UInt16 := s.len + if s.fin || s.syn then 1 else 0

/-- What is put on the wire. -/
inductive Wire where
  | seg (s : OutSeg) (ackno : UInt32) (wnd : UInt16)
  | ack (seqno ackno : UInt32) (wnd : UInt16)
  | rst (seqno ackno : UInt32)

/-- The send side. `rtime` tells whether the retransmission timer runs, `mem` is the sequence of
answers that allocations and the IP layer will give, and `wire` what was sent, latest first. -/
structure Out where
  sndNxt : UInt32
  lastack : UInt32
  sndWl1 : UInt32
  sndWl2 : UInt32
  sndLbb : UInt32
  sndWnd : UInt16
  sndWndMax : UInt16
  cwnd : UInt16
  ssthresh : UInt16
  bytesAcked : UInt16
  mss : UInt16
  sndBuf : UInt16
  sndQueuelen : UInt16
  unsent : List OutSeg
  unacked : List OutSeg
  rtime : Bool
  dupacks : UInt8
  rtoEnd : UInt32
  rcvAnnWnd : UInt16
  rcvAnnRightEdge : UInt32
  /-- `TF_ACK_DELAY` -/
  ackDelay : Bool
  /-- `TF_ACK_NOW` -/
  ackNow : Bool
  /-- `TF_INFR` -/
  inFr : Bool
  /-- `TF_FIN` -/
  finQueued : Bool
  /-- `TF_NODELAY` -/
  noDelay : Bool
  /-- `TF_NAGLEMEMERR` -/
  nagleMemErr : Bool
  /-- `TF_RTO` -/
  rto : Bool
  recvAcked : UInt16
  mem : ℕ → Bool
  wire : List Wire

/-- What the application did on the connection. -/
inductive AppEvent where
  | write (data : List UInt8) (result : Err)
  | output (result : Err)
  /-- `tcp_close` with the number of RST segments that it sent. -/
  | close (result : Err) (rsts : ℕ)
  /-- The receive callback returned, with this receive window. -/
  | ret (rcvWnd : UInt16)
  deriving DecidableEq

/-- State, receive side and the variables of `tcp_input`. `active` tells whether the block is on
`tcp_active_pcbs`, `inputPcb` whether it is `tcp_input_pcb`. `refused_data` has no place here: it
stays `NULL` because the receive callback always returns `ERR_OK`. -/
structure Conn where
  state : TcpState
  rcvNxt : UInt32
  rcvWnd : UInt16
  ooseq : List InSeg
  /-- `TF_RXCLOSED` -/
  rxClosed : Bool
  /-- `TF_CLOSEPEND` -/
  closePend : Bool
  active : Bool
  inputPcb : Bool
  recvData : Option (List Pbuf)
  /-- `TF_GOT_FIN` -/
  gotFin : Bool
  /-- `TF_CLOSED` -/
  tfClosed : Bool
  /-- `TF_RESET` -/
  tfReset : Bool
  calls : List AppEvent

structure Net where
  conn : Conn
  out : Out

namespace Out

def alloc (o : Out) : Bool × Out := (o.mem 0, { o with mem := fun i => o.mem (i + 1) })

/-- Pass a segment to the IP layer, which may fail. -/
def ipOutput (o : Out) (x : Wire) : Bool × Out :=
  if o.alloc.1 then (true, { o.alloc.2 with wire := x :: o.wire }) else (false, o.alloc.2)

end Out

/-- `tcp_update_rcv_ann_wnd`, with the right edge that is announced. -/
def tcpUpdateRcvAnnWnd (c : Conn) (o : Out) : Out :=
  if seqGeq (c.rcvNxt + c.rcvWnd.toUInt32)
      (o.rcvAnnRightEdge + (lwipMin (tcpWnd / 2) o.mss).toUInt32) then
    { o with rcvAnnWnd := c.rcvWnd }
  else if seqGt c.rcvNxt o.rcvAnnRightEdge then { o with rcvAnnWnd := 0 }
  else { o with rcvAnnWnd := (o.rcvAnnRightEdge - c.rcvNxt).toUInt16 }

end EthernetPing
