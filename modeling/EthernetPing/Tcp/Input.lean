import EthernetPing.Tcp.Close

/-!
# `tcp_input`

From the chain that IP hands over to the callbacks of the application: the header is
taken off, the state machine of `tcp_process` runs, and what `tcp_receive` found is
passed up, the data first and then the end of the stream. The application is a
parameter. Broadcasts, wrong checksums and segments of other connections have been
sorted out before; a connection that is not on the active list gets no callback.
-/

namespace EthernetPing

/-- The callbacks of the application. Receiving always succeeds. -/
structure App where
  accept : Net → Err × Net
  recv : Option (List Pbuf) → Net → Net

section Header

/-- A big-endian field of a header. -/
def be16 (h : ℕ → UInt8) (i : ℕ) : UInt16 := ((h i).toUInt16 <<< 8) ||| (h (i + 1)).toUInt16

def be32 (h : ℕ → UInt8) (i : ℕ) : UInt32 :=
  ((be16 h i).toUInt32 <<< 16) ||| (be16 h (i + 2)).toUInt32

def tcpHlen : UInt16 := 20

def tcphHdrlenBytes (h : ℕ → UInt8) : UInt16 := ((h 12 >>> 4) * 4).toUInt16

/-- Take `hdrlen` bytes off a chain, and read the options that come after the fixed header. If
they reach into the second buffer, the first one stays in the chain with length 0. -/
def stripHeader (q : Pbuf) (qs : List Pbuf) (hdrlen : UInt16) : Option (List Pbuf × List UInt8) :=
  let optlen := hdrlen - tcpHlen
  let opt := fun i => q.payload (tcpHlen.toNat + i)
  if hdrlen ≤ q.len then
    some (q.removeHeader hdrlen :: qs, (List.range optlen.toNat).map opt)
  else
    let opt1len := q.len - tcpHlen
    let opt2len := optlen - opt1len
    match qs with
    | [] => none
    | r :: rs =>
      if r.len < opt2len then none
      else
        let q := (q.removeHeader tcpHlen).removeHeader opt1len
        some ({ q with totLen := q.totLen - opt2len } :: r.removeHeader opt2len :: rs,
          (List.range opt1len.toNat).map opt ++ (List.range opt2len.toNat).map r.payload)

/-- The first part of `tcp_input`: the segment in a chain, unless it is dropped. -/
def tcpHeader (p : List Pbuf) : Option Segment :=
  match p with
  | [] => none
  | q :: qs =>
    let h := q.payload
    let hdrlen := tcphHdrlenBytes h
    if q.len < tcpHlen ∨ hdrlen < tcpHlen ∨ q.totLen < hdrlen then none
    else
      (stripHeader q qs hdrlen).bind fun stripped =>
        let s : Segment :=
          { seqno := be32 h 4
            ackno := be32 h 8
            wnd := be16 h 14
            fin := h 13 &&& 0x01 != 0
            syn := h 13 &&& 0x02 != 0
            rst := h 13 &&& 0x04 != 0
            ack := h 13 &&& 0x10 != 0
            opts := stripped.2
            p := stripped.1 }
        if s.tcplen < totLen s.p then none else some s

/-- `tcp_parseopt`: the MSS that the options announce last, limited to `TCP_MSS`. -/
def tcpParseopt : ℕ → List UInt8 → UInt16 → UInt16
  | 0, _, mss => mss
  | _, [], mss => mss
  | fuel + 1, opt :: opts, mss =>
    if opt = 0 then mss
    else if opt = 1 then tcpParseopt fuel opts mss
    else if opt = 2 then
      match opts with
      | 4 :: hi :: lo :: opts =>
        let m := (hi.toUInt16 <<< 8) ||| lo.toUInt16
        tcpParseopt fuel opts (if tcpMss < m ∨ m = 0 then tcpMss else m)
      | _ => mss
    else if opts.headD 0 < 2 then mss
    else tcpParseopt fuel (opts.drop ((opts.headD 0).toNat - 1)) mss

end Header

variable (app : App)

/-- `tcp_ack_now` -/
def Net.ackNow (n : Net) : Net := { n with out := { n.out with ackNow := true } }

def Net.setState (n : Net) (state : TcpState) : Net := { n with conn := { n.conn with state } }

/-- `tcp_receive` on the whole connection. -/
def Net.receive (n : Net) (s : Segment) : Net :=
  let r := tcpReceive n.conn n.out s
  { conn := r.1, out := r.2 }

/-- The remote side has closed: answer at once, and change state. -/
def Net.gotFin (n : Net) (state : TcpState) : Net :=
  if n.conn.gotFin then n.ackNow.setState state else n

/-- Our FIN is acknowledged. -/
def Net.finAcked (n : Net) (s : Segment) : Bool :=
  s.ack && s.ackno == n.out.sndNxt && n.out.unsent.isEmpty

/-- The block moves to the list of those in TIME-WAIT. -/
def Net.toTimeWait (n : Net) : Net :=
  let m := tcpPcbPurge n
  ({ m with conn := { m.conn with active := false } } : Net).setState .timeWait

/-- `LWIP_TCP_CALC_INITIAL_CWND` -/
def initialCwnd (mss : UInt16) : UInt16 :=
  UInt16.ofNat (min (4 * mss.toNat) (max (2 * mss.toNat) 4380))

/-- The case `SYN_RCVD` of `tcp_process`. -/
def tcpProcessSynRcvd (n : Net) (s : Segment) : Err × Net :=
  if s.syn then
    if s.seqno = n.conn.rcvNxt - 1 then (.ok, { n with out := (tcpRexmit n.out).2 }) else (.ok, n)
  else if s.ack then
    if seqBetween s.ackno (n.out.lastack + 1) n.out.sndNxt then
      let accepted := app.accept (n.setState .established)
      if accepted.1 = .ok then
        let n := accepted.2.receive s
        let recvAcked := if n.out.recvAcked ≠ 0 then n.out.recvAcked - 1 else 0
        let out := { n.out with recvAcked, cwnd := initialCwnd n.out.mss }
        (.ok, ({ n with out : Net }).gotFin .closeWait)
      else
        (.abrt, if accepted.1 = .abrt then accepted.2 else tcpAbort accepted.2)
    else (.ok, { n with out := tcpRst n.out s.ackno (s.seqno + s.tcplen.toUInt32) })
  else (.ok, n)

/-- The states of `tcp_process` from `ESTABLISHED` on. -/
def tcpProcessState (n : Net) (s : Segment) : Net :=
  match n.conn.state with
  | .closeWait | .established => (n.receive s).gotFin .closeWait
  | .finWait1 =>
    let n := n.receive s
    if n.conn.gotFin then
      if n.finAcked s then n.ackNow.toTimeWait else n.gotFin .closing
    else if n.finAcked s then n.setState .finWait2
    else n
  | .finWait2 =>
    let n := n.receive s
    if n.conn.gotFin then n.ackNow.toTimeWait else n
  | .closing =>
    let n := n.receive s
    if n.finAcked s then n.toTimeWait else n
  | .lastAck =>
    let n := n.receive s
    if n.finAcked s then { n with conn := { n.conn with tfClosed := true } } else n
  | _ => n

def tcpProcess (n : Net) (s : Segment) : Err × Net :=
  if s.rst then
    if s.seqno = n.conn.rcvNxt then
      (.rst, { conn := { n.conn with tfReset := true }, out := { n.out with ackDelay := false } })
    else if seqBetween s.seqno n.conn.rcvNxt (n.conn.rcvNxt + n.conn.rcvWnd.toUInt32) then
      (.ok, n.ackNow)
    else (.ok, n)
  else if s.syn ∧ n.conn.state ≠ .synRcvd then (.ok, n.ackNow)
  else
    let n := { n with out := { n.out with mss := tcpParseopt s.opts.length s.opts n.out.mss } }
    if n.conn.state = .synRcvd then tcpProcessSynRcvd app n s else (.ok, tcpProcessState n s)

/-- `tcp_input` begins to process a segment. -/
def Net.enter (n : Net) : Net :=
  { conn :=
      { n.conn with
        inputPcb := true, recvData := none, gotFin := false, tfClosed := false, tfReset := false }
    out := { n.out with recvAcked := 0 } }

/-- `tcp_input` is done with the segment. -/
def Net.leave (n : Net) : Net :=
  { n with conn := { n.conn with inputPcb := false, recvData := none } }

/-- The end of `tcp_input` for a connection that was not aborted. -/
def tcpInputDone (n : Net) : Net :=
  let n := { n with conn := { n.conn with inputPcb := false } }
  if n.conn.tfClosed then tcpPcbRemove n else { n with out := (tcpOutput n.conn n.out).2 }

/-- Tell the application that the stream has ended. The window gets back what the FIN took. -/
def tcpInputFin (n : Net) : Net :=
  let rcvWnd := if n.conn.rcvWnd ≠ tcpWnd then n.conn.rcvWnd + 1 else n.conn.rcvWnd
  app.recv none { n with conn := { n.conn with rcvWnd } }

/-- What comes after the data in `tcp_input`. -/
def tcpInputEnd (n : Net) : Net := tcpInputDone (if n.conn.gotFin then tcpInputFin app n else n)

/-- The part of `tcp_input` behind `tcp_process`. -/
def tcpInputDeliver (n : Net) : Net :=
  if n.conn.tfReset ∨ n.conn.tfClosed then tcpPcbRemove n
  else
    match n.conn.recvData with
    | none => tcpInputEnd app n
    | some p => if n.conn.rxClosed then tcpAbort n else tcpInputEnd app (app.recv (some p) n)

/-- `tcp_input` for a segment of this connection. -/
def tcpInputSegment (n : Net) (s : Segment) : Net :=
  if n.conn.active then
    let r := tcpProcess app n.enter s
    (if r.1 = .abrt then r.2 else tcpInputDeliver app r.2).leave
  else n

/-- `tcp_input` for a chain that IP passes up to this connection. -/
def tcpInput (n : Net) (p : List Pbuf) : Net :=
  match tcpHeader p with
  | none => n
  | some s => tcpInputSegment app n s

section Stack

variable {app} {P : Conn → Prop} {n : Net} {s : Segment}

namespace StackKept

theorem gotFin (hP : StackKept P) (h : P n.conn) (state : TcpState) : P (n.gotFin state).conn := by
  unfold Net.gotFin
  split_ifs
  · exact hP.state _ state _ h
  · exact h

theorem toTimeWait (hP : StackKept P) (h : P n.conn) : P n.toTimeWait.conn :=
  hP.state (tcpPcbPurge n).conn .timeWait false (hP.pcbPurge h)

theorem processSynRcvd (hP : StackKept P) (happ : ∀ n, P n.conn → P (app.accept n).2.conn)
    (h : P n.conn) : P (tcpProcessSynRcvd app n s).2.conn := by
  have hacc := happ (n.setState .established) (hP.state _ .established _ h)
  rw [tcpProcessSynRcvd]
  split
  · split <;> exact h
  · split
    · split
      · dsimp only
        split
        · exact hP.gotFin (n := ⟨_, _⟩) (hP.receive _ _ s hacc) .closeWait
        · dsimp only
          split
          · exact hacc
          · exact hP.abort hacc
      · exact h
    · exact h

theorem processState (hP : StackKept P) (h : P n.conn) : P (tcpProcessState n s).conn := by
  have hrec : P (n.receive s).conn := hP.receive _ _ s h
  unfold tcpProcessState
  split
  · exact hP.gotFin hrec _
  · exact hP.gotFin hrec _
  · dsimp only
    split_ifs
    · exact hP.toTimeWait (n := Net.ackNow _) hrec
    · exact hP.gotFin hrec _
    · exact hP.state _ .finWait2 _ hrec
    · exact hrec
  · dsimp only
    split_ifs
    · exact hP.toTimeWait (n := Net.ackNow _) hrec
    · exact hrec
  · dsimp only
    split_ifs
    · exact hP.toTimeWait hrec
    · exact hrec
  · dsimp only
    split_ifs
    · exact hP.flags _ true _ _ hrec
    · exact hrec
  · exact h

/-- Rule for the state machine; what the application does when it accepts is left to it. -/
theorem process (hP : StackKept P) (happ : ∀ n, P n.conn → P (app.accept n).2.conn)
    (h : P n.conn) : P (tcpProcess app n s).2.conn := by
  unfold tcpProcess
  dsimp only
  split_ifs
  · exact hP.flags _ _ true _ h
  · exact h
  · exact h
  · exact h
  · exact hP.processSynRcvd (n := { n with out := _ }) happ h
  · exact hP.processState (n := { n with out := _ }) h

end StackKept

theorem tcpProcess_held (happ : ∀ n, (app.accept n).2.conn.held = n.conn.held) (n : Net)
    (s : Segment) : (tcpProcess app n s).2.conn.held = n.conn.held :=
  (held_stackKept _).process (fun n h => (happ n).trans h) rfl

end Stack

end EthernetPing
