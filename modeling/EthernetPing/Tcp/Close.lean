import EthernetPing.Tcp.Receive

/-!
# Closing a connection

The functions of `tcp.c` by which a connection ends. Only data that the application has
taken back into the window by `tcp_recved` counts as received: otherwise `tcp_close`
sends a reset and throws away what is queued.
-/

namespace EthernetPing

def tcpPcbPurge (n : Net) : Net :=
  if n.conn.state = .closed ∨ n.conn.state = .timeWait then n
  else
    { conn := { n.conn with ooseq := [] }
      out := { n.out with unsent := [], unacked := [], rtime := false } }

/-- `tcp_pcb_remove` from the list of active blocks. -/
def tcpPcbRemove (n : Net) : Net :=
  let m := tcpPcbPurge { n with conn := { n.conn with active := false } }
  let out :=
    if m.conn.state ≠ .timeWait ∧ m.out.ackDelay then
      (tcpOutput m.conn { m.out with ackNow := true }).2
    else m.out
  { conn := { m.conn with state := .closed }, out }

/-- `tcp_abort` of a connection that is not closed. -/
def tcpAbort (n : Net) : Net :=
  if n.conn.state = .timeWait then { n with conn := { n.conn with state := .closed } }
  else
    let m := tcpPcbRemove n
    { m with out := tcpRst m.out n.out.sndNxt n.conn.rcvNxt }

/-- The state after the FIN is queued, in the states from which one is sent. -/
def TcpState.finSent : TcpState → Option TcpState
  | synRcvd | established => some finWait1
  | closeWait => some lastAck
  | _ => none

/-- `tcp_close_shutdown_fin`; without memory for the FIN, `tcp_fasttmr` tries again. -/
def tcpCloseShutdownFin (n : Net) : Err × Net :=
  match n.conn.state.finSent with
  | none => (.ok, n)
  | some state =>
    let sent := tcpSendFin n.out
    if sent.1 = .ok then
      let conn := { n.conn with state }
      (.ok, { conn, out := (tcpOutput conn sent.2).2 })
    else if sent.1 = .mem then
      (.ok, { conn := { n.conn with closePend := true }, out := sent.2 })
    else (sent.1, { n with out := sent.2 })

/-- The condition under which `tcp_close` resets the connection. -/
def Conn.unreceived (c : Conn) : Prop :=
  (c.state = .established ∨ c.state = .closeWait) ∧ c.rcvWnd ≠ tcpWnd

instance (c : Conn) : Decidable c.unreceived := inferInstanceAs (Decidable (_ ∧ _))

/-- `tcp_close_shutdown` with `rst_on_unacked_data` set. A block that is being processed by
`tcp_input` is freed there. -/
def tcpCloseShutdown (n : Net) : Err × Net :=
  if n.conn.unreceived then
    let m := tcpPcbPurge { n with out := tcpRst n.out n.out.sndNxt n.conn.rcvNxt }
    (.ok, { m with conn :=
      { m.conn with active := false, tfClosed := m.conn.tfClosed || m.conn.inputPcb } })
  else if n.conn.state = .closed then (.ok, n)
  else tcpCloseShutdownFin n

def tcpClose (n : Net) : Err × Net :=
  tcpCloseShutdown { n with conn := { n.conn with rxClosed := true } }

/-- `tcp_fasttmr` sends the delayed ACK. -/
def tcpFasttmrAck (c : Conn) (o : Out) : Out :=
  if o.ackDelay then
    { (tcpOutput c { o with ackNow := true }).2 with ackDelay := false, ackNow := false }
  else o

/-- The part of `tcp_fasttmr` for one active block. -/
def tcpFasttmr (n : Net) : Net :=
  let out := tcpFasttmrAck n.conn n.out
  if n.conn.closePend then
    (tcpCloseShutdownFin { conn := { n.conn with closePend := false }, out }).2
  else { n with out }

section Stack

/-- `P` survives whatever the stack does to a block: its functions receive, and apart from that make
no other changes than these. -/
structure StackKept (P : Conn → Prop) : Prop where
  receive : ∀ (c : Conn) (o : Out) (s : Segment), P c → P (tcpReceive c o s).1
  purge : ∀ c : Conn, P c → P { c with ooseq := [] }
  state : ∀ (c : Conn) (state : TcpState) (active : Bool), P c → P { c with state, active }
  flags : ∀ (c : Conn) (tfClosed tfReset closePend : Bool), P c →
    P { c with tfClosed, tfReset, closePend }

variable {P : Conn → Prop} {n : Net}

namespace StackKept

theorem pcbPurge (hP : StackKept P) (h : P n.conn) : P (tcpPcbPurge n).conn := by
  unfold tcpPcbPurge
  split_ifs
  · exact h
  · exact hP.purge _ h

theorem pcbRemove (hP : StackKept P) (h : P n.conn) : P (tcpPcbRemove n).conn := by
  have hoff : P { n.conn with active := false } := hP.state _ n.conn.state false h
  have hpurge := hP.pcbPurge (n := { n with conn := { n.conn with active := false } }) hoff
  exact hP.state _ .closed _ hpurge

theorem abort (hP : StackKept P) (h : P n.conn) : P (tcpAbort n).conn := by
  unfold tcpAbort
  split_ifs
  · exact hP.state _ .closed _ h
  · exact hP.pcbRemove h

theorem closeShutdownFin (hP : StackKept P) (h : P n.conn) : P (tcpCloseShutdownFin n).2.conn := by
  unfold tcpCloseShutdownFin
  split
  · exact h
  · next state _ =>
    dsimp only
    split_ifs
    · exact hP.state _ state _ h
    · exact hP.flags _ _ _ true h
    · exact h

theorem fasttmr (hP : StackKept P) (h : P n.conn) : P (tcpFasttmr n).conn := by
  unfold tcpFasttmr
  dsimp only
  split_ifs
  · exact hP.closeShutdownFin (n := ⟨_, _⟩) (hP.flags _ _ _ false h)
  · exact h

end StackKept

/-- What belongs to the application is left alone. -/
theorem held_stackKept (held : Bool × Bool × List AppEvent) :
    StackKept fun c => c.held = held where
  receive c o s h := (tcpReceive_held c o s).trans h
  purge _ h := h
  state _ _ _ h := h
  flags _ _ _ _ h := h

variable (n)

theorem tcpPcbPurge_held : (tcpPcbPurge n).conn.held = n.conn.held :=
  (held_stackKept _).pcbPurge rfl

theorem tcpPcbRemove_held : (tcpPcbRemove n).conn.held = n.conn.held :=
  (held_stackKept _).pcbRemove rfl

theorem tcpAbort_held : (tcpAbort n).conn.held = n.conn.held := (held_stackKept _).abort rfl

theorem tcpCloseShutdownFin_held : (tcpCloseShutdownFin n).2.conn.held = n.conn.held :=
  (held_stackKept _).closeShutdownFin rfl

theorem tcpFasttmr_held : (tcpFasttmr n).conn.held = n.conn.held := (held_stackKept _).fasttmr rfl

end Stack

end EthernetPing
