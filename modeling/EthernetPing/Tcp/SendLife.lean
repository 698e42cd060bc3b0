import EthernetPing.Tcp.SendAck
import EthernetPing.Tcp.SendTimers

/-!
# The send side of a connection

What the stack does on its own keeps the send side sound. It neither reopens a connection
for sending nor touches what belongs to the application.
-/

namespace EthernetPing

variable {n n' m : Net}

/-- The bytes that a call has put into the stream. -/
def AppEvent.bytes : AppEvent → List UInt8
  | .write data .ok => data
  | _ => []

/-- The stream that the application has written; the latest call comes first. -/
def written : List AppEvent → List UInt8
  | [] => []
  | e :: calls => written calls ++ e.bytes

/-- What the stack keeps of a connection. -/
structure Net.Kept (n n' : Net) : Prop where
  rxClosed : n'.conn.rxClosed = n.conn.rxClosed
  written : written n'.conn.calls = written n.conn.calls
  closePend : n'.conn.closePend = n.conn.closePend
  active : n'.conn.active = true → n.conn.active = true
  finSent : n'.conn.state.finSent.isSome = true → n.conn.state.finSent.isSome = true
  sound : ∀ iss W fin, W.length + 2 < 2 ^ 31 → n.out.Sound iss W fin (n.conn.active = true) →
    n'.out.Sound iss W fin (n'.conn.active = true)

theorem Net.Kept.refl (n : Net) : n.Kept n := ⟨rfl, rfl, rfl, id, id, fun _ _ _ _ => id⟩

theorem Net.Kept.trans (h : n.Kept n') (h' : n'.Kept m) : n.Kept m :=
  ⟨h'.rxClosed.trans h.rxClosed, h'.written.trans h.written, h'.closePend.trans h.closePend,
    fun ha => h.active (h'.active ha), fun hs => h.finSent (h'.finSent hs),
    fun iss W fin hW hs => h'.sound iss W fin hW (h.sound iss W fin hW hs)⟩

theorem Net.Kept.of_out {out : Out} (h : ∀ iss W fin live, W.length + 2 < 2 ^ 31 →
    n.out.Sound iss W fin live → out.Sound iss W fin live) : n.Kept { n with out } :=
  ⟨rfl, rfl, rfl, id, id, fun iss W fin hW => h iss W fin _ hW⟩

theorem Net.Kept.of_requeued {out : Out} (h : n.out.Requeued out) : n.Kept { n with out } :=
  .of_out fun _ _ _ _ _ hs => hs.requeued h

section Receive

end Receive

section Ending

theorem Net.Kept.setState (h : n.Kept m) {state : TcpState}
    (hs : state.finSent.isSome = true → n.conn.state.finSent.isSome = true) :
    n.Kept (m.setState state) :=
  ⟨h.rxClosed, h.written, h.closePend, h.active, hs, h.sound⟩

theorem Net.ackNow_kept (n : Net) : n.Kept n.ackNow := .of_requeued (.of_tracked rfl)

theorem Net.Kept.gotFin (h : n.Kept m) {state : TcpState}
    (hs : state.finSent.isSome = true → n.conn.state.finSent.isSome = true) :
    n.Kept (m.gotFin state) := by
  unfold Net.gotFin
  split
  · exact (h.trans m.ackNow_kept).setState hs
  · exact h

/-- Without segments nothing wrong can be sent. -/
theorem Out.Sound.purge {o : Out} {iss : UInt32} {W : List UInt8} {fin : Bool} {live : Prop}
    (h : o.Sound iss W fin live) (rtime : Bool) :
    Out.Sound iss W fin False { o with unsent := [], unacked := [], rtime } :=
  ⟨⟨h.safe.finQueued, h.safe.sndLbb, nofun, h.safe.wire⟩, False.elim⟩

theorem Out.Sound.dead {o : Out} {iss : UInt32} {W : List UInt8} {fin : Bool} {live live' : Prop}
    (h : o.Sound iss W fin live) (hd : ¬ live') : o.Sound iss W fin live' :=
  ⟨h.safe, fun hl => absurd hl hd⟩

theorem tcpPcbPurge_kept (n : Net) :
    n.Kept { tcpPcbPurge n with conn := { (tcpPcbPurge n).conn with active := false } } := by
  unfold tcpPcbPurge
  split
  · exact ⟨rfl, rfl, rfl, nofun, id, fun iss W fin hW hs => hs.dead nofun⟩
  · exact ⟨rfl, rfl, rfl, nofun, id, fun iss W fin hW hs => (hs.purge false).dead nofun⟩

theorem Net.Kept.toTimeWait (h : n.Kept m) : n.Kept m.toTimeWait :=
  (h.trans (tcpPcbPurge_kept m)).setState nofun

end Ending

section Input

end Input

section Timer

/-- The persist timer does not run in front of the SYN, and meets no FIN that has to be split
off. -/
def SlowDue.Fits (due : SlowDue) (n : Net) : Prop :=
  due.maxRtx = false → due.persist = true →
    ∀ s ∈ n.out.unsent.head?, s.syn = false ∧
      (n.out.sndWnd ≠ 0 → s.fin = true → s.len ≤ n.out.sndWnd)

end Timer

end EthernetPing
