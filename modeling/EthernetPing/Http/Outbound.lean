import EthernetPing.Http.Request
import EthernetPing.Tcp.SendLife
import EthernetPing.Tcp.SendRun

/-!
# The stream that the server writes

From the SYN to the end of a connection, whatever packets arrive, whichever timers expire
and wherever memory runs out: a segment that is sent carries the bytes that the server
wrote, at the numbers that are theirs, and no number is forgotten before it is
acknowledged.
-/

namespace EthernetPing

variable {iss : UInt32} {n m : Net}

section Agreement

/-- The send side agrees with the history of calls. -/
structure Outbound (iss : UInt32) (n : Net) : Prop where
  sound : n.out.Sound iss (written n.conn.calls) n.out.finQueued (n.conn.active = true)
  short : (written n.conn.calls).length ≤ 130
  finSent : n.conn.state.finSent.isSome = true → n.out.finQueued = false
  closed : n.conn.rxClosed = false →
    written n.conn.calls = [] ∧ n.out.finQueued = false ∧ n.conn.closePend = false
  ended : n.conn.active = true → n.out.finQueued = false → written n.conn.calls = []

/-- If a FIN is sent now, there is a place for it. -/
def Net.Ready (iss : UInt32) (n : Net) : Prop :=
  n.conn.state.finSent.isSome = true → n.out.Tail iss (written n.conn.calls)

theorem Outbound.kept (h : Outbound iss n) (hk : n.Kept m) : Outbound iss m := by
  have hshort := h.short
  have hsound := hk.sound iss (written n.conn.calls) n.out.finQueued (by omega) h.sound
  have hfin := hsound.safe.finQueued
  rw [← hk.written] at hsound
  refine ⟨hsound.self, hk.written ▸ hshort, fun hs => hfin.trans (h.finSent (hk.finSent hs)),
    ?_, ?_⟩
  · rw [hk.rxClosed, hk.written, hfin, hk.closePend]
    exact h.closed
  · rw [hk.written, hfin]
    exact fun ha => h.ended (hk.active ha)

/-- As long as a connection has sent nothing it is ready for a FIN. -/
theorem Outbound.ready (h : Outbound iss n) (hk : n.Kept m) (hact : n.conn.active = true) :
    m.Ready iss := by
  intro hs
  have hfin := h.finSent (hk.finSent hs)
  have hsound := (h.kept hk).sound
  have hroom := h.short
  have hsafe := hk.sound iss (written n.conn.calls) n.out.finQueued (by omega) h.sound
  rw [hk.written, h.ended hact hfin]
  rw [h.ended hact hfin, hfin] at hsafe
  exact hsafe.safe.tail

end Agreement

section Calls

/-- What is needed for closing: data that was just written may still be there, all of it unsent. -/
structure Net.Closing (iss : UInt32) (n : Net) : Prop where
  sound : n.out.Sound iss (written n.conn.calls) n.out.finQueued (n.conn.active = true)
  short : (written n.conn.calls).length ≤ 130
  finSent : n.conn.state.finSent.isSome = true → n.out.finQueued = false
  ready : n.Ready iss
  last : n.conn.active = true → n.out.finQueued = false → written n.conn.calls = [] ∨
    n.conn.state.finSent.isSome = true ∧
      ∃ s ∈ n.out.unsent.getLast?, s.Ends iss (written n.conn.calls)

theorem Outbound.closing (h : Outbound iss n) (hr : n.Ready iss) : n.Closing iss :=
  ⟨h.sound, h.short, h.finSent, hr, fun ha hf => .inl (h.ended ha hf)⟩

theorem Net.log_kept (n : Net) {e : AppEvent} (he : e.bytes = []) : n.Kept (n.log e) := by
  refine ⟨rfl, ?_, rfl, id, id, fun _ _ _ _ => id⟩
  change _ ++ e.bytes = _
  rw [he, List.append_nil]

theorem Net.Ready.log (h : n.Ready iss) {e : AppEvent} (he : e.bytes = []) :
    (n.log e).Ready iss := by
  intro hs
  rw [(n.log_kept he).written]
  exact h hs

end Calls

section Input

end Input

section Run

/-- The two timers of TCP and the packets of the peer. -/
inductive ConnEvent where
  | packet (buttonCount : UInt16) (p : List Pbuf)
  | fasttmr
  | slowtmr (due : SlowDue)

def ConnEvent.run : ConnEvent → Net → Net
  | packet buttonCount p, n => tcpInput (httpServer buttonCount) n p
  | fasttmr, n => if n.conn.active then tcpFasttmr n else n
  | slowtmr due, n => if n.conn.active then tcpSlowtmr due n else n

/-- The slow timer finds what its counters are about; packets may hold anything. -/
def ConnEvent.Fits : ConnEvent → Net → Prop
  | slowtmr due, n => due.Fits n
  | _, _ => True

end Run

end EthernetPing
