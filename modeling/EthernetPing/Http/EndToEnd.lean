import EthernetPing.Http.Inbound
import EthernetPing.Tcp.SendRun

/-!
# From one end to the other

Two ends of a connection with a network between them that loses, repeats and reorders
segments: what the application at one end is given is the front of what the application at
the other end has written.
-/

namespace EthernetPing

variable {iss : UInt32} {W : List UInt8} {n : Net}

section Network

/-- The network may bring any packet that has no number of the stream; of the others it brings what
was put on the wire at the other end. -/
def Brings (wire : List Wire) (p : List Pbuf) : Prop :=
  ChainOk p ∧ ∀ s, tcpHeader p = some s → s.rst = false → s.syn = false → 0 < s.tcplen →
    ∃ x ackno wnd, .seg x ackno wnd ∈ wire ∧ s.seqno = x.seqno ∧ x.syn = false ∧ s.fin = x.fin ∧
      chainBytes s.p = x.data

/-- What is sent at a number behind the SYN is a segment of the stream. -/
theorem OutSeg.Carries.of {x : OutSeg} {fin : Bool} {pos : ℕ} {s : Segment}
    (h : x.Carries iss W fin pos) (hsyn : x.syn = false) (hseq : s.seqno = x.seqno)
    (hfin : s.fin = x.fin) (hbytes : chainBytes s.p = x.data) : s.Of (iss + 1) W (pos - 1) := by
  obtain ⟨hpos, hdata, hle⟩ := h.data hsyn
  refine ⟨?_, by omega, ?_, fun hf => ?_⟩
  · have hnext := seqAt_add iss 1 (pos - 1)
    rw [Nat.add_sub_cancel' hpos] at hnext
    rw [hseq, h.seqno, ← hnext]
    rfl
  · rw [hbytes, hdata]
    exact List.take_prefix _ _
  · have hend := (h.fin (hfin.symm.trans hf)).2
    rw [hbytes]
    omega

/-- The receiving end, which is given packets. -/
def receiver (app : App) : Machine Net (List Pbuf) (Option (List Pbuf)) where
  step n p :=
    (tcpInput app n p,
      match tcpHeader p with
      | none => []
      | some s => tcpInputPassed app n s)

/-- Step lemma: a packet of the other end keeps the invariant. -/
theorem receiver_inbound {app : App} (happ : app.Quiet) {o : Out} {h : List (Option (List Pbuf))}
    {p : List Pbuf} (hsent : Streams iss o W) (hin : Inbound (iss + 1) W n h)
    (hp : Brings o.wire p) :
    Inbound (iss + 1) W ((receiver app).step n p).1 (h ++ ((receiver app).step n p).2) := by
  change Inbound _ _ (tcpInput app n p) (h ++ match tcpHeader p with
    | none => []
    | some s => tcpInputPassed app n s)
  rw [tcpInput]
  cases hs : tcpHeader p with
  | none => exact (List.append_nil h).symm ▸ hin
  | some s =>
    obtain ⟨hchain, hlen⟩ := tcpHeader_chainOk hp.1 hs
    refine tcpInputSegment_inbound happ hin fun hrst hsyn hpos => ?_
    obtain ⟨x, ackno, wnd, hx, hseq, hxsyn, hfin, hbytes⟩ := hp.2 s hs hrst hsyn hpos
    obtain ⟨pos, hcar⟩ := hsent.1.safe.wire x ackno wnd hx
    have hof := hcar.of hxsyn hseq hfin hbytes
    have hle := hof.le
    have hfront := hin.front.length_le
    have hshort := hsent.2
    exact ⟨pos - 1, hof.holds hsyn hchain hlen, by omega, by omega⟩

/-- Whatever is lost, repeated, reordered or sent again, the receiving application is given the
front of what was written, and its end only when it has all of it. The sender does not misplace its
FIN: it neither closes while its last unsent segment is one that is sent again in front of others,
nor splits a segment with FIN. -/
theorem delivered_stream {app : App} (happ : app.Quiet) {server client : Net} {mem : ℕ → Bool}
    {mtu : UInt16} {pending : Bool} {s : Segment} {steps : List SendStep} {ps : List (List Pbuf)}
    (hstart : tcpListenInput mem iss mtu pending s = some server)
    (hsend : sendMachine.Allowed SendStep.Fits server.out [] steps)
    (hnxt : client.conn.rcvNxt = iss + 1) (hooseq : client.conn.ooseq = [])
    (hstate : client.conn.state ≠ .timeWait)
    (hps : ∀ p ∈ ps, Brings (sendMachine.run server.out steps).1.wire p) :
    let got := ((receiver app).run client ps).2
    received got <+: (sendMachine.run server.out steps).2 ∧
      (none ∈ got → received got = (sendMachine.run server.out steps).2) := by
  have hsent := sendMachine_run_streams hstart hsend
  have hend := Machine.run_inv_nil (m := receiver app)
    (P := fun _ _ p => Brings (sendMachine.run server.out steps).1.wire p)
    (fun n h p hin hp => receiver_inbound happ hsent hin hp)
    (.start hnxt hooseq hstate)
    (Machine.allowed_of_forall fun p hp _ _ => hps p hp)
  exact ⟨hend.front, hend.whole⟩

/-- The test whether a packet holds what was put on the wire. -/
def heldBy (s : Segment) : Wire → Bool
  | .seg x _ _ => s.seqno == x.seqno && !x.syn && s.fin == x.fin && chainBytes s.p == x.data
  | _ => false

theorem brings_of_any {wire : List Wire} {p : List Pbuf} (hok : ChainOk p)
    (h : (tcpHeader p).all fun s => wire.any (heldBy s)) : Brings wire p := by
  refine ⟨hok, fun s hs _ _ _ => ?_⟩
  rw [hs, Option.all_some, List.any_eq_true] at h
  obtain ⟨w, hw, hheld⟩ := h
  cases w with
  | seg x ackno wnd =>
    simp only [heldBy, Bool.and_eq_true, beq_iff_eq, Bool.not_eq_true'] at hheld
    obtain ⟨⟨⟨hseq, hsyn⟩, hfin⟩, hbytes⟩ := hheld
    exact ⟨x, ackno, wnd, hw, hseq, hsyn, hfin, hbytes⟩
  | _ => cases hheld

/-- What `lostSteps` sends comes twice. -/
theorem delivered_stream_twice :
    let got := ((receiver (httpServer 0)).run benchNet
      [benchPacket 1 0x11 [0x61, 0x62, 0x63], benchPacket 1 0x11 [0x61, 0x62, 0x63]]).2
    received got <+: (sendMachine.run openedNet.out lostSteps).2 ∧
      (none ∈ got → received got = (sendMachine.run openedNet.out lostSteps).2) :=
  delivered_stream (httpServer_quiet 0) (Option.some_get _).symm (by decide +kernel) rfl rfl nofun
    fun p hp => by
      have hbrings : Brings (sendMachine.run openedNet.out lostSteps).1.wire
          (benchPacket 1 0x11 [0x61, 0x62, 0x63]) :=
        brings_of_any ⟨by decide, trivial⟩ (by decide +kernel)
      rcases List.mem_cons.mp hp with rfl | hp
      · exact hbrings
      · exact List.mem_singleton.mp hp ▸ hbrings

end Network

end EthernetPing
