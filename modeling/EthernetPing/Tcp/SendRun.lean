import EthernetPing.Lib.Machine
import EthernetPing.Tcp.Listen
import EthernetPing.Tcp.SendAck
import EthernetPing.Tcp.SendWrite
import EthernetPing.Tcp.SendTimers

/-!
# The stream that is sent

The send side as a machine: the application writes and closes, segments arrive, timers
expire, memory runs out, in any order. Its outputs are the bytes that `tcp_write` has
taken.
-/

namespace EthernetPing

variable {iss : UInt32} {W : List UInt8} {o : Out}

section Steps

/-- What happens to the send side of a connection. The rest of it, which is only read, may be in
any state; `adjust` is what `tcp_process` and the application set without sending anything. -/
inductive SendStep where
  | write (c : Conn) (data : List UInt8)
  | fin
  | output (c : Conn)
  | receive (c : Conn) (s : Segment)
  | adjust (cwnd mss : UInt16) (noDelay ackDelay ackNow : Bool)
  | rexmit
  | fasttmr (c : Conn)
  | persist (due : SlowDue) (c : Conn)
  | rto (c : Conn)

def sendMachine : Machine Out SendStep UInt8 where
  step o
    | .write c data => ((tcpWrite c o data).2, if (tcpWrite c o data).1 = .ok then data else [])
    | .fin => ((tcpSendFin o).2, [])
    | .output c => ((tcpOutput c o).2, [])
    | .receive c s => ((tcpReceive c { o with recvAcked := 0 } s).2, [])
    | .adjust cwnd mss noDelay ackDelay ackNow =>
      ({ o with cwnd, mss, noDelay, ackDelay, ackNow }, [])
    | .rexmit => ((tcpRexmit o).2, [])
    | .fasttmr c => (tcpFasttmrAck c o, [])
    | .persist due c => (tcpPersist due c o, [])
    | .rto c => (tcpRtoExpired c o, [])

/-- The last unsent segment is not one that is sent again in front of others. -/
def Out.Trailing (o : Out) : Prop :=
  ∀ s ∈ o.unsent.getLast?, s.syn = false → s.seqno + s.len.toUInt32 = o.sndLbb

instance (o : Out) : Decidable o.Trailing :=
  inferInstanceAs (Decidable (∀ s ∈ o.unsent.getLast?, s.syn = false → _ = _))

/-- The FIN is queued once, and nothing is written behind it; both need the last unsent segment to
end the stream. The numbers of a connection do not go round half the circle. -/
def SendStep.Fits (o : Out) (h : List UInt8) : SendStep → Prop
  | write c data => (c.state.finSent.isSome = true → o.finQueued = false) ∧ o.Trailing ∧
      data.length < 2 ^ 16 ∧ (h ++ data).length + 2 < 2 ^ 31
  | fin => o.finQueued = false ∧ o.Trailing
  | persist _ _ => ∀ s ∈ o.unsent.head?, s.syn = false ∧
      (o.sndWnd ≠ 0 → s.fin = true → s.len ≤ o.sndWnd)
  | _ => True

instance (o : Out) (h : List UInt8) : ∀ step : SendStep, Decidable (step.Fits o h)
  | .write _ _ => inferInstanceAs (Decidable ((_ → _) ∧ o.Trailing ∧ _ ∧ _))
  | .fin => inferInstanceAs (Decidable (_ ∧ o.Trailing))
  | .persist _ _ => inferInstanceAs (Decidable (∀ s ∈ o.unsent.head?, _ ∧ (_ → _ → _)))
  | .output _ | .receive _ _ | .adjust .. | .rexmit | .fasttmr _ | .rto _ => isTrue trivial

/-- The numbers tell where the stream ends. -/
theorem Out.Trailing.tail (ht : o.Trailing) (h : o.Safe iss W false) (hW : W.length + 2 < 2 ^ 31) :
    o.Tail iss W := by
  intro s hs hsyn
  obtain ⟨pos, hcar⟩ := h.queue s (List.mem_append_right _ (List.mem_of_getLast? hs))
  have hlen := (hcar.data hsyn).2.2
  refine ⟨pos, hcar, ?_⟩
  have hend := ht s hs hsyn
  rw [h.sndLbb rfl, hcar.seqno, seqAt_add_toUInt32, OutSeg.toNat_len hcar.length] at hend
  exact (seqAt_inj (by omega) (by omega)).mp hend

theorem tcpFasttmrAck_sound {fin : Bool} {live : Prop} (h : o.Sound iss W fin live)
    (hW : W.length + 2 < 2 ^ 31) (c : Conn) : (tcpFasttmrAck c o).Sound iss W fin live := by
  unfold tcpFasttmrAck
  split
  · have hnow : Out.Sound iss W fin live { o with ackNow := true } := h.tracked rfl
    exact (tcpOutput_sound hnow hW c).tracked rfl
  · exact h

/-- What the send side has to do with the bytes that were written. -/
def Streams (iss : UInt32) (o : Out) (h : List UInt8) : Prop :=
  o.Sound iss h o.finQueued True ∧ h.length + 2 < 2 ^ 31

theorem tcpWrite_streams {h data : List UInt8} {c : Conn} (hsound : o.Sound iss h o.finQueued True)
    (hf : (SendStep.write c data).Fits o h) :
    Streams iss (tcpWrite c o data).2
      (h ++ if (tcpWrite c o data).1 = .ok then data else []) := by
  obtain ⟨hstate, ht, hdata, hlen⟩ := hf
  rw [List.length_append] at hlen
  cases hfin : o.finQueued with
  | true =>
    have herr : (tcpWrite c o data).1 ≠ .ok := fun hok =>
      absurd (hfin.symm.trans (hstate (tcpWrite_state hok))) nofun
    rw [if_neg herr, List.append_nil]
    rcases tcpWrite_cases c o data with ⟨-, hsame⟩ | ⟨-, -, -, -, -, -, -, -, hok, -⟩
    · exact ⟨(hsound.tracked hsame).self, by omega⟩
    · exact absurd hok herr
  | false =>
    rw [hfin] at hsound
    have hroom : data.length ≤ o.sndBuf.toNat →
        ∀ s ∈ o.unsent.getLast?, s.data.length + data.length < 2 ^ 16 := by
      intro hle s hs
      obtain ⟨a, nxt, hw⟩ := hsound.whole trivial
      have hbytes := length_le_bytesIn
        (List.mem_append_right o.unacked (List.mem_of_getLast? hs))
      have hbuf := hw.sndBuf
      have htotal : tcpSndBuf.toNat = 1072 := rfl
      omega
    rcases tcpWrite_sound hsound (ht.tail hsound.safe (by omega)) c hdata
      (by rw [List.length_append]; omega) hroom with ⟨herr, hsame⟩ | ⟨hok, hsent, -⟩
    · rw [if_neg herr, List.append_nil]
      exact ⟨(hsound.tracked hsame).self, by omega⟩
    · rw [if_pos hok]
      exact ⟨hsent.self, by rw [List.length_append]; omega⟩

/-- Step lemma: whatever happens to the send side keeps it sound. -/
theorem sendMachine_streams (o : Out) (h : List UInt8) (step : SendStep) (hs : Streams iss o h)
    (hf : step.Fits o h) :
    Streams iss (sendMachine.step o step).1 (h ++ (sendMachine.step o step).2) := by
  obtain ⟨hsound, hlen⟩ := hs
  have hkeep {o' : Out} (h' : o'.Sound iss h o.finQueued True) : Streams iss o' (h ++ []) := by
    rw [List.append_nil]
    exact ⟨h'.self, hlen⟩
  cases step with
  | write c data => exact tcpWrite_streams hsound hf
  | fin =>
    obtain ⟨hfin, ht⟩ := hf
    rw [hfin] at hsound
    rcases tcpSendFin_sound hsound (ht.tail hsound.safe hlen) hlen with ⟨-, hsame⟩ | ⟨-, hsent⟩
    · exact hkeep (hfin ▸ hsound.tracked hsame)
    · change Streams iss (tcpSendFin o).2 (h ++ [])
      rw [List.append_nil]
      exact ⟨hsent.self, hlen⟩
  | output c => exact hkeep (tcpOutput_sound hsound hlen c)
  | receive c s =>
    have hstart : Out.Sound iss h o.finQueued True { o with recvAcked := 0 } := hsound.tracked rfl
    exact hkeep (tcpReceive_sound hstart hlen rfl c s)
  | adjust cwnd mss noDelay ackDelay ackNow => exact hkeep (hsound.tracked rfl)
  | rexmit => exact hkeep (hsound.requeued (tcpRexmit_requeued o))
  | fasttmr c => exact hkeep (tcpFasttmrAck_sound hsound hlen c)
  | persist due c =>
    exact hkeep (tcpPersist_sound hsound hlen due c (fun s hs => (hf s hs).1)
      fun hwnd s hs => (hf s hs).2 hwnd)
  | rto c => exact hkeep (tcpRtoExpired_sound hsound hlen c)

end Steps

section Start

theorem tcpEnqueueSyn_sound (mem : ℕ → Bool) (iss : UInt32) (mtu : UInt16) (s : Segment)
    (hok : (tcpEnqueueSyn (listenPcb mem iss mtu s).out).1 = .ok) :
    (tcpEnqueueSyn (listenPcb mem iss mtu s).out).2.Sound iss [] false True := by
  unfold tcpEnqueueSyn at hok ⊢
  split at hok
  · cases hok
  · next hmem =>
    split at hok
    · cases hok
    · next hmem' =>
      rw [if_neg hmem, if_neg hmem']
      set syn : OutSeg := { seqno := iss, data := [], clen := 1, syn := true, fin := false }
      have hcar : syn.Carries iss [] false 0 :=
        ⟨(seqAt_zero iss).symm, Nat.two_pow_pos 16, Nat.zero_lt_one, nofun,
          fun _ => ⟨rfl, rfl, rfl⟩, nofun⟩
      refine ⟨⟨rfl, fun _ => rfl, fun x hx => ?_, nofun⟩, fun _ => ⟨0, 0, (seqAt_zero iss).symm,
        (seqAt_zero iss).symm, le_rfl, Nat.zero_le _, fun p _ hp => ?_, rfl, rfl⟩⟩
      · obtain rfl : x = syn := List.mem_singleton.mp hx
        exact ⟨0, hcar⟩
      · exact ⟨syn, List.mem_singleton_self syn, 0, hcar, Nat.zero_le _, hp⟩

theorem tcpListenInput_sound {n : Net} {mem : ℕ → Bool} {mtu : UInt16} {pending : Bool}
    {s : Segment}
    (h : tcpListenInput mem iss mtu pending s = some n) :
    n.conn = (listenPcb (fun i => mem (i + 1)) iss mtu s).conn ∧ n.out.Sound iss [] false True := by
  unfold tcpListenInput at h
  split at h
  · cases h
  · dsimp only at h
    split at h
    · next hok =>
      obtain rfl := Option.some.inj h
      exact ⟨rfl, tcpOutput_sound (tcpEnqueueSyn_sound _ iss mtu s hok) (by decide) _⟩
    · cases h

/-- Run lemma: a connection that is opened by a segment stays sound. -/
theorem sendMachine_run_streams {n : Net} {mem : ℕ → Bool} {mtu : UInt16} {pending : Bool}
    {s : Segment} {steps : List SendStep} (hstart : tcpListenInput mem iss mtu pending s = some n)
    (hok : sendMachine.Allowed SendStep.Fits n.out [] steps) :
    Streams iss (sendMachine.run n.out steps).1 (sendMachine.run n.out steps).2 := by
  obtain ⟨-, hout⟩ := tcpListenInput_sound hstart
  exact Machine.run_inv_nil sendMachine_streams ⟨hout.self, by decide⟩ hok

/-- The segment that opens a connection. -/
def openingSegment : Segment :=
  { seqno := 0, ackno := 0, wnd := 4096, fin := false, syn := true, rst := false, ack := false
    opts := [], p := [] }

/-- The connection in SYN-RCVD whose first number is 0. -/
def openedNet : Net :=
  (tcpListenInput (fun _ => true) 0 500 true openingSegment).get (by decide +kernel)

/-- An established connection, of which only the state is read. -/
def establishedConn : Conn := { openedNet.conn with state := .established }

/-- The handshake is completed, and three bytes are written. -/
def writeSteps : List SendStep :=
  [.receive establishedConn
      { openingSegment with seqno := 1, ackno := 1, syn := false, ack := true },
    .adjust 1840 460 true false false, .write establishedConn [0x61, 0x62, 0x63]]

/-- Three bytes and the FIN are sent, lost, and sent again. -/
def lostSteps : List SendStep :=
  writeSteps ++ [.fin, .output establishedConn, .rto establishedConn]

end Start

section Misplaced

/-- The FIN is in its place if and only if the segment it is hung on ends the stream. -/
theorem tcpSendFin_safe_iff (h : o.Sound iss W false True) (hW : W.length + 2 < 2 ^ 31)
    (hok : (tcpSendFin o).1 = .ok) : (tcpSendFin o).2.Safe iss W true ↔ o.Tail iss W := by
  constructor
  · intro hsafe s hs hsyn
    obtain ⟨pos, hcar⟩ := h.safe.queue s (List.mem_append_right _ (List.mem_of_getLast? hs))
    have hfin : s.fin = false := by
      by_contra hf
      exact Bool.false_ne_true (hcar.fin (by simpa using hf)).1
    have hmem : ({ s with fin := true } : OutSeg) ∈ (tcpSendFin o).2.unsent := by
      rw [tcpSendFin, Option.mem_def.mp hs]
      dsimp only
      rw [if_neg (by simp [hsyn, hfin])]
      exact List.mem_append_right _ (List.mem_singleton_self _)
    obtain ⟨pos', hcar'⟩ := hsafe.queue _ (List.mem_append_right _ hmem)
    have hend := (hcar'.fin rfl).2
    have hle := (hcar.data hsyn).2.2
    have hsame : seqAt iss pos = seqAt iss pos' := hcar.seqno.symm.trans hcar'.seqno
    have hpos := (seqAt_inj (by omega) (by omega)).mp hsame
    exact ⟨pos, hcar, hpos ▸ hend⟩
  · intro ht
    rcases tcpSendFin_sound h ht hW with ⟨hmem, -⟩ | ⟨-, hsent⟩
    · rw [hmem] at hok
      cases hok
    · exact hsent.safe

theorem tcpSendFin_safe_iff_written :
    let r := sendMachine.run openedNet.out writeSteps
    (tcpSendFin r.1).2.Safe 0 r.2 true ↔ r.1.Tail 0 r.2 :=
  tcpSendFin_safe_iff
    (sendMachine_run_streams (Option.some_get _).symm (by decide +kernel)).1
    (by decide +kernel) (by decide +kernel)

/-- A FIN stays on the first part as well, where it is not in its place. -/
theorem tcpSplitUnsentSeg_safe_iff {fin : Bool} (h : o.Sound iss W fin True)
    (hW : W.length + 2 < 2 ^ 31)
    {useg : OutSeg} (hu : useg ∈ o.unsent.head?) {split : UInt16} (hpos : 0 < split)
    (hlt : split < useg.len) (clen : UInt16) (hok : (tcpSplitUnsentSeg o split clen).1 = .ok) :
    (tcpSplitUnsentSeg o split clen).2.Safe iss W fin ↔ useg.fin = false := by
  constructor
  · intro hsafe
    obtain ⟨rest, hrest⟩ : ∃ rest, o.unsent = useg :: rest := by
      cases hq : o.unsent with
      | nil =>
        rw [hq] at hu
        cases hu
      | cons x rest =>
        rw [hq] at hu
        exact ⟨rest, by rw [Option.some.inj hu]⟩
    obtain ⟨pos, hcar⟩ := h.safe.queue useg (by rw [hrest]; simp)
    have hmem : ({ useg with data := useg.data.take split.toNat, clen } : OutSeg) ∈
        (tcpSplitUnsentSeg o split clen).2.unsent := by
      rw [tcpSplitUnsentSeg, hrest] at hok ⊢
      dsimp only at hok ⊢
      rw [if_neg (UInt16.ne_of_lt hpos).symm, if_neg (UInt16.not_le.mpr hlt)] at hok ⊢
      split at hok
      · cases hok
      · next halloc =>
        split at hok
        · cases hok
        · next halloc' =>
          rw [if_neg halloc, if_neg halloc']
          exact List.mem_cons_self
    obtain ⟨pos', hcar'⟩ := hsafe.queue _ (List.mem_append_right _ hmem)
    by_contra hf
    rw [Bool.not_eq_false] at hf
    have hend := (hcar.fin hf).2
    have hend' := (hcar'.fin hf).2
    have hsame : seqAt iss pos = seqAt iss pos' := hcar.seqno.symm.trans hcar'.seqno
    have heq := (seqAt_inj (by omega) (by omega)).mp hsame
    rw [UInt16.lt_iff_toNat_lt, OutSeg.toNat_len hcar.length] at hlt
    rw [List.length_take] at hend'
    omega
  · intro hfin
    refine (tcpSplitUnsentSeg_sound h hW split clen fun s hs hf => ?_).safe
    rw [← Option.mem_unique hu hs, hfin] at hf
    cases hf

theorem tcpSplitUnsentSeg_safe_iff_fin :
    let r := sendMachine.run openedNet.out (writeSteps ++ [.fin])
    let useg := r.1.unsent.head?.get (by decide +kernel)
    (tcpSplitUnsentSeg r.1 2 1).2.Safe 0 r.2 r.1.finQueued ↔ useg.fin = false :=
  tcpSplitUnsentSeg_safe_iff
    (sendMachine_run_streams (Option.some_get _).symm (by decide +kernel)).1
    (by decide +kernel) (Option.get_mem _) (by decide) (by decide +kernel) 1 (by decide +kernel)

end Misplaced

end EthernetPing
