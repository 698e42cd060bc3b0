import EthernetPing.Tcp.SendQueue

/-!
# Acknowledgements and the send queues

An acknowledgement takes from the queues what it covers, and gives its room back to the
send buffer. Whatever else a segment brings leaves the send side sound.
-/

namespace EthernetPing

variable {iss : UInt32} {W : List UInt8} {fin : Bool} {live : Prop} {o : Out} {c : Conn}

section Ack

theorem tcpReceiveNewAck_tracked (o : Out) (ackno : UInt32) :
    (tcpReceiveNewAck o ackno).tracked =
      (ackno, o.sndNxt, o.sndLbb, o.finQueued,
        o.sndBuf + (o.recvAcked + (tcpFreeAckedSegments ackno o.unacked).2.2 +
          (tcpFreeAckedSegments ackno o.unsent).2.2),
        o.sndQueuelen - (tcpFreeAckedSegments ackno o.unacked).2.1 -
          (tcpFreeAckedSegments ackno o.unsent).2.1,
        (tcpFreeAckedSegments ackno o.unacked).1, (tcpFreeAckedSegments ackno o.unsent).1,
        o.wire) := by
  unfold tcpReceiveNewAck
  dsimp only
  split_ifs <;> rfl

/-- What an acknowledgement frees is given back to the send buffer. -/
theorem sndBuf_freeAcked {ackno : UInt32} (hrecv : o.recvAcked = 0)
    (h : o.sndBuf.toNat + bytesIn (o.unacked ++ o.unsent) = tcpSndBuf.toNat) :
    (o.sndBuf + (o.recvAcked + (tcpFreeAckedSegments ackno o.unacked).2.2 +
      (tcpFreeAckedSegments ackno o.unsent).2.2)).toNat +
        bytesIn ((tcpFreeAckedSegments ackno o.unacked).1 ++
          (tcpFreeAckedSegments ackno o.unsent).1) = tcpSndBuf.toNat := by
  have hbuf : tcpSndBuf.toNat = 1072 := rfl
  rw [hbuf, bytesIn_append] at h ⊢
  have hunacked := tcpFreeAckedSegments_bytes ackno (q := o.unacked) (by omega)
  have hunsent := tcpFreeAckedSegments_bytes ackno (q := o.unsent) (by omega)
  rw [hrecv, UInt16.zero_add, UInt16.toNat_add, UInt16.toNat_add]
  omega

theorem tcpReceiveNewAck_sound (h : o.Sound iss W fin live) (hW : W.length + 2 < 2 ^ 31)
    (hrecv : o.recvAcked = 0) {ackno : UInt32}
    (hack : seqBetween ackno (o.lastack + 1) o.sndNxt = true) :
    (tcpReceiveNewAck o ackno).Sound iss W fin live := by
  have htracked := tcpReceiveNewAck_tracked o ackno
  simp only [Out.tracked, Prod.mk.injEq] at htracked
  obtain ⟨hlast, hnxt, hlbb, hfin, hbuf, hqlen, hunacked, hunsent, hwire⟩ := htracked
  refine ⟨⟨hfin.trans h.safe.finQueued, fun hf => hlbb.trans (h.safe.sndLbb hf), fun s hs => ?_,
    fun s ackno wnd hs => h.safe.wire s _ _ (hwire ▸ hs)⟩, fun hl => ?_⟩
  · rw [hunacked, hunsent] at hs
    refine h.safe.queue s ?_
    rcases List.mem_append.mp hs with hs | hs
    · exact List.mem_append_left _ ((tcpFreeAckedSegments_suffix ackno _).subset hs)
    · exact List.mem_append_right _ ((tcpFreeAckedSegments_suffix ackno _).subset hs)
  · obtain ⟨a, nxt, hw⟩ := h.whole hl
    have hle := hw.nxt_le
    have hstop := stopAt_le W fin
    have hle' := hw.le
    rw [hw.lastack, hw.sndNxt, seqAt_add_one] at hack
    obtain ⟨k, hak, hk, rfl⟩ := exists_seqAt_of_between (by omega) (by omega) hack
    refine ⟨k, nxt, hlast, by rw [hnxt, hw.sndNxt], hk, hw.nxt_le, ?_, ?_, ?_⟩
    · rw [hunacked, hunsent]
      intro p hlo hhi
      obtain ⟨s, hs, pos, hcar, hpos, hp⟩ := hw.covers p (by omega) hhi
      refine ⟨s, ?_, pos, hcar, hpos, hp⟩
      rcases List.mem_append.mp hs with hs | hs
      · exact List.mem_append_left _ (mem_tcpFreeAckedSegments hW hs hcar (by omega))
      · exact List.mem_append_right _ (mem_tcpFreeAckedSegments hW hs hcar (by omega))
    · rw [hbuf, hunacked, hunsent]
      exact sndBuf_freeAcked hrecv hw.sndBuf
    · rw [hqlen, hunacked, hunsent, hw.sndQueuelen, pbufsIn_append, pbufsIn_append,
        UInt16.ofNat_add, UInt16.ofNat_add, ← tcpFreeAckedSegments_pbufs (seqAt iss k) o.unacked,
        ← tcpFreeAckedSegments_pbufs (seqAt iss k) o.unsent]
      grind

theorem tcpReceiveAck_sound (h : o.Sound iss W fin live) (hW : W.length + 2 < 2 ^ 31)
    (hrecv : o.recvAcked = 0) (s : Segment) : (tcpReceiveAck c o s).Sound iss W fin live := by
  have hrecv' : (tcpReceiveWnd o s).recvAcked = 0 := by
    unfold tcpReceiveWnd
    split <;> exact hrecv
  have hwnd := h.requeued (tcpReceiveWnd_requeued o s)
  unfold tcpReceiveAck
  split
  · exact h
  · dsimp only
    split
    · split
      · exact hwnd.requeued (tcpReceiveDupAck_requeued _)
      · exact hwnd
    · split
      · next hack => exact tcpReceiveNewAck_sound hwnd hW hrecv' hack
      · exact hwnd.requeued (tcpSendEmptyAck_requeued _ c)

theorem drainOoseq_requeued (ss : List InSeg) (c : Conn) (o : Out) :
    o.Requeued (drainOoseq ss c o).2 := by
  induction ss generalizing c o with
  | nil => exact .refl o
  | cons s rest ih =>
    rw [drainOoseq]
    split
    · exact (tcpUpdateRcvAnnWnd_requeued o _).trans (ih _ _)
    · exact .refl o

theorem ackOld_requeued (s : Segment) (rcvNxt : UInt32) (o : Out) :
    o.Requeued (s.ackOld rcvNxt o) := by
  unfold Segment.ackOld
  split
  · exact .of_tracked rfl
  · exact .refl o

/-- The data part of `tcp_receive` sends no segment of the queues. -/
theorem tcpReceiveData_requeued (c : Conn) (o : Out) (s : Segment) :
    o.Requeued (tcpReceiveData c o s).2 := by
  have hold := ackOld_requeued s c.rcvNxt o
  unfold tcpReceiveData
  split
  · split
    · split
      · exact hold.trans ((tcpUpdateRcvAnnWnd_requeued _ _).trans
          ((drainOoseq_requeued _ _ _).trans (tcpAck_requeued _)))
      · exact hold.trans ((Out.alloc_requeued _).trans (tcpSendEmptyAck_requeued _ _))
    · exact hold.trans (tcpSendEmptyAck_requeued _ _)
  · dsimp only
    split
    · exact .refl o
    · exact .of_tracked rfl

theorem tcpReceive_sound (h : o.Sound iss W fin live) (hW : W.length + 2 < 2 ^ 31)
    (hrecv : o.recvAcked = 0) (c : Conn) (s : Segment) :
    (tcpReceive c o s).2.Sound iss W fin live :=
  (tcpReceiveAck_sound h hW hrecv s).requeued (tcpReceiveData_requeued c _ s)

end Ack

end EthernetPing
