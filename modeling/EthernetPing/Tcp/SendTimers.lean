import EthernetPing.Tcp.SendQueue

/-!
# The timers and the send queues

The persist timer splits the first unsent segment or probes with a number of it, the
retransmission timer puts everything back to be sent. Neither changes what the queues carry.
-/

namespace EthernetPing

variable {iss : UInt32} {W : List UInt8} {fin : Bool} {live : Prop} {o : Out} {c : Conn}

section Timers

/-- Without a FIN, both parts of a segment carry what belongs at their numbers. -/
theorem OutSeg.Carries.split {s : OutSeg} {pos : ℕ} (h : s.Carries iss W fin pos)
    (hfin : s.fin = false) {n : UInt16} (hn : 0 < n.toNat) (hlt : n.toNat < s.data.length)
    (clen clen' : UInt16) :
    OutSeg.Carries iss W fin { s with data := s.data.take n.toNat, clen } pos ∧
    OutSeg.Carries iss W fin
      { seqno := s.seqno + n.toUInt32, data := s.data.drop n.toNat, clen := clen', syn := false
        fin := s.fin } (pos + n.toNat) := by
  have hsyn := h.syn_eq_false (Nat.zero_lt_of_lt hlt)
  obtain ⟨hpos, hdata, hle⟩ := h.data hsyn
  have htake : (s.data.take n.toNat).length = n.toNat := by
    rw [List.length_take]
    omega
  have hdrop : (s.data.drop n.toNat).length = s.data.length - n.toNat := List.length_drop
  have hlen := h.length
  have hlen₁ : (s.data.take n.toNat).length < 2 ^ 16 := by omega
  have hlen₂ : (s.data.drop n.toNat).length < 2 ^ 16 := by omega
  refine ⟨⟨h.seqno, hlen₁, ?_, fun _ => ⟨hpos, ?_, ?_⟩,
      fun hs => absurd (hsyn.symm.trans hs) nofun, fun hf => absurd (hfin.symm.trans hf) nofun⟩,
    ⟨by rw [h.seqno, seqAt_add_toUInt32], hlen₂, ?_, fun _ => ⟨by omega, ?_, ?_⟩, nofun,
      fun hf => absurd (hfin.symm.trans hf) nofun⟩⟩
  · rw [OutSeg.weight, htake]
    omega
  · rw [htake]
    nth_rewrite 1 [hdata]
    exact take_piece W hlt.le
  · rw [htake]
    omega
  · rw [OutSeg.weight, hdrop]
    omega
  · rw [hdrop]
    nth_rewrite 1 [hdata]
    rw [drop_piece, show pos - 1 + n.toNat = pos + n.toNat - 1 by omega]
  · rw [hdrop]
    omega

theorem OutSeg.Carries.weight_split {s : OutSeg} {pos : ℕ}
    (h : s.Carries iss W fin pos) (hfin : s.fin = false) {n : UInt16}
    (hlt : n.toNat < s.data.length) (clen clen' : UInt16) :
    s.weight = OutSeg.weight { s with data := s.data.take n.toNat, clen } +
        OutSeg.weight { seqno := s.seqno + n.toUInt32, data := s.data.drop n.toNat, clen := clen'
                        syn := false, fin := s.fin } ∧
      OutSeg.weight { s with data := s.data.take n.toNat, clen } = n.toNat := by
  have hsyn := h.syn_eq_false (Nat.zero_lt_of_lt hlt)
  simp [OutSeg.weight, hsyn, hfin]
  omega

/-- The first unsent segment is split, if it has no FIN. -/
theorem tcpSplitUnsentSeg_sound (h : o.Sound iss W fin live) (hW : W.length + 2 < 2 ^ 31)
    (split clen : UInt16)
    (hfin : ∀ s ∈ o.unsent.head?, s.fin = true → s.len ≤ split) :
    (tcpSplitUnsentSeg o split clen).2.Sound iss W fin live := by
  unfold tcpSplitUnsentSeg
  split
  · exact h
  · next useg rest hu =>
    split_ifs with hzero hfit
    · exact h
    · exact h
    · exact h.tracked rfl
    · exact h.tracked rfl
    · obtain ⟨pos, hcar⟩ := h.safe.queue useg (by rw [hu]; simp)
      have hplain : useg.fin = false := by
        by_contra hf
        exact hfit (hfin useg (by rw [hu]; rfl) (by simpa using hf))
      have hn : 0 < split.toNat := Nat.pos_of_ne_zero fun h₀ => hzero (UInt16.toNat_inj.mp h₀)
      rw [UInt16.not_le, UInt16.lt_iff_toNat_lt, OutSeg.toNat_len hcar.length] at hfit
      obtain ⟨hfirst, hsecond⟩ := hcar.split hplain hn hfit clen 1
      refine ⟨⟨h.safe.finQueued, h.safe.sndLbb, fun x hx => ?_, h.safe.wire⟩, fun hl => ?_⟩
      · simp only [List.mem_append, List.mem_cons] at hx
        rcases hx with hx | rfl | rfl | hx
        · exact h.safe.queue x (List.mem_append_left _ hx)
        · exact ⟨pos, hfirst⟩
        · exact ⟨pos + split.toNat, hsecond⟩
        · exact h.safe.queue x (by rw [hu]; simp [hx])
      · obtain ⟨a, nxt, hw⟩ := h.whole hl
        have hbuf := hw.sndBuf
        have hqlen := hw.sndQueuelen
        rw [hu, bytesIn_append, bytesIn_cons] at hbuf
        rw [hu, pbufsIn_append, pbufsIn_cons] at hqlen
        refine ⟨a, nxt, hw.lastack, hw.sndNxt, hw.le, hw.nxt_le, fun p hlo hhi => ?_, ?_, ?_⟩
        · obtain ⟨x, hx, pos', hx', hle, hlt⟩ := hw.covers p hlo hhi
          rw [hu, List.mem_append, List.mem_cons] at hx
          rcases hx with hx | rfl | hx
          · exact ⟨x, List.mem_append_left _ hx, pos', hx', hle, hlt⟩
          · obtain rfl := hx'.pos_eq hcar hW
            have hweight := hcar.weight_split hplain hfit clen 1
            by_cases hp : p < pos' + split.toNat
            · exact ⟨_, by simp, pos', hfirst, hle, by omega⟩
            · exact ⟨_, by simp, pos' + split.toNat, hsecond, by omega, by omega⟩
          · exact ⟨x, by simp [hx], pos', hx', hle, hlt⟩
        · rw [bytesIn_append, bytesIn_cons, bytesIn_cons, List.length_take, List.length_drop,
            ← hbuf]
          change o.sndBuf.toNat + (bytesIn o.unacked + _) = _
          omega
        · rw [pbufsIn_append, pbufsIn_cons, pbufsIn_cons]
          change o.sndQueuelen - useg.clen + clen + 1 = _
          rw [hqlen]
          simp only [UInt16.ofNat_add, UInt16.ofNat_toNat]
          change _ = UInt16.ofNat (pbufsIn o.unacked) + (clen + (1 + _))
          grind

/-- What the zero window probe sends is the first number of the first unsent segment. -/
theorem OutSeg.Carries.probe {s : OutSeg} {pos : ℕ} (h : s.Carries iss W fin pos)
    (hsyn : s.syn = false) (junk : UInt8) :
    OutSeg.Carries iss W fin
      { seqno := s.seqno
        data := if (s.fin && s.len == 0) = true then [] else [s.data.headD junk]
        clen := 1
        syn := false
        fin := s.fin && s.len == 0 } pos := by
  obtain ⟨hpos, hdata, hle⟩ := h.data hsyn
  have hlen : s.len = 0 ↔ s.data = [] := by
    rw [← UInt16.toNat_inj, OutSeg.toNat_len h.length, ← List.length_eq_zero_iff]
    rfl
  cases hb : s.fin && s.len == 0 with
  | true =>
    rw [Bool.and_eq_true, beq_iff_eq, hlen] at hb
    rw [hb.2, List.length_nil] at hle
    refine ⟨h.seqno, Nat.two_pow_pos 16, Nat.zero_lt_one,
      fun _ => ⟨hpos, (piece_zero W _).symm, hle⟩,
      fun hs => absurd hs Bool.false_ne_true, fun _ => ?_⟩
    have hend := h.fin hb.1
    rwa [hb.2] at hend
  | false =>
    have hne : s.data ≠ [] := by
      intro hnil
      rw [hlen.mpr hnil, beq_self_eq_true, Bool.and_true] at hb
      have := h.nonempty
      rw [OutSeg.weight, hnil, hb, hsyn] at this
      exact absurd this (lt_irrefl 0)
    have hpos' := List.length_pos_iff.mpr hne
    refine ⟨h.seqno, by simp, Nat.zero_lt_one, fun _ => ⟨hpos, ?_, ?_⟩,
      fun hs => absurd hs Bool.false_ne_true, fun hf => absurd hf Bool.false_ne_true⟩
    · have htake := take_piece W (a := pos - 1) (b := 1) (n := s.data.length) hpos'
      rw [← hdata] at htake
      obtain ⟨x, l, hx⟩ := List.exists_cons_of_ne_nil hne
      rw [hx] at htake ⊢
      exact htake
    · simp
      omega

theorem tcpZeroWindowProbe_sound (h : o.Sound iss W fin live) (hW : W.length + 2 < 2 ^ 31)
    (c : Conn)
    (hsyn : ∀ s ∈ o.unsent.head?, s.syn = false) (junk : UInt8) :
    (tcpZeroWindowProbe c o junk).2.Sound iss W fin live := by
  unfold tcpZeroWindowProbe
  split
  · exact h
  · next seg rest hu =>
    split
    · exact h.tracked rfl
    · obtain ⟨pos, hcar⟩ := h.safe.queue seg (by rw [hu]; simp)
      have hprobe := hcar.probe (hsyn seg (by rw [hu]; rfl)) junk
      have hstop := stopAt_le W fin
      have hle := hcar.stop_le
      have hpos := hcar.nonempty
      have hnext : Out.Sound iss W fin live { o.alloc.2 with
          rcvAnnRightEdge := c.rcvNxt + o.rcvAnnWnd.toUInt32
          sndNxt := if seqLt o.sndNxt (seg.seqno + 1) then seg.seqno + 1 else o.sndNxt } := by
        refine ⟨⟨h.safe.finQueued, h.safe.sndLbb, h.safe.queue, h.safe.wire⟩, fun hl => ?_⟩
        obtain ⟨a, nxt, hw⟩ := h.whole hl
        have hnxt := hw.nxt_le
        refine ⟨a, max nxt (pos + 1), hw.lastack, ?_, le_max_of_le_left hw.le,
          max_le hnxt ((Nat.add_le_add_left hpos pos).trans hle), hw.covers, hw.sndBuf,
          hw.sndQueuelen⟩
        dsimp only
        rw [hw.sndNxt, hcar.seqno, seqAt_add_one]
        exact seqAt_max (by omega) (by omega)
      exact hnext.ipOutput hprobe _ _

/-- The persist timer, behind the SYN, and not at a FIN that has to be split off. -/
theorem tcpPersist_sound (h : o.Sound iss W fin live) (hW : W.length + 2 < 2 ^ 31) (due : SlowDue)
    (c : Conn) (hsyn : ∀ s ∈ o.unsent.head?, s.syn = false)
    (hfin : o.sndWnd ≠ 0 → ∀ s ∈ o.unsent.head?, s.fin = true → s.len ≤ o.sndWnd) :
    (tcpPersist due c o).Sound iss W fin live := by
  unfold tcpPersist
  split
  · exact h
  · split
    · exact tcpZeroWindowProbe_sound h hW c hsyn due.junk
    · next hwnd =>
      have hsplit := tcpSplitUnsentSeg_sound h hW o.sndWnd due.clen (hfin hwnd)
      dsimp only
      split
      · exact tcpOutput_sound hsplit hW c
      · exact hsplit

theorem tcpRtoExpired_sound (h : o.Sound iss W fin live) (hW : W.length + 2 < 2 ^ 31) (c : Conn) :
    (tcpRtoExpired c o).Sound iss W fin live := by
  have hprep := h.requeued (tcpRexmitRtoPrepare_requeued o)
  unfold tcpRtoExpired
  dsimp only
  split
  · refine tcpOutput_sound ?_ hW c
    exact hprep.tracked rfl
  · exact hprep

end Timers

end EthernetPing
