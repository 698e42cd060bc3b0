import EthernetPing.Tcp.SendQueue

/-!
# Writing and closing

`tcp_write` hangs what it accepts on the end of the unsent queue, and the FIN comes behind
all of it: the queues go on carrying what is not acknowledged.
-/

namespace EthernetPing

variable {iss : UInt32} {W : List UInt8} {fin : Bool} {live : Prop} {o : Out} {c : Conn}

section Write

/-- Behind the last byte there is room for the FIN. -/
def OutSeg.Ends (iss : UInt32) (W : List UInt8) (s : OutSeg) : Prop :=
  ∃ pos, s.Carries iss W false pos ∧ pos + s.data.length = W.length + 1

theorem OutSeg.Ends.syn {s : OutSeg} (h : s.Ends iss W) : s.syn = false := by
  obtain ⟨pos, hcar, hend⟩ := h
  by_contra hs
  obtain ⟨rfl, hnil, -⟩ := hcar.syn (by simpa using hs)
  rw [hnil] at hend
  simp at hend

theorem tcpCreateSegments_tracked (mssLocal : UInt16) (fuel : ℕ) (data : List UInt8)
    (seqno : UInt32) (queuelen : UInt16) (o : Out) :
    (tcpCreateSegments mssLocal fuel data seqno queuelen o).2.tracked = o.tracked := by
  fun_induction tcpCreateSegments with
  | case1 => rfl
  | case2 => rfl
  | case3 => rfl
  | case4 => rfl
  | case5 => rfl
  | case6 fuel data seqno queuelen o hdata seglen seg h₁ h₂ h₃ rest ih => exact ih

theorem tcpCreateSegments_zero (fuel : ℕ) (data : List UInt8) (seqno : UInt32) (queuelen : UInt16)
    (o : Out) (hdata : data ≠ []) :
    (tcpCreateSegments 0 fuel data seqno queuelen o).1 = none := by
  have hzero (x : UInt16) : (lwipMin x 0).toNat = 0 := by simp [toNat_lwipMin]
  fun_induction tcpCreateSegments with
  | case1 => exact absurd rfl hdata
  | case2 => rfl
  | case3 => rfl
  | case4 => rfl
  | case5 => rfl
  | case6 fuel data seqno queuelen o _ seglen seg h₁ h₂ h₃ rest ih =>
    have hnone : rest.1 = none := ih (by rwa [hzero, List.drop_zero])
    rw [hnone, Option.map_none]

/-- Run lemma for the loop of `tcp_write`: segments that touch, from number `p` to the end. -/
theorem tcpCreateSegments_spec {mssLocal : UInt16} {fuel : ℕ} {data : List UInt8}
    {seqno : UInt32} {queuelen : UInt16} {o : Out} {r : List OutSeg × UInt16} {p : ℕ} (hp : 1 ≤ p)
    (hd : data.length < 2 ^ 16) (hseq : seqno = seqAt iss p) (hdata : W.drop (p - 1) = data)
    (hlen : p + data.length = W.length + 1)
    (hmade : (tcpCreateSegments mssLocal fuel data seqno queuelen o).1 = some r) :
    (∀ s ∈ r.1, ∃ pos, s.Carries iss W false pos) ∧ Covers iss W false p r.1 ∧
      ∀ s ∈ r.1.getLast?, s.Ends iss W := by
  fun_induction tcpCreateSegments generalizing p r with
  | case1 =>
    cases hmade
    refine ⟨fun _ hs => absurd hs List.not_mem_nil, fun i hlo hhi => ?_,
      fun _ hs => absurd hs (Option.not_mem_none _)⟩
    rw [stopAt] at hhi
    simp at hlen hhi
    omega
  | case2 => cases hmade
  | case3 => cases hmade
  | case4 => cases hmade
  | case5 => cases hmade
  | case6 =>
    rename_i fuel data seqno queuelen o hne seglen seg _ _ _ rest ih
    obtain ⟨r', hrest, rfl⟩ := Option.map_eq_some_iff.mp hmade
    have hdlen : (UInt16.ofNat data.length).toNat = data.length := by
      rw [UInt16.toNat_ofNat', Nat.mod_eq_of_lt (by omega)]
    have hmin : seglen.toNat = min data.length mssLocal.toNat := by rw [toNat_lwipMin, hdlen]
    have hpos : 0 < data.length := List.length_pos_iff.mpr hne
    have hmss : mssLocal.toNat ≠ 0 := by
      intro h₀
      obtain rfl : mssLocal = 0 := UInt16.toNat_inj.mp h₀
      have hnil : data.drop seglen.toNat ≠ [] := by
        rwa [show seglen.toNat = 0 by rw [hmin, h₀, Nat.min_zero], List.drop_zero]
      rw [tcpCreateSegments_zero _ _ _ _ _ hnil] at hrest
      cases hrest
    have hseglen : seg.data.length = seglen.toNat := by
      rw [List.length_take]
      omega
    have hcar : seg.Carries iss W false p := by
      refine ⟨hseq, by omega, ?_, fun _ => ⟨hp, ?_, by omega⟩,
        fun hs => absurd hs Bool.false_ne_true, fun hf => absurd hf Bool.false_ne_true⟩
      · rw [OutSeg.weight, hseglen]
        omega
      · rw [hseglen, piece, hdata]
    have hdrop : (data.drop seglen.toNat).length = data.length - seglen.toNat := List.length_drop
    obtain ⟨hall, hcov, hlast⟩ := ih (p := p + seglen.toNat) (by omega) (by omega)
      (by rw [hseq, seqAt_add_toUInt32])
      (by rw [show p + seglen.toNat - 1 = p - 1 + seglen.toNat by omega, ← List.drop_drop, hdata])
      (by omega) hrest
    refine ⟨fun s hs => ?_, fun i hlo hhi => ?_, fun s hs => ?_⟩
    · rcases List.mem_cons.mp hs with rfl | hs
      · exact ⟨p, hcar⟩
      · exact hall s hs
    · by_cases hi : i < p + seglen.toNat
      · refine ⟨seg, List.mem_cons_self, p, hcar, hlo, ?_⟩
        rw [OutSeg.weight, hseglen]
        omega
      · obtain ⟨s, hs, hpos⟩ := hcov i (by omega) hhi
        exact ⟨s, List.mem_cons_of_mem _ hs, hpos⟩
    · cases hr : r'.1 with
      | nil =>
        rw [hr] at hs hcov
        obtain rfl : seg = s := by simpa using hs
        refine ⟨p, hcar, ?_⟩
        by_contra hend
        obtain ⟨s, hs, -⟩ := hcov (p + seglen.toNat) le_rfl (by rw [stopAt]; omega)
        cases hs
      | cons x rest' =>
        rw [hr] at hs hlast
        exact hlast s (by simpa using hs)

theorem tcpCreateSegments_counts {mssLocal : UInt16} {fuel : ℕ} {data : List UInt8}
    {seqno : UInt32} {queuelen : UInt16} {o : Out} {r : List OutSeg × UInt16}
    (hmade : (tcpCreateSegments mssLocal fuel data seqno queuelen o).1 = some r) :
    r.2 = queuelen + UInt16.ofNat (pbufsIn r.1) ∧ bytesIn r.1 = data.length := by
  fun_induction tcpCreateSegments generalizing r with
  | case1 =>
    cases hmade
    exact ⟨(UInt16.add_zero _).symm, rfl⟩
  | case2 => cases hmade
  | case3 => cases hmade
  | case4 => cases hmade
  | case5 => cases hmade
  | case6 =>
    rename_i fuel data seqno queuelen o hne seglen seg _ _ _ rest ih
    obtain ⟨r', hrest, rfl⟩ := Option.map_eq_some_iff.mp hmade
    obtain ⟨hqlen, hbytes⟩ := ih hrest
    refine ⟨?_, ?_⟩
    · rw [pbufsIn_cons, UInt16.ofNat_add, UInt16.ofNat_toNat, hqlen, UInt16.add_assoc]
    · rw [bytesIn_cons, hbytes, ← List.length_append, List.take_append_drop]

/-- The queue `q'` holds what `q` held, and the next `n` bytes, which are the first of `D`. -/
structure Hung (iss : UInt32) (W D : List UInt8) (n : ℕ) (q q' : List OutSeg) : Prop where
  carries : ∀ s ∈ q', ∃ pos, s.Carries iss (W ++ D) false pos
  keeps : ∀ s ∈ q, ∀ pos, s.Carries iss W false pos →
    ∃ s' ∈ q', s'.Carries iss (W ++ D) false pos ∧ s.weight ≤ s'.weight
  more : ∀ p, W.length + 1 ≤ p → p < W.length + 1 + n →
    ∃ s ∈ q', ∃ pos, s.Carries iss (W ++ D) false pos ∧ pos ≤ p ∧ p < pos + s.weight
  bytes : bytesIn q' = bytesIn q + n
  pbufs : UInt16.ofNat (pbufsIn q') = UInt16.ofNat (pbufsIn q) + if n = 0 then 0 else 1

variable {D : List UInt8} {q : List OutSeg} {last : OutSeg} {n : ℕ}

theorem Hung.nothing (h : ∀ s ∈ q, ∃ pos, s.Carries iss W false pos) (D : List UInt8) :
    Hung iss W D 0 q q := by
  refine ⟨fun s hs => ?_, fun s hs pos hcar => ⟨s, hs, hcar.append D, le_rfl⟩,
    fun p hlo hhi => absurd hlo (by omega), rfl, (UInt16.add_zero _).symm⟩
  obtain ⟨pos, hcar⟩ := h s hs
  exact ⟨pos, hcar.append D⟩

/-- Bytes can be hung on a segment that ends the stream. -/
theorem OutSeg.Carries.hang {pos : ℕ} (h : last.Carries iss W false pos)
    (hend : pos + last.data.length = W.length + 1) (hsyn : last.syn = false) (hn : n ≤ D.length)
    (hlen : last.data.length + n < 2 ^ 16) (clen : UInt16) :
    OutSeg.Carries iss (W ++ D) false { last with data := last.data ++ D.take n, clen } pos := by
  obtain ⟨hpos, hdata, -⟩ := h.data hsyn
  have htake : (D.take n).length = n := by
    rw [List.length_take]
    omega
  have hfin : last.fin = false := by
    by_contra hf
    exact Bool.false_ne_true (h.fin (by simpa using hf)).1
  refine ⟨h.seqno, ?_, ?_, fun _ => ⟨hpos, ?_, ?_⟩, fun hs => absurd (hsyn.symm.trans hs) nofun,
    fun hf => absurd (hfin.symm.trans hf) nofun⟩
  · rw [List.length_append, htake]
    exact hlen
  · exact h.nonempty.trans_le (Nat.add_le_add_right (by rw [List.length_append]; omega) _)
  · have hold := ((h.append D).data hsyn).2.1
    have hnew : D.take n = piece (W ++ D) (pos - 1 + last.data.length) n := by
      rw [piece, show pos - 1 + last.data.length = W.length by omega, List.drop_left]
    rw [List.length_append, htake, ← piece_append, ← hold, ← hnew]
  · rw [List.length_append, List.length_append, htake]
    omega

theorem Hung.of_last (hW : W.length + 2 < 2 ^ 31)
    (h : ∀ s ∈ q ++ [last], ∃ pos, s.Carries iss W false pos)
    (hends : last.Ends iss W) (hn : n ≤ D.length) (hpos : 0 < n)
    (hlen : last.data.length + n < 2 ^ 16) :
    Hung iss W D n (q ++ [last])
      (q ++ [{ last with data := last.data ++ D.take n, clen := last.clen + 1 }]) := by
  have hsyn := hends.syn
  obtain ⟨pos, hcar, hend⟩ := hends
  have hlast := hcar.hang hend hsyn hn hlen (last.clen + 1)
  have htake : (D.take n).length = n := by
    rw [List.length_take]
    omega
  have hweight : last.weight + n =
      OutSeg.weight { last with data := last.data ++ D.take n, clen := last.clen + 1 } := by
    simp only [OutSeg.weight, List.length_append, htake]
    omega
  have hfin : last.fin = false := by
    by_contra hf
    exact Bool.false_ne_true (hcar.fin (by simpa using hf)).1
  have hwlast : last.weight = last.data.length := by rw [OutSeg.weight, hsyn, hfin]; rfl
  refine ⟨fun s hs => ?_, fun s hs pos' hs' => ?_, fun p hlo hhi => ?_, ?_, ?_⟩
  · rcases List.mem_append.mp hs with hs | hs
    · obtain ⟨pos', hs⟩ := h s (List.mem_append_left _ hs)
      exact ⟨pos', hs.append D⟩
    · obtain rfl := List.mem_singleton.mp hs
      exact ⟨pos, hlast⟩
  · rcases List.mem_append.mp hs with hs | hs
    · exact ⟨s, List.mem_append_left _ hs, hs'.append D, le_rfl⟩
    · obtain rfl := List.mem_singleton.mp hs
      obtain rfl := hs'.pos_eq hcar hW
      exact ⟨_, by simp, hlast, by omega⟩
  · exact ⟨_, by simp, pos, hlast, by omega, by omega⟩
  · rw [bytesIn_append, bytesIn_append, bytesIn_cons, bytesIn_cons, List.length_append, htake]
    omega
  · rw [pbufsIn_append, pbufsIn_append, pbufsIn_cons, pbufsIn_cons, if_neg hpos.ne',
      UInt16.ofNat_add, UInt16.ofNat_add, UInt16.ofNat_add, UInt16.ofNat_add, UInt16.ofNat_toNat,
      UInt16.ofNat_toNat]
    grind

theorem tcpWriteChecks_tracked (c : Conn) (o : Out) (len : UInt16) :
    (tcpWriteChecks c o len).2.tracked = o.tracked := by
  unfold tcpWriteChecks
  split_ifs <;> rfl

theorem tcpWriteChecks_le {c : Conn} {o : Out} {len : UInt16}
    (h : (tcpWriteChecks c o len).1 = .ok) : len ≤ o.sndBuf := by
  unfold tcpWriteChecks at h
  split_ifs at h with hstate hzero hbuf
  · rw [hzero]
    exact UInt16.le_iff_toNat_le.mpr (Nat.zero_le _)
  · exact UInt16.not_lt.mp hbuf

/-- Bytes are hung only on a segment that has some. -/
theorem tcpWriteSpace_cases (mssLocal : UInt16) (o : Out) (len : UInt16) :
    tcpWriteSpace mssLocal o len = 0 ∨
      ∃ last ∈ o.unsent.getLast?, 0 < last.len ∧ tcpWriteSpace mssLocal o len ≤ len := by
  unfold tcpWriteSpace
  split
  · exact .inl rfl
  · next last hlast =>
    split
    · next hpos =>
      refine .inr ⟨last, hlast, hpos, UInt16.le_iff_toNat_le.mpr ?_⟩
      rw [toNat_lwipMin]
      exact Nat.min_le_right ..
    · exact .inl rfl

/-- Either all of the data is queued, `seglen` bytes of it on the last segment, or nothing. -/
theorem tcpWrite_cases (c : Conn) (o : Out) (D : List UInt8) :
    ((tcpWrite c o D).1 ≠ .ok ∧ (tcpWrite c o D).2.tracked = o.tracked) ∨
    ∃ (mssLocal seglen : UInt16) (o₁ : Out) (segs : List OutSeg) (queuelen : UInt16),
      (seglen = 0 ∨ ∃ last ∈ o.unsent.getLast?, 0 < last.len ∧ seglen ≤ UInt16.ofNat D.length) ∧
      (tcpCreateSegments mssLocal D.length (D.drop seglen.toNat) (o.sndLbb + seglen.toUInt32)
        (o.sndQueuelen + if seglen = 0 then 0 else 1) o₁).1 = some (segs, queuelen) ∧
      UInt16.ofNat D.length ≤ o.sndBuf ∧ (tcpWrite c o D).1 = .ok ∧
      (tcpWrite c o D).2.tracked =
        (o.lastack, o.sndNxt, o.sndLbb + (UInt16.ofNat D.length).toUInt32, o.finQueued,
          o.sndBuf - UInt16.ofNat D.length, queuelen, o.unacked,
          (if seglen = 0 then o.unsent else extendLast o.unsent (D.take seglen.toNat)) ++ segs,
          o.wire) := by
  have hchecks := tcpWriteChecks_tracked c o (UInt16.ofNat D.length)
  unfold tcpWrite
  extract_lets len half mssLocal check seglen concat src pbufs made
  split
  · next hne => exact .inl ⟨hne, hchecks⟩
  · next hok =>
    have hconcat : concat.2.tracked = o.tracked := by
      unfold concat
      split <;> rfl
    split
    · exact .inl ⟨nofun, hconcat⟩
    · have hmade : made.2.tracked = o.tracked :=
        (tcpCreateSegments_tracked _ _ _ _ _ _).trans hconcat
      split
      · exact .inl ⟨nofun, hmade⟩
      · next segs queuelen hsegs =>
        refine .inr ⟨mssLocal, seglen, concat.2, segs, queuelen, tcpWriteSpace_cases _ _ _, hsegs,
          tcpWriteChecks_le (not_not.mp hok), rfl, ?_⟩
        simp only [Out.tracked, Prod.mk.injEq] at hmade ⊢
        obtain ⟨hlast, hnxt, -, hfin, -, -, hunacked, -, hwire⟩ := hmade
        exact ⟨hlast, hnxt, rfl, hfin, rfl, trivial, hunacked, trivial, hwire⟩

/-- The last unsent segment ends the stream, so that bytes or the FIN may be hung on it. -/
def Out.Tail (iss : UInt32) (W : List UInt8) (o : Out) : Prop :=
  ∀ s ∈ o.unsent.getLast?, s.syn = false → s.Ends iss W

theorem extendLast_hung (h : o.Safe iss W false) (ht : o.Tail iss W) (hW : W.length + 2 < 2 ^ 31)
    (hD : D.length < 2 ^ 16) {seglen : UInt16}
    (hroom : ∀ s ∈ o.unsent.getLast?, s.data.length + D.length < 2 ^ 16)
    (hspace : seglen = 0 ∨
      ∃ last ∈ o.unsent.getLast?, 0 < last.len ∧ seglen ≤ UInt16.ofNat D.length) :
    Hung iss W D seglen.toNat (o.unacked ++ o.unsent) (o.unacked ++
      if seglen = 0 then o.unsent else extendLast o.unsent (D.take seglen.toNat)) ∧
    (seglen.toNat = D.length → D ≠ [] →
      ∃ s ∈ (if seglen = 0 then o.unsent else
        extendLast o.unsent (D.take seglen.toNat)).getLast?, s.Ends iss (W ++ D)) := by
  by_cases hz : seglen = 0
  · rw [if_pos hz, hz]
    exact ⟨Hung.nothing h.queue D,
      fun hnil hne => absurd (List.length_eq_zero_iff.mp hnil.symm) hne⟩
  · obtain ⟨last, hlast, hpos, hle⟩ := hspace.resolve_left hz
    obtain ⟨init, hinit⟩ : ∃ init, o.unsent = init ++ [last] :=
      ⟨_, (List.dropLast_append_getLast? last hlast).symm⟩
    obtain ⟨pos, hcar⟩ := h.queue last (by rw [hinit]; simp)
    have hlen := hroom last hlast
    rw [UInt16.lt_iff_toNat_lt, OutSeg.toNat_len hcar.length] at hpos
    rw [UInt16.le_iff_toNat_le, UInt16.toNat_ofNat', Nat.mod_eq_of_lt hD] at hle
    have hn : seglen.toNat ≠ 0 := fun h₀ => hz (UInt16.toNat_inj.mp h₀)
    have hall := h.queue
    rw [hinit, ← List.append_assoc] at hall
    have hsyn := hcar.syn_eq_false hpos
    have hends := ht last hlast hsyn
    rw [if_neg hz, extendLast, hinit, List.getLast?_concat]
    dsimp only
    rw [List.dropLast_concat, ← List.append_assoc, ← List.append_assoc]
    refine ⟨Hung.of_last hW hall hends hle (by omega) (by omega), fun hwhole _ => ?_⟩
    rw [List.getLast?_concat]
    obtain ⟨pos, hcar, hend⟩ := hends
    refine ⟨_, rfl, pos, hcar.hang hend hsyn hle (by omega) _, ?_⟩
    rw [List.length_append, List.length_take, List.length_append]
    omega

/-- `tcp_write`, unless a segment that is sent again is the last unsent one. -/
theorem tcpWrite_sound (h : o.Sound iss W false live) (ht : o.Tail iss W) (c : Conn)
    (hD : D.length < 2 ^ 16) (hW : (W ++ D).length + 2 < 2 ^ 31)
    (hroom : D.length ≤ o.sndBuf.toNat →
      ∀ s ∈ o.unsent.getLast?, s.data.length + D.length < 2 ^ 16) :
    ((tcpWrite c o D).1 ≠ .ok ∧ (tcpWrite c o D).2.tracked = o.tracked) ∨
    ((tcpWrite c o D).1 = .ok ∧ (tcpWrite c o D).2.Sound iss (W ++ D) false live ∧
      (D ≠ [] → ∃ s ∈ (tcpWrite c o D).2.unsent.getLast?, s.Ends iss (W ++ D))) := by
  refine (tcpWrite_cases c o D).imp_right ?_
  rintro ⟨mssLocal, seglen, o₁, segs, queuelen, hspace, hmade, hle, hok, htracked⟩
  simp only [Out.tracked, Prod.mk.injEq] at htracked
  obtain ⟨hlast, hnxt, hlbb, hfin, hbuf, hqlen, hunacked, hunsent, hwire⟩ := htracked
  have hlen : (UInt16.ofNat D.length).toNat = D.length := by
    rw [UInt16.toNat_ofNat', Nat.mod_eq_of_lt hD]
  have hW' := hW
  rw [List.length_append] at hW'
  have hle' := UInt16.le_iff_toNat_le.mp hle
  rw [hlen] at hle'
  obtain ⟨hung, hlastEnds⟩ := extendLast_hung h.safe ht (by omega) hD (hroom hle') hspace
  have hn : seglen.toNat ≤ D.length := by
    rcases hspace with rfl | ⟨-, -, -, hseg⟩
    · exact Nat.zero_le _
    · rwa [UInt16.le_iff_toNat_le, hlen] at hseg
  have hdrop : (D.drop seglen.toNat).length = D.length - seglen.toNat := List.length_drop
  obtain ⟨hall, hcov, hends⟩ := tcpCreateSegments_spec (W := W ++ D)
    (p := W.length + 1 + seglen.toNat) (by omega) (by omega)
    (by rw [h.safe.sndLbb rfl, seqAt_add_toUInt32])
    (by rw [show W.length + 1 + seglen.toNat - 1 = W.length + seglen.toNat by omega,
      List.drop_length_add_append])
    (by rw [List.length_append]; omega) hmade
  obtain ⟨hcount, hbytes⟩ := tcpCreateSegments_counts hmade
  have hq : (tcpWrite c o D).2.unacked ++ (tcpWrite c o D).2.unsent = (o.unacked ++
      if seglen = 0 then o.unsent else extendLast o.unsent (D.take seglen.toNat)) ++ segs := by
    rw [hunacked, hunsent, List.append_assoc]
  refine ⟨hok, ⟨⟨hfin.trans h.safe.finQueued, fun _ => ?_, fun s hs => ?_,
    fun s ackno wnd hs => ?_⟩,
    fun hl => ?_⟩, fun hne => ?_⟩
  · rw [hlbb, h.safe.sndLbb rfl, seqAt_add_toUInt32, hlen, List.length_append]
    congr 1
    omega
  · rw [hq] at hs
    rcases List.mem_append.mp hs with hs | hs
    · exact hung.carries s hs
    · exact hall s hs
  · obtain ⟨pos, hcar⟩ := h.safe.wire s ackno wnd (hwire ▸ hs)
    exact ⟨pos, hcar.append D⟩
  · obtain ⟨a, nxt, hw⟩ := h.whole hl
    have hle' := hw.nxt_le
    refine ⟨a, nxt, hlast.trans hw.lastack, hnxt.trans hw.sndNxt, hw.le, ?_, ?_, ?_, ?_⟩
    · rw [stopAt, List.length_append]
      rw [stopAt] at hle'
      omega
    · rw [hq]
      intro p hlo hhi
      by_cases hp : p < W.length + 1
      · obtain ⟨s, hs, pos, hcar, hpos, hlt⟩ := hw.covers p hlo (by rw [stopAt]; exact hp)
        obtain ⟨s', hs', hcar', hweight⟩ := hung.keeps s hs pos hcar
        exact ⟨s', List.mem_append_left _ hs', pos, hcar', hpos, by omega⟩
      · by_cases hp' : p < W.length + 1 + seglen.toNat
        · obtain ⟨s, hs, hcar⟩ := hung.more p (by omega) hp'
          exact ⟨s, List.mem_append_left _ hs, hcar⟩
        · obtain ⟨s, hs, hcar⟩ := hcov p (by omega) hhi
          exact ⟨s, List.mem_append_right _ hs, hcar⟩
    · have hold := hw.sndBuf
      rw [hq, bytesIn_append, hung.bytes, hbytes, hbuf, UInt16.toNat_sub_of_le _ _ hle, hlen]
      omega
    · have hz : seglen.toNat = 0 ↔ seglen = 0 := by
        rw [← UInt16.toNat_inj]
        rfl
      rw [hq, pbufsIn_append, UInt16.ofNat_add, hung.pbufs, ← hw.sndQueuelen, hqlen]
      simp only [hz]
      exact hcount
  · cases hsegs : segs.getLast? with
    | some s =>
      refine ⟨s, ?_, hends s hsegs⟩
      rw [hunsent, List.getLast?_append, hsegs]
      rfl
    | none =>
      rw [List.getLast?_eq_none_iff] at hsegs
      rw [hsegs, hdrop] at hbytes
      have hpos := List.length_pos_iff.mpr hne
      have hall : seglen.toNat = D.length := by
        change 0 = _ at hbytes
        omega
      obtain ⟨s, hs, hend⟩ := hlastEnds hall hne
      exact ⟨s, by rwa [hunsent, hsegs, List.append_nil], hend⟩

/-- Only in the states from which data is sent can be written. -/
theorem tcpWrite_state {c : Conn} {o : Out} {D : List UInt8} (h : (tcpWrite c o D).1 = .ok) :
    c.state.finSent.isSome = true := by
  by_contra hs
  have hchecks : (tcpWriteChecks c o (UInt16.ofNat D.length)).1 = .conn := by
    unfold tcpWriteChecks
    rw [if_pos]
    refine ⟨?_, ?_, ?_⟩ <;>
    · intro hstate
      rw [hstate] at hs
      exact hs rfl
  unfold tcpWrite at h
  dsimp only at h
  rw [if_pos (by rw [hchecks]; exact nofun)] at h
  rw [hchecks] at h
  cases h

end Write

section Fin

theorem OutSeg.Carries.of_nil {s : OutSeg} {pos : ℕ} (h : s.Carries iss [] false pos) :
    s.syn = true ∧ s.data = [] := by
  have hle := h.stop_le
  have hpos := h.nonempty
  have hsyn : s.syn = true := by
    by_contra hs
    have := (h.data (by simpa using hs)).1
    simp [stopAt] at hle
    omega
  exact ⟨hsyn, (h.syn hsyn).2.1⟩

/-- Before the first byte only the SYN is queued. -/
theorem Out.Safe.tail (h : o.Safe iss [] false) : o.Tail iss [] := by
  intro s hs hsyn
  obtain ⟨pos, hcar⟩ := h.queue s (List.mem_append_right _ (List.mem_of_getLast? hs))
  exact absurd (hsyn.symm.trans hcar.of_nil.1) Bool.false_ne_true

/-- The FIN takes the number behind the last byte, in a segment `s` that is new or replaces one. -/
theorem Out.Sound.addFin {o' : Out} {s : OutSeg} {pos : ℕ} (h : o.Sound iss W false live)
    (hf : o'.finQueued = true) (hlast : o'.lastack = o.lastack) (hnxt : o'.sndNxt = o.sndNxt)
    (hwire : o'.wire = o.wire) (hs : s ∈ o'.unacked ++ o'.unsent) (hcar : s.Carries iss W true pos)
    (hfin : s.fin = true) (hbuf : o'.sndBuf = o.sndBuf)
    (hbytes : bytesIn (o'.unacked ++ o'.unsent) = bytesIn (o.unacked ++ o.unsent))
    (hqlen : o'.sndQueuelen + UInt16.ofNat (pbufsIn (o.unacked ++ o.unsent)) =
      o.sndQueuelen + UInt16.ofNat (pbufsIn (o'.unacked ++ o'.unsent)))
    (hold : ∀ x ∈ o'.unacked ++ o'.unsent, x = s ∨ x ∈ o.unacked ++ o.unsent)
    (hnew : ∀ x ∈ o.unacked ++ o.unsent, x ∈ o'.unacked ++ o'.unsent ∨
      ∀ pos', x.Carries iss W false pos' → s.Carries iss W true pos' ∧ x.weight ≤ s.weight) :
    o'.Sound iss W true live := by
  refine ⟨⟨hf, nofun, fun x hx => ?_, fun x ackno wnd hx => ?_⟩, fun hl => ?_⟩
  · rcases hold x hx with rfl | hx
    · exact ⟨pos, hcar⟩
    · obtain ⟨pos', hx⟩ := h.safe.queue x hx
      exact ⟨pos', hx.addFin⟩
  · obtain ⟨pos', hx⟩ := h.safe.wire x ackno wnd (hwire ▸ hx)
    exact ⟨pos', hx.addFin⟩
  · obtain ⟨a, nxt, hw⟩ := h.whole hl
    have hle := hw.nxt_le
    rw [stopAt] at hle
    rw [hw.sndQueuelen] at hqlen
    refine ⟨a, nxt, hlast.trans hw.lastack, hnxt.trans hw.sndNxt, hw.le, ?_, fun p hlo hhi => ?_,
      by rw [hbuf, hbytes, hw.sndBuf], by grind⟩
    · rw [stopAt]
      simp at hle ⊢
      omega
    · by_cases hp : p < stopAt W false
      · obtain ⟨x, hx, pos', hx', hle', hlt'⟩ := hw.covers p hlo hp
        rcases hnew x hx with hx | hx
        · exact ⟨x, hx, pos', hx'.addFin, hle', hlt'⟩
        · obtain ⟨hx, hweight⟩ := hx pos' hx'
          exact ⟨s, hs, pos', hx, hle', by omega⟩
      · have hend := (hcar.fin hfin).2
        have hweight : s.weight = s.data.length + 1 := by rw [OutSeg.weight, hfin]; rfl
        rw [stopAt] at hp hhi
        simp at hp hhi
        exact ⟨s, hs, pos, hcar, by omega, by omega⟩

theorem tcpEnqueueFin_sound (h : o.Sound iss W false live) :
    ((tcpEnqueueFin o).1 = .mem ∧ (tcpEnqueueFin o).2.tracked = o.tracked) ∨
    ((tcpEnqueueFin o).1 = .ok ∧ (tcpEnqueueFin o).2.Sound iss W true live) := by
  unfold tcpEnqueueFin
  split
  · exact .inl ⟨rfl, rfl⟩
  · split
    · exact .inl ⟨rfl, rfl⟩
    · refine .inr ⟨rfl, ?_⟩
      set fin : OutSeg := { seqno := o.sndLbb, data := [], clen := 1, syn := false, fin := true }
      have hcar : fin.Carries iss W true (W.length + 1) :=
        ⟨h.safe.sndLbb rfl, Nat.two_pow_pos 16, Nat.zero_lt_one,
          fun _ => ⟨by omega, (piece_zero W _).symm, le_rfl⟩, nofun, fun _ => ⟨rfl, rfl⟩⟩
      refine h.addFin rfl rfl rfl rfl (s := fin) (by simp) hcar rfl rfl ?_ ?_ (fun x hx => ?_)
        fun x hx => .inl ?_
      · rw [← List.append_assoc, bytesIn_append _ [fin]]
        rfl
      · rw [← List.append_assoc, pbufsIn_append _ [fin], UInt16.ofNat_add,
          show UInt16.ofNat (pbufsIn [fin]) = 1 from rfl]
        change o.sndQueuelen + 1 + UInt16.ofNat (pbufsIn (o.unacked ++ o.unsent)) =
          o.sndQueuelen + (UInt16.ofNat (pbufsIn (o.unacked ++ o.unsent)) + 1)
        ac_rfl
      · simp only [← List.append_assoc, List.mem_append, List.mem_singleton] at hx ⊢
        exact hx.symm
      · simp only [← List.append_assoc, List.mem_append, List.mem_singleton] at hx ⊢
        exact .inl hx

/-- `tcp_send_fin` as long as no FIN is queued. -/
theorem tcpSendFin_sound (h : o.Sound iss W false live) (ht : o.Tail iss W)
    (hW : W.length + 2 < 2 ^ 31) :
    ((tcpSendFin o).1 = .mem ∧ (tcpSendFin o).2.tracked = o.tracked) ∨
    ((tcpSendFin o).1 = .ok ∧ (tcpSendFin o).2.Sound iss W true live) := by
  unfold tcpSendFin
  split
  · next last hlast =>
    split
    · exact tcpEnqueueFin_sound h
    · next hplain =>
      rw [Bool.or_eq_true, not_or, Bool.not_eq_true, Bool.not_eq_true] at hplain
      refine .inr ⟨rfl, ?_⟩
      obtain ⟨pos, hcar, hend⟩ := ht last hlast hplain.1
      have hsplit := List.dropLast_append_getLast? last hlast
      have hcar' : OutSeg.Carries iss W true { last with fin := true } pos :=
        ⟨hcar.seqno, hcar.length, Nat.succ_pos _, hcar.data,
          fun hs => absurd (hplain.1.symm.trans hs) nofun,
          fun _ => ⟨rfl, hend⟩⟩
      refine h.addFin rfl rfl rfl rfl (s := { last with fin := true }) (by simp) hcar' rfl rfl
        ?_ ?_ (fun x hx => ?_) fun x hx => ?_
      · rw [← hsplit]
        simp [bytesIn]
      · rw [← hsplit]
        simp [pbufsIn]
      · rw [← hsplit]
        simp only [List.mem_append, List.mem_singleton] at hx ⊢
        tauto
      · rw [← hsplit] at hx
        simp only [List.mem_append, List.mem_singleton] at hx ⊢
        rcases hx with hx | hx | rfl
        · exact .inl (.inl hx)
        · exact .inl (.inr (.inl hx))
        · refine .inr fun pos' hx' => ?_
          rw [hx'.pos_eq hcar hW]
          refine ⟨hcar', ?_⟩
          simp [OutSeg.weight, hplain]
  · exact tcpEnqueueFin_sound h

end Fin

end EthernetPing
