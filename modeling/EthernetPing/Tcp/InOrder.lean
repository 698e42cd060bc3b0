import EthernetPing.Tcp.FinLast

/-!
# Segments in sequence

What `tcp_receive` makes of a segment that starts at `rcv_nxt`. By how much the receive
window shrinks depends on what waits on `ooseq`; that it shrinks at all is proved from the
form of that queue and from the size of the memory pools.
-/

namespace EthernetPing

section Shrink

/-- The bytes of a segment and its FIN, as natural number. -/
def InSeg.weight (s : InSeg) : ℕ := s.len.toNat + if s.fin || s.syn then 1 else 0

def queueWeight (q : List InSeg) : ℕ := (q.map InSeg.weight).sum

/-- What waits on `ooseq` fits into `MEMP_NUM_TCP_SEG` segments, and into `PBUF_POOL_SIZE` buffers
of `PBUF_POOL_BUFSIZE` bytes. -/
structure FitsPools (q : List InSeg) : Prop where
  segs : q.length ≤ 2
  bytes : (q.map fun s => s.len.toNat).sum ≤ 4 * poolBufSize.toNat

theorem InSeg.tcplen_eq (s : InSeg) : s.tcplen = UInt16.ofNat s.weight := by
  rw [InSeg.tcplen, InSeg.weight]
  split_ifs
  · simp [UInt16.ofNat_add]
  · simp

theorem queueWeight_le (q : List InSeg) :
    queueWeight q ≤ (q.map fun s => s.len.toNat).sum + q.length := by
  induction q with
  | nil => exact Nat.zero_le _
  | cons s rest ih =>
    have hone : s.weight ≤ s.len.toNat + 1 := by
      rw [InSeg.weight]
      split_ifs <;> omega
    simp only [queueWeight, List.map_cons, List.sum_cons, List.length_cons] at ih ⊢
    omega

theorem FitsPools.queueWeight_le {q : List InSeg} (h : FitsPools q) : queueWeight q ≤ 1026 := by
  have hle := EthernetPing.queueWeight_le q
  have hsegs := h.segs
  have hbytes := h.bytes
  have hsize : poolBufSize.toNat = 256 := rfl
  omega

theorem queueWeight_suffix {q r : List InSeg} (h : r <:+ q) : queueWeight r ≤ queueWeight q := by
  obtain ⟨gone, rfl⟩ := h
  simp [queueWeight]

/-- Taking queued segments narrows the window by some of what waits, and by the first segment at
least if that is in sequence. -/
theorem drainOoseq_rcvWnd (q : List InSeg) (c : Conn) (o : Out) : ∃ k ≤ queueWeight q,
    (drainOoseq q c o).1.rcvWnd = c.rcvWnd - UInt16.ofNat k ∧
      ∀ x ∈ q.head?, (x.seqno = c.rcvNxt → x.weight ≤ k) ∧ (x.seqno ≠ c.rcvNxt → k = 0) := by
  induction q generalizing c o with
  | nil => exact ⟨0, le_rfl, by simp [drainOoseq], by simp⟩
  | cons s rest ih =>
    rw [drainOoseq]
    split_ifs with hseq
    · obtain ⟨k, hk, hwnd, -⟩ := ih (c.takeQueued s) (tcpUpdateRcvAnnWnd (c.takeQueued s) o)
      refine ⟨s.weight + k, ?_, ?_, ?_⟩
      · simp only [queueWeight, List.map_cons, List.sum_cons] at hk ⊢
        omega
      · rw [hwnd, UInt16.ofNat_add, ← s.tcplen_eq]
        change c.rcvWnd - s.tcplen - _ = _
        grind
      · rintro x hx
        obtain rfl : s = x := by simpa using hx
        exact ⟨fun _ => Nat.le_add_right .., fun hne => absurd hseq hne⟩
    · refine ⟨0, Nat.zero_le _, by simp, ?_⟩
      rintro x hx
      obtain rfl : s = x := by simpa using hx
      exact ⟨fun heq => absurd heq hseq, fun _ => rfl⟩

/-- Unless it runs into the next queued segment, a segment without FIN keeps its length. -/
theorem coverOoseq_len {s : InSeg} {q : List InSeg} (hq : FinLast q) (hsyn : s.syn = false)
    (hfin : s.fin = false) :
    (coverOoseq s q).1.seqno = s.seqno ∧ (coverOoseq s q).1.syn = false ∧
      ((coverOoseq s q).1.len = s.len ∨
        (coverOoseq s q).1.fin = false ∧ ∃ next ∈ (coverOoseq s q).2.head?,
          (coverOoseq s q).1.len = (next.seqno - s.seqno).toUInt16 ∧
          seqLt (s.seqno + s.len.toUInt32) (next.seqno + next.len.toUInt32) = true ∧
          seqLt next.seqno (s.seqno + s.len.toUInt32) = true) := by
  have htcplen : s.tcplen = s.len := by simp [InSeg.tcplen, hsyn, hfin]
  induction q with
  | nil => exact ⟨rfl, hsyn, .inl rfl⟩
  | cons next rest ih =>
    rw [coverOoseq]
    split
    · cases hnext : next.fin with
      | true =>
        rw [hq.1 hnext, if_pos (by rw [hsyn]; rfl)]
        exact ⟨rfl, hsyn, .inl rfl⟩
      | false => exact ih hq.2
    · next hend =>
      rw [htcplen] at hend ⊢
      split
      · next hover =>
        rw [hsyn]
        refine ⟨rfl, hsyn, .inr ⟨hfin, next, rfl, rfl, ?_, hover⟩⟩
        simpa [seqGeq, seqLeq] using hend
      · exact ⟨rfl, hsyn, .inl rfl⟩

/-- Where the next segment can begin that a segment of `len` bytes runs into, both ends being
compared as serial numbers. -/
theorem overrun_dist {a b : UInt32} {len n : UInt16} (hlen : 0 < len.toNat)
    (hend : seqLt (a + len.toUInt32) (b + n.toUInt32) = true)
    (hover : seqLt b (a + len.toUInt32) = true) :
    (b - a).toNat < len.toNat ∧ 0 < n.toNat ∨ (b - a).toNat = 2 ^ 31 + len.toNat ∨
      2 ^ 32 + len.toNat < (b - a).toNat + n.toNat := by
  have hl := len.toNat_lt
  have hn := n.toNat_lt
  rw [seqLt_iff, show a + len.toUInt32 - (b + n.toUInt32) =
    len.toUInt32 - (b - a) - n.toUInt32 by grind] at hend
  rw [seqLt_iff, show b - (a + len.toUInt32) = b - a - len.toUInt32 by grind] at hover
  simp only [UInt32.toNat_sub, UInt16.toNat_toUInt32] at hend hover ⊢
  omega

theorem fitWindow_len {s : InSeg} {wnd : UInt16} (hsyn : s.syn = false) (hlen : s.len ≤ wnd) :
    (s.fitWindow wnd).seqno = s.seqno ∧ (s.fitWindow wnd).syn = false ∧
      (s.fitWindow wnd).len = s.len := by
  rw [InSeg.fitWindow]
  split_ifs with hover hs
  · exact absurd (hsyn.symm.trans hs) Bool.false_ne_true
  · refine ⟨rfl, hsyn, UInt16.le_antisymm ?_ hlen⟩
    change wnd ≤ s.len
    have hle : s.weight ≤ s.len.toNat + 1 := by
      rw [InSeg.weight]
      split_ifs <;> omega
    rw [s.tcplen_eq, UInt16.lt_iff_toNat_lt, UInt16.toNat_ofNat'] at hover
    rw [UInt16.le_iff_toNat_le]
    omega
  · exact ⟨rfl, hsyn, rfl⟩

variable {c : Conn} {o : Out}

/-- The window after a segment and what was waiting for it. -/
theorem drainOoseq_take_rcvWnd (s : InSeg) {q : List InSeg} (hq : queueWeight q ≤ 1026) :
    ∃ k ≤ 1026, (drainOoseq q (c.take s) o).1.rcvWnd = c.rcvWnd - UInt16.ofNat (s.weight + k) ∧
      ∀ x ∈ q.head?, (x.seqno = c.rcvNxt + s.tcplen.toUInt32 → x.weight ≤ k) ∧
        (x.seqno ≠ c.rcvNxt + s.tcplen.toUInt32 → k = 0) := by
  obtain ⟨k, hk, hwnd, hhead⟩ := drainOoseq_rcvWnd q (c.take s) o
  refine ⟨k, hk.trans hq, ?_, hhead⟩
  rw [hwnd, UInt16.ofNat_add, ← s.tcplen_eq]
  change c.rcvWnd - s.tcplen - _ = _
  grind

theorem sub_ofNat_ne {x : UInt16} {k : ℕ} (hpos : 0 < k) (hlt : k < 2 ^ 16) :
    x - UInt16.ofNat k ≠ x := by
  intro h
  have hzero : UInt16.ofNat k = 0 := by grind
  rw [← UInt16.toNat_inj, UInt16.toNat_ofNat'] at hzero
  simp at hzero
  omega

/-- The numbers that a segment takes which was cut before the next queued one, together with what
is taken of the queue then. -/
theorem cut_weight {m next : InSeg} {seqno : UInt32} {len : UInt16} {k : ℕ} (hsyn : m.syn = false)
    (hfin : m.fin = false) (hcut : m.len = (next.seqno - seqno).toUInt16) (hpos : 0 < len.toNat)
    (hlen : len.toNat ≤ 1072) (hnext : next.weight ≤ 1026) (hk : k ≤ 1026)
    (hend : seqLt (seqno + len.toUInt32) (next.seqno + next.len.toUInt32) = true)
    (hover : seqLt next.seqno (seqno + len.toUInt32) = true)
    (htaken : next.seqno = seqno + m.tcplen.toUInt32 → next.weight ≤ k)
    (hleft : next.seqno ≠ seqno + m.tcplen.toUInt32 → k = 0) :
    0 < m.weight + k ∧ m.weight + k < 2 ^ 16 := by
  have hw : m.weight = (next.seqno - seqno).toNat % 2 ^ 16 := by
    rw [InSeg.weight, hfin, hsyn, hcut]
    rfl
  have hbytes : next.len.toNat ≤ next.weight := Nat.le_add_right ..
  have hturn := (next.seqno - seqno).toNat_lt
  have hadjacent : next.seqno = seqno + m.tcplen.toUInt32 ↔
      (next.seqno - seqno).toNat = m.weight := by
    have htcp : m.tcplen.toUInt32.toNat = m.weight := by
      rw [m.tcplen_eq, UInt16.toNat_toUInt32, UInt16.toNat_ofNat']
      omega
    rw [← htcp, UInt32.toNat_inj]
    constructor <;> grind
  rw [hadjacent] at htaken
  rw [ne_eq, hadjacent] at hleft
  rcases overrun_dist hpos hend hover with ⟨hd, hn⟩ | hd | hd
  · -- the cut makes the next segment follow, so that it is taken as well
    have := htaken (by omega)
    omega
  · omega
  · -- the next segment lies behind: the cut length is a negative number, and nothing is taken
    have := hleft (by omega)
    omega

/-- What is taken of the segment and the queue is neither nothing nor a whole turn. -/
theorem tcpReceiveInSeq_rcvWnd {s : InSeg} (hsyn : s.syn = false) (hpos : 0 < s.len.toNat)
    (hlen : s.len ≤ c.rcvWnd) (hwnd : c.rcvWnd = tcpWnd) (hq : FinLast c.ooseq)
    (hpool : FitsPools c.ooseq) : (tcpReceiveInSeq c o s).1.rcvWnd ≠ c.rcvWnd := by
  obtain ⟨-, hsyn', hlen'⟩ := fitWindow_len hsyn hlen
  have hmax : s.len.toNat ≤ 1072 := by
    rw [hwnd, UInt16.le_iff_toNat_le] at hlen
    exact hlen
  rw [tcpReceiveInSeq]
  dsimp only
  split_ifs with hfin
  · obtain ⟨k, hk, hr, -⟩ := drainOoseq_take_rcvWnd (c := { c with rcvNxt := _ }) (o := _)
      (s.fitWindow c.rcvWnd) (q := []) (Nat.zero_le _)
    rw [hr]
    have hw : (s.fitWindow c.rcvWnd).weight = s.len.toNat + 1 := by
      rw [InSeg.weight, hlen', hfin]
      rfl
    exact sub_ofNat_ne (by omega) (by omega)
  · rw [Bool.not_eq_true] at hfin
    obtain ⟨hseq, hsyn'', hcases⟩ := coverOoseq_len hq hsyn' hfin
    have hqueue : queueWeight (coverOoseq (s.fitWindow c.rcvWnd) c.ooseq).2 ≤ 1026 :=
      (queueWeight_suffix (coverOoseq_suffix ..)).trans hpool.queueWeight_le
    obtain ⟨k, hk, hr, hhead⟩ := drainOoseq_take_rcvWnd (c := { c with rcvNxt := _ }) (o := _)
      (coverOoseq (s.fitWindow c.rcvWnd) c.ooseq).1 hqueue
    rw [hr]
    rcases hcases with hkept | ⟨hfin', next, hnext, hcut, hend, hover⟩
    · have hw : (coverOoseq (s.fitWindow c.rcvWnd) c.ooseq).1.weight ≤ s.len.toNat + 1 ∧
          s.len.toNat ≤ (coverOoseq (s.fitWindow c.rcvWnd) c.ooseq).1.weight := by
        rw [InSeg.weight, hkept, hlen']
        split_ifs <;> omega
      exact sub_ofNat_ne (by omega) (by omega)
    · have hw : next.weight ≤ queueWeight (coverOoseq (s.fitWindow c.rcvWnd) c.ooseq).2 := by
        obtain ⟨rest, hrest⟩ := List.head?_eq_some_iff.mp hnext
        rw [hrest, queueWeight, List.map_cons, List.sum_cons]
        exact Nat.le_add_right ..
      obtain ⟨htaken, hleft⟩ := hhead next hnext
      have hcut := cut_weight hsyn'' hfin' hcut (hlen' ▸ hpos) (hlen' ▸ hmax) (hw.trans hqueue) hk
        hend hover htaken hleft
      exact sub_ofNat_ne hcut.1 hcut.2

end Shrink

section Next

variable {c : Conn} {o : Out} {s : Segment}

theorem fresh_of_seqno (hseq : s.seqno = c.rcvNxt) : s.fresh c.rcvNxt = s.inseg := by
  rw [Segment.fresh, Segment.overlaps, hseq, seqBetween_succ_self]
  exact if_neg Bool.false_ne_true

/-- The next segment in sequence, while the window is open. -/
theorem tcpReceive_next (hstate : c.state = .established) (hseq : s.seqno = c.rcvNxt)
    (hlen : 0 < s.tcplen) (hwnd : c.rcvWnd ≠ 0) :
    tcpReceive c o s = tcpReceiveInSeq c (tcpReceiveAck c o s) s.inseg := by
  have hin : c.inWindow s.inseg.seqno = true := by
    have hlt := c.rcvWnd.toNat_lt
    rw [Conn.inWindow, show s.inseg.seqno = c.rcvNxt from hseq, seqBetween_edge]
    · intro hzero
      rw [← UInt32.toNat_inj, UInt16.toNat_toUInt32] at hzero
      exact hwnd (UInt16.toNat_inj.mp hzero)
    · rw [UInt16.toNat_toUInt32]
      omega
  rw [tcpReceive, tcpReceiveData, if_pos ⟨hlen, by rw [hstate]; decide⟩, fresh_of_seqno hseq,
    if_pos hin, if_pos (show c.rcvNxt = s.inseg.seqno from hseq.symm), Segment.ackOld, hseq,
    seqLt_self, Bool.and_false]
  rfl

theorem tcpReceive_closed (hwnd : c.rcvWnd = 0) : (tcpReceive c o s).1 = c := by
  have hout : ∀ seqno, c.inWindow seqno = false := fun seqno => by
    have hedge : c.rcvNxt + (0 : UInt16).toUInt32 - 1 = c.rcvNxt - 1 :=
      congrArg (· - 1) (UInt32.add_zero c.rcvNxt)
    rw [Conn.inWindow, hwnd, hedge, seqBetween_empty]
  rw [tcpReceive, tcpReceiveData, hout, if_neg Bool.false_ne_true]
  split_ifs <;> rfl

theorem fitWindow_eq {s : InSeg} (hsyn : s.syn = false) (wnd : UInt16) :
    s.fitWindow wnd =
      if wnd < s.tcplen then { s with fin := false, len := wnd, p := pbufRealloc s.p wnd }
      else s := by
  rw [InSeg.fitWindow, hsyn]
  rfl

theorem totLen_fitWindow {s : InSeg} {wnd : UInt16} (hsyn : s.syn = false) (hp : totLen s.p ≠ 0)
    (hwnd : wnd ≠ 0) : totLen (s.fitWindow wnd).p ≠ 0 := by
  rw [fitWindow_eq hsyn]
  split_ifs
  · dsimp only
    by_cases hcut : wnd < totLen s.p
    · rw [totLen_pbufRealloc hcut]
      exact hwnd
    · rw [pbufRealloc, if_pos (UInt16.not_lt.mp hcut)]
      exact hp
  · exact hp

/-- `tcp_input` lets through only segments whose length does not overflow. -/
theorem tcpHeader_tcplen {p : List Pbuf} {s : Segment} (h : tcpHeader p = some s) :
    totLen s.p ≤ s.tcplen := by
  unfold tcpHeader at h
  split at h
  · cases h
  · dsimp only at h
    split at h
    · cases h
    · obtain ⟨stripped, -, hs⟩ := Option.bind_eq_some_iff.mp h
      split at hs
      · cases hs
      · next hlen =>
        cases hs
        exact UInt16.not_lt.mp hlen

theorem fitWindow_seqno (s : InSeg) (wnd : UInt16) : (s.fitWindow wnd).seqno = s.seqno := by
  rw [InSeg.fitWindow]
  split_ifs <;> rfl

theorem tcpReceive_alone (hstate : c.state = .established) (hooseq : c.ooseq = [])
    (hseq : s.seqno = c.rcvNxt) (hlen : 0 < s.tcplen) (hwnd : c.rcvWnd ≠ 0) :
    (tcpReceive c o s).1 = c.take (s.inseg.fitWindow c.rcvWnd) := by
  have hcover : ∀ x : InSeg, (if x.fin then (x, []) else coverOoseq x c.ooseq) = (x, []) := by
    intro x
    rw [hooseq]
    split_ifs <;> rfl
  rw [tcpReceive_next hstate hseq hlen hwnd, tcpReceiveInSeq]
  dsimp only
  rw [hcover, fitWindow_seqno, show s.inseg.seqno = c.rcvNxt from hseq]
  obtain ⟨⟩ := c
  subst hooseq
  rfl

end Next

end EthernetPing
