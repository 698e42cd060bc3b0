import EthernetPing.Lib.Bytes
import EthernetPing.Tcp.Input
import EthernetPing.Tcp.Timers

/-!
# The send queues

The numbers that a connection sends are those of its SYN, of the bytes that the application
wrote, and of its FIN. A number that the peer has not acknowledged is always carried by a
queued segment, on whichever of the two queues and in whatever order; and what goes on the
wire at a number is what belongs there.
-/

namespace EthernetPing

variable {iss : UInt32} {W : List UInt8} {fin : Bool} {a pos p : ℕ} {s : OutSeg}
  {q q' : List OutSeg}

section Carries

def OutSeg.weight (s : OutSeg) : ℕ := s.data.length + if s.fin || s.syn then 1 else 0

/-- The segment at number `pos` carries what belongs there: number 0 is the SYN, number `i + 1` the
byte `i`, and the FIN comes behind the last byte. -/
structure OutSeg.Carries (iss : UInt32) (W : List UInt8) (fin : Bool) (s : OutSeg) (pos : ℕ) :
    Prop where
  seqno : s.seqno = seqAt iss pos
  length : s.data.length < 2 ^ 16
  nonempty : 0 < s.weight
  data : s.syn = false → 1 ≤ pos ∧ s.data = piece W (pos - 1) s.data.length ∧
    pos + s.data.length ≤ W.length + 1
  syn : s.syn = true → pos = 0 ∧ s.data = [] ∧ s.fin = false
  fin : s.fin = true → fin = true ∧ pos + s.data.length = W.length + 1

/-- The number behind the last one. -/
def stopAt (W : List UInt8) (fin : Bool) : ℕ := W.length + 1 + if fin then 1 else 0

theorem stopAt_le (W : List UInt8) (fin : Bool) : stopAt W fin ≤ W.length + 2 := by
  rw [stopAt]
  split_ifs <;> omega

theorem OutSeg.Carries.stop_le (h : s.Carries iss W fin pos) : pos + s.weight ≤ stopAt W fin := by
  rw [OutSeg.weight, stopAt]
  cases hs : s.syn with
  | true =>
    obtain ⟨rfl, hnil, -⟩ := h.syn hs
    rw [hnil]
    split_ifs <;> simp
  | false =>
    obtain ⟨-, -, hle⟩ := h.data hs
    cases hf : s.fin with
    | true =>
      obtain ⟨hfin, hend⟩ := h.fin hf
      simp [hfin]
      omega
    | false =>
      simp
      omega

theorem OutSeg.Carries.syn_eq_false (h : s.Carries iss W fin pos) (hdata : 0 < s.data.length) :
    s.syn = false := by
  by_contra hs
  rw [(h.syn (by simpa using hs)).2.1] at hdata
  exact lt_irrefl 0 hdata

/-- A segment has one place in the stream. -/
theorem OutSeg.Carries.pos_eq {p' : ℕ} (h : s.Carries iss W fin p)
    (h' : s.Carries iss W fin p') (hW : W.length + 2 < 2 ^ 31) : p = p' := by
  have hle := h.stop_le
  have hle' := h'.stop_le
  have hstop := (stopAt_le W fin).trans_lt hW
  have hsame : seqAt iss p = seqAt iss p' := h.seqno.symm.trans h'.seqno
  exact (seqAt_inj (by omega) (by omega)).mp hsame

/-- Bytes that are written later come behind all queued segments. -/
theorem OutSeg.Carries.append (h : s.Carries iss W false pos) (D : List UInt8) :
    s.Carries iss (W ++ D) false pos := by
  refine ⟨h.seqno, h.length, h.nonempty, fun hs => ?_, h.syn, fun hf => ?_⟩
  · obtain ⟨hpos, hdata, hle⟩ := h.data hs
    refine ⟨hpos, ?_, by rw [List.length_append]; omega⟩
    rw [piece, List.drop_append_of_le_length (by omega),
      List.take_append_of_le_length (by rw [List.length_drop]; omega)]
    exact hdata
  · exact absurd (h.fin hf).1 Bool.false_ne_true

/-- Up to the FIN nothing changes when the FIN is queued. -/
theorem OutSeg.Carries.addFin (h : s.Carries iss W false pos) : s.Carries iss W true pos :=
  ⟨h.seqno, h.length, h.nonempty, h.data, h.syn, fun hf => absurd (h.fin hf).1 Bool.false_ne_true⟩

theorem OutSeg.toNat_len (h : s.data.length < 2 ^ 16) : s.len.toNat = s.data.length := by
  rw [OutSeg.len, UInt16.toNat_ofNat', Nat.mod_eq_of_lt h]

theorem OutSeg.Carries.toNat_tcplen (h : s.Carries iss W fin pos) : s.tcplen.toNat = s.weight := by
  have hlen := h.length
  rw [OutSeg.tcplen, OutSeg.weight, UInt32.toNat_add, UInt16.toNat_toUInt32, OutSeg.toNat_len hlen]
  split_ifs
  · rw [show (1 : UInt32).toNat = 1 from rfl]
    omega
  · rw [UInt32.toNat_zero]
    omega

theorem OutSeg.Carries.next (h : s.Carries iss W fin pos) :
    s.seqno + s.tcplen = seqAt iss (pos + s.weight) := by
  rw [h.seqno, ← seqAt_add, ← h.toNat_tcplen, UInt32.ofNat_toNat]

end Carries

section Queue

/-- The queue carries every number from `a` on. -/
def Covers (iss : UInt32) (W : List UInt8) (fin : Bool) (a : ℕ) (q : List OutSeg) : Prop :=
  ∀ p, a ≤ p → p < stopAt W fin →
    ∃ s ∈ q, ∃ pos, s.Carries iss W fin pos ∧ pos ≤ p ∧ p < pos + s.weight

theorem Covers.mono (h : Covers iss W fin a q) (hq : ∀ s ∈ q, s ∈ q') : Covers iss W fin a q' := by
  intro p hlo hhi
  obtain ⟨s, hs, hcar⟩ := h p hlo hhi
  exact ⟨s, hq s hs, hcar⟩

def bytesIn (q : List OutSeg) : ℕ := (q.map fun s => s.data.length).sum

def pbufsIn (q : List OutSeg) : ℕ := (q.map fun s => s.clen.toNat).sum

theorem bytesIn_perm (h : q.Perm q') : bytesIn q = bytesIn q' := (h.map _).sum_eq

theorem pbufsIn_perm (h : q.Perm q') : pbufsIn q = pbufsIn q' := (h.map _).sum_eq

theorem bytesIn_cons (s : OutSeg) (q : List OutSeg) :
    bytesIn (s :: q) = s.data.length + bytesIn q := List.sum_cons

theorem pbufsIn_cons (s : OutSeg) (q : List OutSeg) :
    pbufsIn (s :: q) = s.clen.toNat + pbufsIn q := List.sum_cons

theorem bytesIn_append (q q' : List OutSeg) : bytesIn (q ++ q') = bytesIn q + bytesIn q' := by
  rw [bytesIn, List.map_append, List.sum_append]
  rfl

theorem pbufsIn_append (q q' : List OutSeg) : pbufsIn (q ++ q') = pbufsIn q + pbufsIn q' := by
  rw [pbufsIn, List.map_append, List.sum_append]
  rfl

theorem length_le_bytesIn (h : s ∈ q) : s.data.length ≤ bytesIn q :=
  List.single_le_sum (fun _ _ => Nat.zero_le _) _ (List.mem_map_of_mem h)

theorem insertSorted_perm (s : OutSeg) (q : List OutSeg) : (insertSorted s q).Perm (s :: q) := by
  induction q with
  | nil => rfl
  | cons x rest ih =>
    rw [insertSorted]
    split_ifs
    · exact (ih.cons x).trans (List.Perm.swap s x rest)
    · rfl

theorem enqueueUnacked_perm (q : List OutSeg) (hs : s.tcplen ≠ 0) :
    (enqueueUnacked q s).Perm (s :: q) := by
  rw [enqueueUnacked, if_neg hs]
  split
  · next hnone =>
    rw [List.getLast?_eq_none_iff.mp hnone]
  · split_ifs
    · exact insertSorted_perm s q
    · exact List.perm_append_singleton s q

theorem mem_tcpFreeAckedSegments {k : ℕ} (hW : W.length + 2 < 2 ^ 31) (hs : s ∈ q)
    (hcar : s.Carries iss W fin pos) (hlt : k < pos + s.weight) :
    s ∈ (tcpFreeAckedSegments (seqAt iss k) q).1 := by
  have hstop := stopAt_le W fin
  have hle := hcar.stop_le
  induction q with
  | nil => cases hs
  | cons x rest ih =>
    rw [tcpFreeAckedSegments]
    split
    · next hacked =>
      rcases List.mem_cons.mp hs with rfl | hs
      · rw [hcar.next, seqLeq_seqAt (by omega) (by omega)] at hacked
        omega
      · exact ih hs
    · exact hs

theorem tcpFreeAckedSegments_suffix (ackno : UInt32) (q : List OutSeg) :
    (tcpFreeAckedSegments ackno q).1 <:+ q := by
  induction q with
  | nil => exact List.suffix_rfl
  | cons x rest ih =>
    rw [tcpFreeAckedSegments]
    split
    · exact ih.trans (List.suffix_cons x rest)
    · exact List.suffix_rfl

theorem tcpFreeAckedSegments_bytes (ackno : UInt32) (hq : bytesIn q < 2 ^ 16) :
    (tcpFreeAckedSegments ackno q).2.2.toNat + bytesIn (tcpFreeAckedSegments ackno q).1 =
      bytesIn q := by
  induction q with
  | nil => rfl
  | cons s rest ih =>
    rw [bytesIn_cons] at hq
    rw [tcpFreeAckedSegments, bytesIn_cons]
    split
    · have hrest := ih (by omega)
      dsimp only
      rw [UInt16.toNat_add, OutSeg.toNat_len (by omega)]
      omega
    · rw [← bytesIn_cons]
      exact Nat.zero_add _

theorem tcpFreeAckedSegments_pbufs (ackno : UInt32) (q : List OutSeg) :
    (tcpFreeAckedSegments ackno q).2.1 + UInt16.ofNat (pbufsIn (tcpFreeAckedSegments ackno q).1) =
      UInt16.ofNat (pbufsIn q) := by
  induction q with
  | nil => rfl
  | cons s rest ih =>
    rw [tcpFreeAckedSegments, pbufsIn_cons]
    split
    · rw [UInt16.ofNat_add, ← ih, UInt16.ofNat_toNat]
      exact UInt16.add_assoc ..
    · rw [← pbufsIn_cons]
      exact UInt16.zero_add _

end Queue

section Requeued

/-- The send side with all numbers and segments as before, though the segments may change places;
no segment of the queues is sent. -/
structure Out.Requeued (o o' : Out) : Prop where
  lastack : o'.lastack = o.lastack
  sndNxt : o'.sndNxt = o.sndNxt
  sndLbb : o'.sndLbb = o.sndLbb
  finQueued : o'.finQueued = o.finQueued
  sndBuf : o'.sndBuf = o.sndBuf
  sndQueuelen : o'.sndQueuelen = o.sndQueuelen
  queue : (o.unacked ++ o.unsent).Perm (o'.unacked ++ o'.unsent)
  wire : ∀ s ackno wnd, .seg s ackno wnd ∈ o'.wire → .seg s ackno wnd ∈ o.wire

variable (o : Out) (c : Conn)

theorem Out.Requeued.refl : o.Requeued o :=
  ⟨rfl, rfl, rfl, rfl, rfl, rfl, .refl _, fun _ _ _ => id⟩

variable {o} in
theorem Out.Requeued.trans {o' o'' : Out} (h : o.Requeued o') (h' : o'.Requeued o'') :
    o.Requeued o'' :=
  ⟨h'.lastack.trans h.lastack, h'.sndNxt.trans h.sndNxt, h'.sndLbb.trans h.sndLbb,
    h'.finQueued.trans h.finQueued, h'.sndBuf.trans h.sndBuf, h'.sndQueuelen.trans h.sndQueuelen,
    h.queue.trans h'.queue,
    fun s ackno wnd hs => h.wire s ackno wnd (h'.wire s ackno wnd hs)⟩

/-- The part of the send side that matters here. -/
def Out.tracked (o : Out) :
    UInt32 × UInt32 × UInt32 × Bool × UInt16 × UInt16 × List OutSeg × List OutSeg × List Wire :=
  (o.lastack, o.sndNxt, o.sndLbb, o.finQueued, o.sndBuf, o.sndQueuelen, o.unacked, o.unsent, o.wire)

variable {o} in
theorem Out.Requeued.of_tracked {o' : Out} (h : o'.tracked = o.tracked) : o.Requeued o' := by
  simp only [Out.tracked, Prod.mk.injEq] at h
  obtain ⟨h₁, h₂, h₃, h₄, h₅, h₆, h₇, h₈, h₉⟩ := h
  exact ⟨h₁, h₂, h₃, h₄, h₅, h₆, by rw [h₇, h₈], fun s ackno wnd hs => h₉ ▸ hs⟩

theorem Out.alloc_requeued : o.Requeued o.alloc.2 := .of_tracked rfl

theorem Out.ipOutput_requeued {x : Wire} (hx : ∀ s ackno wnd, x ≠ .seg s ackno wnd) :
    o.Requeued (o.ipOutput x).2 := by
  unfold Out.ipOutput
  split_ifs
  · refine ⟨rfl, rfl, rfl, rfl, rfl, rfl, .refl _, fun s ackno wnd hs => ?_⟩
    exact (List.mem_cons.mp hs).resolve_left (hx s ackno wnd).symm
  · exact o.alloc_requeued

theorem tcpSendEmptyAck_requeued : o.Requeued (tcpSendEmptyAck c o).2 := by
  unfold tcpSendEmptyAck
  split_ifs
  · have hsent := Out.ipOutput_requeued
      { o.alloc.2 with rcvAnnRightEdge := c.rcvNxt + o.rcvAnnWnd.toUInt32 }
      (x := .ack o.sndNxt c.rcvNxt o.rcvAnnWnd) nofun
    have hstart : o.Requeued
        { o.alloc.2 with rcvAnnRightEdge := c.rcvNxt + o.rcvAnnWnd.toUInt32 } := .of_tracked rfl
    dsimp only
    split_ifs
    · exact (hstart.trans hsent).trans (.of_tracked rfl)
    · exact (hstart.trans hsent).trans (.of_tracked rfl)
  · exact .of_tracked rfl

theorem tcpUpdateRcvAnnWnd_requeued : o.Requeued (tcpUpdateRcvAnnWnd c o) := by
  unfold tcpUpdateRcvAnnWnd
  split_ifs <;> exact .of_tracked rfl

theorem tcpAck_requeued : o.Requeued (tcpAck o) := by
  unfold tcpAck
  split_ifs <;> exact .of_tracked rfl

theorem tcpReceiveWnd_requeued (seg : Segment) : o.Requeued (tcpReceiveWnd o seg) := by
  unfold tcpReceiveWnd
  split
  · exact .of_tracked rfl
  · exact .refl o

theorem tcpRexmit_requeued : o.Requeued (tcpRexmit o).2 := by
  unfold tcpRexmit
  split
  · exact .refl o
  · next seg rest hq =>
    split_ifs
    · refine ⟨rfl, rfl, rfl, rfl, rfl, rfl, ?_, fun _ _ _ => id⟩
      change (o.unacked ++ o.unsent).Perm (rest ++ insertSorted seg o.unsent)
      rw [hq]
      exact (List.perm_middle.symm.trans ((insertSorted_perm seg o.unsent).symm.append_left rest))
    · exact o.alloc_requeued

theorem tcpRexmitFast_requeued : o.Requeued (tcpRexmitFast o) := by
  have h := tcpRexmit_requeued o
  unfold tcpRexmitFast
  split_ifs
  · exact .refl o
  · dsimp only
    split_ifs
    · exact h.trans (.of_tracked rfl)
    · exact h.trans (.of_tracked rfl)
    · exact h

theorem tcpReceiveDupAck_requeued : o.Requeued (tcpReceiveDupAck o) := by
  have hthird (o' : Out) (h : o.Requeued o') :
      o.Requeued (if 3 ≤ o'.dupacks then tcpRexmitFast o' else o') := by
    split_ifs
    · exact h.trans (tcpRexmitFast_requeued o')
    · exact h
  unfold tcpReceiveDupAck
  refine hthird _ ?_
  dsimp only
  split_ifs <;> exact .of_tracked rfl

theorem segsIdle_requeued (q : List OutSeg) : o.Requeued (segsIdle q o).2 := by
  induction q generalizing o with
  | nil => exact .refl o
  | cons s rest ih =>
    rw [segsIdle]
    split_ifs
    · exact o.alloc_requeued.trans (ih _)
    · exact o.alloc_requeued

theorem tcpRexmitRtoPrepare_requeued : o.Requeued (tcpRexmitRtoPrepare o).2 := by
  have h := segsIdle_requeued o o.unacked
  unfold tcpRexmitRtoPrepare
  split
  · exact .refl o
  · dsimp only
    split_ifs
    · exact ⟨h.lastack, h.sndNxt, h.sndLbb, h.finQueued, h.sndBuf, h.sndQueuelen, .refl _, h.wire⟩
    · exact h

end Requeued

section Sound

/-- Whatever is queued or was sent carries what belongs at its number. -/
structure Out.Safe (iss : UInt32) (W : List UInt8) (fin : Bool) (o : Out) : Prop where
  finQueued : o.finQueued = fin
  sndLbb : fin = false → o.sndLbb = seqAt iss (W.length + 1)
  queue : ∀ s ∈ o.unacked ++ o.unsent, ∃ pos, s.Carries iss W fin pos
  wire : ∀ s ackno wnd, .seg s ackno wnd ∈ o.wire → ∃ pos, s.Carries iss W fin pos

/-- Acknowledged up to number `a` and sent up to number `nxt`, with nothing lost, and with all that
is queued accounted for. -/
structure Out.Whole (iss : UInt32) (W : List UInt8) (fin : Bool) (a nxt : ℕ) (o : Out) : Prop where
  lastack : o.lastack = seqAt iss a
  sndNxt : o.sndNxt = seqAt iss nxt
  le : a ≤ nxt
  nxt_le : nxt ≤ stopAt W fin
  covers : Covers iss W fin a (o.unacked ++ o.unsent)
  sndBuf : o.sndBuf.toNat + bytesIn (o.unacked ++ o.unsent) = tcpSndBuf.toNat
  sndQueuelen : o.sndQueuelen = UInt16.ofNat (pbufsIn (o.unacked ++ o.unsent))

/-- A send side is safe, and whole as long as the connection is `live`. -/
structure Out.Sound (iss : UInt32) (W : List UInt8) (fin : Bool) (live : Prop) (o : Out) :
    Prop where
  safe : o.Safe iss W fin
  whole : live → ∃ a nxt, o.Whole iss W fin a nxt

variable {o o' : Out} {live : Prop} {c : Conn} {seg : OutSeg} {rest : List OutSeg}

theorem Out.Sound.requeued (h : o.Sound iss W fin live) (hr : o.Requeued o') :
    o'.Sound iss W fin live := by
  refine ⟨⟨hr.finQueued.trans h.safe.finQueued, fun hf => hr.sndLbb.trans (h.safe.sndLbb hf),
    fun s hs => h.safe.queue s (hr.queue.mem_iff.mpr hs),
    fun s ackno wnd hs => h.safe.wire s ackno wnd (hr.wire s ackno wnd hs)⟩, fun hl => ?_⟩
  obtain ⟨a, nxt, hw⟩ := h.whole hl
  exact ⟨a, nxt, hr.lastack.trans hw.lastack, hr.sndNxt.trans hw.sndNxt, hw.le, hw.nxt_le,
    hw.covers.mono fun s => hr.queue.mem_iff.mp,
    by rw [hr.sndBuf, ← bytesIn_perm hr.queue, hw.sndBuf],
    by rw [hr.sndQueuelen, ← pbufsIn_perm hr.queue, hw.sndQueuelen]⟩

theorem Out.Sound.tracked (h : o.Sound iss W fin live) (ht : o'.tracked = o.tracked) :
    o'.Sound iss W fin live :=
  h.requeued (.of_tracked ht)

theorem Out.Sound.self (h : o.Sound iss W fin live) : o.Sound iss W o.finQueued live := by
  obtain rfl := h.safe.finQueued
  exact h

/-- A segment that carries what belongs at its number may be sent. -/
theorem Out.Sound.ipOutput (h : o.Sound iss W fin live) (hseg : seg.Carries iss W fin pos)
    (ackno : UInt32) (wnd : UInt16) : (o.ipOutput (.seg seg ackno wnd)).2.Sound iss W fin live := by
  unfold Out.ipOutput
  split
  · refine ⟨⟨h.safe.finQueued, h.safe.sndLbb, h.safe.queue, fun s ackno wnd hs => ?_⟩, fun hl => ?_⟩
    · rcases List.mem_cons.mp hs with heq | hs
      · cases heq
        exact ⟨pos, hseg⟩
      · exact h.safe.wire s ackno wnd hs
    · obtain ⟨a, nxt, hw⟩ := h.whole hl
      exact ⟨a, nxt, hw.lastack, hw.sndNxt, hw.le, hw.nxt_le, hw.covers, hw.sndBuf,
        hw.sndQueuelen⟩
  · exact h.tracked rfl

theorem tcpOutputSegment_sound (h : o.Sound iss W fin live) (c : Conn) (hseg : seg ∈ o.unsent) :
    (tcpOutputSegment c o seg).2.Sound iss W fin live := by
  obtain ⟨pos, hcar⟩ := h.safe.queue seg (List.mem_append_right _ hseg)
  unfold tcpOutputSegment
  split
  · have hstart : Out.Sound iss W fin live { o.alloc.2 with
        rcvAnnRightEdge := c.rcvNxt + o.rcvAnnWnd.toUInt32, rtime := true } := h.tracked rfl
    exact hstart.ipOutput hcar _ _
  · exact h.tracked rfl

theorem tcpOutputSegment_queues (c : Conn) (o : Out) (seg : OutSeg) :
    (tcpOutputSegment c o seg).2.unacked = o.unacked ∧
      (tcpOutputSegment c o seg).2.unsent = o.unsent := by
  unfold tcpOutputSegment Out.ipOutput
  split
  · dsimp only
    split <;> exact ⟨rfl, rfl⟩
  · exact ⟨rfl, rfl⟩

/-- The later one of two numbers, as `snd_nxt` is moved on. -/
theorem seqAt_max {n m : ℕ} (hn : n < 2 ^ 31) (hm : m < 2 ^ 31) :
    (if seqLt (seqAt iss n) (seqAt iss m) then seqAt iss m else seqAt iss n) =
      seqAt iss (max n m) := by
  have hlt : seqLt (seqAt iss n) (seqAt iss m) = true ↔ n < m :=
    seqLt_seqAt (by omega) (by omega)
  split_ifs with h
  · rw [Nat.max_eq_right (hlt.mp h).le]
  · rw [Nat.max_eq_left (by rwa [hlt, not_lt] at h)]

/-- A segment goes from one queue to the other. -/
theorem Out.Sound.sent (h : o.Sound iss W fin live) (hW : W.length + 2 < 2 ^ 31)
    (hu : o.unsent = seg :: rest) :
    Out.Sound iss W fin live { o with
      ackDelay := false
      ackNow := false
      sndNxt := if seqLt o.sndNxt (seg.seqno + seg.tcplen) then seg.seqno + seg.tcplen else o.sndNxt
      unacked := enqueueUnacked o.unacked seg
      unsent := rest } := by
  have hstop := stopAt_le W fin
  obtain ⟨pos, hcar⟩ := h.safe.queue seg (by rw [hu]; simp)
  have hle := hcar.stop_le
  have hpos := hcar.nonempty
  have htcplen : seg.tcplen ≠ 0 := by
    intro h₀
    have htoNat := hcar.toNat_tcplen
    rw [h₀, UInt32.toNat_zero] at htoNat
    omega
  have hperm : (o.unacked ++ o.unsent).Perm (enqueueUnacked o.unacked seg ++ rest) := by
    rw [hu]
    exact List.perm_middle.trans ((enqueueUnacked_perm o.unacked htcplen).symm.append_right rest)
  refine ⟨⟨h.safe.finQueued, h.safe.sndLbb, fun s hs => h.safe.queue s (hperm.mem_iff.mpr hs),
    h.safe.wire⟩, fun hl => ?_⟩
  obtain ⟨a, nxt, hw⟩ := h.whole hl
  have hnxt := hw.nxt_le
  refine ⟨a, max nxt (pos + seg.weight), hw.lastack, ?_, le_max_of_le_left hw.le, max_le hnxt hle,
    hw.covers.mono fun s => hperm.mem_iff.mp, by rw [← bytesIn_perm hperm, hw.sndBuf],
    by rw [← pbufsIn_perm hperm, hw.sndQueuelen]⟩
  dsimp only
  rw [hw.sndNxt, hcar.next]
  exact seqAt_max (by omega) (by omega)

/-- Run lemma for the loop: the induction is over the unsent segments. -/
theorem tcpOutputLoop_sound (hW : W.length + 2 < 2 ^ 31) (segs : List OutSeg) :
    ∀ o : Out, Out.Sound iss W fin live { o with unsent := segs } →
      (tcpOutputLoop c segs o).2.Sound iss W fin live := by
  induction segs with
  | nil => exact fun o h => h.tracked rfl
  | cons seg rest ih =>
    intro o h
    have hsent := tcpOutputSegment_sound h c (List.mem_cons_self : seg ∈ seg :: rest)
    have hu := (tcpOutputSegment_queues c { o with unsent := seg :: rest } seg).2
    rw [tcpOutputLoop]
    dsimp only
    split
    · exact h.tracked rfl
    · split
      · exact ih _ (hsent.sent hW hu)
      · exact hsent.tracked rfl

theorem tcpOutput_sound (h : o.Sound iss W fin live) (hW : W.length + 2 < 2 ^ 31) (c : Conn) :
    (tcpOutput c o).2.Sound iss W fin live := by
  have hack := h.requeued (tcpSendEmptyAck_requeued o c)
  unfold tcpOutput
  split
  · exact h
  · split
    · split
      · exact hack
      · exact h.tracked rfl
    · split
      · exact hack
      · exact tcpOutputLoop_sound hW o.unsent o h

end Sound

end EthernetPing
