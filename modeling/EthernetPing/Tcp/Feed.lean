import EthernetPing.Tcp.Ooseq

/-!
# What is received

`tcp_receive` moves a connection along the stream of the peer: the data that it has ready
for the application are the bytes between the old position and the new one, and the end of
the stream is reported when the new position is behind it.
-/

namespace EthernetPing

variable {base : UInt32} {data : List UInt8} {pos hi n : ℕ} {s : InSeg} {q : List InSeg}

section Feed

/-- The bytes in a chain that may be missing. -/
def upBytes (p : Option (List Pbuf)) : List UInt8 := chainBytes (p.getD [])

/-- The bytes of a segment, counted with its FIN: behind the end of the stream there is nothing. -/
theorem InSeg.Holds.bytes_weight (h : s.Holds base data pos) :
    chainBytes s.p = piece data pos s.weight := by
  rw [h.bytes, h.weight]
  split_ifs with hfin
  · have hend := h.fin hfin
    rw [piece, piece, List.take_of_length_le (by rw [List.length_drop]; omega),
      List.take_of_length_le (by rw [List.length_drop]; omega)]
  · rfl

theorem upBytes_chainData (p : Option (List Pbuf)) {r : List Pbuf} (hr : ChainOk r) :
    upBytes (chainData p r) = upBytes p ++ chainBytes r := by
  unfold chainData
  split_ifs with hzero
  · have hnone : chainBytes r = [] := by
      rw [← List.length_eq_zero_iff, ← hr.toNat_totLen, hzero]
      rfl
    rw [hnone, List.append_nil]
  · cases p with
    | none => rfl
    | some p => exact chainBytes_pbufCat p r

/-- What is passed up is not empty. -/
def Nonempty (p : Option (List Pbuf)) : Prop := ∀ r, p = some r → chainBytes r ≠ []

theorem Nonempty.chainData {p : Option (List Pbuf)} {r : List Pbuf} (hp : Nonempty p)
    (hr : ChainOk r) : Nonempty (chainData p r) := by
  unfold EthernetPing.chainData
  split_ifs with hzero
  · exact hp
  · have hsome : chainBytes r ≠ [] := by
      intro hnone
      refine hzero (UInt16.toNat_inj.mp ?_)
      rw [hr.toNat_totLen, hnone]
      rfl
    cases p with
    | none =>
      rintro _ ⟨⟩
      exact hsome
    | some p =>
      rintro _ ⟨⟩
      rw [chainBytes_pbufCat]
      exact fun h => hsome (List.append_eq_nil_iff.mp h).2

/-- The segment being processed has moved the connection from position `n` to position `m`, one
behind the stream if its end has come. -/
structure Conn.Fed (base : UInt32) (data : List UInt8) (n m : ℕ) (c : Conn) : Prop where
  le : n ≤ m
  le_end : m ≤ data.length + 1
  rcvNxt : c.rcvNxt = seqAt base m
  bytes : upBytes c.recvData = piece data n (m - n)
  nonempty : Nonempty c.recvData
  gotFin : c.gotFin = true ↔ n ≤ data.length ∧ data.length < m

variable {c : Conn} {m : ℕ}

theorem Conn.Fed.take (h : c.Fed base data n m) (hs : s.Holds base data m) :
    (c.take s).Fed base data n (m + s.weight) := by
  have hle := h.le
  have hend := hs.le
  have hw := hs.weight
  have hopen : c.gotFin = false := by
    rw [← Bool.not_eq_true, h.gotFin]
    omega
  refine ⟨by omega, ?_, ?_, ?_, h.nonempty.chainData hs.chain, ?_⟩
  · rw [hw]
    split_ifs <;> omega
  · change c.rcvNxt + s.tcplen.toUInt32 = _
    rw [h.rcvNxt, seqAt_add_toUInt32, hs.toNat_tcplen]
  · change upBytes (chainData c.recvData s.p) = _
    rw [upBytes_chainData _ hs.chain, h.bytes, hs.bytes_weight,
      show m + s.weight - n = m - n + s.weight by omega, ← piece_append, Nat.add_sub_cancel' hle]
  · change (c.gotFin || s.fin) = true ↔ _
    rw [hopen, Bool.false_or, hw]
    split_ifs with hfin
    · have := hs.fin hfin
      simp only [hfin, true_iff]
      omega
    · simp only [hfin, Bool.false_eq_true, false_iff]
      omega

theorem drainOoseq_fed (o : Out) (h : c.Fed base data n m) (hq : Waiting base data hi m q)
    (hnear : hi ≤ m + 2 ^ 17) : ∃ k, (drainOoseq q c o).1.Fed base data n k ∧
      Waiting base data hi (k + 1) (drainOoseq q c o).1.ooseq ∧ m ≤ k := by
  induction q generalizing c o m with
  | nil => exact ⟨m, ⟨h.le, h.le_end, h.rcvNxt, h.bytes, h.nonempty, h.gotFin⟩, trivial, le_rfl⟩
  | cons s rest ih =>
    obtain ⟨pos, hlo, hhi, hs, hw, hfin, hrest⟩ := hq
    have hnext : s.seqno = c.rcvNxt ↔ pos = m := by
      rw [hs.seqno, h.rcvNxt, seqAt_inj (by omega) (by omega)]
    rw [drainOoseq]
    split_ifs with heq
    · obtain rfl := hnext.mp heq
      have htake := h.take hs
      have hqueue : Waiting base data hi (pos + s.weight) rest := by
        rw [hs.weight]
        split_ifs with hf
        · rw [hfin hf]
          trivial
        · exact hrest
      obtain ⟨k, hfed, hwait, hle⟩ := ih (c := c.takeQueued s) _
        ⟨htake.le, htake.le_end, htake.rcvNxt, htake.bytes, htake.nonempty, htake.gotFin⟩ hqueue
        (by omega)
      exact ⟨k, hfed, hwait, by omega⟩
    · rw [hnext] at heq
      exact ⟨m, ⟨h.le, h.le_end, h.rcvNxt, h.bytes, h.nonempty, h.gotFin⟩,
        ⟨pos, by omega, hhi, hs, hw, hfin, hrest⟩, le_rfl⟩

end Feed

section Receive

/-- The connection has taken in the stream up to position `n`, and its end if `n` is behind it. -/
structure Conn.At (base : UInt32) (data : List UInt8) (n : ℕ) (c : Conn) : Prop where
  rcvNxt : c.rcvNxt = seqAt base n
  queue : Waiting base data (n + 2 ^ 16) (n + 1) c.ooseq
  le_end : n ≤ data.length + 1
  ended : data.length < n → TcpState.closeWait.num ≤ c.state.num

structure Segment.Of (base : UInt32) (data : List UInt8) (s : Segment) (pos : ℕ) : Prop where
  seqno : s.seqno = seqAt base pos
  le : pos ≤ data.length
  bytes : chainBytes s.p <+: data.drop pos
  fin : s.fin = true → pos + (chainBytes s.p).length = data.length

/-- Positions less than half the circle apart, so that their numbers tell their order. -/
def Near (n pos : ℕ) : Prop := pos < n + 2 ^ 31 ∧ n ≤ pos + 2 ^ 31

variable {c : Conn} {o : Out} {seg : Segment}

theorem Segment.Of.holds (h : seg.Of base data pos) (hsyn : seg.syn = false)
    (hchain : ChainOk seg.p) (hshort : (totLen seg.p).toNat + 1 < 2 ^ 16) :
    seg.inseg.Holds base data pos := by
  have hlen := h.bytes.length_le
  have hle := h.le
  rw [List.length_drop] at hlen
  have htot := hchain.toNat_totLen
  refine ⟨h.seqno, hsyn, hchain, ?_, ?_, fun hf => ?_, hshort⟩
  · change chainBytes seg.p = piece data pos (totLen seg.p).toNat
    rw [htot]
    exact List.prefix_iff_eq_take.mp h.bytes
  · change pos + (totLen seg.p).toNat ≤ data.length
    omega
  · change pos + (totLen seg.p).toNat = data.length
    rw [htot]
    exact h.fin hf

/-- What is left of a segment when what was received before is taken off, and where it begins. -/
theorem Segment.fresh_holds (hs : seg.inseg.Holds base data pos) (hw : 0 < seg.inseg.weight)
    (hnear : Near n pos) : ∃ fpos, (seg.fresh (seqAt base n)).Holds base data fpos ∧
      0 < (seg.fresh (seqAt base n)).weight ∧ Near n fpos ∧
      (n < fpos → seg.fresh (seqAt base n) = seg.inseg) := by
  obtain ⟨hlt, hle⟩ := hnear
  have hshort := hs.short
  have hwle := hs.weight_le
  have hover : seg.overlaps (seqAt base n) = true ↔ pos < n ∧ n < pos + seg.inseg.weight := by
    have hseq : seg.seqno = seqAt base pos := hs.seqno
    have hnext : seg.seqno + seg.tcplen.toUInt32 = seqAt base (pos + seg.inseg.weight) := hs.next
    rw [Segment.overlaps, seqBetween, seqGeq, Bool.and_eq_true, hnext, hseq, seqAt_add_one,
      seqAt_sub_one base (by omega), seqLeq_seqAt (by omega) (by omega)]
    constructor
    · rintro ⟨hlo, hhi⟩
      rw [seqLeq_seqAt (by omega) (by omega)] at hhi
      omega
    · rintro ⟨hlo, hhi⟩
      rw [seqLeq_seqAt (by omega) (by omega)]
      omega
  rw [Segment.fresh]
  split_ifs with h
  · obtain ⟨hlo, hhi⟩ := hover.mp h
    have htrim := hs.trimFront (n := n) (by omega) (by omega)
    refine ⟨n, htrim, ?_, ⟨by omega, by omega⟩, fun hf => absurd hf (lt_irrefl n)⟩
    have hcut := hs.trimFront_len (n := n) (by omega) (by omega)
    have hfin : (seg.inseg.trimFront (seqAt base n)).fin = seg.inseg.fin := rfl
    rw [htrim.weight, hcut, hfin]
    rw [hs.weight] at hhi
    omega
  · exact ⟨pos, hs, hw, ⟨hlt, hle⟩, fun _ => rfl⟩

/-- The segment in sequence and what it leaves of the queue. -/
theorem merged_waiting (h : c.At base data n) (hs : s.Holds base data n) (hw : 0 < s.weight) :
    let merged := if s.fin then (s, []) else coverOoseq s c.ooseq
    merged.1.Holds base data n ∧ 0 < merged.1.weight ∧
      Waiting base data (n + 2 ^ 16) (n + merged.1.weight) merged.2 := by
  dsimp only
  split_ifs with hfin
  · exact ⟨hs, hw, trivial⟩
  · obtain ⟨hholds, hpos, hend, hwait⟩ :=
      coverOoseq_waiting hs hw (fun hf => absurd hf hfin) h.queue
      (by omega) (by omega)
    refine ⟨hholds, hpos, ?_⟩
    rw [hholds.weight]
    split_ifs with hf
    · rw [hend hf]
      trivial
    · exact hwait

theorem tcpReceiveInSeq_fed (o : Out) (h : c.At base data n) (hdata : c.recvData = none)
    (hgot : c.gotFin = false) (hs : s.Holds base data n) (hw : 0 < s.weight)
    (hwnd : c.rcvWnd ≠ 0) : ∃ k, n < k ∧ (tcpReceiveInSeq c o s).1.Fed base data n k ∧
      Waiting base data (k + 2 ^ 16) (k + 1) (tcpReceiveInSeq c o s).1.ooseq := by
  obtain ⟨hfit, hfitw⟩ := hs.fitWindow hwnd hw
  obtain ⟨hholds, hpos, hwait⟩ := merged_waiting h hfit hfitw
  have hstart : ({ c with rcvNxt := (s.fitWindow c.rcvWnd).seqno } : Conn).Fed base data n n := by
    refine ⟨le_rfl, h.le_end, hfit.seqno, ?_, ?_, ?_⟩
    · rw [hdata, Nat.sub_self, piece_zero]
      rfl
    · rw [hdata]
      nofun
    · rw [hgot, Bool.false_eq_true, false_iff]
      omega
  obtain ⟨k, hfed, hqueue, hle⟩ :=
    drainOoseq_fed (tcpUpdateRcvAnnWnd _ o) (hstart.take hholds) hwait
    (by omega)
  exact ⟨k, by omega, hfed, hqueue.mono le_rfl (by omega)⟩

theorem tcpReceiveOutOfSeq_waiting (o : Out) (h : c.At base data n) (hs : s.Holds base data pos)
    (hw : 0 < s.weight) (hlo : n < pos) (hhi : pos < n + c.rcvWnd.toNat) :
    Waiting base data (n + 2 ^ 16) (n + 1) (tcpReceiveOutOfSeq c o s s.tcplen).1.ooseq := by
  have hwnd := c.rcvWnd.toNat_lt
  have hedge : c.rcvNxt + c.rcvWnd.toUInt32 = seqAt base (n + c.rcvWnd.toNat) := by
    rw [h.rcvNxt, seqAt_add_toUInt32]
  unfold tcpReceiveOutOfSeq
  dsimp only
  rw [hedge]
  split_ifs
  · exact ⟨pos, by omega, by omega, hs, hw, fun _ => rfl, trivial⟩
  · trivial
  · exact oosWalk_waiting hs hw rfl (by omega) (by omega) hhi (by omega) (by omega) rfl h.queue
      le_rfl

theorem drainOoseq_state_or (q : List InSeg) (c : Conn) (o : Out) :
    (drainOoseq q c o).1.state = c.state ∨ (drainOoseq q c o).1.state = .closeWait := by
  induction q generalizing c o with
  | nil => exact .inl rfl
  | cons s rest ih =>
    rw [drainOoseq]
    split_ifs
    · rcases ih (c.takeQueued s) (tcpUpdateRcvAnnWnd (c.takeQueued s) o) with h | h
      · rw [h, Conn.takeQueued]
        dsimp only
        split_ifs
        · exact .inr rfl
        · exact .inl rfl
      · exact .inr h
    · exact .inl rfl

theorem tcpReceive_state_or (c : Conn) (o : Out) (seg : Segment) :
    (tcpReceive c o seg).1.state = c.state ∨ (tcpReceive c o seg).1.state = .closeWait := by
  rw [tcpReceive, tcpReceiveData]
  split_ifs
  · exact drainOoseq_state_or ..
  all_goals exact .inl rfl

/-- The sequence number of a near position is inside the window if the position is. -/
theorem Conn.At.inWindow {fpos : ℕ} (h : c.At base data n) (hnear : Near n fpos) :
    c.inWindow (seqAt base fpos) = true ↔ n ≤ fpos ∧ fpos < n + c.rcvWnd.toNat := by
  obtain ⟨hlt, hle⟩ := hnear
  have hwnd := c.rcvWnd.toNat_lt
  rw [Conn.inWindow, seqBetween, seqGeq, Bool.and_eq_true, h.rcvNxt, seqAt_add_toUInt32, seqLeq_iff,
    seqLeq_iff, toNat_seqAt_sub, show seqAt base (n + c.rcvWnd.toNat) - 1 - seqAt base fpos =
      seqAt base (n + c.rcvWnd.toNat) - seqAt base (fpos + 1) by rw [← seqAt_add_one]; grind,
    toNat_seqAt_sub]
  omega

theorem Conn.At.fed {c' : Conn} (h : c.At base data n) (hnxt : c'.rcvNxt = c.rcvNxt)
    (hdata : c'.recvData = none) (hgot : c'.gotFin = false) : c'.Fed base data n n := by
  refine ⟨le_rfl, h.le_end, hnxt.trans h.rcvNxt, ?_, ?_, ?_⟩
  · rw [hdata, Nat.sub_self, piece_zero]
    rfl
  · rw [hdata]
    nofun
  · rw [hgot, Bool.false_eq_true, false_iff]
    omega

/-- Step lemma: what `tcp_receive` makes of a segment of the stream. -/
theorem tcpReceive_fed (o : Out) (h : c.At base data n) (hdata : c.recvData = none)
    (hgot : c.gotFin = false) (hs : seg.inseg.Holds base data pos) (hnear : Near n pos) :
    ∃ k, (tcpReceive c o seg).1.Fed base data n k ∧
      Waiting base data (k + 2 ^ 16) (k + 1) (tcpReceive c o seg).1.ooseq := by
  have hwnd := c.rcvWnd.toNat_lt
  rw [tcpReceive, tcpReceiveData]
  split_ifs with hopen hwin hnext
  · have hw : 0 < seg.inseg.weight := by
      rw [← hs.toNat_tcplen]
      exact UInt16.lt_iff_toNat_lt.mp hopen.1
    obtain ⟨fpos, hfresh, hfw, hfnear, -⟩ := Segment.fresh_holds (n := n) hs hw hnear
    rw [h.rcvNxt] at hwin hnext ⊢
    rw [hfresh.seqno, h.inWindow hfnear] at hwin
    rw [hfresh.seqno, seqAt_inj (by omega) (by omega)] at hnext
    obtain rfl := hnext
    obtain ⟨k, -, hfed, hwait⟩ := tcpReceiveInSeq_fed
      (seg.ackOld (seqAt base n) (tcpReceiveAck c o seg)) h hdata hgot hfresh hfw
      (by rintro h₀; rw [h₀] at hwin; simp at hwin)
    exact ⟨k, hfed, hwait⟩
  · have hw : 0 < seg.inseg.weight := by
      rw [← hs.toNat_tcplen]
      exact UInt16.lt_iff_toNat_lt.mp hopen.1
    obtain ⟨fpos, hfresh, hfw, hfnear, hwhole⟩ := Segment.fresh_holds (n := n) hs hw hnear
    rw [h.rcvNxt] at hwin hnext ⊢
    rw [hfresh.seqno, h.inWindow hfnear] at hwin
    rw [hfresh.seqno, seqAt_inj (by omega) (by omega)] at hnext
    have hlt : n < fpos := by omega
    rw [hwhole hlt] at hfresh hfw ⊢
    exact ⟨n, h.fed rfl hdata hgot, tcpReceiveOutOfSeq_waiting _ h hfresh hfw hlt hwin.2⟩
  · exact ⟨n, h.fed rfl hdata hgot, h.queue⟩
  · exact ⟨n, h.fed rfl hdata hgot, h.queue⟩
  · exact ⟨n, h.fed rfl hdata hgot, h.queue⟩

end Receive

end EthernetPing
