import EthernetPing.Http.Answer

/-!
# Requests as byte streams

TCP cuts a request into segments as it likes, and a segment lies in a chain of buffers of any
lengths. `http_recv` looks at each segment on its own, and there at three bytes of memory from
the first payload pointer on, so that what it answers depends on more than the stream.
-/

namespace EthernetPing

/-- A segment that brings bytes, from the sequence number `seqno` on. -/
structure DataSegment (seqno : UInt32) (s : Segment) : Prop where
  seqno : s.seqno = seqno
  syn : s.syn = false
  rst : s.rst = false
  chain : ChainOk s.p
  nonempty : chainBytes s.p ≠ []

/-- The segments bring consecutive bytes. Only the last one may end the stream. -/
def Consecutive : UInt32 → List Segment → Prop
  | _, [] => True
  | seqno, s :: segs =>
    DataSegment seqno s ∧ (s.fin = true → segs = []) ∧
      Consecutive (seqno + (totLen s.p).toUInt32) segs

def streamBytes (segs : List Segment) : List UInt8 := segs.flatMap fun s => chainBytes s.p

/-- A segment that begins within the first `wnd` bytes passes the test of `http_recv`. -/
def SomeRecognised (wnd : ℕ) (segs : List Segment) : Prop :=
  ∃ before s after, segs = before ++ s :: after ∧ (streamBytes before).length < wnd ∧
    recognised s.p = true

def AppEvent.isWrite : AppEvent → Bool
  | .write .. => true
  | _ => false

def Net.responses (n : Net) : ℕ := n.conn.calls.countP AppEvent.isWrite

/-- Packets one after the other; each comes with the counter that the page would show. -/
def receiveAll (n : Net) (packets : List (UInt16 × List Pbuf)) : Net :=
  packets.foldl (fun n x => tcpInput (httpServer x.1) n x.2) n

/-- An established connection that takes `wnd` more bytes, from the sequence number `seqno` on. -/
structure Receptive (wnd : ℕ) (seqno : UInt32) (c : Conn) : Prop where
  le : wnd ≤ tcpWnd.toNat
  active : c.active = true
  state : c.state = .established
  ooseq : c.ooseq = []
  rxOpen : c.rxClosed = false
  rcvWnd : c.rcvWnd.toNat = wnd
  rcvNxt : 0 < wnd → c.rcvNxt = seqno

section Test

variable {wnd : ℕ} {s : Segment} {segs : List Segment}

theorem someRecognised_nil (wnd : ℕ) : ¬ SomeRecognised wnd [] := by
  rintro ⟨before, s, after, h, -⟩
  exact absurd h.symm (List.append_ne_nil_of_right_ne_nil before (List.cons_ne_nil s after))

/-- The first segment passes, or one of the others with the rest of the window. -/
theorem someRecognised_cons : SomeRecognised wnd (s :: segs) ↔
    0 < wnd ∧ recognised s.p = true ∨ SomeRecognised (wnd - (chainBytes s.p).length) segs := by
  have hbytes : ∀ before, (streamBytes (s :: before)).length =
      (chainBytes s.p).length + (streamBytes before).length := fun before => by
    rw [streamBytes, List.flatMap_cons, List.length_append, ← streamBytes]
  constructor
  · rintro ⟨before, x, after, h, hwnd, hx⟩
    cases before with
    | nil =>
      obtain ⟨rfl, rfl⟩ := List.cons.inj h
      exact .inl ⟨hwnd, hx⟩
    | cons y before =>
      obtain ⟨rfl, rfl⟩ := List.cons.inj h
      rw [hbytes] at hwnd
      exact .inr ⟨before, x, after, rfl, by omega, hx⟩
  · rintro (⟨hwnd, hs⟩ | ⟨before, x, after, rfl, hwnd, hx⟩)
    · exact ⟨[], s, segs, rfl, hwnd, hs⟩
    · exact ⟨s :: before, x, after, rfl, by rw [hbytes]; omega, hx⟩

/-- The test sees the memory behind the payload pointer and not where a segment was cut. -/
theorem recognised_pbufRealloc (p : List Pbuf) (len : UInt16) :
    recognised (pbufRealloc p len) = recognised p := by
  have hsame : ∀ p : List Pbuf, recognised p = (p.head?.map Pbuf.payload).any fun m =>
      m 0 == 0x47 && m 1 == 0x45 && m 2 == 0x54 := by
    intro p
    cases p <;> rfl
  rw [hsame, hsame, pbufRealloc_payload]

end Test

section Step

variable {n m : Net} {buttonCount : UInt16} {p q : List Pbuf} {s : Segment} {wnd : ℕ}
  {seqno : UInt32}

theorem tcpInputEnd_responses (hin : n.conn.inputPcb = true) :
    (tcpInputEnd (httpServer buttonCount) n).responses = n.responses := by
  unfold Net.responses
  rw [tcpInputEnd, (tcpInputDone_life _).2]
  split_ifs
  · obtain ⟨k, -, wnd, -, hcalls⟩ := tcpInputFin_life buttonCount hin
    rw [hcalls]
    rfl
  · rfl

theorem httpRecv_responses (buttonCount : UInt16) (hin : n.conn.inputPcb = true) :
    (httpRecv buttonCount (some p) n).responses =
      n.responses + if recognised p = true then 1 else 0 := by
  unfold Net.responses
  cases hp : recognised p with
  | false =>
    rw [httpRecv_other hp]
    rfl
  | true =>
    obtain ⟨k, -, wnd, err, hheld⟩ := httpRecv_request buttonCount hin hp
    rw [(Conn.held_eq hheld).2.2]
    simp [AppEvent.isWrite, List.countP_cons]

theorem httpRecv_inputPcb (hin : n.conn.inputPcb = true) :
    (httpRecv buttonCount (some p) n).conn.inputPcb = true := by
  cases hp : recognised p with
  | false =>
    rw [httpRecv_other hp]
    exact hin
  | true =>
    obtain ⟨k, -, wnd, err, hheld⟩ := httpRecv_request buttonCount hin hp
    exact (Conn.held_eq hheld).2.1

/-- `tcp_input` passes up what `tcp_receive` took, on a connection that is open. -/
theorem tcpInputDeliver_open {app : App} (hends : m.conn.tfClosed = false ∧ m.conn.tfReset = false)
    (hopen : m.conn.rxClosed = false) :
    tcpInputDeliver app m =
      tcpInputEnd app (m.conn.recvData.elim m fun q => app.recv (some q) m) := by
  unfold tcpInputDeliver
  rw [if_neg (by rw [hends.1, hends.2]; simp)]
  cases hdata : m.conn.recvData with
  | none => rfl
  | some q =>
    dsimp only
    rw [if_neg (by rw [hopen]; exact Bool.false_ne_true)]
    rfl

theorem Receptive.tcpInput_eq (h : Receptive wnd seqno n.conn) (hp : tcpHeader p = some s)
    (hsyn : s.syn = false) (hrst : s.rst = false) :
    tcpInput (httpServer buttonCount) n p =
      (tcpInputEnd (httpServer buttonCount) ((n.process s).conn.recvData.elim (n.process s)
        fun q => httpRecv buttonCount (some q) (n.process s))).leave := by
  have hends := n.process_ends s
  simp only [Conn.ends, Prod.mk.injEq] at hends
  rw [tcpInput_established _ hp h.active h.state hsyn hrst,
    tcpInputDeliver_open hends.2 ((Conn.held_eq (n.process_held s)).1.trans h.rxOpen)]
  rfl

theorem tcpInputEnd_conn (buttonCount : UInt16) (hfin : n.conn.gotFin = false)
    (hclosed : n.conn.tfClosed = false) :
    (tcpInputEnd (httpServer buttonCount) n).conn = { n.conn with inputPcb := false } := by
  rw [tcpInputEnd, hfin, if_neg Bool.false_ne_true, tcpInputDone]
  dsimp only
  rw [hclosed, if_neg Bool.false_ne_true]

theorem Receptive.dropped (buttonCount : UInt16) (h : Receptive 0 seqno n.conn)
    (hp : tcpHeader p = some s) (hsyn : s.syn = false) (hrst : s.rst = false) (seqno' : UInt32) :
    Receptive 0 seqno' (tcpInput (httpServer buttonCount) n p).conn ∧
      (tcpInput (httpServer buttonCount) n p).responses = n.responses := by
  have hconn : (n.process s).conn = n.enter.conn := by
    have hzero : n.enter.conn.rcvWnd = 0 := UInt16.toNat_inj.mp h.rcvWnd
    obtain ⟨o, ho⟩ := n.process_conn s
    rw [ho, tcpReceive_closed hzero]
    rfl
  have hdata : (n.process s).conn.recvData = none := by
    rw [hconn]
    rfl
  have hin := (Conn.held_eq (n.process_held s)).2.1
  rw [h.tcpInput_eq hp hsyn hrst, hdata]
  constructor
  · have hend := tcpInputEnd_conn (n := n.process s) buttonCount
      (by rw [hconn]; rfl) (by rw [hconn]; rfl)
    rw [hconn] at hend
    dsimp only [Net.leave, Option.elim]
    rw [hend]
    exact ⟨Nat.zero_le _, h.active, h.state, h.ooseq, h.rxOpen, h.rcvWnd, fun hpos => nomatch hpos⟩
  · refine (tcpInputEnd_responses hin).trans ?_
    rw [Net.responses, (Conn.held_eq (n.process_held s)).2.2]
    rfl

theorem Receptive.rcvWnd_ne (h : Receptive wnd seqno n.conn) (hwnd : 0 < wnd) :
    n.conn.rcvWnd ≠ 0 := by
  rintro hzero
  have hnat := h.rcvWnd
  rw [hzero] at hnat
  exact hwnd.ne hnat

/-- What is taken of a segment that comes while the window is open. -/
theorem Receptive.process_conn (h : Receptive wnd seqno n.conn) (hwnd : 0 < wnd)
    (hseq : s.seqno = seqno) (hlen : 0 < s.tcplen) :
    (n.process s).conn =
      if (s.inseg.fitWindow n.conn.rcvWnd).fin then
        { n.enter.conn.take (s.inseg.fitWindow n.conn.rcvWnd) with state := .closeWait }
      else n.enter.conn.take (s.inseg.fitWindow n.conn.rcvWnd) := by
  obtain ⟨o, ho⟩ := n.process_conn s
  have htake : (tcpReceive n.enter.conn o s).1 =
      n.enter.conn.take (s.inseg.fitWindow n.conn.rcvWnd) :=
    tcpReceive_alone h.state h.ooseq (hseq.trans (h.rcvNxt hwnd).symm) hlen
      (h.rcvWnd_ne hwnd)
  rw [ho, htake]
  rfl

theorem recognised_fitWindow (hsyn : s.syn = false) (wnd : UInt16) :
    recognised (s.inseg.fitWindow wnd).p = recognised s.p := by
  rw [fitWindow_eq (by exact hsyn)]
  split_ifs
  · exact recognised_pbufRealloc ..
  · rfl

/-- What is passed up of a segment that comes while the window is open. -/
theorem Receptive.recvData (h : Receptive wnd seqno n.conn) (hwnd : 0 < wnd)
    (hseq : s.seqno = seqno) (hsyn : s.syn = false) (hlen : 0 < s.tcplen) (hp : totLen s.p ≠ 0) :
    (n.process s).conn.recvData = some (s.inseg.fitWindow n.conn.rcvWnd).p := by
  have htot : totLen (s.inseg.fitWindow n.conn.rcvWnd).p ≠ 0 :=
    totLen_fitWindow (by exact hsyn) (by exact hp) (h.rcvWnd_ne hwnd)
  have hchain : chainData none (s.inseg.fitWindow n.conn.rcvWnd).p =
      some (s.inseg.fitWindow n.conn.rcvWnd).p := if_neg htot
  rw [h.process_conn hwnd hseq hlen]
  split_ifs <;> exact hchain

theorem Receptive.rcvWnd_process (h : Receptive wnd seqno n.conn) (hwnd : 0 < wnd)
    (hseq : s.seqno = seqno) (hsyn : s.syn = false) (hlen : 0 < s.tcplen) :
    (n.process s).conn.rcvWnd.toNat = wnd - min wnd s.tcplen.toNat := by
  have htake : (n.process s).conn.rcvWnd =
      n.conn.rcvWnd - (s.inseg.fitWindow n.conn.rcvWnd).tcplen := by
    rw [h.process_conn hwnd hseq hlen]
    split_ifs <;> rfl
  have hcut : (s.inseg.fitWindow n.conn.rcvWnd).tcplen.toNat = min wnd s.tcplen.toNat := by
    have hnat := h.rcvWnd
    rw [fitWindow_eq (by exact hsyn)]
    split_ifs with hover
    · have hwhole : InSeg.tcplen { s.inseg with
          fin := false, len := n.conn.rcvWnd, p := pbufRealloc s.p n.conn.rcvWnd } =
            n.conn.rcvWnd := by
        simp [InSeg.tcplen, Segment.inseg, hsyn]
      have hlt : n.conn.rcvWnd.toNat < s.tcplen.toNat := UInt16.lt_iff_toNat_lt.mp hover
      exact (congrArg UInt16.toNat hwhole).trans (by omega)
    · have hle : s.tcplen.toNat ≤ n.conn.rcvWnd.toNat :=
        UInt16.le_iff_toNat_le.mp (UInt16.not_lt.mp hover)
      exact (show s.inseg.tcplen.toNat = s.tcplen.toNat from rfl).trans (by omega)
  rw [htake, UInt16.toNat_sub_of_le _ _ (UInt16.le_iff_toNat_le.mpr (by
    rw [hcut, h.rcvWnd]
    exact min_le_left ..)), hcut, h.rcvWnd]

theorem DataSegment.totLen_ne (hs : DataSegment seqno s) : totLen s.p ≠ 0 := by
  intro hzero
  have hlen := hs.chain.toNat_totLen
  rw [hzero] at hlen
  exact hs.nonempty (List.eq_nil_of_length_eq_zero hlen.symm)

theorem DataSegment.tcplen_pos (hs : DataSegment seqno s) (hhead : tcpHeader p = some s) :
    0 < s.tcplen := by
  have hpos : 0 < totLen s.p := UInt16.pos_iff_ne_zero.mpr hs.totLen_ne
  exact UInt16.lt_of_lt_of_le hpos (tcpHeader_tcplen hhead)

/-- While the window is open, `http_recv` gets the data of the next segment. -/
theorem Receptive.passed (buttonCount : UInt16) (h : Receptive wnd seqno n.conn) (hwnd : 0 < wnd)
    (hs : DataSegment seqno s) (hhead : tcpHeader p = some s) :
    ∃ q, recognised q = recognised s.p ∧ tcpInput (httpServer buttonCount) n p =
      (tcpInputEnd (httpServer buttonCount)
        (httpRecv buttonCount (some q) (n.process s))).leave := by
  refine ⟨_, recognised_fitWindow hs.syn n.conn.rcvWnd, ?_⟩
  rw [h.tcpInput_eq hhead hs.syn hs.rst,
    h.recvData hwnd hs.seqno hs.syn (hs.tcplen_pos hhead) hs.totLen_ne]
  rfl

theorem Receptive.responses (buttonCount : UInt16) (h : Receptive wnd seqno n.conn) (hwnd : 0 < wnd)
    (hs : DataSegment seqno s) (hhead : tcpHeader p = some s) :
    (tcpInput (httpServer buttonCount) n p).responses =
      n.responses + if recognised s.p = true then 1 else 0 := by
  obtain ⟨q, hq, heq⟩ := h.passed buttonCount hwnd hs hhead
  have hin := (Conn.held_eq (n.process_held s)).2.1
  have hcalls : (n.process s).responses = n.responses :=
    congrArg (List.countP _) (Conn.held_eq (n.process_held s)).2.2
  rw [heq, ← hq, ← hcalls, ← httpRecv_responses buttonCount hin]
  exact tcpInputEnd_responses (httpRecv_inputPcb hin)

theorem Receptive.removed (buttonCount : UInt16) (h : Receptive wnd seqno n.conn) (hwnd : 0 < wnd)
    (hs : DataSegment seqno s) (hhead : tcpHeader p = some s) (hrec : recognised s.p = true) :
    (tcpInput (httpServer buttonCount) n p).conn.active = false := by
  obtain ⟨q, hq, heq⟩ := h.passed buttonCount hwnd hs hhead
  have hin := (Conn.held_eq (n.process_held s)).2.1
  have hlen := hs.tcplen_pos hhead
  have hun : (n.process s).conn.unreceived := by
    refine ⟨n.process_state s h.state, fun hfull => ?_⟩
    have hnarrow := h.rcvWnd_process hwnd hs.seqno hs.syn hlen
    have hle := h.le
    have hpos := UInt16.lt_iff_toNat_lt.mp hlen
    rw [hfull] at hnarrow
    simp only [UInt16.toNat_zero] at hpos
    omega
  rw [heq]
  exact (tcpInputEnd_discarded _ (httpRecv_doomed _ hun hin (hq.trans hrec))).inactive

theorem Receptive.next (buttonCount : UInt16) (h : Receptive wnd seqno n.conn) (hwnd : 0 < wnd)
    (hs : DataSegment seqno s) (hhead : tcpHeader p = some s) (hrec : recognised s.p = false)
    (hfin : s.fin = false) :
    Receptive (wnd - (totLen s.p).toNat) (seqno + (totLen s.p).toUInt32)
      (tcpInput (httpServer buttonCount) n p).conn := by
  obtain ⟨q, hq, heq⟩ := h.passed buttonCount hwnd hs hhead
  have hsyn := hs.syn
  have htcplen : s.tcplen = totLen s.p := by simp [Segment.tcplen, hsyn, hfin]
  have hnarrow := h.rcvWnd_process hwnd hs.seqno hsyn (hs.tcplen_pos hhead)
  have hproc := h.process_conn hwnd hs.seqno (hs.tcplen_pos hhead)
  have hfit : (s.inseg.fitWindow n.conn.rcvWnd).fin = false := by
    rw [fitWindow_eq (by exact hsyn)]
    split_ifs
    · rfl
    · exact hfin
  rw [hfit, if_neg Bool.false_ne_true] at hproc
  rw [htcplen] at hnarrow
  have hend : (tcpInput (httpServer buttonCount) n p).conn =
      { (n.process s).conn with
        inputPcb := false
        recvData := none
        calls := .ret (n.process s).conn.rcvWnd :: (n.process s).conn.calls } := by
    rw [heq, httpRecv_other (hq.trans hrec)]
    dsimp only [Net.leave]
    rw [tcpInputEnd_conn]
    · rfl
    · exact (congrArg Conn.gotFin hproc).trans hfit
    · exact congrArg Conn.tfClosed hproc
  rw [hend]
  refine ⟨(Nat.sub_le ..).trans h.le, ?_, ?_, ?_, ?_, hnarrow.trans (by omega), ?_⟩
  · exact (congrArg Conn.active hproc).trans h.active
  · exact (congrArg Conn.state hproc).trans h.state
  · exact (congrArg Conn.ooseq hproc).trans h.ooseq
  · exact (congrArg Conn.rxClosed hproc).trans h.rxOpen
  · intro hleft
    have hwhole : s.inseg.fitWindow n.conn.rcvWnd = s.inseg := by
      rw [fitWindow_eq (by exact hsyn), if_neg]
      have hnat := h.rcvWnd
      rw [UInt16.not_lt, UInt16.le_iff_toNat_le, show s.inseg.tcplen = totLen s.p from htcplen]
      omega
    refine (congrArg Conn.rcvNxt hproc).trans ?_
    rw [hwhole]
    change n.conn.rcvNxt + s.tcplen.toUInt32 = _
    rw [h.rcvNxt hwnd, htcplen]

end Step

section Run

variable {n : Net} {segs : List Segment} {packets : List (UInt16 × List Pbuf)} {wnd : ℕ}
  {seqno : UInt32}

theorem receiveAll_inactive (h : n.conn.active = false) : receiveAll n packets = n := by
  induction packets with
  | nil => rfl
  | cons x packets ih =>
    have hsame : tcpInput (httpServer x.1) n x.2 = n := by
      unfold tcpInput
      split
      · rfl
      · rw [tcpInputSegment, if_neg (by rw [h]; exact Bool.false_ne_true)]
    rw [receiveAll, List.foldl_cons, hsame]
    exact ih

/-- Run lemma: there is one response if some segment passes the test, and none otherwise. -/
theorem receiveAll_responses (h : Receptive wnd seqno n.conn)
    (hsegs : packets.map (fun x => tcpHeader x.2) = segs.map some)
    (horder : Consecutive seqno segs) :
    (SomeRecognised wnd segs → (receiveAll n packets).responses = n.responses + 1) ∧
      (¬ SomeRecognised wnd segs → (receiveAll n packets).responses = n.responses) := by
  induction segs generalizing n packets wnd seqno with
  | nil =>
    obtain rfl : packets = [] := by simpa using hsegs
    exact ⟨fun hsome => absurd hsome (someRecognised_nil wnd), fun _ => rfl⟩
  | cons s segs ih =>
    cases packets with
    | nil => cases hsegs
    | cons x packets =>
      obtain ⟨hhead, htail⟩ := List.cons.inj hsegs
      obtain ⟨hs, hfin, hrest⟩ := horder
      rw [receiveAll, List.foldl_cons, ← receiveAll, someRecognised_cons,
        ← hs.chain.toNat_totLen]
      rcases Nat.eq_zero_or_pos wnd with rfl | hwnd
      · obtain ⟨hnext, hsame⟩ := h.dropped x.1 hhead hs.syn hs.rst
          (seqno + (totLen s.p).toUInt32)
        have hrun := ih hnext htail hrest
        rw [hsame] at hrun
        simpa using hrun
      · have hcount := h.responses x.1 hwnd hs hhead
        cases hrec : recognised s.p with
        | true =>
          rw [receiveAll_inactive (h.removed x.1 hwnd hs hhead hrec), hcount, hrec]
          exact ⟨fun _ => rfl, fun hnone => absurd (.inl ⟨hwnd, rfl⟩) hnone⟩
        | false =>
          rw [hrec] at hcount
          cases hend : s.fin with
          | true =>
            obtain rfl := hfin hend
            obtain rfl : packets = [] := by simpa using htail
            simpa [someRecognised_nil, receiveAll] using hcount
          | false =>
            have hrun := ih (h.next x.1 hwnd hs hhead hrec hend) htail hrest
            rw [hcount] at hrun
            simpa using hrun

/-- Whatever the stream, its segments, their buffers and what lies behind these: the responses are
those that the stream asks for exactly if some segment passes the test of `http_recv` just when
the stream starts with `GET`. -/
theorem responses_stream_iff (h : Receptive tcpWnd.toNat seqno n.conn) (hcalls : n.conn.calls = [])
    (hsegs : packets.map (fun x => tcpHeader x.2) = segs.map some)
    (horder : Consecutive seqno segs) :
    ((receiveAll n packets).responses =
        if bytesOf "GET".toList <+: streamBytes segs then 1 else 0) ↔
      (SomeRecognised tcpWnd.toNat segs ↔ bytesOf "GET".toList <+: streamBytes segs) := by
  obtain ⟨hsome, hnone⟩ := receiveAll_responses h hsegs horder
  have hzero : n.responses = 0 := by rw [Net.responses, hcalls]; rfl
  rw [hzero] at hsome hnone
  by_cases hrec : SomeRecognised tcpWnd.toNat segs
  · rw [hsome hrec]
    split_ifs with hget
    · exact iff_of_true rfl (iff_of_true hrec hget)
    · exact iff_of_false (by decide) fun hiff => hget (hiff.mp hrec)
  · rw [hnone hrec]
    split_ifs with hget
    · exact iff_of_false (by decide) fun hiff => hrec (hiff.mpr hget)
    · exact iff_of_true rfl (iff_of_false hrec hget)

theorem benchNet_receptive : Receptive tcpWnd.toNat 1 benchNet.conn :=
  ⟨le_rfl, rfl, rfl, rfl, rfl, rfl, fun _ => rfl⟩

/-- A request whose first byte comes in a segment of its own. -/
def splitGet : List (List Pbuf) := [benchPacket 1 0x10 [0x47], benchPacket 2 0x10 [0x45, 0x54]]

def splitSegments : List Segment := splitGet.filterMap tcpHeader

theorem tcpHeader_splitGet :
    (splitGet.map fun p => ((0 : UInt16), p)).map (fun x => tcpHeader x.2) =
      splitSegments.map some := rfl

theorem splitSegments_consecutive : Consecutive 1 splitSegments :=
  ⟨⟨rfl, rfl, rfl, ⟨rfl, trivial⟩, by decide⟩, (fun hfin => nomatch hfin),
    ⟨by decide, rfl, rfl, ⟨rfl, trivial⟩, by decide⟩, fun _ => rfl, trivial⟩

theorem responses_stream_iff_split :
    ((receiveAll benchNet (splitGet.map fun p => (0, p))).responses =
        if bytesOf "GET".toList <+: streamBytes splitSegments then 1 else 0) ↔
      (SomeRecognised tcpWnd.toNat splitSegments ↔
        bytesOf "GET".toList <+: streamBytes splitSegments) :=
  responses_stream_iff benchNet_receptive rfl tcpHeader_splitGet splitSegments_consecutive

/-- A request is not answered if its first byte comes in a segment of its own. -/
theorem request_split : ¬ ∀ (seqno : UInt32) (n : Net) (packets : List (UInt16 × List Pbuf))
    (segs : List Segment), Receptive tcpWnd.toNat seqno n.conn → n.conn.calls = [] →
      packets.map (fun x => tcpHeader x.2) = segs.map some → Consecutive seqno segs →
        (receiveAll n packets).responses =
          if bytesOf "GET".toList <+: streamBytes segs then 1 else 0 := by
  intro h
  have hone := h 1 benchNet _ splitSegments benchNet_receptive rfl tcpHeader_splitGet
    splitSegments_consecutive
  have hnone : (receiveAll benchNet (splitGet.map fun p => (0, p))).responses = 0 := by
    decide +kernel
  rw [hnone, if_pos (by decide)] at hone
  cases hone

/-- One byte passes the test if the memory behind it reads `ET`. -/
example : recognised [⟨fun i => [0x47, 0x45, 0x54].getD i 0, 1, 1⟩] = true := by decide

end Run

end EthernetPing
