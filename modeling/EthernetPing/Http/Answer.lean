import EthernetPing.Http.Connection
import EthernetPing.Tcp.Established

/-!
# What becomes of the response

`http_recv` closes the connection without having taken the request back into the window.
`tcp_close` then resets the connection and throws the response away, which `tcp_output`,
called from inside `tcp_input`, has not sent.
-/

namespace EthernetPing

section Queue

variable {n : Net}

/-- On the queue of a connection only the last segment has a FIN. -/
def Net.FinLast (n : Net) : Prop := EthernetPing.FinLast n.conn.ooseq

theorem finLast_stackKept : StackKept fun c => EthernetPing.FinLast c.ooseq where
  receive _ _ s h := EthernetPing.tcpReceive_finLast s h
  purge _ _ := trivial
  state _ _ _ h := h
  flags _ _ _ _ h := h

theorem tcpClose_finLast (h : n.FinLast) : (tcpClose n).2.FinLast := by
  unfold tcpClose tcpCloseShutdown
  split_ifs
  · exact finLast_stackKept.pcbPurge (n := { n with conn := _, out := _ }) h
  · exact h
  · exact finLast_stackKept.closeShutdownFin (n := { n with conn := _ }) h

theorem Net.log_finLast (e : AppEvent) (h : n.FinLast) : (n.log e).FinLast := h

theorem appClose_finLast (h : n.FinLast) : (appClose n).FinLast :=
  Net.log_finLast _ (tcpClose_finLast h)

theorem httpRecv_finLast (buttonCount : UInt16) (p : Option (List Pbuf)) (h : n.FinLast) :
    (httpRecv buttonCount p n).FinLast := by
  unfold httpRecv
  apply Net.log_finLast
  cases p with
  | none => exact appClose_finLast h
  | some p =>
    dsimp only
    split_ifs
    · apply appClose_finLast
      exact Net.log_finLast _ (Net.log_finLast _ h)
    · exact h

theorem httpAccept_finLast (err : Err) (h : n.FinLast) : (httpAccept n err).2.FinLast := by
  unfold httpAccept
  split_ifs <;> exact h

variable {buttonCount : UInt16}

theorem tcpInputEnd_finLast (h : n.FinLast) :
    (tcpInputEnd (httpServer buttonCount) n).FinLast := by
  have hdone : ∀ n : Net, n.FinLast → (tcpInputDone n).FinLast := by
    intro n h
    unfold tcpInputDone
    dsimp only
    split_ifs
    · exact finLast_stackKept.pcbRemove (n := { n with conn := _ }) h
    · exact h
  refine hdone _ ?_
  split_ifs
  · exact httpRecv_finLast buttonCount none (n := { n with conn := _ }) h
  · exact h

theorem tcpInput_finLast (p : List Pbuf) (h : n.FinLast) :
    (tcpInput (httpServer buttonCount) n p).FinLast := by
  have hdeliver : ∀ n : Net, n.FinLast →
      (tcpInputDeliver (httpServer buttonCount) n).FinLast := by
    intro n h
    unfold tcpInputDeliver
    split
    · exact finLast_stackKept.pcbRemove h
    · cases n.conn.recvData with
      | none => exact tcpInputEnd_finLast h
      | some p =>
        dsimp only
        split_ifs
        · exact finLast_stackKept.abort h
        · exact tcpInputEnd_finLast (httpRecv_finLast buttonCount _ h)
  unfold tcpInput
  split
  · exact h
  · next s _ =>
    have hproc : (tcpProcess (httpServer buttonCount) n.enter s).2.FinLast :=
      finLast_stackKept.process (n := n.enter) (fun _ h => httpAccept_finLast .ok h) h
    unfold tcpInputSegment
    split_ifs
    · dsimp only [Net.leave]
      split_ifs
      · exact hproc
      · exact hdeliver _ hproc
    · exact h

/-- Step lemma: a queue in which only the last segment has a FIN stays one. -/
theorem Step.run_finLast (step : Step) (h : n.FinLast) : (step.run n).FinLast := by
  cases step with
  | packet buttonCount p => exact tcpInput_finLast p h
  | fasttmr =>
    rw [Step.run]
    split_ifs
    · exact finLast_stackKept.fasttmr h
    · exact h
  | slowtmr out dropOoseq =>
    cases dropOoseq with
    | false => exact h
    | true => trivial
  | giveUp => exact finLast_stackKept.pcbRemove h

theorem Runs.finLast {ok : Net → Prop} {n₀ : Net} (hrun : Runs ok n₀ n) (h : n₀.conn.ooseq = []) :
    n.FinLast := by
  induction hrun with
  | refl =>
    unfold Net.FinLast
    rw [h]
    trivial
  | tail _ hstep ih =>
    obtain ⟨step, -, rfl⟩ := hstep
    exact step.run_finLast ih

end Queue

section Reset

variable {n : Net} {sent : List OutSeg} {buttonCount : UInt16}

/-- The connection is about to be removed by `tcp_input`, and only the segments `sent` were sent. -/
structure Doomed (sent : List OutSeg) (n : Net) : Prop where
  input : n.conn.inputPcb = true
  dying : n.conn.tfClosed = true
  notClosed : n.conn.state ≠ .closed
  notTimeWait : n.conn.state ≠ .timeWait
  segsSent : n.out.segsSent = sent

/-- The connection is removed, only `sent` was sent, and nothing is left to be sent. -/
structure Discarded (sent : List OutSeg) (n : Net) : Prop where
  inactive : n.conn.active = false
  unsent : n.out.unsent = []
  unacked : n.out.unacked = []
  segsSent : n.out.segsSent = sent

theorem tcpRst_segsSent (o : Out) (seqno ackno : UInt32) :
    (tcpRst o seqno ackno).segsSent = o.segsSent := by
  unfold Out.segsSent
  rcases tcpRst_wire o seqno ackno with h | h
  · rw [h]
  · rw [h]
    rfl

theorem tcpCreateSegments_wire (mssLocal : UInt16) (fuel : ℕ) (data : List UInt8) (seqno : UInt32)
    (queuelen : UInt16) (o : Out) :
    (tcpCreateSegments mssLocal fuel data seqno queuelen o).2.wire = o.wire := by
  induction fuel generalizing data seqno queuelen o with
  | zero => cases data <;> rfl
  | succ fuel ih =>
    cases data with
    | nil => rfl
    | cons x data =>
      unfold tcpCreateSegments
      dsimp only
      split_ifs
      · rfl
      · rfl
      · rfl
      · exact ih ..

theorem tcpWrite_wire (c : Conn) (o : Out) (data : List UInt8) :
    (tcpWrite c o data).2.wire = o.wire := by
  have hchecks : ∀ len, (tcpWriteChecks c o len).2.wire = o.wire := by
    intro len
    unfold tcpWriteChecks
    split_ifs <;> rfl
  unfold tcpWrite
  dsimp only
  generalize (if lwipMin o.mss (o.sndWndMax / 2) = 0 then o.mss
    else lwipMin o.mss (o.sndWndMax / 2)) = mssLocal
  generalize tcpWriteSpace mssLocal o (UInt16.ofNat data.length) = seglen
  have hconcat : (if seglen = 0 then (true, o) else o.alloc).2.wire = o.wire := by
    split_ifs <;> rfl
  generalize (if seglen = 0 then (true, o) else o.alloc) = concat at hconcat
  generalize (if seglen = 0 then 0 else 1 : UInt16) = pbufs
  split
  · exact hchecks _
  · split
    · exact hconcat
    · split
      · exact (tcpCreateSegments_wire ..).trans hconcat
      · exact (tcpCreateSegments_wire ..).trans hconcat

/-- `tcp_close` with data that was not taken back. -/
theorem tcpClose_unreceived (h : n.conn.unreceived) (hin : n.conn.inputPcb = true) :
    Doomed n.out.segsSent (tcpClose n).2 := by
  have hopen : ¬ (n.conn.state = .closed ∨ n.conn.state = .timeWait) := by
    rcases h.1 with hs | hs <;> rw [hs] <;> decide
  rw [tcpClose, tcpCloseShutdown, if_pos (by exact h)]
  dsimp only
  rw [tcpPcbPurge, if_neg hopen]
  rw [not_or] at hopen
  exact ⟨hin, by simp [hin], hopen.1, hopen.2, tcpRst_segsSent ..⟩

/-- The states after the FIN is queued are those of a connection that is not closed. -/
theorem TcpState.finSent_open {s s' : TcpState} (h : s.finSent = some s') :
    s' ≠ .closed ∧ s' ≠ .timeWait := by
  cases s <;> simp [TcpState.finSent] at h <;> subst h <;> decide

theorem tcpCloseShutdownFin_doomed (h : Doomed sent n) :
    Doomed sent (tcpCloseShutdownFin n).2 := by
  have hsent : (tcpCloseShutdownFin n).2.out.segsSent = sent :=
    (congrArg (List.filterMap _) (tcpCloseShutdownFin_wire h.input)).trans h.segsSent
  unfold tcpCloseShutdownFin at hsent ⊢
  cases hfin : n.conn.state.finSent with
  | none => exact h
  | some state =>
    rw [hfin] at hsent
    obtain ⟨hclosed, hwait⟩ := TcpState.finSent_open hfin
    dsimp only at hsent ⊢
    split_ifs at hsent ⊢
    · exact ⟨h.input, h.dying, hclosed, hwait, hsent⟩
    · exact ⟨h.input, h.dying, h.notClosed, h.notTimeWait, hsent⟩
    · exact ⟨h.input, h.dying, h.notClosed, h.notTimeWait, hsent⟩

/-- A second `tcp_close` changes nothing about that. -/
theorem Doomed.close (h : Doomed sent n) : Doomed sent (tcpClose n).2 := by
  by_cases hun : n.conn.unreceived
  · exact h.segsSent ▸ tcpClose_unreceived hun h.input
  · rw [tcpClose, tcpCloseShutdown, if_neg (by exact hun), if_neg (by exact h.notClosed)]
    exact tcpCloseShutdownFin_doomed ⟨h.input, h.dying, h.notClosed, h.notTimeWait, h.segsSent⟩

theorem tcpSendEmptyAck_queues (c : Conn) (o : Out) :
    (tcpSendEmptyAck c o).2.unsent = o.unsent ∧ (tcpSendEmptyAck c o).2.unacked = o.unacked := by
  unfold tcpSendEmptyAck Out.ipOutput Out.alloc
  dsimp only
  split_ifs <;> exact ⟨rfl, rfl⟩

theorem Doomed.log (h : Doomed sent n) (e : AppEvent) : Doomed sent (n.log e) :=
  ⟨h.input, h.dying, h.notClosed, h.notTimeWait, h.segsSent⟩

theorem tcpOutput_empty (c : Conn) {o : Out} (hunsent : o.unsent = []) :
    (tcpOutput c o).2.unsent = [] ∧ (tcpOutput c o).2.unacked = o.unacked ∧
      (tcpOutput c o).2.segsSent = o.segsSent := by
  have hack := tcpSendEmptyAck_queues c o
  have hsent := tcpSendEmptyAck_segsSent c o
  rw [tcpOutput, hunsent]
  dsimp only
  split_ifs
  · exact ⟨hunsent, rfl, rfl⟩
  · exact ⟨hack.1.trans hunsent, hack.2, hsent⟩
  · exact ⟨rfl, rfl, rfl⟩

theorem Doomed.done (h : Doomed sent n) : Discarded sent (tcpInputDone n) := by
  unfold tcpInputDone
  dsimp only
  rw [if_pos h.dying, tcpPcbRemove, tcpPcbPurge, if_neg (by
    rw [not_or]
    exact ⟨h.notClosed, h.notTimeWait⟩)]
  dsimp only
  split_ifs
  · refine ⟨rfl, (tcpOutput_empty _ ?_).1, (tcpOutput_empty _ ?_).2.1,
      (tcpOutput_empty _ ?_).2.2.trans h.segsSent⟩ <;> rfl
  · exact ⟨rfl, rfl, rfl, h.segsSent⟩

/-- The answer to a request that was not taken back. -/
theorem httpRecv_doomed (buttonCount : UInt16) {p : List Pbuf} (h : n.conn.unreceived)
    (hin : n.conn.inputPcb = true) (hp : recognised p = true) :
    Doomed n.out.segsSent (httpRecv buttonCount (some p) n) := by
  have hwrite : (appWrite n (httpResponse buttonCount)).out.segsSent = n.out.segsSent :=
    congrArg (List.filterMap _) (tcpWrite_wire ..)
  have hclose := tcpClose_unreceived
    (n := (appWrite n (httpResponse buttonCount)).log (.output .ok)) h hin
  rw [Net.log, hwrite] at hclose
  have hanswer : Doomed n.out.segsSent (httpAnswer buttonCount n) := by
    rw [httpAnswer, appOutput_input (n := appWrite n (httpResponse buttonCount)) hin]
    exact hclose.log _
  rw [httpRecv, if_pos hp]
  exact hanswer.log _

/-- Whether or not the stream has ended, the connection is removed after that. -/
theorem tcpInputEnd_discarded (buttonCount : UInt16) (h : Doomed sent n) :
    Discarded sent (tcpInputEnd (httpServer buttonCount) n) := by
  apply Doomed.done
  split_ifs
  · have hclose := Doomed.close (n := { n with conn := { n.conn with
      rcvWnd := if n.conn.rcvWnd ≠ tcpWnd then n.conn.rcvWnd + 1 else n.conn.rcvWnd } })
      ⟨h.input, h.dying, h.notClosed, h.notTimeWait, h.segsSent⟩
    exact (hclose.log _).log _
  · exact h

end Reset

section Answer

variable {n₀ n m : Net} {buttonCount : UInt16} {p : List Pbuf} {s : Segment}

/-- A segment in sequence whose bytes start with `GET` and fit into the window. -/
structure Request (c : Conn) (s : Segment) : Prop where
  seqno : s.seqno = c.rcvNxt
  syn : s.syn = false
  rst : s.rst = false
  chain : ChainOk s.p
  get : bytesOf "GET".toList <+: chainBytes s.p
  fits : (chainBytes s.p).length ≤ tcpWnd.toNat

/-- The segments carry these bytes, from the sequence number `seqno` on. -/
def Carries (segs : List OutSeg) (seqno : UInt32) (data : List UInt8) : Prop :=
  ∀ i x, data[i]? = some x → ∃ s ∈ segs, s.data[(seqno + UInt32.ofNat i - s.seqno).toNat]? = some x

/-- The FIN comes at the sequence number `seqno`. -/
def FinAt (segs : List OutSeg) (seqno : UInt32) : Prop :=
  ∃ s ∈ segs, s.fin = true ∧ s.seqno + s.len.toUInt32 = seqno

/-- Between `n` and `m` the response was sent or queued, with a FIN behind it and no reset. -/
structure Answered (buttonCount : UInt16) (n m : Net) : Prop where
  graceful : ∃ new, m.out.segsSent = new ++ n.out.segsSent ∧
    Carries (new ++ m.out.unacked ++ m.out.unsent) n.out.sndLbb (httpResponse buttonCount) ∧
    FinAt (new ++ m.out.unacked ++ m.out.unsent)
      (n.out.sndLbb + UInt32.ofNat (httpResponse buttonCount).length)
  rsts : m.rsts = n.rsts

theorem Request.toNat_totLen (h : Request n.conn s) :
    (totLen s.p).toNat = (chainBytes s.p).length ∧ 0 < (totLen s.p).toNat := by
  refine ⟨h.chain.toNat_totLen, ?_⟩
  rw [h.chain.toNat_totLen]
  exact lt_of_lt_of_le (by decide) h.get.length_le

/-- A request narrows the window, whatever was waiting for it. -/
theorem Request.rcvWnd_ne (h : Request n.conn s) (hstate : n.conn.state = .established)
    (hwnd : n.conn.rcvWnd = tcpWnd) (hq : n.FinLast) (hpool : FitsPools n.conn.ooseq) :
    (n.process s).conn.rcvWnd ≠ tcpWnd := by
  obtain ⟨hlen, hpos⟩ := h.toNat_totLen
  have hmax : tcpWnd.toNat = 1072 := rfl
  have hfits := h.fits
  have htcplen : 0 < s.tcplen := by
    rw [UInt16.lt_iff_toNat_lt, Segment.tcplen, UInt16.toNat_add]
    split_ifs
    · change 0 < ((totLen s.p).toNat + 1) % 2 ^ 16
      omega
    · change 0 < ((totLen s.p).toNat + 0) % 2 ^ 16
      omega
  obtain ⟨o, ho⟩ := n.process_rcvWnd s
  rw [ho, tcpReceive_next (by exact hstate) (by exact h.seqno) htcplen (by
    change n.conn.rcvWnd ≠ 0
    rw [hwnd]
    decide), ← hwnd]
  refine tcpReceiveInSeq_rcvWnd (c := n.enter.conn) (by exact h.syn) hpos ?_ hwnd hq hpool
  change totLen s.p ≤ n.conn.rcvWnd
  rw [UInt16.le_iff_toNat_le, hwnd]
  omega

/-- `tcp_write` is called for a request that is passed up, and not otherwise. -/
theorem Delivery.request_of_write {closed : Bool} {calls new : List AppEvent} {data : List UInt8}
    {err : Err} (hdel : Delivery buttonCount m closed calls) (hcalls : calls = new ++ m.conn.calls)
    (hwrite : .write data err ∈ new) :
    ∃ q, m.conn.recvData = some q ∧ m.conn.rxClosed = false ∧ recognised q = true := by
  have hnew : ∀ l : List AppEvent, l ++ m.conn.calls = new ++ m.conn.calls → .write data err ∈ l :=
    fun l h => List.append_cancel_right h ▸ hwrite
  cases hdel with
  | quiet => simpa using hnew [] hcalls
  | fin => simpa using hnew [_, _] hcalls
  | other => simpa using hnew [_] hcalls
  | otherFin => simpa using hnew [_, _, _] hcalls
  | request hdata hopen hp => exact ⟨_, hdata, hopen, hp⟩
  | requestFin hdata hopen hp => exact ⟨_, hdata, hopen, hp⟩

/-- When `tcp_input` is done with the request, the response is neither sent nor queued. -/
theorem Request.discarded (buttonCount : UInt16) (h : Request n.conn s) (hp : tcpHeader p = some s)
    (hact : n.conn.active = true) (hstate : n.conn.state = .established)
    (hwnd : n.conn.rcvWnd = tcpWnd) (hq : n.FinLast) (hpool : FitsPools n.conn.ooseq)
    {new : List AppEvent}
    (hcalls : (tcpInput (httpServer buttonCount) n p).conn.calls = new ++ n.conn.calls)
    (hwrite : .write (httpResponse buttonCount) .ok ∈ new) :
    Discarded n.out.segsSent (tcpInput (httpServer buttonCount) n p) := by
  obtain ⟨-, hin, hsame⟩ := Conn.held_eq (n.process_held s)
  have hends := n.process_ends s
  simp only [Conn.ends, Prod.mk.injEq] at hends
  rw [tcpInput_established _ hp hact hstate h.syn h.rst] at hcalls ⊢
  obtain ⟨q, hdata, hopen, hrec⟩ := (tcpInputDeliver_delivery hin).request_of_write
    (hcalls.trans (congrArg (new ++ ·) hsame.symm)) hwrite
  have hun : (n.process s).conn.unreceived :=
    ⟨n.process_state s hstate, h.rcvWnd_ne hstate hwnd hq hpool⟩
  have hend := tcpInputEnd_discarded buttonCount (httpRecv_doomed buttonCount hun hin hrec)
  rw [n.process_segsSent] at hend
  unfold tcpInputDeliver
  rw [if_neg (by rw [hends.2.1, hends.2.2]; simp), hdata]
  dsimp only
  rw [if_neg (by rw [hopen]; exact Bool.false_ne_true)]
  exact ⟨hend.inactive, hend.unsent, hend.unacked, hend.segsSent⟩

theorem Discarded.not_answered (h : Discarded n.out.segsSent m) : ¬ Answered buttonCount n m := by
  rintro ⟨⟨new, hnew, hcarries, -⟩, -⟩
  rw [h.segsSent] at hnew
  obtain rfl : new = [] := List.append_left_eq_self.mp hnew.symm
  have hlen := length_httpResponse buttonCount
  obtain ⟨s, hs, -⟩ := hcarries 0 _ (List.getElem?_eq_getElem (by omega))
  rw [h.unsent, h.unacked] at hs
  cases hs

/-- Whenever `tcp_write` accepts the response to a request, the response is lost. -/
theorem request_not_answered (hfresh : n₀.conn.ooseq = []) (hrun : Runs (fun _ => True) n₀ n)
    (hact : n.conn.active = true) (hstate : n.conn.state = .established)
    (hwnd : n.conn.rcvWnd = tcpWnd) (hpool : FitsPools n.conn.ooseq) (hp : tcpHeader p = some s)
    (hs : Request n.conn s) {new : List AppEvent}
    (hcalls : (tcpInput (httpServer buttonCount) n p).conn.calls = new ++ n.conn.calls)
    (hwrite : .write (httpResponse buttonCount) .ok ∈ new) :
    ¬ Answered buttonCount n (tcpInput (httpServer buttonCount) n p) :=
  (hs.discarded buttonCount hp hact hstate hwnd (hrun.finLast hfresh) hpool hcalls
    hwrite).not_answered

def benchSegment : Segment := (tcpHeader benchGet).get (by decide)

theorem tcpHeader_benchGet : tcpHeader benchGet = some benchSegment := (Option.some_get _).symm

theorem benchSegment_request : Request benchNet.conn benchSegment where
  seqno := rfl
  syn := rfl
  rst := rfl
  chain := ⟨rfl, trivial⟩
  get := by decide
  fits := by decide

theorem fitsPools_nil : FitsPools [] := ⟨Nat.zero_le _, Nat.zero_le _⟩

theorem calls_benchGet : (tcpInput (httpServer 0) benchNet benchGet).conn.calls =
    [.ret 1069, .close .ok 1, .output .ok, .write (httpResponse 0) .ok] ++ benchNet.conn.calls := by
  decide +kernel

theorem request_not_answered_benchGet :
    ¬ Answered 0 benchNet (tcpInput (httpServer 0) benchNet benchGet) :=
  request_not_answered (n := benchNet) rfl .refl rfl rfl rfl fitsPools_nil tcpHeader_benchGet
    benchSegment_request calls_benchGet (by simp)

/-- The request of three bytes is reset, and nothing of the response is sent. -/
theorem request_answer_lost : ¬ ∀ (buttonCount : UInt16) (n₀ n : Net) (p : List Pbuf) (s : Segment)
    (new : List AppEvent), n₀.conn.ooseq = [] → Runs (fun _ => True) n₀ n →
      n.conn.active = true → n.conn.state = .established → n.conn.rcvWnd = tcpWnd →
      FitsPools n.conn.ooseq → tcpHeader p = some s → Request n.conn s →
      (tcpInput (httpServer buttonCount) n p).conn.calls = new ++ n.conn.calls →
      .write (httpResponse buttonCount) .ok ∈ new →
        Answered buttonCount n (tcpInput (httpServer buttonCount) n p) := by
  intro h
  have hlost := benchSegment_request.discarded 0 tcpHeader_benchGet rfl rfl rfl
    trivial fitsPools_nil calls_benchGet (by simp)
  exact hlost.not_answered (h 0 benchNet benchNet benchGet benchSegment _ rfl .refl rfl rfl rfl
    fitsPools_nil tcpHeader_benchGet benchSegment_request calls_benchGet (by simp))

end Answer

end EthernetPing
