import EthernetPing.Tcp.Feed

/-!
# What the application is given

The arguments of the receive callback, step by step: chains with the next bytes of the
stream, and `NULL` at its end. The application may do anything that leaves the receive side
alone or gives the connection up.
-/

namespace EthernetPing

section Quiet

/-- What callbacks and timers may do to a connection: they leave the receive side alone, may throw
the queue away, and do not reopen anything. -/
structure Conn.Quiet (c c' : Conn) : Prop where
  rcvNxt : c'.rcvNxt = c.rcvNxt
  ooseq : c'.ooseq = c.ooseq ∨ c'.ooseq = []
  recvData : c'.recvData = c.recvData
  gotFin : c'.gotFin = c.gotFin
  active : c'.active = true → c.active = true
  past : c'.active = true → TcpState.closeWait.num ≤ c.state.num →
    TcpState.closeWait.num ≤ c'.state.num
  timeWait : c'.state = .timeWait → c.state = .timeWait

variable {c c' c'' : Conn} (n : Net)

theorem Conn.Quiet.refl (c : Conn) : c.Quiet c :=
  ⟨rfl, .inl rfl, rfl, rfl, id, fun _ => id, id⟩

theorem Conn.Quiet.trans (h : c.Quiet c') (h' : c'.Quiet c'') : c.Quiet c'' where
  rcvNxt := h'.rcvNxt.trans h.rcvNxt
  ooseq := by
    rcases h'.ooseq with heq | heq
    · rw [heq]
      exact h.ooseq
    · exact .inr heq
  recvData := h'.recvData.trans h.recvData
  gotFin := h'.gotFin.trans h.gotFin
  active hact := h.active (h'.active hact)
  past hact hpast := h'.past hact (h.past (h'.active hact) hpast)
  timeWait hstate := h.timeWait (h'.timeWait hstate)

theorem Conn.Quiet.of_inactive (hnxt : c'.rcvNxt = c.rcvNxt)
    (hooseq : c'.ooseq = c.ooseq ∨ c'.ooseq = []) (hdata : c'.recvData = c.recvData)
    (hgot : c'.gotFin = c.gotFin) (hact : c'.active = false)
    (hstate : c'.state = .timeWait → c.state = .timeWait) : c.Quiet c' :=
  ⟨hnxt, hooseq, hdata, hgot, fun h => absurd (hact.symm.trans h) Bool.false_ne_true,
    fun h => absurd (hact.symm.trans h) Bool.false_ne_true, hstate⟩

theorem tcpPcbPurge_quiet : n.conn.Quiet (tcpPcbPurge n).conn := by
  unfold tcpPcbPurge
  split_ifs
  · exact .refl _
  · exact ⟨rfl, .inr rfl, rfl, rfl, id, fun _ => id, id⟩

theorem tcpPcbPurge_active : (tcpPcbPurge n).conn.active = n.conn.active := by
  unfold tcpPcbPurge
  split_ifs <;> rfl

theorem tcpPcbRemove_quiet : n.conn.Quiet (tcpPcbRemove n).conn := by
  have h := tcpPcbPurge_quiet { n with conn := { n.conn with active := false } }
  exact .of_inactive h.rcvNxt h.ooseq h.recvData h.gotFin (tcpPcbPurge_active _) nofun

theorem tcpPcbRemove_active : (tcpPcbRemove n).conn.active = false := tcpPcbPurge_active _

theorem tcpAbort_active (h : n.conn.state = .timeWait → n.conn.active = false) :
    (tcpAbort n).conn.active = false := by
  unfold tcpAbort
  split_ifs with hstate
  · exact h hstate
  · exact tcpPcbRemove_active n

theorem tcpCloseShutdownFin_quiet : n.conn.Quiet (tcpCloseShutdownFin n).2.conn := by
  unfold tcpCloseShutdownFin
  split
  · exact .refl _
  · next state hstate =>
    have hpast : (TcpState.closeWait.num ≤ n.conn.state.num →
        TcpState.closeWait.num ≤ state.num) ∧ state ≠ .timeWait := by
      unfold TcpState.finSent at hstate
      split at hstate <;> cases hstate <;> simp_all [TcpState.num]
    dsimp only
    split_ifs
    · exact ⟨rfl, .inl rfl, rfl, rfl, id, fun _ => hpast.1, fun h => absurd h hpast.2⟩
    · exact ⟨rfl, .inl rfl, rfl, rfl, id, fun _ => id, id⟩
    · exact .refl _

theorem tcpClose_quiet : n.conn.Quiet (tcpClose n).2.conn := by
  have hclosed : n.conn.Quiet { n.conn with rxClosed := true } :=
    ⟨rfl, .inl rfl, rfl, rfl, id, fun _ => id, id⟩
  unfold tcpClose tcpCloseShutdown
  split_ifs
  · have h := tcpPcbPurge_quiet { n with
      conn := { n.conn with rxClosed := true }, out := tcpRst n.out n.out.sndNxt n.conn.rcvNxt }
    exact .of_inactive h.rcvNxt h.ooseq h.recvData h.gotFin rfl h.timeWait
  · exact hclosed
  · exact hclosed.trans (tcpCloseShutdownFin_quiet
      { n with conn := { n.conn with rxClosed := true } })

theorem tcpFasttmr_quiet : n.conn.Quiet (tcpFasttmr n).conn := by
  have hpend : n.conn.Quiet { n.conn with closePend := false } :=
    ⟨rfl, .inl rfl, rfl, rfl, id, fun _ => id, id⟩
  unfold tcpFasttmr
  dsimp only
  split_ifs
  · exact hpend.trans (tcpCloseShutdownFin_quiet
      { conn := { n.conn with closePend := false }, out := tcpFasttmrAck n.conn n.out })
  · exact .refl _

end Quiet

section Process

variable {base : UInt32} {data : List UInt8} {k m : ℕ} {n : Net} {seg : Segment} {app : App}

theorem Conn.Fed.congr {c c' : Conn} (h : c.Fed base data k m) (hnxt : c'.rcvNxt = c.rcvNxt)
    (hdata : c'.recvData = c.recvData) (hgot : c'.gotFin = c.gotFin) : c'.Fed base data k m :=
  ⟨h.le, h.le_end, hnxt.trans h.rcvNxt, hdata ▸ h.bytes, hdata ▸ h.nonempty, hgot ▸ h.gotFin⟩

theorem Conn.At.congr {c c' : Conn} (h : c.At base data k) (hnxt : c'.rcvNxt = c.rcvNxt)
    (hooseq : c'.ooseq = c.ooseq ∨ c'.ooseq = [])
    (hpast : TcpState.closeWait.num ≤ c.state.num → TcpState.closeWait.num ≤ c'.state.num) :
    c'.At base data k := by
  refine ⟨hnxt.trans h.rcvNxt, ?_, h.le_end, fun hend => hpast (h.ended hend)⟩
  rcases hooseq with heq | heq
  · rw [heq]
    exact h.queue
  · rw [heq]
    trivial

/-- The application neither rejects a connection nor interferes with its receive side. -/
structure App.Quiet (app : App) : Prop where
  accept : ∀ n : Net, (app.accept n).1 = .ok ∧ (app.accept n).2.conn = n.conn
  recv : ∀ (p : Option (List Pbuf)) (n : Net), n.conn.Quiet (app.recv p n).conn

/-- The connection while a segment is processed: what it holds for the application brings it from
position `k` to position `m`. -/
structure Net.Moved (base : UInt32) (data : List UInt8) (k m : ℕ) (n : Net) : Prop where
  fed : n.conn.Fed base data k m
  at_ : n.conn.At base data m
  late : n.conn.state = .timeWait → n.conn.active = false

/-- A segment that comes when the whole stream has been taken in, or takes no number, or is one of
the stream. -/
def Segment.Fits (base : UInt32) (data : List UInt8) (k : ℕ) (seg : Segment) : Prop :=
  k ≤ data.length → seg.rst = false → seg.syn = false → 0 < seg.tcplen →
    ∃ pos, seg.inseg.Holds base data pos ∧ Near k pos

theorem tcpReceive_past (c : Conn) (o : Out) (seg : Segment)
    (h : TcpState.closeWait.num ≤ c.state.num) : (tcpReceive c o seg).1 = c := by
  rw [tcpReceive, tcpReceiveData, if_neg]
  rintro ⟨-, hlt⟩
  omega

theorem tcpReceive_empty (c : Conn) (o : Out) {seg : Segment} (h : ¬ 0 < seg.tcplen) :
    (tcpReceive c o seg).1 = c := by
  rw [tcpReceive, tcpReceiveData, if_neg]
  exact fun hlen => h hlen.1

/-- `tcp_receive` moves the connection; the state still has to follow. -/
theorem Net.receive_moved (h : n.conn.At base data k) (hdata : n.conn.recvData = none)
    (hgot : n.conn.gotFin = false) (hseg : seg.Fits base data k) (hrst : seg.rst = false)
    (hsyn : seg.syn = false) : ∃ m, (n.receive seg).conn.Fed base data k m ∧
      Waiting base data (m + 2 ^ 16) (m + 1) (n.receive seg).conn.ooseq := by
  by_cases hfits : k ≤ data.length ∧ 0 < seg.tcplen
  · obtain ⟨pos, hs, hnear⟩ := hseg hfits.1 hrst hsyn hfits.2
    exact tcpReceive_fed n.out h hdata hgot hs hnear
  · have hsame : (n.receive seg).conn = n.conn := by
      rcases not_and_or.mp hfits with hk | hlen
      · exact tcpReceive_past _ _ _ (h.ended (not_le.mp hk))
      · exact tcpReceive_empty _ _ hlen
    rw [hsame]
    exact ⟨k, h.fed rfl hdata hgot, h.queue⟩

/-- Before the state follows, either the end of the stream has just come or the state knows. -/
theorem Conn.Fed.past {c : Conn} {state : TcpState} (h : c.Fed base data k m)
    (hpast : data.length < k → TcpState.closeWait.num ≤ state.num) (hend : data.length < m) :
    c.gotFin = true ∨ TcpState.closeWait.num ≤ state.num := by
  by_cases hk : k ≤ data.length
  · exact .inl (h.gotFin.mpr ⟨hk, hend⟩)
  · exact .inr (hpast (not_le.mp hk))

theorem Conn.Fed.moved (h : n.conn.Fed base data k m)
    (hqueue : Waiting base data (m + 2 ^ 16) (m + 1) n.conn.ooseq)
    (hpast : data.length < m → TcpState.closeWait.num ≤ n.conn.state.num)
    (hlate : n.conn.state ≠ .timeWait) : n.Moved base data k m :=
  ⟨h, ⟨h.rcvNxt, hqueue, h.le_end, hpast⟩, fun heq => absurd heq hlate⟩

theorem Conn.At.moved (h : n.conn.At base data k) (hdata : n.conn.recvData = none)
    (hgot : n.conn.gotFin = false) (hlate : n.conn.state ≠ .timeWait) : n.Moved base data k k :=
  (h.fed rfl hdata hgot).moved h.queue h.ended hlate

theorem Net.gotFin_moved (h : n.conn.Fed base data k m)
    (hqueue : Waiting base data (m + 2 ^ 16) (m + 1) n.conn.ooseq)
    (hpast : data.length < k → TcpState.closeWait.num ≤ n.conn.state.num) {state : TcpState}
    (hstate : TcpState.closeWait.num ≤ state.num) (hne : state ≠ .timeWait)
    (hlate : n.conn.state ≠ .timeWait) : (n.gotFin state).Moved base data k m := by
  unfold Net.gotFin
  split_ifs with hfin
  · exact (h.congr rfl rfl rfl : Conn.Fed _ _ _ _ (n.ackNow.setState state).conn).moved hqueue
      (fun _ => hstate) hne
  · exact h.moved hqueue (fun hend => (h.past hpast hend).resolve_left hfin) hlate

theorem Net.toTimeWait_moved (h : n.conn.Fed base data k m)
    (hqueue : Waiting base data (m + 2 ^ 16) (m + 1) n.conn.ooseq) :
    n.toTimeWait.Moved base data k m := by
  have hpurge := tcpPcbPurge_quiet n
  refine ⟨h.congr hpurge.rcvNxt hpurge.recvData hpurge.gotFin, ⟨hpurge.rcvNxt.trans h.rcvNxt, ?_,
    h.le_end, fun _ => (by decide : TcpState.closeWait.num ≤ TcpState.timeWait.num)⟩, fun _ => rfl⟩
  change Waiting base data (m + 2 ^ 16) (m + 1) (tcpPcbPurge n).conn.ooseq
  rcases hpurge.ooseq with heq | heq
  · rw [heq]
    exact hqueue
  · rw [heq]
    trivial

theorem tcpProcessState_moved (h : n.conn.At base data k) (hdata : n.conn.recvData = none)
    (hgot : n.conn.gotFin = false) (hseg : seg.Fits base data k) (hrst : seg.rst = false)
    (hsyn : seg.syn = false) (hlate : n.conn.state ≠ .timeWait) :
    ∃ m, (tcpProcessState n seg).Moved base data k m := by
  obtain ⟨m, hfed, hqueue⟩ := Net.receive_moved h hdata hgot hseg hrst hsyn
  have hst : (n.receive seg).conn.state = n.conn.state ∨
      (n.receive seg).conn.state = .closeWait := tcpReceive_state_or n.conn n.out seg
  have hpast : data.length < k → TcpState.closeWait.num ≤ (n.receive seg).conn.state.num := by
    intro hk
    rcases hst with heq | heq
    · rw [heq]
      exact h.ended hk
    · rw [heq]
  have hlate' : (n.receive seg).conn.state ≠ .timeWait := by
    rcases hst with heq | heq
    · rw [heq]
      exact hlate
    · rw [heq]
      decide
  unfold tcpProcessState
  cases hstate : n.conn.state with
  | closeWait => exact ⟨m, Net.gotFin_moved hfed hqueue hpast le_rfl (by decide) hlate'⟩
  | established => exact ⟨m, Net.gotFin_moved hfed hqueue hpast le_rfl (by decide) hlate'⟩
  | finWait1 =>
    have hopen : ¬ data.length < k := fun hk => absurd (hstate ▸ h.ended hk) (by decide)
    refine ⟨m, ?_⟩
    dsimp only
    split_ifs with hfin hacked hacked
    · exact Net.toTimeWait_moved (n := (n.receive seg).ackNow) hfed hqueue
    · exact Net.gotFin_moved hfed hqueue hpast (by decide) (by decide) hlate'
    · exact Conn.Fed.moved (n := (n.receive seg).setState .finWait2) (hfed.congr rfl rfl rfl) hqueue
        (fun hend => absurd (hfed.gotFin.mpr ⟨not_lt.mp hopen, hend⟩) hfin)
        (by decide : TcpState.finWait2 ≠ .timeWait)
    · exact hfed.moved hqueue
        (fun hend => absurd (hfed.gotFin.mpr ⟨not_lt.mp hopen, hend⟩) hfin) hlate'
  | finWait2 =>
    have hopen : ¬ data.length < k := fun hk => absurd (hstate ▸ h.ended hk) (by decide)
    refine ⟨m, ?_⟩
    dsimp only
    split_ifs with hfin
    · exact Net.toTimeWait_moved (n := (n.receive seg).ackNow) hfed hqueue
    · exact hfed.moved hqueue
        (fun hend => absurd (hfed.gotFin.mpr ⟨not_lt.mp hopen, hend⟩) hfin) hlate'
  | closing =>
    have hsame : (n.receive seg).conn = n.conn :=
      tcpReceive_past _ _ _ (by rw [hstate]; decide)
    refine ⟨m, ?_⟩
    dsimp only
    split_ifs
    · exact Net.toTimeWait_moved hfed hqueue
    · exact hfed.moved hqueue (fun _ => by rw [hsame, hstate]; decide) hlate'
  | lastAck =>
    have hsame : (n.receive seg).conn = n.conn :=
      tcpReceive_past _ _ _ (by rw [hstate]; decide)
    have hnum : TcpState.closeWait.num ≤ (n.receive seg).conn.state.num := by
      rw [hsame, hstate]
      decide
    refine ⟨m, ?_⟩
    dsimp only
    split_ifs
    · exact Conn.Fed.moved
        (n := { n.receive seg with conn := { (n.receive seg).conn with tfClosed := true } })
        (hfed.congr rfl rfl rfl) hqueue (fun _ => hnum) hlate'
    · exact hfed.moved hqueue (fun _ => hnum) hlate'
  | timeWait => exact absurd hstate hlate
  | closed => exact ⟨k, h.moved hdata hgot hlate⟩
  | synRcvd => exact ⟨k, h.moved hdata hgot hlate⟩

theorem tcpProcessSynRcvd_moved (happ : app.Quiet) (h : n.conn.At base data k)
    (hdata : n.conn.recvData = none) (hgot : n.conn.gotFin = false) (hseg : seg.Fits base data k)
    (hrst : seg.rst = false) (hlate : n.conn.state ≠ .timeWait)
    (hnum : n.conn.state.num < TcpState.closeWait.num) :
    (tcpProcessSynRcvd app n seg).1 ≠ .abrt ∧
      ∃ m, (tcpProcessSynRcvd app n seg).2.Moved base data k m := by
  have hsame := h.moved hdata hgot hlate
  have hopen : ¬ data.length < k := fun hk => absurd (h.ended hk) (not_le.mpr hnum)
  obtain ⟨hok, hconn⟩ := happ.accept (n.setState .established)
  have hgoes : Err.ok ≠ .abrt := by decide
  rw [tcpProcessSynRcvd]
  split_ifs with hsyn hseq hack hbetween
  · exact ⟨hgoes, k, hsame.fed, hsame.at_, hsame.late⟩
  · exact ⟨hgoes, k, hsame⟩
  · rw [Bool.not_eq_true] at hsyn
    have hat : (app.accept (n.setState .established)).2.conn.At base data k := by
      rw [hconn]
      exact h.congr rfl (.inl rfl) fun hpast => absurd hpast (not_le.mpr hnum)
    obtain ⟨m, hfed, hqueue⟩ := Net.receive_moved hat (by rw [hconn]; exact hdata)
      (by rw [hconn]; exact hgot) hseg hrst hsyn
    have hst := tcpReceive_state_or (app.accept (n.setState .established)).2.conn
      (app.accept (n.setState .established)).2.out seg
    have hopened : TcpState.closeWait ≠ .timeWait ∧ TcpState.established ≠ .timeWait := by decide
    have hlate' :
        ((app.accept (n.setState .established)).2.receive seg).conn.state ≠ .timeWait := by
      rcases hst with heq | heq
      · exact ne_of_eq_of_ne (heq.trans (congrArg Conn.state hconn)) hopened.2
      · exact ne_of_eq_of_ne heq hopened.1
    dsimp only
    rw [if_pos hok]
    refine ⟨hgoes, m, ?_⟩
    dsimp only
    refine Net.gotFin_moved ?_ ?_ (fun hk => absurd hk hopen) le_rfl hopened.1 ?_
    · exact hfed
    · exact hqueue
    · exact hlate'
  · exact ⟨hgoes, k, hsame.fed, hsame.at_, hsame.late⟩
  · exact ⟨hgoes, k, hsame⟩

/-- Step lemma: what `tcp_process` makes of a segment. -/
theorem tcpProcess_moved (happ : app.Quiet) (h : n.conn.At base data k)
    (hdata : n.conn.recvData = none) (hgot : n.conn.gotFin = false) (hseg : seg.Fits base data k)
    (hlate : n.conn.state ≠ .timeWait) :
    (tcpProcess app n seg).1 ≠ .abrt ∧ ∃ m, (tcpProcess app n seg).2.Moved base data k m := by
  have hsame := h.moved hdata hgot hlate
  have hgoes : Err.ok ≠ .abrt ∧ Err.rst ≠ .abrt := by decide
  rw [tcpProcess]
  split_ifs with hrst hseq hwin hsyn
  · exact ⟨hgoes.2, k, hsame.fed.congr rfl rfl rfl,
      hsame.at_.congr rfl (.inl rfl) fun hpast => hpast, hsame.late⟩
  · exact ⟨hgoes.1, k, hsame.fed, hsame.at_, hsame.late⟩
  · exact ⟨hgoes.1, k, hsame⟩
  · exact ⟨hgoes.1, k, hsame.fed, hsame.at_, hsame.late⟩
  · rw [Bool.not_eq_true] at hrst
    dsimp only
    split_ifs with hstate
    · exact tcpProcessSynRcvd_moved happ h hdata hgot hseg hrst hlate (by
        rw [hstate]
        decide)
    · have hsyn' : seg.syn = false := by
        rw [← Bool.not_eq_true]
        exact fun hs => hsyn ⟨hs, hstate⟩
      exact ⟨hgoes.1, tcpProcessState_moved h hdata hgot hseg hrst hsyn' hlate⟩

end Process

section Deliver

variable {base : UInt32} {data : List UInt8} {k m : ℕ} {app : App} {n : Net}

/-- The arguments of the receive callback when `tcp_process` is done; `none` is `NULL`, the end of
the stream. -/
def passedUp (app : App) (n : Net) : List (Option (List Pbuf)) :=
  if n.conn.tfReset ∨ n.conn.tfClosed then []
  else
    match n.conn.recvData with
    | none => if n.conn.gotFin then [none] else []
    | some p =>
      if n.conn.rxClosed then []
      else some p :: if (app.recv (some p) n).conn.gotFin then [none] else []

def callRecv (app : App) (n : Net) : Option (List Pbuf) → Net
  | none => tcpInputFin app n
  | some p => app.recv (some p) n

/-- The calls that `tcp_input` makes are these. -/
theorem tcpInputDeliver_eq (app : App) (n : Net) : tcpInputDeliver app n =
    if n.conn.tfReset ∨ n.conn.tfClosed then tcpPcbRemove n
    else if n.conn.recvData.isSome ∧ n.conn.rxClosed then tcpAbort n
    else tcpInputDone ((passedUp app n).foldl (callRecv app) n) := by
  unfold tcpInputDeliver passedUp
  by_cases hover : n.conn.tfReset ∨ n.conn.tfClosed
  · rw [if_pos hover, if_pos hover]
  · rw [if_neg hover, if_neg hover, if_neg hover]
    cases hp : n.conn.recvData with
    | none =>
      simp only [Option.isSome_none, Bool.false_eq_true, false_and, if_false, tcpInputEnd]
      split_ifs <;> rfl
    | some p =>
      simp only [Option.isSome_some, true_and, tcpInputEnd]
      split_ifs <;> rfl

theorem tcpInputDone_quiet (n : Net) : n.conn.Quiet (tcpInputDone n).conn := by
  have hdone : n.conn.Quiet { n.conn with inputPcb := false } :=
    ⟨rfl, .inl rfl, rfl, rfl, id, fun _ => id, id⟩
  unfold tcpInputDone
  dsimp only
  split_ifs
  · exact hdone.trans (tcpPcbRemove_quiet { n with conn := { n.conn with inputPcb := false } })
  · exact hdone

theorem tcpInputFin_quiet (happ : app.Quiet) (n : Net) : n.conn.Quiet (tcpInputFin app n).conn := by
  have hwnd : n.conn.Quiet { n.conn with
      rcvWnd := if n.conn.rcvWnd ≠ tcpWnd then n.conn.rcvWnd + 1 else n.conn.rcvWnd } :=
    ⟨rfl, .inl rfl, rfl, rfl, id, fun _ => id, id⟩
  exact hwnd.trans (happ.recv none { n with conn := _ })

theorem tcpInputEnd_quiet (happ : app.Quiet) (n : Net) : n.conn.Quiet (tcpInputEnd app n).conn := by
  unfold tcpInputEnd
  split_ifs
  · exact (tcpInputFin_quiet happ n).trans (tcpInputDone_quiet _)
  · exact tcpInputDone_quiet n

theorem tcpAbort_quiet (h : n.conn.state = .timeWait → n.conn.active = false) :
    n.conn.Quiet (tcpAbort n).conn := by
  by_cases hstate : n.conn.state = .timeWait
  · rw [tcpAbort, if_pos hstate]
    exact .of_inactive rfl (.inl rfl) rfl rfl (h hstate) nofun
  · rw [tcpAbort, if_neg hstate]
    exact tcpPcbRemove_quiet n

theorem tcpInputDeliver_quiet (happ : app.Quiet)
    (h : n.conn.state = .timeWait → n.conn.active = false) :
    n.conn.Quiet (tcpInputDeliver app n).conn := by
  unfold tcpInputDeliver
  split
  · exact tcpPcbRemove_quiet n
  · split
    · exact tcpInputEnd_quiet happ n
    · split
      · exact tcpAbort_quiet h
      · exact (happ.recv _ n).trans (tcpInputEnd_quiet happ _)

/-- Either all that the segment brought is passed up, or the connection is gone. -/
theorem passedUp_cases (happ : app.Quiet) (h : n.conn.state = .timeWait → n.conn.active = false) :
    passedUp app n = [] ∧ (tcpInputDeliver app n).conn.active = false ∨
      passedUp app n = n.conn.recvData.toList.map some ++
        if n.conn.gotFin then [none] else [] := by
  unfold passedUp tcpInputDeliver
  by_cases hover : n.conn.tfReset ∨ n.conn.tfClosed
  · rw [if_pos hover, if_pos hover]
    exact .inl ⟨rfl, tcpPcbRemove_active n⟩
  · rw [if_neg hover, if_neg hover]
    cases hp : n.conn.recvData with
    | none => exact .inr rfl
    | some p =>
      dsimp only
      by_cases hclosed : n.conn.rxClosed = true
      · rw [if_pos hclosed, if_pos hclosed]
        exact .inl ⟨rfl, tcpAbort_active n h⟩
      · rw [if_neg hclosed, (happ.recv (some p) n).gotFin]
        exact .inr rfl

end Deliver

end EthernetPing
