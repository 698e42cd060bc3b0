import EthernetPing.Http.Connection
import EthernetPing.Lib.Machine
import EthernetPing.Tcp.Deliver

/-!
# The stream that the server reads

Over the whole life of a connection, whatever the network does with the segments of the
peer, `http_recv` is given the bytes of the stream from the first one on, each once and in
order, and `NULL` only behind the last one.
-/

namespace EthernetPing

variable {base : UInt32} {data : List UInt8} {n : Net} {h : List (Option (List Pbuf))}

section Segments

/-- The bytes that the receive callback was given. -/
def received (h : List (Option (List Pbuf))) : List UInt8 := h.flatMap upBytes

theorem received_append (h h' : List (Option (List Pbuf))) :
    received (h ++ h') = received h ++ received h' := List.flatMap_append

/-- What the callback was given so far is the front of the stream, and as long as the connection
exists, `rcv_nxt` counts it. -/
structure Inbound (base : UInt32) (data : List UInt8) (n : Net) (h : List (Option (List Pbuf))) :
    Prop where
  front : received h <+: data
  nonempty : ∀ p, some p ∈ h → chainBytes p ≠ []
  whole : none ∈ h → received h = data
  last : none ∉ h.dropLast
  at_ : n.conn.active = true → n.conn.state ≠ .timeWait ∧ ∃ k, n.conn.At base data k ∧
    received h = data.take k ∧ (none ∈ h ↔ data.length < k)

/-- What `tcp_input` passes up of a segment. -/
def tcpInputPassed (app : App) (n : Net) (s : Segment) : List (Option (List Pbuf)) :=
  if n.conn.active then
    let r := tcpProcess app n.enter s
    if r.1 = .abrt then [] else passedUp app r.2
  else []

theorem Inbound.start (hnxt : n.conn.rcvNxt = base) (hooseq : n.conn.ooseq = [])
    (hstate : n.conn.state ≠ .timeWait) : Inbound base data n [] := by
  refine ⟨List.nil_prefix, nofun, nofun, nofun, fun _ => ⟨hstate, 0, ?_, rfl, ?_⟩⟩
  · exact ⟨hnxt.trans (seqAt_zero _).symm, hooseq ▸ trivial, Nat.zero_le _, nofun⟩
  · simp

theorem Inbound.of_inactive {n' : Net} (hin : Inbound base data n h)
    (hact : n'.conn.active = false) : Inbound base data n' h :=
  ⟨hin.front, hin.nonempty, hin.whole, hin.last,
    fun h' => absurd (hact.symm.trans h') Bool.false_ne_true⟩

theorem Inbound.quiet {n' : Net} (hin : Inbound base data n h) (hq : n.conn.Quiet n'.conn) :
    Inbound base data n' h := by
  refine ⟨hin.front, hin.nonempty, hin.whole, hin.last, fun hact => ?_⟩
  obtain ⟨hstate, k, hat, htake, hend⟩ := hin.at_ (hq.active hact)
  exact ⟨fun heq => hstate (hq.timeWait heq), k, hat.congr hq.rcvNxt hq.ooseq (hq.past hact), htake,
    hend⟩

/-- The new part of a history. -/
def brought (n : Net) : List (Option (List Pbuf)) :=
  n.conn.recvData.toList.map some ++ if n.conn.gotFin then [none] else []

theorem received_brought (n : Net) : received (brought n) = upBytes n.conn.recvData := by
  have hnone : received (if n.conn.gotFin then [none] else []) = [] := by split_ifs <;> rfl
  rw [brought, received_append, hnone, List.append_nil]
  cases n.conn.recvData with
  | none => rfl
  | some p => exact List.append_nil _

theorem none_mem_brought (n : Net) : none ∈ brought n ↔ n.conn.gotFin = true := by
  rw [brought, List.mem_append]
  split_ifs with hfin <;> simp [hfin]

theorem none_notMem_dropLast_brought (n : Net) : none ∉ (brought n).dropLast := by
  rw [brought]
  split_ifs
  · rw [List.dropLast_concat]
    simp
  · intro hmem
    simpa using List.mem_of_mem_dropLast hmem

/-- Behind the end of the stream there is nothing. -/
theorem brought_eq_nil {k m : ℕ} (hm : n.Moved base data k m) (hend : data.length < k) :
    brought n = [] := by
  have hdata : n.conn.recvData = none := by
    have hbytes := hm.fed.bytes
    rw [piece, List.drop_of_length_le (by omega), List.take_nil] at hbytes
    cases hp : n.conn.recvData with
    | none => rfl
    | some p =>
      rw [hp] at hbytes
      exact absurd hbytes (hm.fed.nonempty p hp)
  have hfin : n.conn.gotFin = false := by
    rw [← Bool.not_eq_true, hm.fed.gotFin]
    omega
  rw [brought, hdata, hfin]
  rfl

/-- The history grows by what brings the connection from position `k` to position `m`. -/
theorem Inbound.extend {n' : Net} {k m : ℕ} (hin : Inbound base data n h)
    (htake : received h = data.take k) (hend : none ∈ h ↔ data.length < k)
    (hm : n'.Moved base data k m) : Inbound base data n' (h ++ brought n') := by
  have hle := hm.fed.le
  have hall : received (h ++ brought n') = data.take m := by
    rw [received_append, received_brought, htake, hm.fed.bytes, take_append_piece,
      Nat.add_sub_cancel' hle]
  have hfin := hm.fed.gotFin
  have hmem : none ∈ h ++ brought n' ↔ data.length < m := by
    rw [List.mem_append, hend, none_mem_brought, hfin]
    omega
  refine ⟨hall ▸ List.take_prefix m data, ?_, fun hnone => ?_, ?_, fun hact => ?_⟩
  · intro p hp
    rcases List.mem_append.mp hp with hp | hp
    · exact hin.nonempty p hp
    · refine hm.fed.nonempty p ?_
      rw [brought, List.mem_append] at hp
      rcases hp with hp | hp
      · simpa using hp
      · split_ifs at hp <;> simp at hp
  · rw [hall, List.take_of_length_le (le_of_lt (hmem.mp hnone))]
  · by_cases hk : data.length < k
    · rw [brought_eq_nil hm hk, List.append_nil]
      exact hin.last
    · by_cases hnil : brought n' = []
      · rw [hnil, List.append_nil]
        exact hin.last
      · rw [List.dropLast_append_of_ne_nil hnil, List.mem_append, hend, not_or]
        exact ⟨hk, none_notMem_dropLast_brought n'⟩
  · exact ⟨fun heq => absurd (hact.symm.trans (hm.late heq)) nofun, m, hm.at_, hall, hmem⟩

theorem Inbound.leave (hin : Inbound base data n h) : Inbound base data n.leave h := by
  refine ⟨hin.front, hin.nonempty, hin.whole, hin.last, fun hact => ?_⟩
  obtain ⟨hstate, k, hat, hrest⟩ := hin.at_ hact
  exact ⟨hstate, k, hat.congr rfl (.inl rfl) id, hrest⟩

/-- Step lemma: a segment of the stream keeps the invariant. -/
theorem tcpInputSegment_inbound {app : App} (happ : app.Quiet) {s : Segment}
    (hin : Inbound base data n h) (hseg : s.rst = false → s.syn = false → 0 < s.tcplen →
      ∃ pos, s.inseg.Holds base data pos ∧ Near (received h).length pos) :
    Inbound base data (tcpInputSegment app n s) (h ++ tcpInputPassed app n s) := by
  unfold tcpInputSegment tcpInputPassed
  by_cases hact : n.conn.active = true
  · rw [if_pos hact, if_pos hact]
    obtain ⟨hstate, k, hat, htake, hend⟩ := hin.at_ hact
    have hfits : s.Fits base data k := by
      intro hk hrst hsyn hlen
      obtain ⟨pos, hholds, hnear⟩ := hseg hrst hsyn hlen
      rw [htake, List.length_take, Nat.min_eq_left hk] at hnear
      exact ⟨pos, hholds, hnear⟩
    obtain ⟨habrt, m, hm⟩ := tcpProcess_moved (n := n.enter) happ
      (hat.congr rfl (.inl rfl) id) rfl rfl hfits hstate
    dsimp only
    rw [if_neg habrt, if_neg habrt]
    refine Inbound.leave ?_
    rcases passedUp_cases happ hm.late with ⟨hnone, hgone⟩ | hall
    · rw [hnone, List.append_nil]
      exact hin.of_inactive hgone
    · rw [hall]
      exact (hin.extend htake hend hm).quiet (tcpInputDeliver_quiet happ hm.late)
  · rw [if_neg hact, if_neg hact, List.append_nil]
    exact hin

end Segments

section Header

theorem Pbuf.removeHeader_toNat {q : Pbuf} {m : UInt16} (h : m ≤ q.len) (htot : q.len ≤ q.totLen) :
    (q.removeHeader m).len.toNat = q.len.toNat - m.toNat ∧
      (q.removeHeader m).totLen.toNat = q.totLen.toNat - m.toNat := by
  rw [Pbuf.removeHeader, if_pos h]
  exact ⟨UInt16.toNat_sub_of_le _ _ h, UInt16.toNat_sub_of_le _ _ (UInt16.le_trans h htot)⟩

theorem stripHeader_chainOk {q : Pbuf} {qs p : List Pbuf} {hdrlen : UInt16} {opts : List UInt8}
    (hok : ChainOk (q :: qs)) (hlen : tcpHlen ≤ q.len) (hhdr : tcpHlen ≤ hdrlen)
    (hs : stripHeader q qs hdrlen = some (p, opts)) :
    ChainOk p ∧ (totLen p).toNat + 20 ≤ q.totLen.toNat := by
  have htot := hok.1
  have hle : q.len ≤ q.totLen := UInt16.le_iff_toNat_le.mpr (by omega)
  have h20 : tcpHlen.toNat = 20 := rfl
  have hlen' : 20 ≤ q.len.toNat := UInt16.le_iff_toNat_le.mp hlen
  have hhdr' : 20 ≤ hdrlen.toNat := UInt16.le_iff_toNat_le.mp hhdr
  unfold stripHeader at hs
  dsimp only at hs
  split at hs
  · next hfit =>
    have hfit' := UInt16.le_iff_toNat_le.mp hfit
    cases hs
    refine ⟨hok.removeHeader hfit, ?_⟩
    change (q.removeHeader hdrlen).totLen.toNat + 20 ≤ _
    rw [(Pbuf.removeHeader_toNat hfit hle).2]
    omega
  · next hover =>
    have hover' := UInt16.lt_iff_toNat_lt.mp (UInt16.not_le.mp hover)
    have hopt : (hdrlen - tcpHlen).toNat = hdrlen.toNat - 20 := UInt16.toNat_sub_of_le _ _ hhdr
    have hopt₁ : (q.len - tcpHlen).toNat = q.len.toNat - 20 := UInt16.toNat_sub_of_le _ _ hlen
    have hopt₂ : (hdrlen - tcpHlen - (q.len - tcpHlen)).toNat = hdrlen.toNat - q.len.toNat := by
      rw [UInt16.toNat_sub_of_le _ _ (UInt16.le_iff_toNat_le.mpr (by omega)), hopt, hopt₁]
      omega
    split at hs
    · cases hs
    · next r rs =>
      split at hs
      · cases hs
      · next hroom =>
        have hroom' := UInt16.le_iff_toNat_le.mp (UInt16.not_lt.mp hroom)
        cases hs
        obtain ⟨hl₁, ht₁⟩ := Pbuf.removeHeader_toNat hlen hle
        obtain ⟨hl₂, ht₂⟩ := Pbuf.removeHeader_toNat (q := q.removeHeader tcpHlen)
          (m := q.len - tcpHlen) (UInt16.le_iff_toNat_le.mpr (by omega))
          (UInt16.le_iff_toNat_le.mpr (by omega))
        have hrest := hok.2.removeHeader (UInt16.not_lt.mp hroom)
        rw [length_chainBytes_cons] at htot
        have hsum : ((((q.removeHeader tcpHlen).removeHeader (q.len - tcpHlen)).totLen -
            (hdrlen - tcpHlen - (q.len - tcpHlen))).toNat) =
              q.totLen.toNat - 20 - (q.len.toNat - 20) - (hdrlen.toNat - q.len.toNat) := by
          rw [UInt16.toNat_sub_of_le _ _ (UInt16.le_iff_toNat_le.mpr (by omega))]
          omega
        have hgone :
            (chainBytes (r.removeHeader (hdrlen - tcpHlen - (q.len - tcpHlen)) :: rs)).length =
              r.len.toNat - (hdrlen.toNat - q.len.toNat) + (chainBytes rs).length := by
          rw [chainBytes_removeHeader (UInt16.not_lt.mp hroom), List.length_drop,
            length_chainBytes_cons]
          omega
        refine ⟨⟨?_, hrest⟩, ?_⟩
        · rw [hgone]
          refine hsum.trans ?_
          change _ = ((q.removeHeader tcpHlen).removeHeader (q.len - tcpHlen)).len.toNat + _
          omega
        · change ((((q.removeHeader tcpHlen).removeHeader (q.len - tcpHlen)).totLen -
            (hdrlen - tcpHlen - (q.len - tcpHlen))).toNat) + 20 ≤ _
          omega

theorem tcpHeader_chainOk {p : List Pbuf} {s : Segment} (hok : ChainOk p)
    (hs : tcpHeader p = some s) : ChainOk s.p ∧ (totLen s.p).toNat + 1 < 2 ^ 16 := by
  unfold tcpHeader at hs
  split at hs
  · cases hs
  · next q qs =>
    dsimp only at hs
    split at hs
    · cases hs
    · next hbad =>
      simp only [not_or, UInt16.not_lt] at hbad
      obtain ⟨⟨p, opts⟩, hstrip, hseg⟩ := Option.bind_eq_some_iff.mp hs
      split at hseg
      · cases hseg
      · cases hseg
        obtain ⟨hchain, hlen⟩ := stripHeader_chainOk hok hbad.1 hbad.2.1 hstrip
        have hlt := q.totLen.toNat_lt
        exact ⟨hchain, by dsimp only; omega⟩

end Header

section Run

/-- The packet holds a segment of the peer; acknowledgements and resets need not be true. -/
def FromPeer (base : UInt32) (data : List UInt8) (h : List (Option (List Pbuf))) : Step → Prop
  | .packet _ p => ChainOk p ∧ ∀ s, tcpHeader p = some s → s.rst = false → s.syn = false →
      0 < s.tcplen → ∃ pos, s.Of base data pos ∧ Near (received h).length pos
  | _ => True

/-- The connection with what a step passes up to the server. -/
def httpConnection : Machine Net Step (Option (List Pbuf)) where
  step n step :=
    (step.run n,
      match step with
      | .packet buttonCount p =>
        match tcpHeader p with
        | none => []
        | some s => tcpInputPassed (httpServer buttonCount) n s
      | _ => [])

theorem appWrite_quiet (n : Net) (bytes : List UInt8) : n.conn.Quiet (appWrite n bytes).conn :=
  ⟨rfl, .inl rfl, rfl, rfl, id, fun _ => id, id⟩

theorem appOutput_quiet (n : Net) : n.conn.Quiet (appOutput n).conn :=
  ⟨rfl, .inl rfl, rfl, rfl, id, fun _ => id, id⟩

theorem Net.log_quiet (n : Net) (e : AppEvent) : n.conn.Quiet (n.log e).conn :=
  ⟨rfl, .inl rfl, rfl, rfl, id, fun _ => id, id⟩

theorem appClose_quiet (n : Net) : n.conn.Quiet (appClose n).conn :=
  (tcpClose_quiet n).trans (Net.log_quiet _ _)

theorem httpServer_quiet (buttonCount : UInt16) : (httpServer buttonCount).Quiet where
  accept n := ⟨rfl, rfl⟩
  recv p n := by
    refine Conn.Quiet.trans ?_ (Net.log_quiet _ _)
    cases p with
    | none => exact appClose_quiet n
    | some p =>
      dsimp only
      split_ifs
      · exact (appWrite_quiet n _).trans ((appOutput_quiet _).trans (appClose_quiet _))
      · exact .refl _

/-- Step lemma: whatever happens to a connection keeps the invariant. -/
theorem httpConnection_inbound (n : Net) (h : List (Option (List Pbuf))) (step : Step)
    (hin : Inbound base data n h) (hok : FromPeer base data h step) :
    Inbound base data (httpConnection.step n step).1 (h ++ (httpConnection.step n step).2) := by
  cases step with
  | packet buttonCount p =>
    change Inbound base data (tcpInput (httpServer buttonCount) n p) (h ++ match tcpHeader p with
      | none => []
      | some s => tcpInputPassed (httpServer buttonCount) n s)
    rw [tcpInput]
    cases hp : tcpHeader p with
    | none => exact (List.append_nil h).symm ▸ hin
    | some s =>
      obtain ⟨hchain, hlen⟩ := tcpHeader_chainOk hok.1 hp
      refine tcpInputSegment_inbound (httpServer_quiet buttonCount) hin fun hrst hsyn hpos => ?_
      obtain ⟨pos, hof, hnear⟩ := hok.2 s hp hrst hsyn hpos
      exact ⟨pos, hof.holds hsyn hchain hlen, hnear⟩
  | fasttmr =>
    change Inbound base data (if n.conn.active then tcpFasttmr n else n) (h ++ [])
    rw [List.append_nil]
    split_ifs
    · exact hin.quiet (tcpFasttmr_quiet n)
    · exact hin
  | slowtmr out dropOoseq =>
    change Inbound base data ((Step.slowtmr out dropOoseq).run n) (h ++ [])
    rw [List.append_nil]
    refine hin.quiet ⟨rfl, ?_, rfl, rfl, id, fun _ => id, id⟩
    cases dropOoseq with
    | false => exact .inl rfl
    | true => exact .inr rfl
  | giveUp =>
    change Inbound base data (tcpPcbRemove n) (h ++ [])
    rw [List.append_nil]
    exact hin.quiet (tcpPcbRemove_quiet n)

/-- However the segments of the peer are lost, repeated, cut and reordered, `http_recv` is given the
stream from its first byte on, in pieces that are not empty, and `NULL` once, when all of it has
been given; while the connection exists, `rcv_nxt` counts what was given. -/
theorem received_stream (data : List UInt8) {steps : List Step} (hooseq : n.conn.ooseq = [])
    (hstate : n.conn.state ≠ .timeWait)
    (hok : httpConnection.Allowed (fun _ => FromPeer n.conn.rcvNxt data) n [] steps) :
    let r := httpConnection.run n steps
    received r.2 <+: data ∧ (∀ p, some p ∈ r.2 → chainBytes p ≠ []) ∧
      (none ∈ r.2 → received r.2 = data) ∧ none ∉ r.2.dropLast ∧
      (r.1.conn.active = true → r.1.conn.rcvNxt =
        seqAt n.conn.rcvNxt ((received r.2).length + if r.2.any Option.isNone then 1 else 0)) := by
  obtain ⟨hfront, hnonempty, hwhole, hlast, hat⟩ :=
    Machine.run_inv_nil (m := httpConnection) (fun n h step => httpConnection_inbound n h step)
      (.start rfl hooseq hstate) hok
  refine ⟨hfront, hnonempty, hwhole, hlast, fun hact => ?_⟩
  obtain ⟨-, k, hk, htake, hend⟩ := hat hact
  have hle := hk.le_end
  have hany : (httpConnection.run n steps).2.any Option.isNone = true ↔ data.length < k := by
    rw [← hend]
    simp
  rw [hk.rcvNxt, htake, List.length_take]
  congr 1
  simp only [hany]
  split_ifs <;> omega

/-- The second half of a request, with the end of the stream, comes before the first half. -/
def swappedRequest : List Step :=
  [.packet 0 (benchPacket 3 0x11 [0x54, 0x20]), .packet 0 (benchPacket 1 0x10 [0x47, 0x45])]

theorem fromPeer_benchPacket {h : List (Option (List Pbuf))} {p : List Pbuf} (pos : ℕ)
    (hok : ChainOk p) (hh : (received h).length = 0) (hpos : pos < 2 ^ 31)
    (hs : (tcpHeader p).all fun s => s.seqno == seqAt 1 pos && pos ≤ data.length &&
      chainBytes s.p == piece data pos (chainBytes s.p).length &&
      (!s.fin || pos + (chainBytes s.p).length == data.length)) :
    FromPeer 1 data h (.packet 0 p) := by
  refine ⟨hok, fun s hp _ _ _ => ⟨pos, ?_, by omega, by omega⟩⟩
  rw [hp, Option.all_some] at hs
  simp only [Bool.and_eq_true, beq_iff_eq, decide_eq_true_eq, Bool.or_eq_true,
    Bool.not_eq_true'] at hs
  obtain ⟨⟨⟨hseq, hle⟩, hbytes⟩, hfin⟩ := hs
  exact ⟨hseq, hle, hbytes ▸ List.take_prefix _ _, fun hf => hfin.resolve_left (by simp [hf])⟩

theorem received_stream_swapped :
    let r := httpConnection.run benchNet swappedRequest
    received r.2 <+: [0x47, 0x45, 0x54, 0x20] ∧ (∀ p, some p ∈ r.2 → chainBytes p ≠ []) ∧
      (none ∈ r.2 → received r.2 = [0x47, 0x45, 0x54, 0x20]) ∧ none ∉ r.2.dropLast ∧
      (r.1.conn.active = true → r.1.conn.rcvNxt =
        seqAt benchNet.conn.rcvNxt
          ((received r.2).length + if r.2.any Option.isNone then 1 else 0)) :=
  received_stream [0x47, 0x45, 0x54, 0x20] rfl nofun
    ⟨fromPeer_benchPacket 2 ⟨by decide, trivial⟩ rfl (by decide) (by decide +kernel),
      fromPeer_benchPacket 0 ⟨by decide, trivial⟩ (by decide +kernel) (by decide)
        (by decide +kernel), trivial⟩

end Run

end EthernetPing
