import EthernetPing.Net.EtharpMoves

/-!
# Runs of the address resolution

Whatever is heard and sent in whatever order, a packet goes to the station that announced the
address of its next hop last, not longer ago than an entry lives, and no packet is sent twice.
-/

namespace EthernetPing

section Runs

variable {n : NetifIp} {h : List ArpRecord} {k : Etharp} {d : List UInt8}

theorem lastHeard_sent (h : List ArpRecord) (frames : List (List UInt8)) :
    lastHeard (h ++ frames.map .sent) = lastHeard h := by
  induction frames generalizing h with
  | nil => rw [List.map_nil, List.append_nil]
  | cons f fs ih =>
    rw [List.map_cons, List.append_cons, ih]
    exact funext fun ip => lastHeard_append h _ ip

theorem Justified.sent {f : List UInt8} (hf : Justified n h f) (frames : List (List UInt8)) :
    Justified n (h ++ frames.map .sent) f := by
  cases hf with
  | packet q ipaddr dst hmem hdst =>
    refine .packet q ipaddr dst (List.mem_append_left _ hmem) ?_
    rwa [LinkAddr, lastHeard_sent]
  | ask q ipaddr hop hcall hroute hip => exact .ask q ipaddr hop (hcall.sent frames) hroute hip
  | askAgain hop age htick hawaited hage hip =>
    exact .askAgain hop age (htick.sent frames) (hawaited.sent frames) hage hip
  | renew q ipaddr hop announcer age hcall hroute hheard hage =>
    refine .renew q ipaddr hop announcer age (hcall.sent frames) hroute ?_ hage
    rwa [lastHeard_sent]
  | reply m hproper hop hfor hfrom hlast =>
    exact .reply m hproper hop hfor hfrom (hlast.sent frames)

/-- Every frame of a history was justified when it was sent. -/
def AllJustified (n : NetifIp) (h : List ArpRecord) : Prop :=
  ∀ past frame rest, h = past ++ .sent frame :: rest → Justified n past frame

theorem AllJustified.snoc (hall : AllJustified n h) {r : ArpRecord}
    (hr : ∀ frame, r = .sent frame → Justified n h frame) : AllJustified n (h ++ [r]) := by
  intro past frame rest heq
  rcases List.eq_nil_or_concat rest with rfl | ⟨rest, r', rfl⟩
  · obtain ⟨rfl, hlast⟩ := List.append_inj' heq rfl
    exact hr frame (List.singleton_inj.mp hlast)
  · rw [List.concat_eq_append, ← List.cons_append, ← List.append_assoc] at heq
    exact hall past frame rest (List.append_inj' heq rfl).1

theorem AllJustified.sent (hall : AllJustified n h) {frames : List (List UInt8)}
    (hframes : ∀ f ∈ frames, Justified n h f) : AllJustified n (h ++ frames.map .sent) := by
  induction frames using List.reverseRecOn with
  | nil => rwa [List.map_nil, List.append_nil]
  | append_singleton fs f ih =>
    rw [List.map_append, ← List.append_assoc]
    refine (ih fun f' hf' => hframes f' (List.mem_append_left _ hf')).snoc fun frame heq => ?_
    cases heq
    exact (hframes f (List.mem_append_right _ List.mem_cons_self)).sent fs

/-- What holds of the table and the history between the events. -/
structure Resolving (n : NetifIp) (k : Etharp) (h : List ArpRecord) : Prop where
  sound : k.Sound n (lastHeard h)
  keeps : k.Keeps n h
  justified : AllJustified n h
  /-- A packet is sent at most as often as it was given, less those that still wait. -/
  count : ∀ d, timesSent d h + timesKept d k ≤ timesGiven d h

/-- The packet that comes with an event. -/
def ArpEvent.inHand : ArpEvent → List (List UInt8)
  | .output q _ => [q.bytes]
  | .input _ | .tmr => []

/-- The packets that come can be sent. -/
def ArpEvent.Sendable : ArpEvent → Prop
  | .output q _ => q.Sendable
  | .input _ | .tmr => True

theorem ArpEvent.run_moves (e : ArpEvent) (hk : k.Sound n (lastHeard h)) (hkeeps : k.Keeps n h)
    (he : e.Sendable) :
    Moves n (h ++ [.event e]) e.inHand k [] (e.run n k) ∧
      (e.run n k).Sound n (lastHeard (h ++ [.event e])) ∧
      (e.run n k).Keeps n (h ++ [.event e]) := by
  cases e with
  | input m => exact etharpInput_moves [] hk hkeeps
  | output q ipaddr =>
    have hsame : lastHeard (h ++ [.event (.output q ipaddr)]) = lastHeard h :=
      funext fun ip => lastHeard_append h _ ip
    exact etharpOutput_moves (hsame.symm ▸ hk) (hkeeps.snoc rfl fun m hm => by cases hm) he
      (.snoc h _)
  | tmr => exact etharpTmr_moves [] hk hkeeps

theorem timesSent_sent (d : List UInt8) (frames : List (List UInt8)) :
    timesSent d (frames.map .sent) = frames.countP fun f => ipData f == some d := by
  rw [timesSent, List.countP_map]
  rfl

theorem timesGiven_sent (d : List UInt8) (frames : List (List UInt8)) :
    timesGiven d (frames.map .sent) = 0 := by
  rw [timesGiven, List.countP_map, List.countP_eq_zero]
  exact fun f _ => Bool.false_ne_true

theorem timesGiven_event (d : List UInt8) (e : ArpEvent) :
    timesGiven d [.event e] = e.inHand.count d := by
  rw [timesGiven, List.countP_singleton]
  cases e with
  | output q ipaddr => exact (List.countP_singleton ..).symm
  | _ => rfl

/-- Step lemma: an event, with the frames that are sent on it. -/
theorem etharpMachine_resolving {e : ArpEvent} (hinv : Resolving n k h) (he : e.Sendable) :
    Resolving n ((etharpMachine n).step k e).1 (h ++ ((etharpMachine n).step k e).2) := by
  obtain ⟨hmoves, hsound, hkeeps⟩ := e.run_moves
    (k := { k with out := { k.out with sent := [] } }) (hinv.sound.withOut _)
    ⟨hinv.keeps.1, hinv.keeps.2⟩ he
  obtain ⟨frames, hsent, hjust, hcount⟩ := hmoves
  rw [List.nil_append] at hsent
  have hstep : (etharpMachine n).step k e = (e.run n { k with out := { k.out with sent := [] } },
      .event e :: frames.map .sent) := by
    rw [← hsent]
    rfl
  rw [hstep, ← List.singleton_append, ← List.append_assoc]
  have hall := hinv.justified.snoc (r := .event e) fun _ heq => ArpRecord.noConfusion heq
  refine ⟨(lastHeard_sent _ frames).symm ▸ hsound, hkeeps.sent frames,
    hall.sent hjust, fun d => ?_⟩
  have hold := hinv.count d
  have hnew := hcount d
  have hgiven := timesGiven_event d e
  have hmap := timesSent_sent d frames
  have hnone := timesGiven_sent d frames
  have hevent : timesSent d [.event e] = 0 := rfl
  rw [List.count_nil] at hnew
  simp only [timesSent, timesGiven, timesKept, List.countP_append] at *
  omega

theorem entry_start (ram : ℕ → Option (ℕ → UInt8)) (i : ℕ) :
    (Etharp.start ram).entry i = ⟨none, 0, ethzero, 0, .empty⟩ := by
  rw [Etharp.entry, Etharp.start, List.getD_eq_getElem?_getD, List.getElem?_replicate]
  split_ifs <;> rfl

theorem resolving_start (n : NetifIp) (ram : ℕ → Option (ℕ → UInt8)) :
    Resolving n (Etharp.start ram) [] where
  sound := ⟨List.length_replicate, Nat.two_pos,
    fun i => .of_empty (by rw [entry_start]) (by rw [entry_start]),
    fun i j hi _ _ => absurd (by rw [entry_start]) hi⟩
  keeps := ⟨fun i p hp => (by rw [entry_start] at hp; cases hp),
    fun i hi => (by rw [entry_start] at hi; cases hi)⟩
  justified past frame rest heq := by simp at heq
  count d := le_rfl

/-- Run lemma: from the start, everything that can be sent. -/
theorem etharpMachine_run (n : NetifIp) (ram : ℕ → Option (ℕ → UInt8)) {events : List ArpEvent}
    (hevents : ∀ e ∈ events, e.Sendable) :
    Resolving n ((etharpMachine n).run (Etharp.start ram) events).1
      ((etharpMachine n).run (Etharp.start ram) events).2 :=
  Machine.run_inv_nil (P := fun _ _ e => e.Sendable)
    (fun _ _ _ hinv he => etharpMachine_resolving hinv he) (resolving_start n ram)
    (Machine.allowed_of_forall fun e he _ _ => hevents e he)

/-- However packets, announcements and ticks come, and whenever memory fails: the table has one
entry for an address and tells who announced it last; every frame that was sent was justified by
what had happened, so that a packet goes to the station of its next hop only; and no packet is
sent more often than it was given. -/
theorem arp_run (n : NetifIp) (ram : ℕ → Option (ℕ → UInt8)) {events : List ArpEvent}
    (hevents : ∀ e ∈ events, e.Sendable) :
    let r := (etharpMachine n).run (Etharp.start ram) events
    r.1.Sound n (lastHeard r.2) ∧ AllJustified n r.2 ∧
      ∀ d, timesSent d r.2 + timesKept d r.1 ≤ timesGiven d r.2 := by
  have hinv := etharpMachine_run n ram hevents
  exact ⟨hinv.sound, hinv.justified, hinv.count⟩

/-- The answer of a station to a request. -/
def peerAnswer (peer : EthAddr) (ipaddr dipaddr : UInt32) : ArpMessage :=
  ⟨lwipHtons 1, lwipHtons ethtypeIp, 6, 4, lwipHtons arpReply, peer, ipaddr, dipaddr⟩

def threeBytes : Pkt := ⟨fun i => UInt8.ofNat i, 16, 3, 3, [], false⟩

/-- A packet for a neighbour, a tick, its answer, and another packet. -/
def answeredEvents : List ArpEvent :=
  [.output threeBytes 0x0501a8c0, .tmr,
    .input (peerAnswer ![2, 0, 0, 0, 0, 9] 0x0501a8c0 0x6401a8c0), .output threeBytes 0x0501a8c0]

theorem threeBytes_sendable : threeBytes.Sendable :=
  ⟨⟨rfl, trivial⟩, fun h => Bool.noConfusion h⟩

theorem arp_run_answered :
    let r := (etharpMachine (encNetif ![2, 0, 0, 0, 0, 1])).run
      (Etharp.start fun _ => some fun _ => 0) answeredEvents
    (r.1.Sound (encNetif ![2, 0, 0, 0, 0, 1]) (lastHeard r.2) ∧
      AllJustified (encNetif ![2, 0, 0, 0, 0, 1]) r.2 ∧
      ∀ d, timesSent d r.2 + timesKept d r.1 ≤ timesGiven d r.2) ∧
    timesSent [16, 17, 18] r.2 = 2 := by
  refine ⟨arp_run _ _ fun e he => ?_, by decide⟩
  rcases he with _ | ⟨_, _ | ⟨_, _ | ⟨_, _ | ⟨_, he⟩⟩⟩⟩
  · exact threeBytes_sendable
  · trivial
  · trivial
  · exact threeBytes_sendable
  · cases he

/-- The Ethernet header fits in front of a packet. -/
def Pkt.Roomy (p : Pkt) : Prop := p.totLen.toNat + 14 < 65536 ∧ 14 ≤ p.off

theorem etharpUpdateArpEntry_releases {heard : Heard} {i : ℕ} {p : Pkt} (hk : k.Sound n heard)
    (hq : (k.entry i).q = some p) (hroom : p.Roomy) (ethaddr : EthAddr) (flags : UInt8) :
    (etharpUpdateArpEntry n (k.entry i).ipaddr ethaddr flags k).out.sent =
      k.out.sent ++ [ethFrame ethaddr n.hwaddr ethtypeIp p.bytes] := by
  have hpending : (k.entry i).state = .pending := by
    by_contra hne
    exact Option.some_ne_none p (hq.symm.trans ((hk.entries i).waits hne))
  have hused : (k.entry i).state ≠ .empty := by rw [hpending]; decide
  have hfound := etharpFindEntry_found hk (k.entry i).ipaddr flags
  rw [etharpUpdateArpEntry, if_pos ((hk.entries i).unicast hused)]
  generalize etharpFindEntry (k.entry i).ipaddr flags k = r at hfound
  cases hfound with
  | present j hj hne heq =>
    obtain rfl : j = i := hk.distinct j i hne hused heq
    dsimp only
    rw [hq]
    dsimp only
    rw [ethernetOutput_eq ((hk.entries j).whole p hq)]
    exact congrArg (fun r : LinkErr × LinkOut => r.2.sent) (if_pos hroom)
  | claimed j _ hj hnone => exact absurd rfl (hnone i hused)
  | missing _ hnone => exact absurd rfl (hnone i hused)

theorem etharpInput_releases {heard : Heard} {i : ℕ} {p : Pkt} {m : ArpMessage}
    (hk : k.Sound n heard) (hq : (k.entry i).q = some p) (hroom : p.Roomy) (hproper : m.Proper)
    (hfrom : m.sipaddr = (k.entry i).ipaddr) :
    ethFrame m.shwaddr n.hwaddr ethtypeIp p.bytes ∈ (etharpInput n m k).out.sent := by
  rw [etharpInput, if_pos hproper, hfrom]
  generalize (if m.forUs n then etharpFlagTryHard else etharpFlagFindOnly) = flags
  have hsent := etharpUpdateArpEntry_releases hk hq hroom m.shwaddr flags
  have hmem : ethFrame m.shwaddr n.hwaddr ethtypeIp p.bytes ∈
      (etharpUpdateArpEntry n (k.entry i).ipaddr m.shwaddr flags k).out.sent :=
    hsent ▸ List.mem_append_right _ List.mem_cons_self
  dsimp only
  split
  · rcases etharpRaw_sent n.hwaddr m.shwaddr n.hwaddr n.ipAddr m.shwaddr (k.entry i).ipaddr
      arpReply (etharpUpdateArpEntry n (k.entry i).ipaddr m.shwaddr flags k).out with ho | ho
    · exact ho.symm ▸ hmem
    · exact ho.symm ▸ List.mem_append_left _ hmem
  · exact hmem

/-- In every run, a packet that waits is sent as soon as the station it waits for is heard. -/
theorem arp_answered (n : NetifIp) (ram : ℕ → Option (ℕ → UInt8)) {events : List ArpEvent}
    (hevents : ∀ e ∈ events, e.Sendable) {i : ℕ} {p : Pkt} {m : ArpMessage}
    (hq : (((etharpMachine n).run (Etharp.start ram) events).1.entry i).q = some p)
    (hroom : p.Roomy) (hproper : m.Proper)
    (hfrom : m.sipaddr = (((etharpMachine n).run (Etharp.start ram) events).1.entry i).ipaddr) :
    .sent (ethFrame m.shwaddr n.hwaddr ethtypeIp p.bytes) ∈
      ((etharpMachine n).step ((etharpMachine n).run (Etharp.start ram) events).1
        (.input m)).2 := by
  have hinv := etharpMachine_run n ram hevents
  generalize (etharpMachine n).run (Etharp.start ram) events = r at hq hfrom hinv ⊢
  have hsent := etharpInput_releases (hinv.sound.withOut { r.1.out with sent := [] }) hq hroom
    hproper hfrom
  exact List.mem_cons_of_mem _ (List.mem_map_of_mem hsent)

theorem arp_answered_neighbour :
    .sent (ethFrame ![2, 0, 0, 0, 0, 9] ![2, 0, 0, 0, 0, 1] ethtypeIp threeBytes.bytes) ∈
      ((etharpMachine (encNetif ![2, 0, 0, 0, 0, 1])).step
        ((etharpMachine (encNetif ![2, 0, 0, 0, 0, 1])).run
          (Etharp.start fun _ => some fun _ => 0) [.output threeBytes 0x0501a8c0]).1
        (.input (peerAnswer ![2, 0, 0, 0, 0, 9] 0x0501a8c0 0x6401a8c0))).2 :=
  arp_answered (encNetif ![2, 0, 0, 0, 0, 1]) _
    (fun _ he => by rw [List.mem_singleton.mp he]; exact threeBytes_sendable) (i := 0) rfl
    ⟨by decide, by decide⟩ (by decide) (by decide)

end Runs

end EthernetPing
