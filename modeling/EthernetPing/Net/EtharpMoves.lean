import EthernetPing.Net.EtharpHistory

/-!
# Steps of the address resolution

Each function of `etharp.c` keeps the table sound and moves packets and frames as it may.
-/

namespace EthernetPing

section Steps

variable {n : NetifIp} {h : List ArpRecord} {hand : List (List UInt8)} {k k' : Etharp}
  {heard : Heard} {i : ℕ} {ip : UInt32}

theorem etharpFindEntry_moves (h' : List ArpRecord) (hand : List (List UInt8))
    (hk : k.Sound n heard) (hkeeps : k.Keeps n h) (ip : UInt32) (flags : UInt8) :
    Moves n h' hand k hand (etharpFindEntry ip flags k).2 ∧
      (etharpFindEntry ip flags k).2.Sound n heard ∧ (etharpFindEntry ip flags k).2.Keeps n h := by
  have hfound := etharpFindEntry_found hk ip flags
  generalize etharpFindEntry ip flags k = r at hfound
  cases hfound with
  | present i hi hne heq => exact ⟨.refl _ _ _ _, hk, hkeeps⟩
  | claimed i ethaddr hi hnone =>
    have hi' : i < k.arpTable.length := hk.size ▸ hi
    exact ⟨.setEntry hi' (Or.inl rfl),
      hk.setEntry hi (.of_empty rfl rfl) fun j _ hj => ⟨fun hne => absurd rfl hne, rfl⟩,
      hkeeps.setIdle hi' rfl (by simp)⟩
  | missing hflags hnone => exact ⟨.refl _ _ _ _, hk, hkeeps⟩

/-- The entry that is found is the only one for the address. -/
theorem Found.at (hk : k.Sound n heard) {flags : UInt8} (h : Found ip flags k (some i, k')) :
    i < arpTableSize ∧ (k'.entry i).ipaddr = ip ∧
      ((k'.entry i).state = .empty → (k'.entry i).ctime = 0) ∧
      ∀ j, j ≠ i → (k'.entry j).state ≠ .empty → (k'.entry j).ipaddr ≠ ip := by
  cases h with
  | present _ hi hne heq =>
    exact ⟨hi, heq, fun hempty => absurd hempty hne,
      fun j hj hne' heq' => hj (hk.distinct j i hne' hne (heq'.trans heq.symm))⟩
  | claimed _ ethaddr hi hnone =>
    have hget := Etharp.entry_setEntry (k := k) (i := i) (by rw [hk.size]; exact hi)
      ⟨none, ip, ethaddr, 0, .empty⟩
    refine ⟨hi, by rw [hget, if_pos rfl], fun _ => by rw [hget, if_pos rfl], fun j hj => ?_⟩
    rw [hget, if_neg hj]
    exact hnone j

/-- An announcement makes its entry stable and releases the packet that waited for it. -/
theorem etharpUpdateArpEntry_moves (hand : List (List UInt8)) {m : ArpMessage}
    (hk : k.Sound n (lastHeard h)) (hkeeps : k.Keeps n h) (hproper : m.Proper) (flags : UInt8) :
    Moves n (h ++ [.event (.input m)]) hand k hand
        (etharpUpdateArpEntry n m.sipaddr m.shwaddr flags k) ∧
      (etharpUpdateArpEntry n m.sipaddr m.shwaddr flags k).Sound n
        (lastHeard (h ++ [.event (.input m)])) ∧
      (etharpUpdateArpEntry n m.sipaddr m.shwaddr flags k).Keeps n (h ++ [.event (.input m)]) := by
  have hheard : lastHeard (h ++ [.event (.input m)]) m.sipaddr = some (m.shwaddr, 0) := by
    rw [lastHeard_append]
    exact if_pos ⟨hproper, rfl⟩
  have hothers : ∀ ip, ip ≠ m.sipaddr →
      lastHeard (h ++ [.event (.input m)]) ip = lastHeard h ip := fun ip hip => by
    rw [lastHeard_append]
    exact if_neg fun heq => hip heq.2.symm
  -- the packets that wait for another station wait on
  have hlater : ∀ {k : Etharp}, k.Keeps n h →
      (∀ i, (k.entry i).state = .pending → (k.entry i).ipaddr ≠ m.sipaddr) →
      k.Keeps n (h ++ [.event (.input m)]) := fun hkeeps hne =>
    hkeeps.snoc rfl fun m' hm' _ => by cases hm'; exact hne
  rw [etharpUpdateArpEntry]
  split_ifs with hip
  · obtain ⟨hmoves, hsound, hkeeps'⟩ :=
      etharpFindEntry_moves (h ++ [.event (.input m)]) hand hk hkeeps m.sipaddr flags
    have hfound := etharpFindEntry_found hk m.sipaddr flags
    generalize etharpFindEntry m.sipaddr flags k = r at hfound hmoves hsound hkeeps'
    obtain ⟨o, k'⟩ := r
    cases o with
    | none =>
      cases hfound with
      | missing _ hnone =>
        exact ⟨hmoves, hsound.congr fun i hi => hothers _ (hnone i hi),
          hlater hkeeps' fun i hi => hnone i (by rw [hi]; decide)⟩
    | some i =>
      obtain ⟨hi, heq, -, honly⟩ := hfound.at hk
      have hi' : i < k'.arpTable.length := hsound.size ▸ hi
      have hget := Etharp.entry_setEntry hi' ⟨none, (k'.entry i).ipaddr, m.shwaddr, 0, .stable⟩
      have hs : (k'.setEntry i ⟨none, (k'.entry i).ipaddr, m.shwaddr, 0, .stable⟩).Sound n
          (lastHeard (h ++ [.event (.input m)])) := by
        refine hsound.setEntry hi ⟨fun _ => rfl, fun p hp => (Option.some_ne_none p hp.symm).elim,
          fun _ => heq ▸ hip, fun hp => EtharpState.noConfusion hp,
          fun _ => ⟨(by decide : (0 : UInt16) < arpMaxage), heq ▸ hheard⟩⟩ fun j hj hne =>
          ⟨fun _ => heq ▸ honly j hj hne, hothers _ (honly j hj hne)⟩
      have hkp : (k'.setEntry i ⟨none, (k'.entry i).ipaddr, m.shwaddr, 0, .stable⟩).Keeps n
          (h ++ [.event (.input m)]) := by
        refine hlater (hkeeps'.setIdle hi' rfl (by simp)) fun j hj => ?_
        rw [hget] at hj ⊢
        split_ifs at hj ⊢ with hji
        exact honly j hji (by rw [hj]; decide)
      dsimp only
      cases hq : (k'.entry i).q with
      | none => exact ⟨hmoves.trans (.setEntry hi' (Or.inl rfl)), hs, hkp⟩
      | some p =>
        have hgiven := heq ▸ (hkeeps'.given i p hq).mono
          (List.subset_append_left h [.event (.input m)])
        exact ⟨hmoves.trans ((Moves.take hi' hq rfl).trans (.packet ((hsound.entries i).whole p hq)
          (hgiven.linkAddr hheard (by decide)))), hs.withOut _, hkp.1, hkp.2⟩
  · have hne : ∀ i, (k.entry i).state ≠ .empty → (k.entry i).ipaddr ≠ m.sipaddr :=
      fun i hi heq => hip (heq ▸ (hk.entries i).unicast hi)
    exact ⟨.refl _ _ _ _, hk.congr fun i hi => hothers _ (hne i hi),
      hlater hkeeps fun i hi => hne i (by rw [hi]; decide)⟩

theorem etharpRerequest_moves (hand : List (List UInt8)) (hk : k.Sound n (lastHeard h))
    (hkeeps : k.Keeps n h) (hi : i < arpTableSize) {q : Pkt} {ipaddr : UInt32}
    (hcall : Follows h (.output q ipaddr)) (hroute : RoutesTo n ipaddr (k.entry i).ipaddr) :
    Moves n h hand k hand (etharpRerequest n i k) ∧
      (etharpRerequest n i k).Sound n (lastHeard h) ∧ (etharpRerequest n i k).Keeps n h ∧
      ((etharpRerequest n i k).entry i).ipaddr = (k.entry i).ipaddr ∧
      ((etharpRerequest n i k).entry i).ethaddr = (k.entry i).ethaddr := by
  rw [etharpRerequest]
  dsimp only
  split
  · next hold =>
    have hstable : (k.entry i).state.isStable = true := by rw [hold.1]; rfl
    obtain ⟨hage, hheard⟩ := (hk.entries i).stable hstable
    have hunicast := (hk.entries i).unicast (by rw [hold.1]; decide)
    have hidle := (hk.entries i).waits (by rw [hold.1]; decide)
    generalize hdst : (if arpAgeRerequestUsedBroadcast ≤ (k.entry i).ctime then ethbroadcast
      else (k.entry i).ethaddr) = dst
    have hask : Moves n h hand k hand
        { k with out := (etharpRequestDst n (k.entry i).ipaddr dst k.out).2 } := by
      rw [← hdst]
      simp only [UInt16.le_iff_toNat_le]
      exact .request (.renew q ipaddr _ _ _ hcall hroute hheard
        (UInt16.le_iff_toNat_le.mp hold.2))
    generalize etharpRequestDst n (k.entry i).ipaddr dst k.out = r at hask
    obtain ⟨err, out⟩ := r
    have hk' := hk.withOut out
    have hi' : i < { k with out }.arpTable.length := hk'.size ▸ hi
    have hget := Etharp.entry_setEntry hi' { k.entry i with state := .stableRerequesting1 } i
    rw [if_pos rfl] at hget
    dsimp only
    split_ifs
    · refine ⟨hask.trans (.setEntry hi' (Or.inr rfl)), ?_, ?_, ?_, ?_⟩
      · refine hk'.setEntry hi ⟨fun _ => hidle, (hk.entries i).whole, fun _ => hunicast,
          fun hp => EtharpState.noConfusion hp, fun _ => ⟨hage, hheard⟩⟩ fun j hj hne =>
          ⟨fun _ heq => hj (hk.distinct j i hne (by rw [hold.1]; decide) heq), rfl⟩
      · exact Etharp.Keeps.setIdle ⟨hkeeps.1, hkeeps.2⟩ hi' hidle (by simp)
      · rw [hget]
      · rw [hget]
    · exact ⟨hask, hk', ⟨hkeeps.1, hkeeps.2⟩, rfl, rfl⟩
  · exact ⟨.refl _ _ _ _, hk, hkeeps, rfl, rfl⟩

theorem etharpOutputToArpIndex_moves (hk : k.Sound n (lastHeard h)) (hkeeps : k.Keeps n h)
    {q : Pkt} {ipaddr : UInt32} (hq : q.Ok) (hi : i < arpTableSize)
    (hstate : (k.entry i).state.isStable = true) (hcall : Follows h (.output q ipaddr))
    (hroute : RoutesTo n ipaddr (k.entry i).ipaddr) :
    Moves n h (q.bytes :: hand) k hand (etharpOutputToArpIndex n q i k).2 ∧
      (etharpOutputToArpIndex n q i k).2.Sound n (lastHeard h) ∧
      (etharpOutputToArpIndex n q i k).2.Keeps n h := by
  obtain ⟨hage, hheard⟩ := (hk.entries i).stable hstate
  obtain ⟨hmoves, hsound, hkeeps', hipaddr, hethaddr⟩ := etharpRerequest_moves (q.bytes :: hand)
    hk hkeeps hi hcall hroute
  refine ⟨hmoves.trans (.packet hq ?_), hsound.withOut _, hkeeps'.1, hkeeps'.2⟩
  rw [hethaddr]
  exact GivenFor.linkAddr ⟨q, ipaddr, hcall.mem, rfl, hroute⟩ hheard
    (UInt16.lt_iff_toNat_lt.mp hage)

/-- A packet that can be copied as a whole. -/
def Pkt.Sendable (q : Pkt) : Prop := q.Ok ∧ (q.isRef = true → q.Full)

theorem takeOver_spec {q : Pkt} (hq : q.Sendable) (o : LinkOut) :
    (takeOver q o).2.sent = o.sent ∧
      ∀ p, (takeOver q o).1 = some p → p.Ok ∧ p.bytes = q.bytes := by
  rw [takeOver]
  split_ifs with href
  · exact ⟨rfl, fun p hp => pbufClone_spec hq.1 (hq.2 href) hp⟩
  · refine ⟨rfl, fun p hp => ?_⟩
    cases hp
    exact ⟨hq.1, rfl⟩

theorem etharpNewEntry_moves (hand : List (List UInt8)) (hk : k.Sound n (lastHeard h))
    (hkeeps : k.Keeps n h) (hi : i < arpTableSize) (hip : ip4AddrIsUnicast ip n = true)
    (heq : (k.entry i).ipaddr = ip) (hctime : (k.entry i).state = .empty → (k.entry i).ctime = 0)
    (honly : ∀ j, j ≠ i → (k.entry j).state ≠ .empty → (k.entry j).ipaddr ≠ ip) {q : Pkt}
    {ipaddr : UInt32} (hcall : Follows h (.output q ipaddr)) (hroute : RoutesTo n ipaddr ip) :
    Moves n h hand k hand (etharpNewEntry n ip i k) ∧
      (etharpNewEntry n ip i k).Sound n (lastHeard h) ∧ (etharpNewEntry n ip i k).Keeps n h ∧
      ((etharpNewEntry n ip i k).entry i).state ≠ .empty ∧
      ((etharpNewEntry n ip i k).entry i).ipaddr = ip ∧
      ∀ j, j ≠ i → ((etharpNewEntry n ip i k).entry j).state ≠ .empty →
        ((etharpNewEntry n ip i k).entry j).ipaddr ≠ ip := by
  rw [etharpNewEntry]
  split_ifs with hempty
  · have hi' : i < k.arpTable.length := hk.size ▸ hi
    have hidle := (hk.entries i).waits (by rw [hempty]; decide)
    have hget := Etharp.entry_setEntry hi' { k.entry i with state := .pending }
    have hset : Moves n h hand k hand (k.setEntry i { k.entry i with state := .pending }) :=
      .setEntry hi' (Or.inr rfl)
    refine ⟨hset.trans (.request (.ask q ipaddr ip hcall hroute hip)), Etharp.Sound.withOut ?_ _,
      ?_, ?_, ?_, ?_⟩
    · refine hk.setEntry hi ⟨fun _ => hidle, (hk.entries i).whole, fun _ => heq ▸ hip,
        fun _ => ?_, fun hs => Bool.noConfusion hs⟩ fun j hj hne =>
        ⟨fun _ => heq ▸ honly j hj hne, rfl⟩
      dsimp only
      rw [hctime hempty]
      decide
    · have hkeeps' : (k.setEntry i { k.entry i with state := .pending }).Keeps n h := by
        refine hkeeps.setEntry hi'
          (fun p hp => (Option.some_ne_none p (hp.symm.trans hidle)).elim) fun _ => ?_
        dsimp only
        rw [hctime hempty, heq]
        exact hcall.awaited hroute
      exact ⟨hkeeps'.1, hkeeps'.2⟩
    · have hstate := congrArg EtharpEntry.state ((hget i).trans (if_pos rfl))
      exact fun hne => EtharpState.noConfusion (hstate.symm.trans hne)
    · exact (congrArg EtharpEntry.ipaddr ((hget i).trans (if_pos rfl))).trans heq
    · intro j hj
      have hold := (hget j).trans (if_neg hj)
      change ((k.setEntry i _).entry j).state ≠ .empty → ((k.setEntry i _).entry j).ipaddr ≠ ip
      rw [hold]
      exact honly j hj
  · exact ⟨.refl _ _ _ _, hk, hkeeps, hempty, heq, honly⟩

/-- A packet is sent to a stable entry or waits in a pending one. -/
theorem etharpQuery_moves (hk : k.Sound n (lastHeard h)) (hkeeps : k.Keeps n h) {q : Pkt}
    {ipaddr : UInt32} (hq : q.Sendable) (hcall : Follows h (.output q ipaddr))
    (hroute : RoutesTo n ipaddr ip) :
    Moves n h (q.bytes :: hand) k hand (etharpQuery n ip q k).2 ∧
      (etharpQuery n ip q k).2.Sound n (lastHeard h) ∧ (etharpQuery n ip q k).2.Keeps n h := by
  have hgiven : GivenFor n h q.bytes ip := ⟨q, ipaddr, hcall.mem, rfl, hroute⟩
  rw [etharpQuery]
  split_ifs with hip
  · obtain ⟨hmoves, hsound, hkeeps'⟩ :=
      etharpFindEntry_moves h (q.bytes :: hand) hk hkeeps ip etharpFlagTryHard
    have hfound := etharpFindEntry_found hk ip etharpFlagTryHard
    generalize etharpFindEntry ip etharpFlagTryHard k = r at hfound hmoves hsound hkeeps'
    obtain ⟨o, k'⟩ := r
    cases o with
    | none => exact ⟨hmoves.trans (.drop _), hsound, hkeeps'⟩
    | some i =>
      obtain ⟨hi, heq, hctime, honly⟩ := hfound.at hk
      obtain ⟨hnew, hsound, hkeeps', hne, heq, honly⟩ := etharpNewEntry_moves (q.bytes :: hand)
        hsound hkeeps' hi hip heq hctime honly hcall hroute
      dsimp only
      generalize etharpNewEntry n ip i k' = k₁ at hnew hsound hkeeps' hne heq honly
      have hi' : i < k₁.arpTable.length := hsound.size ▸ hi
      cases hstable : (k₁.entry i).state.isStable with
      | true =>
        obtain ⟨hage, hheard⟩ := (hsound.entries i).stable hstable
        have hjust := (heq ▸ hgiven).linkAddr hheard (UInt16.lt_iff_toNat_lt.mp hage)
        rw [if_pos rfl]
        exact ⟨hmoves.trans (hnew.trans (.packet hq.1 hjust)),
          ⟨hsound.size, hi, hsound.entries, hsound.distinct⟩, hkeeps'.1, hkeeps'.2⟩
      | false =>
        have hpending : (k₁.entry i).state = .pending := by
          cases hs : (k₁.entry i).state with
          | empty => exact absurd hs hne
          | pending => rfl
          | _ => rw [hs] at hstable; cases hstable
        rw [if_neg Bool.false_ne_true]
        obtain ⟨hsent, htaken⟩ := takeOver_spec hq k₁.out
        generalize takeOver q k₁.out = r at hsent htaken
        obtain ⟨o, out⟩ := r
        cases o with
        | none =>
          exact ⟨hmoves.trans (hnew.trans ((Moves.quiet hsent).trans (.drop _))),
            hsound.withOut _, hkeeps'.1, hkeeps'.2⟩
        | some p =>
          obtain ⟨hp, hbytes⟩ := htaken p rfl
          dsimp only
          refine ⟨hmoves.trans (hnew.trans (Moves.trans ?_ (Moves.quiet hsent))),
            Etharp.Sound.withOut ?_ _, ?_⟩
          · rw [← hbytes]
            exact .keep hi' rfl
          · refine hsound.setEntry hi ⟨fun hs => absurd hpending hs, fun p' hp' => ?_,
              (hsound.entries i).unicast, (hsound.entries i).pending, (hsound.entries i).stable⟩
              fun j hj hne' => ⟨fun _ => heq ▸ honly j hj hne', rfl⟩
            cases hp'
            exact hp
          · have hset := hkeeps'.setEntry hi' (e := { k₁.entry i with q := some p })
              (fun p' hp' => by
                cases hp'
                rw [hbytes]
                exact heq ▸ hgiven) (hkeeps'.awaited i)
            exact ⟨hset.1, hset.2⟩
  · exact ⟨.drop _, hk, hkeeps⟩

theorem findStable_some {dst : UInt32} {es : List EtharpEntry} {i j : ℕ}
    (h : findStable dst es i = some j) :
    ∃ e, i ≤ j ∧ es[j - i]? = some e ∧ e.state.isStable = true ∧ dst = e.ipaddr := by
  induction es generalizing i with
  | nil => cases h
  | cons e es ih =>
    rw [findStable] at h
    split_ifs at h with hmatch
    · cases h
      exact ⟨e, le_rfl, by simp, hmatch⟩
    · obtain ⟨e', hle, hget, hstable⟩ := ih h
      have hsub : j - i = j - (i + 1) + 1 := by omega
      exact ⟨e', by omega, by rw [hsub, List.getElem?_cons_succ]; exact hget, hstable⟩

theorem etharpOutput_moves (hk : k.Sound n (lastHeard h)) (hkeeps : k.Keeps n h) {q : Pkt}
    {ipaddr : UInt32} (hq : q.Sendable) (hcall : Follows h (.output q ipaddr)) :
    Moves n h (q.bytes :: hand) k hand (etharpOutput n q ipaddr k).2 ∧
      (etharpOutput n q ipaddr k).2.Sound n (lastHeard h) ∧
      (etharpOutput n q ipaddr k).2.Keeps n h := by
  rw [etharpOutput]
  split_ifs with hbroad hmulti
  · refine ⟨.packet hq.1 (.packet q ipaddr _ hcall.mem ?_), hk.withOut _, hkeeps.1, hkeeps.2⟩
    rw [LinkAddr, if_pos hbroad]
  · refine ⟨.packet hq.1 (.packet q ipaddr _ hcall.mem ?_), hk.withOut _, hkeeps.1, hkeeps.2⟩
    rw [LinkAddr, if_neg hbroad, if_pos hmulti]
  · rw [Bool.not_eq_true] at hbroad hmulti
    cases hhop : nextHop n ipaddr with
    | none => exact ⟨.drop _, hk, hkeeps⟩
    | some hop =>
      have hroute : RoutesTo n ipaddr hop := ⟨hbroad, hmulti, hhop⟩
      dsimp only
      split_ifs with hcached
      · exact etharpOutputToArpIndex_moves hk hkeeps hq.1 hk.cached hcached.1 hcall
          (hcached.2 ▸ hroute)
      · cases hfind : findStable hop k.arpTable 0 with
        | none => exact etharpQuery_moves hk hkeeps hq hcall hroute
        | some i =>
          obtain ⟨e, -, hget, hstable, heq⟩ := findStable_some hfind
          rw [Nat.sub_zero] at hget
          obtain ⟨hi, -⟩ := List.getElem?_eq_some_iff.mp hget
          have hentry : k.entry i = e := by
            rw [Etharp.entry, List.getD_eq_getElem?_getD, hget]
            rfl
          rw [hk.size] at hi
          have hk' : { k with etharpCachedEntry := i }.Sound n (lastHeard h) :=
            ⟨hk.size, hi, hk.entries, hk.distinct⟩
          have hroute' : RoutesTo n ipaddr (k.entry i).ipaddr := by
            rw [hentry, ← heq]
            exact hroute
          exact etharpOutputToArpIndex_moves hk' ⟨hkeeps.1, hkeeps.2⟩ hq.1 hi
            ((congrArg (fun e => e.state.isStable) hentry).trans hstable) hcall hroute'

/-- An announcement is heard, and answered if it asks for the address of the interface. -/
theorem etharpInput_moves (hand : List (List UInt8)) {m : ArpMessage}
    (hk : k.Sound n (lastHeard h)) (hkeeps : k.Keeps n h) :
    Moves n (h ++ [.event (.input m)]) hand k hand (etharpInput n m k) ∧
      (etharpInput n m k).Sound n (lastHeard (h ++ [.event (.input m)])) ∧
      (etharpInput n m k).Keeps n (h ++ [.event (.input m)]) := by
  rw [etharpInput]
  by_cases hproper : m.Proper
  · rw [if_pos hproper]
    generalize (if m.forUs n then etharpFlagTryHard else etharpFlagFindOnly) = flags
    obtain ⟨hmoves, hsound, hkeeps'⟩ := etharpUpdateArpEntry_moves hand hk hkeeps hproper flags
    dsimp only
    split
    · next hask =>
      have hreply : Justified n (h ++ [.event (.input m)]) _ :=
        .reply m hproper hask.1 hask.2.1 (Bool.eq_false_iff.mpr hask.2.2) (.snoc h _)
      exact ⟨hmoves.trans (.ask hreply (ipData_arp _ _ _) (etharpRaw_sent ..)),
        hsound.withOut _, hkeeps'.1, hkeeps'.2⟩
    · exact ⟨hmoves, hsound, hkeeps'⟩
  · rw [if_neg hproper]
    have hsame : lastHeard (h ++ [.event (.input m)]) = lastHeard h := funext fun ip => by
      rw [lastHeard_append]
      exact if_neg fun heq => hproper heq.1
    exact ⟨.refl _ _ _ _, hsame.symm ▸ hk, hkeeps.snoc rfl fun m' hm' hproper' => by
      cases hm'
      exact absurd hproper' hproper⟩

theorem etharpTmrEntry_ipaddr (e : EtharpEntry) : (etharpTmrEntry e).ipaddr = e.ipaddr := by
  rw [etharpTmrEntry]
  dsimp only
  split_ifs <;> rfl

theorem etharpTmrEntry_q (e : EtharpEntry) :
    (etharpTmrEntry e).q = none ∨ (etharpTmrEntry e).q = e.q := by
  rw [etharpTmrEntry]
  dsimp only
  split_ifs
  · exact Or.inr rfl
  · exact Or.inl rfl
  all_goals exact Or.inr rfl

theorem etharpTmrEntry_state {e : EtharpEntry} (he : (etharpTmrEntry e).state ≠ .empty) :
    e.state ≠ .empty := fun hempty => he (by rw [etharpTmrEntry, if_pos hempty, hempty])

theorem toNat_succ_of_lt {a b : UInt16} (hab : a < b) : (a + 1).toNat = a.toNat + 1 := by
  have hlt := UInt16.lt_iff_toNat_lt.mp hab
  have hb := b.toNat_lt
  rw [UInt16.toNat_add, UInt16.toNat_one]
  omega

/-- An entry ages as the announcement it stands for. -/
theorem EtharpEntry.Sound.tmr (he : e.Sound n (lastHeard h)) :
    (etharpTmrEntry e).Sound n (lastHeard (h ++ [.event .tmr])) := by
  have hheard : e.state.isStable = true → lastHeard (h ++ [.event .tmr]) e.ipaddr =
      some (e.ethaddr, (e.ctime + 1).toNat) := fun hs => by
    obtain ⟨hage, hlast⟩ := he.stable hs
    rw [lastHeard_tmr, hlast, toNat_succ_of_lt hage]
    rfl
  have hwaits : e.state.isStable = true → e.q = none := fun hs =>
    he.waits fun hp => by rw [hp] at hs; cases hs
  rw [etharpTmrEntry]
  dsimp only
  split_ifs with hempty hold hone htwo
  · exact .of_empty hempty (he.waits (by rw [hempty]; decide))
  · exact .of_empty rfl rfl
  · rw [not_or, UInt16.not_le] at hold
    have hs : e.state.isStable = true := by rw [hone]; rfl
    exact ⟨fun _ => hwaits hs, he.whole, fun _ => he.unicast hempty,
      fun hp => EtharpState.noConfusion hp, fun _ => ⟨hold.1, hheard hs⟩⟩
  · rw [not_or, UInt16.not_le] at hold
    have hs : e.state.isStable = true := by rw [htwo]; rfl
    exact ⟨fun _ => hwaits hs, he.whole, fun _ => he.unicast hempty,
      fun hp => EtharpState.noConfusion hp, fun _ => ⟨hold.1, hheard hs⟩⟩
  · rw [not_or, UInt16.not_le] at hold
    exact ⟨he.waits, he.whole, he.unicast,
      fun hp => UInt16.not_le.mp fun hle => hold.2 ⟨hp, hle⟩, fun hs => ⟨hold.1, hheard hs⟩⟩

theorem etharpTmrRequests_moves (hand : List (List UInt8)) {es : List EtharpEntry}
    (hes : ∀ e ∈ es, e.state = .pending → Justified n h (arpQuestion n ethbroadcast e.ipaddr)) :
    Moves n h hand k hand { k with out := etharpTmrRequests n es k.out } := by
  induction es generalizing k with
  | nil => exact .refl _ _ _ _
  | cons e es ih =>
    have hrest := fun e' he' => hes e' (List.mem_cons_of_mem e he')
    rw [etharpTmrRequests]
    split_ifs with hpending
    · exact (Moves.request (hes e List.mem_cons_self hpending)).trans (ih hrest)
    · exact ih hrest

theorem etharpTmrEntry_pending {e : EtharpEntry} (he : (etharpTmrEntry e).state = .pending) :
    e.state = .pending ∧ (etharpTmrEntry e).ctime = e.ctime + 1 := by
  revert he
  rw [etharpTmrEntry]
  dsimp only
  split_ifs with hempty hold hone htwo
  · exact fun he => EtharpState.noConfusion (hempty.symm.trans he)
  · exact fun he => EtharpState.noConfusion he
  · exact fun he => (he : False).elim
  · exact fun he => (he : False).elim
  · exact fun he => ⟨he, rfl⟩

theorem Etharp.entry_map (k : Etharp) (out : LinkOut) (i : ℕ) :
    { k with arpTable := k.arpTable.map etharpTmrEntry, out }.entry i =
      etharpTmrEntry (k.entry i) := by
  simp only [entry, List.getD_eq_getElem?_getD, List.getElem?_map]
  cases k.arpTable[i]? <;> rfl

/-- A tick ages the table; packets that have waited too long are dropped. -/
theorem etharpTmr_moves (hand : List (List UInt8)) (hk : k.Sound n (lastHeard h))
    (hkeeps : k.Keeps n h) :
    Moves n (h ++ [.event .tmr]) hand k hand (etharpTmr n k) ∧
      (etharpTmr n k).Sound n (lastHeard (h ++ [.event .tmr])) ∧
      (etharpTmr n k).Keeps n (h ++ [.event .tmr]) := by
  have hentry (i : ℕ) : (etharpTmr n k).entry i = etharpTmrEntry (k.entry i) := k.entry_map _ i
  have haged : ∀ i, ((etharpTmr n k).entry i).Sound n (lastHeard (h ++ [.event .tmr])) :=
    fun i => (hentry i).symm ▸ (hk.entries i).tmr
  have hawaited : ∀ i, ((etharpTmr n k).entry i).state = .pending →
      Awaited n (h ++ [.event .tmr]) ((etharpTmr n k).entry i).ipaddr
        ((etharpTmr n k).entry i).ctime.toNat := fun i hi => by
    rw [hentry] at hi ⊢
    obtain ⟨hold, hctime⟩ := etharpTmrEntry_pending hi
    rw [etharpTmrEntry_ipaddr, hctime, toNat_succ_of_lt ((hk.entries i).pending hold)]
    exact (hkeeps.awaited i hold).snoc fun m hm => by cases hm
  refine ⟨?_, ⟨(List.length_map _).trans hk.size, hk.cached, haged, fun i j hi hj heq => ?_⟩,
    fun i p hp => ?_, hawaited⟩
  · have hmap : Moves n (h ++ [.event .tmr]) hand k hand
        { k with arpTable := k.arpTable.map etharpTmrEntry } := by
      refine .silent rfl fun d => Nat.add_le_add_right ?_ _
      change (k.arpTable.map etharpTmrEntry).countP _ ≤ _
      rw [List.countP_map]
      refine List.countP_mono_left fun e _ he => ?_
      rcases etharpTmrEntry_q e with hq | hq <;> rw [Function.comp_apply, hq] at he
      · cases he
      · exact he
    refine hmap.trans (etharpTmrRequests_moves hand fun e he hpending => ?_)
    obtain ⟨i, hi, rfl⟩ := List.mem_iff_getElem.mp he
    have hget : (etharpTmr n k).entry i = (k.arpTable.map etharpTmrEntry)[i] := by
      rw [Etharp.entry, List.getD_eq_getElem?_getD]
      exact congrArg (Option.getD · _) (List.getElem?_eq_getElem hi)
    rw [← hget] at hpending ⊢
    refine .askAgain _ _ (.snoc h _) (hawaited i hpending) ?_
      ((haged i).unicast (by rw [hpending]; decide))
    exact UInt16.lt_iff_toNat_lt.mp ((haged i).pending hpending)
  · have hi' := etharpTmrEntry_state (hentry i ▸ hi)
    have hj' := etharpTmrEntry_state (hentry j ▸ hj)
    refine hk.distinct i j hi' hj' ?_
    rwa [hentry, hentry, etharpTmrEntry_ipaddr, etharpTmrEntry_ipaddr] at heq
  · rw [hentry] at hp ⊢
    rw [etharpTmrEntry_ipaddr]
    rcases etharpTmrEntry_q (k.entry i) with hq | hq
    · exact (Option.some_ne_none p (hp.symm.trans hq)).elim
    · exact (hkeeps.given i p (hq ▸ hp)).mono (List.subset_append_left h _)

end Steps

end EthernetPing
