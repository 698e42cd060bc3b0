import EthernetPing.Net.Etharp

/-!
# The ARP table

An entry stands for the last announcement of its address, and no address has two entries. The
search finds the entry of an address or makes room for one.
-/

namespace EthernetPing

/-- Who announced an address last, and how many ticks ago. -/
abbrev Heard := UInt32 → Option (EthAddr × ℕ)

structure EtharpEntry.Sound (n : NetifIp) (heard : Heard) (e : EtharpEntry) : Prop where
  /-- A packet waits only as long as the entry is pending. -/
  waits : e.state ≠ .pending → e.q = none
  whole : ∀ p, e.q = some p → p.Ok
  unicast : e.state ≠ .empty → ip4AddrIsUnicast e.ipaddr n = true
  pending : e.state = .pending → e.ctime < arpMaxpending
  stable : e.state.isStable = true →
    e.ctime < arpMaxage ∧ heard e.ipaddr = some (e.ethaddr, e.ctime.toNat)

structure Etharp.Sound (n : NetifIp) (heard : Heard) (k : Etharp) : Prop where
  size : k.arpTable.length = arpTableSize
  cached : k.etharpCachedEntry < arpTableSize
  entries : ∀ i, (k.entry i).Sound n heard
  /-- No two entries have the same address. -/
  distinct : ∀ i j, (k.entry i).state ≠ .empty → (k.entry j).state ≠ .empty →
    (k.entry i).ipaddr = (k.entry j).ipaddr → i = j

section Table

variable {n : NetifIp} {heard heard' : Heard} {k k' : Etharp} {e : EtharpEntry} {i : ℕ}
  {ip : UInt32}

theorem Etharp.entry_setEntry (hi : i < k.arpTable.length) (e : EtharpEntry) (j : ℕ) :
    (k.setEntry i e).entry j = if j = i then e else k.entry j := by
  simp only [entry, setEntry, List.getD_eq_getElem?_getD, List.getElem?_set]
  split_ifs with h₁ h₂ h₂
  · rfl
  · exact absurd h₁.symm h₂
  · exact absurd h₂.symm h₁
  · rfl

theorem EtharpEntry.Sound.of_empty (hstate : e.state = .empty) (hq : e.q = none) :
    e.Sound n heard where
  waits _ := hq
  whole p hp := by rw [hq] at hp; cases hp
  unicast h := absurd hstate h
  pending h := by rw [hstate] at h; cases h
  stable h := by rw [hstate] at h; cases h

theorem EtharpEntry.Sound.congr (h : e.Sound n heard)
    (hheard : e.state ≠ .empty → heard' e.ipaddr = heard e.ipaddr) : e.Sound n heard' where
  waits := h.waits
  whole := h.whole
  unicast := h.unicast
  pending := h.pending
  stable hs := by
    rw [hheard fun hempty => by rw [hempty] at hs; cases hs]
    exact h.stable hs

theorem Etharp.Sound.setEntry (h : k.Sound n heard) (hi : i < arpTableSize)
    (he : e.Sound n heard')
    (hothers : ∀ j, j ≠ i → (k.entry j).state ≠ .empty →
      (e.state ≠ .empty → (k.entry j).ipaddr ≠ e.ipaddr) ∧
        heard' (k.entry j).ipaddr = heard (k.entry j).ipaddr) :
    (k.setEntry i e).Sound n heard' := by
  have hget := entry_setEntry (k := k) (i := i) (by rw [h.size]; exact hi) e
  refine ⟨by rw [Etharp.setEntry, List.length_set, h.size], h.cached, fun j => ?_,
    fun j j' hj hj' heq => ?_⟩
  · rw [hget]
    split_ifs with hji
    · exact he
    · exact (h.entries j).congr fun hne => (hothers j hji hne).2
  · rw [hget] at hj hj' heq
    rw [hget] at heq
    by_cases hji : j = i
    · by_cases hji' : j' = i
      · rw [hji, hji']
      · rw [if_pos hji, if_neg hji'] at heq
        rw [if_pos hji] at hj
        rw [if_neg hji'] at hj'
        exact absurd heq.symm ((hothers j' hji' hj').1 hj)
    · by_cases hji' : j' = i
      · rw [if_neg hji, if_pos hji'] at heq
        rw [if_neg hji] at hj
        rw [if_pos hji'] at hj'
        exact absurd heq ((hothers j hji hj).1 hj')
      · rw [if_neg hji] at hj heq
        rw [if_neg hji'] at hj' heq
        exact h.distinct j j' hj hj' heq

structure Candidates.In (c : Candidates) (k : Etharp) : Prop where
  empty : ∀ j, c.empty = some j → j < k.arpTable.length ∧ (k.entry j).state = .empty
  stable : ∀ j, c.oldStable = some j → j < k.arpTable.length
  pending : ∀ j, c.oldPending = some j → j < k.arpTable.length
  queue : ∀ j, c.oldQueue = some j → j < k.arpTable.length

/-- There is a candidate, or none that is too young to be one. -/
def Candidates.Fair (c : Candidates) : Prop :=
  (c.oldStable = none → c.ageStable = 0) ∧ (c.oldPending = none → c.agePending = 0) ∧
    (c.oldQueue = none → c.ageQueue = 0)

def Candidates.Any (c : Candidates) : Prop :=
  c.empty.isSome ∨ (c.oldStable <|> c.oldPending <|> c.oldQueue).isSome

theorem Candidates.In.consider {c : Candidates} (h : c.In k) (hi : i < k.arpTable.length) :
    (c.consider i (k.entry i)).In k := by
  rw [Candidates.consider]
  split_ifs with hempty
  · refine ⟨fun j hj => ?_, h.stable, h.pending, h.queue⟩
    cases hc : c.empty with
    | none =>
      rw [hc] at hj
      cases hj
      exact ⟨hi, hempty⟩
    | some x =>
      rw [hc] at hj
      exact h.empty j (hc.trans hj)
  · exact ⟨h.empty, h.stable, h.pending, fun j hj => by cases hj; exact hi⟩
  · exact h
  · exact ⟨h.empty, h.stable, fun j hj => by cases hj; exact hi, h.queue⟩
  · exact h
  · exact ⟨h.empty, fun j hj => by cases hj; exact hi, h.pending, h.queue⟩
  · exact h

theorem noCandidates_in (k : Etharp) : noCandidates.In k := by
  constructor <;> exact fun j hj => (Option.some_ne_none j hj.symm).elim

theorem Candidates.Fair.consider {c : Candidates} (h : c.Fair) (i : ℕ) (e : EtharpEntry) :
    (c.consider i e).Fair ∧ (c.consider i e).Any := by
  obtain ⟨hs, hp, hq⟩ := h
  have hage : ∀ {o : Option ℕ} {age : UInt16}, (o = none → age = 0) → ¬ age ≤ e.ctime →
      o.isSome := by
    intro o age ho hlt
    rw [Option.isSome_iff_ne_none]
    exact fun hnone => hlt ((ho hnone).symm ▸ UInt16.zero_le)
  rw [Candidates.consider]
  split_ifs with h₁ h₂ h₃ h₄ h₄ h₄
  · exact ⟨⟨hs, hp, hq⟩, Or.inl (by cases c.empty <;> rfl)⟩
  · exact ⟨⟨hs, hp, fun h => (Option.some_ne_none i h).elim⟩, Or.inr (by simp)⟩
  · exact ⟨⟨hs, hp, hq⟩, Or.inr (by simp [hage hq h₄])⟩
  · exact ⟨⟨hs, fun h => (Option.some_ne_none i h).elim, hq⟩, Or.inr (by simp)⟩
  · exact ⟨⟨hs, hp, hq⟩, Or.inr (by simp [hage hp h₄])⟩
  · exact ⟨⟨fun h => (Option.some_ne_none i h).elim, hp, hq⟩, Or.inr (by simp)⟩
  · exact ⟨⟨hs, hp, hq⟩, Or.inr (by simp [hage hs h₄])⟩

/-- What a search finds. -/
inductive Swept (ip : UInt32) (k : Etharp) : ℕ ⊕ Candidates → Prop where
  | found (i : ℕ) : i < k.arpTable.length → (k.entry i).state ≠ .empty → (k.entry i).ipaddr = ip →
      Swept ip k (.inl i)
  | candidates (c : Candidates) : c.In k → (k.arpTable = [] ∨ c.Any) →
      (∀ j, (k.entry j).state ≠ .empty → (k.entry j).ipaddr ≠ ip) → Swept ip k (.inr c)

theorem findSweep_swept (ip : UInt32) (done es : List EtharpEntry) {c : Candidates}
    (hk : k.arpTable = done ++ es) (hin : c.In k) (hfair : c.Fair) (hany : done = [] ∨ c.Any)
    (hdone : ∀ j < done.length, (k.entry j).state ≠ .empty → (k.entry j).ipaddr ≠ ip) :
    Swept ip k (findSweep ip es done.length c) := by
  induction es generalizing done c with
  | nil =>
    rw [List.append_nil] at hk
    refine .candidates c hin (hk ▸ hany) fun j hj => ?_
    by_cases hlt : j < done.length
    · exact hdone j hlt hj
    · refine absurd ?_ hj
      rw [Etharp.entry, hk, List.getD_eq_getElem?_getD,
        List.getElem?_eq_none (Nat.not_lt.mp hlt)]
      rfl
  | cons e es ih =>
    have hlt : done.length < k.arpTable.length := by
      rw [hk, List.length_append, List.length_cons]
      omega
    have hentry : k.entry done.length = e := by
      rw [Etharp.entry, hk]
      simp
    rw [findSweep]
    split_ifs with hmatch
    · rw [← hentry] at hmatch
      exact .found _ hlt hmatch.1 hmatch.2.symm
    · have hnext := ih (done ++ [e])
        (by rw [hk, List.append_assoc]; rfl) (hentry ▸ hin.consider hlt) (hfair.consider _ e).1
        (Or.inr (hfair.consider _ e).2) fun j hj hne => by
          rw [List.length_append, List.length_singleton] at hj
          by_cases hjd : j < done.length
          · exact hdone j hjd hne
          · obtain rfl : j = done.length := by omega
            rw [hentry] at hne ⊢
            exact fun heq => hmatch ⟨hne, heq.symm⟩
      rwa [List.length_append, List.length_singleton] at hnext

inductive Found (ip : UInt32) (flags : UInt8) (k : Etharp) : Option ℕ × Etharp → Prop where
  | present (i : ℕ) : i < arpTableSize → (k.entry i).state ≠ .empty → (k.entry i).ipaddr = ip →
      Found ip flags k (some i, k)
  | claimed (i : ℕ) (ethaddr : EthAddr) : i < arpTableSize →
      (∀ j, (k.entry j).state ≠ .empty → (k.entry j).ipaddr ≠ ip) →
      Found ip flags k (some i, k.setEntry i ⟨none, ip, ethaddr, 0, .empty⟩)
  | missing : flags ≠ etharpFlagTryHard →
      (∀ j, (k.entry j).state ≠ .empty → (k.entry j).ipaddr ≠ ip) → Found ip flags k (none, k)

theorem etharpFindEntry_found (hk : k.Sound n heard) (ip : UInt32) (flags : UInt8) :
    Found ip flags k (etharpFindEntry ip flags k) := by
  have hsize := hk.size
  have hswept := findSweep_swept ip [] k.arpTable rfl (noCandidates_in k)
    ⟨fun _ => rfl, fun _ => rfl, fun _ => rfl⟩ (Or.inl rfl)
    fun j hj => absurd hj (Nat.not_lt_zero j)
  rw [etharpFindEntry]
  rw [List.length_nil] at hswept
  generalize findSweep ip k.arpTable 0 noCandidates = r at hswept
  cases hswept with
  | found i hi hne heq => exact .present i (hsize ▸ hi) hne heq
  | candidates c hin hany hnone =>
    dsimp only
    split_ifs with hflags
    · refine .missing (fun htry => ?_) hnone
      rw [htry] at hflags
      exact hflags.elim (fun h => absurd h (by decide)) fun h => absurd h.2 (by decide)
    · cases hempty : c.empty with
      | some i =>
        obtain ⟨hi, hstate⟩ := hin.empty i hempty
        have hq := (hk.entries i).waits (by rw [hstate]; decide)
        have hentry : { k.entry i with ipaddr := ip, ctime := 0 } =
            ⟨none, ip, (k.entry i).ethaddr, 0, .empty⟩ := by
          rw [← hq, ← hstate]
        dsimp only
        rw [hentry]
        exact .claimed i _ (hsize ▸ hi) hnone
      | none =>
        dsimp only
        have hold : (c.oldStable <|> c.oldPending <|> c.oldQueue).isSome := by
          rcases hany with hnil | hany
          · rw [hnil] at hsize
            cases hsize
          · rw [Candidates.Any, hempty] at hany
            exact hany.resolve_left (by decide)
        obtain ⟨i, hi⟩ := Option.isSome_iff_exists.mp hold
        rw [hi]
        refine .claimed i (k.entry i).ethaddr ?_ hnone
        rw [← hsize]
        rcases hs : c.oldStable with _ | x
        · rcases hp : c.oldPending with _ | x
          · rw [hs, hp] at hi
            exact hin.queue i hi
          · rw [hs, hp] at hi
            exact hin.pending i (hp.trans hi)
        · rw [hs] at hi
          exact hin.stable i (hs.trans hi)

end Table

end EthernetPing
