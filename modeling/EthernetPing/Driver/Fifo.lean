import EthernetPing.Driver.Receive

/-!
# The receive ring as a queue

The packets in the ring form a chain from the driver's `rxPtr` to the device's write
pointer. Arrivals extend it at the end, `packetReceive` removes its head, and no
other driver call touches it. The chain survives as long as the device spares the
packets not yet read; what the device must do for that differs between the results
below.
-/

namespace EthernetPing

open Reg

/-- The packets `ps` lie one behind the other from `x` up to `y`. -/
def Chain (mem : ℕ → UInt8) : ℕ → List Packet → ℕ → Prop
  | x, [], y => x = y
  | x, p :: ps, y =>
    p.start = x ∧ p.In mem ∧ p.next = rxRing.addr p.start p.size ∧ Chain mem p.next ps y

/-- The packets stored and not yet read by the driver. -/
def unread (v : View Board Statics Event) : List Packet :=
  v.hw.chip.stored.drop v.loc.taken.length

/-- Driver and device are in step; `lag` packets are read and still counted. -/
structure Synced (lag : ℕ) (v : View Board Statics Event) : Prop where
  ring : RingSet v.hw.chip
  count : v.loc.taken.length + v.hw.chip.pktCnt.toNat = v.hw.chip.stored.length + lag
  taken : v.loc.taken.length ≤ v.hw.chip.stored.length
  rxPtr : v.loc.rxPtr.toNat ∈ rxRing
  chain : Chain v.hw.chip.mem v.loc.rxPtr.toNat (unread v) v.hw.chip.wrPtr
  read : ∀ (k : ℕ) (t : Taken), v.loc.taken[k]? = some t →
    ∃ p, v.hw.chip.stored[k]? = some p ∧ t.Matches p

namespace Chip

variable (c : Chip)

/-- The packet that the frame becomes when it is stored next. -/
def place (f : RxFrame) : Packet :=
  { f with start := c.wrPtr, next := c.ring.addr c.wrPtr f.size }

/-- Store a frame; `mem` is the memory afterwards. -/
def deliver (f : RxFrame) (mem : ℕ → UInt8) : Chip :=
  { c with
    mem := mem, wrPtr := (c.place f).next, pktCnt := c.pktCnt + 1
    stored := c.stored ++ [c.place f] }

end Chip

section Chain

variable {mem mem' : ℕ → UInt8} {x y : ℕ} {ps : List Packet} {p : Packet}

theorem Chain.congr (h : Chain mem x ps y) (hkeep : ∀ p ∈ ps, p.In mem → p.In mem') :
    Chain mem' x ps y := by
  induction ps generalizing x with
  | nil => exact h
  | cons p ps ih =>
    obtain ⟨hx, hp, hnext, hrest⟩ := h
    exact ⟨hx, hkeep p (by simp) hp, hnext, ih hrest fun q hq => hkeep q (by simp [hq])⟩

theorem Chain.append (h : Chain mem x ps y) (hstart : p.start = y) (hp : p.In mem)
    (hnext : p.next = rxRing.addr p.start p.size) : Chain mem x (ps ++ [p]) p.next := by
  induction ps generalizing x with
  | nil => exact ⟨hstart.trans h.symm, hp, hnext, rfl⟩
  | cons q ps ih => exact ⟨h.1, h.2.1, h.2.2.1, ih h.2.2.2⟩

def space (ps : List Packet) : ℕ := (ps.map fun p => p.size).sum

theorem Chain.position (h : Chain mem x ps y) (hx : x ∈ rxRing) (hp : p ∈ ps) :
    ∃ u, p.start = rxRing.addr x u ∧ u + p.size ≤ space ps := by
  induction ps generalizing x with
  | nil => cases hp
  | cons q ps ih =>
    obtain ⟨hq, -, hnext, hrest⟩ := h
    rw [space, List.map_cons, List.sum_cons]
    rcases List.mem_cons.mp hp with rfl | hp
    · exact ⟨0, by rw [rxRing.addr_zero hx, hq], by omega⟩
    · obtain ⟨u, hu, hle⟩ := ih hrest (hnext ▸ rxRing.addr_mem _ _) hp
      refine ⟨q.size + u, ?_, ?_⟩
      · rw [hu, hnext, rxRing.addr_addr, hq]
      · rw [space] at hle
        omega

theorem Chain.end_eq (h : Chain mem x ps y) (hx : x ∈ rxRing) : y = rxRing.addr x (space ps) := by
  induction ps generalizing x with
  | nil => rw [space, List.map_nil, List.sum_nil, rxRing.addr_zero hx]; exact h.symm
  | cons p ps ih =>
    obtain ⟨hx', -, hnext, hrest⟩ := h
    rw [ih hrest (hnext ▸ rxRing.addr_mem _ _), hnext, rxRing.addr_addr, hx', space, space,
      List.map_cons, List.sum_cons]

end Chain

section Step

variable {lag : ℕ} {v : View Board Statics Event} {b : Board}

/-- The driver reads next where the oldest unread packet starts. -/
theorem Synced.rxPtr_eq (h : Synced lag v) :
    v.loc.rxPtr.toNat = ((unread v).head?.map fun p => p.start).getD v.hw.chip.wrPtr := by
  have hchain := h.chain
  cases hu : unread v with
  | nil =>
    rw [hu] at hchain
    exact hchain
  | cons p ps =>
    rw [hu] at hchain
    exact hchain.1.symm

theorem unread_deliver {f : RxFrame} {mem : ℕ → UInt8}
    (htaken : v.loc.taken.length ≤ v.hw.chip.stored.length)
    (hb : b.chip = v.hw.chip.deliver f mem) :
    unread { v with hw := b } = unread v ++ [v.hw.chip.place f] := by
  rw [unread, unread, hb, Chip.deliver, List.drop_append_of_le_length htaken]

theorem unread_advance (t : Taken) :
    unread { v with loc := t.advance v.loc } = (unread v).tail := by
  have htaken : (t.advance v.loc).taken.length = v.loc.taken.length + 1 := by simp [Taken.advance]
  rw [unread, unread, htaken, List.tail_drop]

theorem Taken.Matches.rxPtr_advance {t : Taken} {p : Packet} (h : t.Matches p)
    (hmem : p.next ∈ rxRing) (s : Statics) : (t.advance s).rxPtr.toNat = p.next := by
  rw [Taken.advance, h.nextPtr, toNat_ofNat_of_mem hmem]

/-- A frame stored behind the unread packets extends the queue. -/
theorem Synced.deliver {f : RxFrame} {mem : ℕ → UInt8} (h : Synced lag v)
    (hcnt : v.hw.chip.pktCnt < 255) (hnew : (v.hw.chip.place f).In mem)
    (hkeep : ∀ p ∈ unread v, p.In v.hw.chip.mem → p.In mem)
    (hb : b.chip = v.hw.chip.deliver f mem) : Synced lag { v with hw := b } := by
  have hlen : v.loc.taken.length ≤ v.hw.chip.stored.length := h.taken
  have hcnt' : (v.hw.chip.pktCnt + 1).toNat = v.hw.chip.pktCnt.toNat + 1 := by
    rw [UInt8.lt_iff_toNat_lt] at hcnt
    rw [UInt8.toNat_add, Nat.mod_eq_of_lt]
    · rfl
    · exact Nat.lt_of_lt_of_le (Nat.add_lt_add_right hcnt 1) (by decide)
  refine ⟨?_, ?_, ?_, h.rxPtr, ?_, ?_⟩
  · rw [hb]
    exact h.ring.of_regs fun _ _ => rfl
  · have := h.count
    change v.loc.taken.length + b.chip.pktCnt.toNat = b.chip.stored.length + lag
    rw [hb, Chip.deliver, hcnt', List.length_append, List.length_singleton]
    omega
  · rw [hb, Chip.deliver, List.length_append]
    exact le_trans hlen (Nat.le_add_right _ _)
  · rw [unread_deliver hlen hb, hb]
    exact (h.chain.congr hkeep).append rfl hnew (by rw [Chip.place, h.ring.ring_eq])
  · intro k t ht
    obtain ⟨p, hp, hmatch⟩ := h.read k t ht
    refine ⟨p, ?_, hmatch⟩
    rw [hb, Chip.deliver, List.getElem?_append_left (List.getElem?_eq_some_iff.mp hp).1, hp]

/-- The queue is a matter of the receive side only. -/
theorem Synced.congr {lag' : ℕ} (h : Synced lag v) (hring : RingSet b.chip)
    (hstored : b.chip.stored = v.hw.chip.stored) (hwr : b.chip.wrPtr = v.hw.chip.wrPtr)
    (hcount : v.loc.taken.length + b.chip.pktCnt.toNat = v.hw.chip.stored.length + lag')
    (hkeep : ∀ p ∈ unread v, p.In v.hw.chip.mem → p.In b.chip.mem) (log : List (Board × Event)) :
    Synced lag' ⟨b, v.loc, log⟩ := by
  have hunread : unread ⟨b, v.loc, log⟩ = unread v := congrArg (List.drop _) hstored
  refine ⟨hring, ?_, ?_, h.rxPtr, ?_, ?_⟩
  · rw [hstored]
    exact hcount
  · rw [hstored]
    exact h.taken
  · rw [hunread, hwr]
    exact h.chain.congr hkeep
  · rw [hstored]
    exact h.read

/-- Accesses other than `PKTDEC` leave the queue alone. -/
theorem Synced.touch {a : Access} {c : Chip} (h : Synced lag v) (ht : v.hw.chip.Touch a c)
    (hcfg : a ≠ .config) (hdec : a ≠ .pktDec) (log : List (Board × Event)) :
    Synced lag ⟨{ v.hw with chip := c }, v.loc, log⟩ :=
  h.congr (h.ring.touch ht hcfg) ht.stored_eq (ht.wrPtr_eq hcfg)
    (by rw [ht.pktCnt_eq hdec]; exact h.count) (fun _ _ hp => hp.touch ht) log

theorem unread_eq_cons {p : Packet} (hp : (unread v).head? = some p) :
    unread v = p :: (unread v).tail := by
  cases hu : unread v with
  | nil => simp [hu] at hp
  | cons q qs => simp_all

theorem Synced.head {p : Packet} (h : Synced lag v) (hp : (unread v).head? = some p) :
    p.start = v.loc.rxPtr.toNat ∧ p.In v.hw.chip.mem ∧ p.next = rxRing.addr p.start p.size := by
  have hchain := h.chain
  rw [unread_eq_cons hp] at hchain
  exact ⟨hchain.1, hchain.2.1, hchain.2.2.1⟩

/-- A packet that is counted and not yet read is in the queue. -/
theorem Synced.exists_head (h : Synced 0 v) (hcnt : v.hw.chip.pktCnt ≠ 0) :
    ∃ p, (unread v).head? = some p := by
  have hpos : 0 < v.hw.chip.pktCnt.toNat := by
    rw [Nat.pos_iff_ne_zero]
    exact fun h₀ => hcnt (UInt8.toNat_inj.mp h₀)
  have hlen : 0 < (unread v).length := by
    have := h.count
    rw [unread, List.length_drop]
    omega
  exact ⟨_, List.head?_eq_some_head (List.length_pos_iff.mp hlen)⟩

/-- Taking the oldest packet moves `rxPtr` to the next one. -/
theorem Synced.advance {p : Packet} {t : Taken} (h : Synced 0 v)
    (hp : (unread v).head? = some p) (ht : t.Matches p) :
    Synced 1 { v with loc := t.advance v.loc } := by
  have hu := unread_eq_cons hp
  have hchain := h.chain
  rw [hu] at hchain
  obtain ⟨hstart, hin, hnext, hrest⟩ := hchain
  have hmem : p.next ∈ rxRing := hnext ▸ rxRing.addr_mem _ _
  have hptr : (t.advance v.loc).rxPtr.toNat = p.next := ht.rxPtr_advance hmem v.loc
  have hget : v.hw.chip.stored[v.loc.taken.length]? = some p := by
    rw [← List.head?_drop]
    exact hp
  have hlen : v.loc.taken.length < v.hw.chip.stored.length :=
    (List.getElem?_eq_some_iff.mp hget).1
  have htaken : (t.advance v.loc).taken.length = v.loc.taken.length + 1 := by simp [Taken.advance]
  refine ⟨h.ring, ?_, ?_, hptr ▸ hmem, ?_, ?_⟩
  · have := h.count
    change (t.advance v.loc).taken.length + v.hw.chip.pktCnt.toNat = v.hw.chip.stored.length + 1
    omega
  · rw [htaken]
    exact hlen
  · rw [unread_advance, hptr]
    exact hrest
  · intro k t' hk
    rw [Taken.advance, List.getElem?_append] at hk
    split_ifs at hk with hlt
    · exact h.read k t' hk
    · obtain ⟨hk₀, rfl⟩ : k - v.loc.taken.length = 0 ∧ t = t' := by
        simpa [List.getElem?_singleton] using hk
      obtain rfl : k = v.loc.taken.length := by omega
      exact ⟨p, hget, ht⟩

/-- `PKTDEC` lets the device catch up. -/
theorem Synced.pktDec (h : Synced 1 v) (log : List (Board × Event)) :
    Synced 0 ⟨{ v.hw with chip := v.hw.chip.bfs ECON2 0x40 }, v.loc, log⟩ := by
  have ht : v.hw.chip.Touch .pktDec (v.hw.chip.bfs ECON2 0x40) := .pktDec
  have hne : v.hw.chip.pktCnt ≠ 0 := by
    intro h₀
    have hcount := h.count
    have := h.taken
    rw [h₀] at hcount
    change v.loc.taken.length + 0 = _ at hcount
    omega
  have hcnt : (v.hw.chip.bfs ECON2 0x40).pktCnt.toNat = v.hw.chip.pktCnt.toNat - 1 := by
    rw [Chip.pktDec_pktCnt _ hne]
    refine UInt8.toNat_sub_of_le _ _ (UInt8.le_iff_toNat_le.mpr ?_)
    exact Nat.one_le_iff_ne_zero.mpr fun h₀ => hne (UInt8.toNat_inj.mp h₀)
  refine h.congr (h.ring.touch ht (by decide)) ht.stored_eq (ht.wrPtr_eq (by decide)) ?_
    (fun _ _ hp => hp.touch ht) log
  have hcount := h.count
  have htaken := h.taken
  change _ + (v.hw.chip.bfs ECON2 0x40).pktCnt.toNat = _
  omega

end Step

section Moves

variable {M : Chip → Chip → Prop} {b b' : Board}

/-- Between two actions of the driver the device makes any number of moves. -/
def Device (M : Chip → Chip → Prop) (b b' : Board) : Prop :=
  Relation.ReflTransGen M b.chip b'.chip

/-- What one move relates, any number of moves relates. -/
theorem Device.relates {S : Chip → Chip → Prop} (hrefl : ∀ c, S c c)
    (htrans : ∀ {c₁ c₂ c₃}, S c₁ c₂ → S c₂ c₃ → S c₁ c₃) (hM : ∀ c c', M c c' → S c c')
    (h : Device M b b') : S b.chip b'.chip := by
  have hall : ∀ c, Relation.ReflTransGen M b.chip c → S b.chip c := by
    intro c hc
    induction hc with
    | refl => exact hrefl _
    | tail _ hm ih => exact htrans ih (hM _ _ hm)
  exact hall _ h

theorem Device.keeps {P : Chip → Prop} (hM : ∀ c c', P c → M c c' → P c') (h : Device M b b')
    (hb : P b.chip) : P b'.chip :=
  Device.relates (S := fun c c' => P c → P c') (fun _ => id) (fun h h' hP => h' (h hP))
    (fun c c' hm hP => hM c c' hP hm) h hb

theorem Device.host (hM : ∀ c c', M c c' → HostRegs c c') (b b' : Board) (h : Device M b b') :
    HostRegs b.chip b'.chip :=
  h.relates HostRegs.refl HostRegs.trans hM

theorem Device.stored (hM : ∀ c c', M c c' → c.stored <+: c'.stored) (b b' : Board)
    (h : Device M b b') : b.chip.stored <+: b'.chip.stored :=
  h.relates (S := fun c c' => c.stored <+: c'.stored) (fun _ => List.prefix_rfl) List.IsPrefix.trans
    hM

theorem Device.idle (hhost : ∀ c c', M c c' → HostRegs c c')
    (hM : ∀ c c', M c c' → c.rxen = false →
      c'.stored = c.stored ∧ c'.pktCnt = c.pktCnt ∧ c'.wrPtr = c.wrPtr) :
    IdleReceiver (Device M) := by
  intro b b' h hrxen
  have hkeep := h.relates (S := fun c c' => HostRegs c c' ∧ (c.rxen = false →
      c'.stored = c.stored ∧ c'.pktCnt = c.pktCnt ∧ c'.wrPtr = c.wrPtr))
    (fun c => ⟨.refl c, fun _ => ⟨rfl, rfl, rfl⟩⟩) (fun h₁ h₂ => ⟨h₁.1.trans h₂.1, fun h₀ => ?_⟩)
    fun c c' hm => ⟨hhost c c' hm, hM c c' hm⟩
  · exact hkeep.2 hrxen
  · have h₁' := h₁.2 h₀
    have h₂' := h₂.2 (h₁.1.rxen_eq.trans h₀)
    exact ⟨h₂'.1.trans h₁'.1, h₂'.2.1.trans h₁'.2.1, h₂'.2.2.trans h₁'.2.2⟩

end Moves

section Driver

variable {R : Board → Board → Prop} {J E : DrvAssn}

/-- The oldest unread packet, of those that `f` counts, stays so until the driver takes it. -/
theorem Kept.and_head {A : List Access} (hJ : Kept R A J)
    (hgrow : ∀ b b', R b b' → b.chip.stored <+: b'.chip.stored) (f : Statics → Statics)
    (p : Packet) : Kept R A fun v => J v ∧ (unread (v.mapLoc f)).head? = some p where
  move {v b} h hb := by
    refine ⟨hJ.move h.1 hb, ?_⟩
    obtain ⟨qs, hqs⟩ := hgrow v.hw b hb
    have hp := h.2
    rw [unread, List.head?_drop] at hp ⊢
    change v.hw.chip.stored[(f v.loc).taken.length]? = some p at hp
    change b.chip.stored[(f v.loc).taken.length]? = some p
    rw [← hqs, List.getElem?_append_left (List.getElem?_eq_some_iff.mp hp).1, hp]
  touch h ha ht := by
    refine ⟨hJ.touch h.1 ha ht, ?_⟩
    exact (congrArg (fun l => (List.drop _ l).head?) ht.stored_eq).trans h.2
  look h he := ⟨hJ.look h.1 he, h.2⟩

/-- What holds of the variables and the packets stored, and survives further arrivals. -/
theorem Kept.of_stored {φ : Statics → List Packet → Prop} (A : List Access)
    (hgrow : ∀ b b', R b b' → b.chip.stored <+: b'.chip.stored)
    (hφ : ∀ {s ps ps'}, φ s ps → ps <+: ps' → φ s ps') :
    Kept R A fun v => φ v.loc v.hw.chip.stored where
  move h hb := hφ h (hgrow _ _ hb)
  touch h _ ht := hφ h (by rw [ht.stored_eq])
  look h _ := h

/-- `packetReceive` on a queue in step takes the oldest packet, if there is one; what happens
when its space is given back is left open here. Earlier packets may be hidden by `f`. -/
theorem packetReceive_queue {A : Taken → DrvAssn} {Q : UInt16 × List UInt8 → DrvAssn}
    {f : Statics → Statics} (hf : ∀ s, (f s).rxPtr = s.rxPtr) (hJ : Kept R [.bank, .readPtr] J)
    (hsync : ∀ v, J v → Synced 0 (v.mapLoc f))
    (hR : ∀ b b', R b b' → HostRegs b.chip b'.chip)
    (hgrow : ∀ b b', R b b' → b.chip.stored <+: b'.chip.stored) (maxlen : UInt16)
    (hempty : ∀ v, J v → Q (0, []) v)
    (hadvance : ∀ p t v, J v → (unread (v.mapLoc f)).head? = some p → t.Fetches maxlen p →
      A t { v with loc := t.advance v.loc })
    (hfree : ∀ t,
      Triple R (A t) (ENC28J60.freeSpace t.nextPtr) (fun _ => Q (t.pktLen, t.buf)) E) :
    Triple R J (ENC28J60.packetReceive maxlen) Q E := by
  refine ENC28J60.packetReceive_rule
    (S := fun t v => ∃ p, (J v ∧ (unread (v.mapLoc f)).head? = some p) ∧ t.Fetches maxlen p) hJ hR
    (fun v h _ => hempty v h) ?_ (fun t v ⟨p, h, ht⟩ => hadvance p t v h.1 h.2 ht) hfree
  refine Triple.pre (P := fun v => ∃ p, J v ∧ (unread (v.mapLoc f)).head? = some p) ?_
    fun v h => by
      obtain ⟨p, hp⟩ := (hsync v h.1).exists_head h.2
      exact ⟨p, h.1, hp⟩
  apply Triple.of_exists
  intro p
  apply Triple.assuming
  intro v₀ hv₀
  have hin := ((hsync v₀ hv₀.1).head hv₀.2).2.1
  refine Triple.pre (P := fun v => J v ∧ (unread (v.mapLoc f)).head? = some p) ?_
    (by rintro v rfl; exact hv₀)
  exact (ENC28J60.fetchPacket_spec (p := p) (hJ.and_head hgrow f p) hR
    (fun v h => (hsync v h.1).ring) hin.start
    (fun v h => (congrArg UInt16.toNat (hf v.loc)).symm.trans ((hsync v h.1).head h.2).1.symm)
    (fun v h => ((hsync v h.1).head h.2).2.1) maxlen).post fun t v h => ⟨p, h.1, h.2⟩

end Driver

section Queue

/-- The packets the device still counts. -/
def Chip.counted (c : Chip) : List Packet := c.stored.drop (c.stored.length - c.pktCnt.toNat)

/-- One move of a device that never overwrites a packet it still counts. The counter has eight
bits: at 255 the device stores nothing. -/
inductive QueueMove (c : Chip) : Chip → Prop
  | quiet {c' : Chip} (host : HostRegs c c') (stored : c'.stored = c.stored)
    (pktCnt : c'.pktCnt = c.pktCnt) (wrPtr : c'.wrPtr = c.wrPtr)
    (spare : ∀ p ∈ c.counted, p.In c.mem → p.In c'.mem) : QueueMove c c'
  | arrive (f : RxFrame) (mem : ℕ → UInt8) (rxen : c.rxen = true) (pktCnt : c.pktCnt < 255)
    (stored : (c.place f).In mem) (spare : ∀ p ∈ c.counted, p.In c.mem → p.In mem) :
    QueueMove c (c.deliver f mem)

theorem QueueMove.host {c c' : Chip} (h : QueueMove c c') : HostRegs c c' := by
  cases h with
  | quiet host => exact host
  | arrive => exact ⟨fun _ _ => rfl, rfl, rfl, rfl, rfl⟩

theorem QueueMove.stored {c c' : Chip} (h : QueueMove c c') : c.stored <+: c'.stored := by
  cases h with
  | quiet _ stored => rw [stored]
  | arrive => exact List.prefix_append _ _

theorem QueueMove.idle {c c' : Chip} (h : QueueMove c c') (hrxen : c.rxen = false) :
    c'.stored = c.stored ∧ c'.pktCnt = c.pktCnt ∧ c'.wrPtr = c.wrPtr := by
  cases h with
  | quiet _ stored pktCnt wrPtr => exact ⟨stored, pktCnt, wrPtr⟩
  | arrive f mem rxen =>
    rw [hrxen] at rxen
    cases rxen

/-- What is not read yet is still counted. -/
theorem unread_subset_counted {lag : ℕ} {v : View Board Statics Event} (h : Synced lag v) :
    unread v ⊆ v.hw.chip.counted := by
  apply List.drop_subset_drop_left
  have := h.count
  omega

/-- Step lemma: the device's moves keep the queue. -/
theorem Synced.queueMove {lag : ℕ} {v : View Board Statics Event} {c : Chip}
    (h : Synced lag v) (hm : QueueMove v.hw.chip c) :
    Synced lag { v with hw := { v.hw with chip := c } } := by
  cases hm with
  | quiet host stored pktCnt wrPtr spare =>
    exact h.congr (h.ring.move host) stored wrPtr (by rw [pktCnt]; exact h.count)
      (fun p hp => spare p (unread_subset_counted h hp)) v.log
  | arrive f mem rxen pktCnt stored spare =>
    exact h.deliver pktCnt stored (fun p hp => spare p (unread_subset_counted h hp)) rfl

theorem Synced.kept (lag : ℕ) :
    Kept (Device QueueMove) [.bank, .readPtr, .mii, .txPtr, .txMem, .txrts, .rxFree]
      (Synced lag) where
  move h hb := Device.keeps (P := fun c => Synced lag ⟨⟨c, _⟩, _, _⟩)
    (fun _ _ h hm => Synced.queueMove h hm) hb ⟨h.ring, h.count, h.taken, h.rxPtr, h.chain, h.read⟩
  touch h ha ht :=
    h.touch ht (by rintro rfl; revert ha; decide) (by rintro rfl; revert ha; decide) _
  look h _ := ⟨h.ring, h.count, h.taken, h.rxPtr, h.chain, h.read⟩

theorem freeSpace_synced {E : DrvAssn} (nextPtr : UInt16) :
    Triple (Device QueueMove) (Synced 1) (ENC28J60.freeSpace nextPtr) (fun _ => Synced 0) E := by
  have hR := Device.host (fun _ _ => QueueMove.host)
  apply (ENC28J60.setBank_kept (Synced.kept 1) hR (by decide) (by decide)).seq
  apply (ENC28J60.writeReg_bank (Synced.kept 1) hR (a := .rxFree) (by decide) (by decide)).seq
  apply (ENC28J60.writeReg_bank (Synced.kept 1) hR (a := .rxFree) (by decide) (by decide)).seq
  unfold ENC28J60.writeOp spiTransmit
  apply Triple.act
  intro v b h hb
  rw [Chip.transact_bfs]
  exact ((Synced.kept 1).move h.1 hb).pktDec _

theorem Started.ringSet {mac : Fin 6 → UInt8} {c : Chip} (h : Started mac c) : RingSet c := by
  constructor
  · rw [Chip.erxst, h.config ERXSTL _ rfl (by decide), h.config ERXSTH _ rfl (by decide)]
    decide
  · rw [Chip.erxnd, h.config ERXNDL _ rfl (by decide), h.config ERXNDH _ rfl (by decide)]
    decide

theorem Started.synced {mac : Fin 6 → UInt8} {v : View Board Statics Event}
    (hloc : v.loc = Statics.load mac) (h : Started mac v.hw.chip) : Synced 0 v := by
  have htaken : v.loc.taken = [] := congrArg Statics.taken hloc
  have hptr : v.loc.rxPtr = RXSTART := congrArg Statics.rxPtr hloc
  have hunread : unread v = [] := by rw [unread, h.stored, List.drop_nil]
  refine ⟨h.ringSet, ?_, ?_, ?_, ?_, ?_⟩
  · rw [htaken, h.stored, h.pktCnt]
    rfl
  · rw [htaken, h.stored]
    exact le_rfl
  · rw [hptr]
    exact rxRing.lo_mem
  · rw [hunread, hptr, h.wrPtr]
    rfl
  · simp [htaken]

end Queue

section Feed

/-- Store a frame at the write pointer, around the ring. -/
def Chip.store (c : Chip) (f : RxFrame) : Chip :=
  c.deliver f (c.ring.write c.mem c.wrPtr (c.place f).bytes)

/-- An empty ring has room for the frame. -/
def Chip.HasRoom (c : Chip) (f : RxFrame) : Prop :=
  c.rxen = true ∧ c.pktCnt = 0 ∧ (c.erxst = RXSTART.toNat ∧ c.erxnd = RXEND.toNat) ∧
    c.wrPtr ∈ rxRing ∧ c.erxrdpt ∈ rxRing ∧ f.size ≤ rxRing.offset c.wrPtr c.erxrdpt

instance (c : Chip) (f : RxFrame) : Decidable (c.HasRoom f) := inferInstanceAs (Decidable (_ ∧ _))

/-- A device that receives the frame `arrivals n` before the `n`-th action of the driver, if the
ring is empty then, and is prompt otherwise. -/
def feed (arrivals : ℕ → Option RxFrame) (n : ℕ) (b : Board) : Board :=
  match arrivals n with
  | none => prompt n b
  | some f =>
    if (prompt n b).chip.HasRoom f then
      { prompt n b with chip := (prompt n b).chip.store f }
    else prompt n b

theorem Chip.HasRoom.place_in {c : Chip} {f : RxFrame} (h : c.HasRoom f) :
    (c.place f).In (c.ring.write c.mem c.wrPtr (c.place f).bytes) := by
  obtain ⟨-, -, hring, hwr, -, hfit⟩ := h
  have hlt := rxRing.offset_lt c.wrPtr c.erxrdpt
  have hlen : (c.place f).bytes.length = f.size := (c.place f).length_bytes
  rw [RingSet.ring_eq ⟨hring.1, hring.2⟩]
  have hread : rxRing.read (rxRing.write c.mem c.wrPtr (c.place f).bytes) c.wrPtr
      (c.place f).bytes.length = (c.place f).bytes := rxRing.read_write_self hwr (by omega)
  exact ⟨hwr, (congrArg (rxRing.read _ _) (c.place f).length_bytes.symm).trans hread⟩

theorem feed_queue (arrivals : ℕ → Option RxFrame) (n : ℕ) (b : Board) :
    Device QueueMove b (feed arrivals n b) := by
  have hprompt : Relation.ReflTransGen QueueMove b.chip (prompt n b).chip :=
    .single (.quiet (prompt_host n b) rfl rfl rfl fun _ _ => id)
  unfold feed
  split
  · exact hprompt
  · split_ifs with h
    · refine hprompt.tail (.arrive _ _ h.1 (by rw [h.2.1]; decide) h.place_in fun p hp => ?_)
      rw [Chip.counted, h.2.1] at hp
      simp at hp
    · exact hprompt

/-- A frame of 64 bytes arrives right after `init`. -/
def oneArrival (n : ℕ) : Option RxFrame := if n = 39 then some minimumFrame.toRxFrame else none

end Feed

end EthernetPing
