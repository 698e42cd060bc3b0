import EthernetPing.Driver.Transmit
import EthernetPing.Driver.Wait

/-!
# Writing and reading the PHY

A read of a MAC or MII register clocks out a dummy byte before the register. The driver
takes one byte only, so that what it polls `MISTAT` for, and what it returns for `MIRDL`
and `MIRDH`, are dummy bytes. The results are about the history of a run: what the
device was like at each action.
-/

namespace EthernetPing

open Reg

/-- Actions with the board they were issued to, latest first. -/
abbrev History := List (Board × Event)

/-- What the device does with the MII between two actions: nothing, or it ends the access. -/
structure MiiDevice (b b' : Board) : Prop where
  host : HostRegs b.chip b'.chip
  idle : b.chip.mii = none →
    b'.chip.mii = none ∧ b'.chip.mird = b.chip.mird ∧ b'.chip.phy = b.chip.phy
  read : ∀ addr, b.chip.mii = some (.read addr) → b'.chip.phy = b.chip.phy ∧
    ((b'.chip.mii = b.chip.mii ∧ b'.chip.mird = b.chip.mird) ∨
      (b'.chip.mii = none ∧ b'.chip.mird = b.chip.phy addr))
  write : ∀ addr data, b.chip.mii = some (.write addr data) → b'.chip.mird = b.chip.mird ∧
    ((b'.chip.mii = b.chip.mii ∧ b'.chip.phy = b.chip.phy) ∨
      (b'.chip.mii = none ∧ b'.chip.phy = Function.update b.chip.phy addr data))

/-- `writePHY(a, v)` followed by `readPHY(a)`. -/
def phyRoundTrip (fuel : ℕ) (phyAddr : UInt8) (data : UInt16) : Drv UInt16 := do
  ENC28J60.writePHY fuel phyAddr data
  ENC28J60.readPHY fuel phyAddr

/-- The action reads or writes `MICMD`, `MIREGADR`, `MIWR` or `MIRD`, whatever bank is selected. -/
def Event.accessesMii : Event → Bool
  | .spi (cmd :: _) _ =>
    (Instr.decode cmd == .rcr || (Instr.decode cmd).writesReg) &&
      [0x12, 0x14, 0x16, 0x17, 0x18, 0x19].contains (cmd &&& 0x1F)
  | _ => false

/-- No access to the MII registers while `BUSY` is set. -/
def MiiWaits (new : History) : Prop :=
  ∀ x ∈ new, x.2.accessesMii = true → x.1.chip.mii = none

/-- The device ends every access within 100 ms: no more ticks pass while one is pending. -/
def Timely (new : History) : Prop :=
  ∀ y mid x, y :: mid ++ [x] <:+: new → x.1.chip.mii.isSome →
    (∀ z ∈ y :: mid, z.1.chip.mii = x.1.chip.mii) → y.1.tick - x.1.tick ≤ 100

/-- A poll of `MISTAT` that gets a dummy byte with bit 0 clear. -/
def ReadsClear (x : Board × Event) : Prop :=
  x.2 = .spi [0x00 ||| (0x0A &&& 0x1F)] 1 ∧ x.1.chip.so &&& 0x01 = 0

/-- `i` actions ago the driver stopped waiting: a poll read the bit clear, or the run began. -/
def MovesOn (i : ℕ) (new : History) : Prop :=
  new.length = i ∨ ∃ x, new[i]? = some x ∧ ReadsClear x

/-- When the driver stops waiting, no access is pending any more at the third action after it,
which is the next one that is not for the bank. -/
def EndsSoon (new : History) : Prop :=
  ∀ i z, new[i]? = some z → MovesOn (i + 3) new → z.1.chip.mii = none

/-- The dummy bytes of the last two actions, the earlier one first. -/
def lastDummies : History → Option (UInt8 × UInt8)
  | y :: x :: _ => some (x.1.chip.so, y.1.chip.so)
  | _ => none

/-- The third action after the driver stops waiting is an access to the MII. -/
def Resumes (new : History) : Prop :=
  ∀ i z, new[i]? = some z → MovesOn (i + 3) new → z.2.accessesMii = true

/-- Within the last three actions, the driver stopped waiting `k` actions ago or not at all. -/
def MovedAt (k : ℕ) (new : History) : Prop := ∀ i < 3, MovesOn i new → i = k

/-- Since the log `past`, the driver resumes its accesses whenever it stops waiting; and if the
device ends them in time, the driver has waited for it so far, and `S`. -/
def Awaits (past : History) (k : ℕ) (S : History → Chip → Prop) (v : View Board Statics Event) :
    Prop :=
  ∃ new, v.log = new ++ past ∧ Resumes new ∧ MovedAt k new ∧
    (Timely new → EndsSoon new → MiiWaits new ∧ S new v.hw.chip)

/-- No access is pending, or the driver stopped waiting `k` actions ago. -/
def Settled (k : ℕ) (new : History) (c : Chip) : Prop := c.mii = none ∨ MovesOn k new

/-- An access that is still pending has been so since the tick `start` was read. -/
def PendingSince (start : UInt32) (new : History) (c : Chip) : Prop :=
  ∃ mid b earlier, new = mid ++ (b, .getTick) :: earlier ∧ b.tick = start ∧
    (c.mii.isSome → ∀ z ∈ mid ++ [(b, .getTick)], z.1.chip.mii = c.mii)

section Await

variable {past new : History} {S S' : History → Chip → Prop} {b : Board} {e : Event}
  {loc : Statics} {log : History} {j k : ℕ}

theorem Timely.of_cons {x : Board × Event} (h : Timely (x :: new)) : Timely new :=
  fun _ _ _ hin => h _ _ _ (hin.trans (List.suffix_cons x new).isInfix)

@[simp] theorem movesOn_succ (i : ℕ) (x : Board × Event) (new : History) :
    MovesOn (i + 1) (x :: new) ↔ MovesOn i new := by
  simp [MovesOn]

@[simp] theorem movesOn_zero (x : Board × Event) (new : History) :
    MovesOn 0 (x :: new) ↔ ReadsClear x := by
  simp [MovesOn]

theorem EndsSoon.of_cons {x : Board × Event} (h : EndsSoon (x :: new)) : EndsSoon new :=
  fun i z hz hmoves => h (i + 1) z hz ((movesOn_succ (i + 3) x new).mpr hmoves)

theorem movedAt_nil : MovedAt 0 [] := by
  intro i _ hmoves
  rcases hmoves with hlen | ⟨x, hx, -⟩
  · exact hlen.symm
  · cases hx

theorem MovedAt.any (h : MovedAt k new) (hk : 3 ≤ k) : MovedAt j new := by
  intro i hi hmoves
  have := h i hi hmoves
  omega

theorem MovedAt.push {x : Board × Event} (h : MovedAt k new) (hx : ¬ ReadsClear x) :
    MovedAt (k + 1) (x :: new) := by
  intro i hi hmoves
  cases i with
  | zero => exact absurd ((movesOn_zero x new).mp hmoves) hx
  | succ i => exact congrArg (· + 1) (h i (Nat.lt_of_succ_lt hi) ((movesOn_succ i x new).mp hmoves))

theorem MovedAt.poll (x : Board × Event) (h : MovedAt 3 new) : MovedAt 0 (x :: new) := by
  intro i hi hmoves
  cases i with
  | zero => rfl
  | succ i =>
    have := h i (Nat.lt_of_succ_lt hi) ((movesOn_succ i x new).mp hmoves)
    omega

theorem Resumes.cons {x : Board × Event} (h : Resumes new) (hk : MovedAt k new)
    (hx : k ≠ 2 ∨ x.2.accessesMii = true) : Resumes (x :: new) := by
  intro i z hz hmoves
  rw [movesOn_succ] at hmoves
  cases i with
  | zero =>
    have hlast : 2 = k := hk 2 (by decide) hmoves
    obtain rfl : x = z := Option.some.inj hz
    exact hx.resolve_left (not_not.mpr hlast.symm)
  | succ i => exact h i z hz hmoves

/-- If the driver has always waited, then the device has always ended the access soon. -/
theorem MiiWaits.endsSoon (h : MiiWaits new) (hr : Resumes new) : EndsSoon new :=
  fun i z hz hmoves => h z (List.mem_of_getElem? hz) (hr i z hz hmoves)

theorem Awaits.cons {b' : Board} (h : Awaits past k S ⟨b, loc, log⟩)
    (hk : k ≠ 2 ∨ e.accessesMii = true)
    (hmoved : ∀ new, MovedAt k new → MovedAt j ((b, e) :: new))
    (hwait : ∀ new, S new b.chip → EndsSoon ((b, e) :: new) → e.accessesMii = true →
      b.chip.mii = none)
    (hS : ∀ new, S new b.chip → Timely ((b, e) :: new) → EndsSoon ((b, e) :: new) →
      S' ((b, e) :: new) b'.chip) : Awaits past j S' ⟨b', loc, (b, e) :: log⟩ := by
  obtain ⟨new, hnew, hresumes, hat, hcond⟩ := h
  refine ⟨(b, e) :: new, congrArg _ hnew, hresumes.cons hat hk, hmoved new hat,
    fun htime hends => ?_⟩
  obtain ⟨hwaits, hs⟩ := hcond htime.of_cons hends.of_cons
  refine ⟨?_, hS new hs htime hends⟩
  intro x hx hacc
  rcases List.mem_cons.mp hx with rfl | hx
  · exact hwait new hs hends hacc
  · exact hwaits x hx hacc

theorem Awaits.mono {v : View Board Statics Event} (h : Awaits past k S v)
    (hS : ∀ new c, S new c → S' new c) : Awaits past k S' v := by
  obtain ⟨new, hnew, hresumes, hat, hcond⟩ := h
  refine ⟨new, hnew, hresumes, hat, fun htime hends => ?_⟩
  exact ⟨(hcond htime hends).1, hS _ _ (hcond htime hends).2⟩

theorem Awaits.any {v : View Board Statics Event} (h : Awaits past k S v) (hk : 3 ≤ k) :
    Awaits past j S v := by
  obtain ⟨new, hnew, hresumes, hat, hcond⟩ := h
  exact ⟨new, hnew, hresumes, hat.any hk, hcond⟩

/-- What survives device moves and, counting them, actions that leave the MII alone. -/
structure Stage (S : ℕ → History → Chip → Prop) : Prop where
  move : ∀ {k new b b'}, MiiDevice b b' → S k new b.chip → S k new b'.chip
  push : ∀ {k new b e c}, c.mii = b.chip.mii → S k new b.chip → S (k + 1) ((b, e) :: new) c

theorem Settled.stage : Stage Settled where
  move hb h := h.imp_left fun hnone => (hb.idle hnone).1
  push hc h := h.imp hc.trans (movesOn_succ _ _ _).mpr

theorem Stage.true : Stage fun _ _ _ => True := ⟨fun _ _ => trivial, fun _ _ => trivial⟩

/-- The device does not start an access of its own accord. -/
theorem MiiDevice.pending {b b' : Board} (h : MiiDevice b b') (hb : b'.chip.mii.isSome) :
    b'.chip.mii = b.chip.mii := by
  rcases hmii : b.chip.mii with _ | addr | ⟨addr, data⟩
  · exact (h.idle hmii).1
  · rcases (h.read addr hmii).2 with ⟨hsame, -⟩ | ⟨hnone, -⟩
    · exact hsame.trans hmii
    · rw [hnone] at hb
      cases hb
  · rcases (h.write addr data hmii).2 with ⟨hsame, -⟩ | ⟨hnone, -⟩
    · exact hsame.trans hmii
    · rw [hnone] at hb
      cases hb

theorem PendingSince.stage (start : UInt32) : Stage fun _ => PendingSince start where
  move hb h := by
    obtain ⟨mid, b₀, earlier, hnew, hstart, hall⟩ := h
    refine ⟨mid, b₀, earlier, hnew, hstart, fun hsome => ?_⟩
    have hsame := hb.pending hsome
    rw [hsame] at hsome ⊢
    exact hall hsome
  push {k new b e c} hc h := by
    obtain ⟨mid, b₀, earlier, hnew, hstart, hall⟩ := h
    refine ⟨(b, e) :: mid, b₀, earlier, congrArg _ hnew, hstart, fun hsome => ?_⟩
    rw [hc] at hsome ⊢
    simp only [List.cons_append, List.forall_mem_cons]
    exact ⟨trivial, hall hsome⟩

theorem Awaits.move {v : View Board Statics Event} {S : ℕ → History → Chip → Prop}
    (h : Awaits past k (S j) v) (hS : Stage S) (hb : MiiDevice v.hw b) :
    Awaits past k (S j) { v with hw := b } := by
  obtain ⟨new, hnew, hresumes, hat, hcond⟩ := h
  refine ⟨new, hnew, hresumes, hat, fun htime hends => ?_⟩
  exact ⟨(hcond htime hends).1, hS.move hb (hcond htime hends).2⟩

/-- An action that has nothing to do with the MII. -/
theorem Awaits.pass {b' : Board} {S : ℕ → History → Chip → Prop}
    (h : Awaits past k (S j) ⟨b, loc, log⟩) (hS : Stage S) (hk : k ≠ 2)
    (he : e.accessesMii = false) (hpoll : e ≠ .spi [0x00 ||| (0x0A &&& 0x1F)] 1)
    (hmii : b'.chip.mii = b.chip.mii) :
    Awaits past (k + 1) (S (j + 1)) ⟨b', loc, (b, e) :: log⟩ := by
  refine h.cons (.inl hk) (fun _ hat => hat.push fun hclear => hpoll hclear.1)
    (fun _ _ _ hacc => ?_) fun new hs _ _ => hS.push hmii hs
  rw [he] at hacc
  cases hacc

/-- After the bank is selected the access is over, if the device keeps its promise. -/
theorem Settled.none_of_endsSoon (h : Settled 2 new b.chip) (hends : EndsSoon ((b, e) :: new)) :
    b.chip.mii = none :=
  h.elim id fun hmoves => hends 0 (b, e) rfl ((movesOn_succ 2 (b, e) new).mpr hmoves)

end Await

section Walk

variable {past : History} {S : History → Chip → Prop} {P : History → Prop} {k : UInt8} {j : ℕ}

/-- A byte read of a MAC or MII register is the dummy byte. -/
theorem Chip.transact_dummy {c : Chip} {addr : UInt8}
    (hmac : (Reg.select c.bank (addr &&& 0x1F)).isMacMii = true) :
    c.transact [0x00 ||| (addr &&& 0x1F)] 1 = ([c.so], c) := by
  rw [Chip.transact_rcr, Chip.rcr, if_pos hmac]
  rfl

namespace ENC28J60

theorem setBank_awaits {S : ℕ → History → Chip → Prop} (hS : Stage S) (hk : k &&& 0x03 = k)
    (hj : j = 0 ∨ 3 ≤ j) : Triple MiiDevice (Awaits past j (S j)) (setBank k)
      (fun _ v => Awaits past (j + 2) (S (j + 2)) v ∧ v.hw.chip.bank = k) fun _ => True := by
  apply Triple.seq (S := fun v => Awaits past (j + 1) (S (j + 1)) v ∧ v.hw.chip.bank = 0)
  · unfold writeOp spiTransmit
    apply Triple.act
    intro v b hv hb
    rw [Chip.transact_bfc]
    refine ⟨(hv.move hS hb).pass hS (by omega) (by decide) (by decide) rfl, ?_⟩
    refine (Chip.bank_bfc 0x03).trans ?_
    rw [Chip.bank, UInt8.and_assoc]
    exact UInt8.and_zero
  · unfold writeOp spiTransmit
    apply Triple.act
    intro v b hv hb
    rw [Chip.transact_bfs]
    refine ⟨(hv.1.move hS hb).pass hS (by omega) rfl (by simp) rfl, ?_⟩
    refine (Chip.bank_bfs (k &&& 0x03)).trans ?_
    rw [hb.host.bank_eq, hv.2, hk, hk]
    exact UInt8.zero_or

/-- A write to an MII register, when the access before it has to be over. -/
theorem writeReg_awaits {addr x : UInt8} (hw : Reg.select 2 (addr &&& 0x1F) ∈ miiRegs)
    (hacc : (Event.spi [0x40 ||| (addr &&& 0x1F), x] 0).accessesMii = true)
    (h : ∀ (new : History) (c : Chip), c.mii = none →
      S new (c.wcr (Reg.select 2 (addr &&& 0x1F)) x)) :
    Triple MiiDevice (fun v => Awaits past 2 (Settled 2) v ∧ v.hw.chip.bank = 2) (writeReg addr x)
      (fun _ v => Awaits past j S v ∧ v.hw.chip.bank = 2) fun _ => True := by
  unfold writeReg writeOp spiTransmit
  apply Triple.act
  intro v b hv hb
  have hbank : b.chip.bank = 2 := hb.host.bank_eq.trans hv.2
  rw [Chip.transact_wcr, hbank]
  refine ⟨(hv.1.move Settled.stage hb).cons (.inr hacc) (fun _ hat => ?_)
    (fun _ hs hends _ => hs.none_of_endsSoon hends)
    (fun new hs _ hends => h _ _ (hs.none_of_endsSoon hends)), ?_⟩
  · exact (hat.push fun hclear => by simp [ReadsClear] at hclear).any le_rfl
  · exact (Chip.bank_wcr (a := .mii) hw x).trans hbank

theorem halGetTick_awaits :
    Triple MiiDevice (fun v => Awaits past 3 (fun _ _ => True) v ∧ v.hw.chip.bank = k) halGetTick
      (fun t v => Awaits past 3 (PendingSince t) v ∧ v.hw.chip.bank = k) fun _ => True := by
  apply Triple.act
  intro v b hv hb
  refine ⟨(hv.1.move (j := 0) .true hb).cons (.inl (by decide)) (fun _ hat => ?_)
    (fun _ _ _ hacc => ?_) (fun new _ _ _ => ?_), hb.host.bank_eq.trans hv.2⟩
  · exact (hat.push fun hclear => by simp [ReadsClear] at hclear).any (by decide)
  · exact absurd hacc Bool.false_ne_true
  · exact ⟨[], b, new, rfl, rfl, fun _ z hz => congrArg (·.1.chip.mii) (List.mem_singleton.mp hz)⟩

theorem readMistat_awaits (start : UInt32) :
    Triple MiiDevice (fun v => Awaits past 3 (PendingSince start) v ∧ v.hw.chip.bank = 3)
      (readReg 0x0A)
      (fun x v => (x &&& 0x01 = 0 → Awaits past 0 (Settled 0) v) ∧
        (x &&& 0x01 ≠ 0 → Awaits past 3 (PendingSince start) v) ∧ v.hw.chip.bank = 3)
      fun _ => True := by
  refine Triple.bind (Q := fun bs v => (bs.headD 0 &&& 0x01 = 0 → Awaits past 0 (Settled 0) v) ∧
    (bs.headD 0 &&& 0x01 ≠ 0 → Awaits past 3 (PendingSince start) v) ∧ v.hw.chip.bank = 3) ?_
    fun bs => Triple.pure fun _ => id
  unfold spiReceive
  apply Triple.act
  intro v b hv hb
  have hbank : b.chip.bank = 3 := hb.host.bank_eq.trans hv.2
  have hbefore := hv.1.move (j := 0) (PendingSince.stage start) hb
  rw [Chip.transact_dummy (by rw [hbank]; decide)]
  refine ⟨fun hclear => ?_, fun hset => ?_, hbank⟩
  · refine hbefore.cons (.inl (by decide)) (fun _ hat => hat.poll _) (fun _ _ _ hacc => ?_)
      fun new _ _ _ => .inr ((movesOn_zero _ new).mpr ⟨rfl, hclear⟩)
    exact absurd hacc (by decide)
  · refine hbefore.cons (.inl (by decide)) (fun _ hat => ?_) (fun _ _ _ hacc => ?_)
      fun new hs _ _ => (PendingSince.stage start).push (k := 0) rfl hs
    · exact (hat.push fun hclear => hset hclear.2).any (by decide)
    · exact absurd hacc (by decide)

/-- A look at the clock: if the time is over, so is the access. -/
theorem halGetTick_over (start : UInt32) :
    Triple MiiDevice (fun v => Awaits past 3 (PendingSince start) v ∧ v.hw.chip.bank = 3)
      halGetTick
      (fun now v => Awaits past 3 (fun new c => PendingSince start new c ∧
        (now - start > 100 → Settled 0 new c)) v ∧ v.hw.chip.bank = 3) fun _ => True := by
  apply Triple.act
  intro v b hv hb
  refine ⟨(hv.1.move (j := 0) (PendingSince.stage start) hb).cons (.inl (by decide))
    (fun _ hat => ?_) (fun _ _ _ hacc => ?_) (fun new hs htime _ =>
      ⟨(PendingSince.stage start).push (k := 0) rfl hs, fun hover => .inl ?_⟩),
    hb.host.bank_eq.trans hv.2⟩
  · exact (hat.push fun hclear => by simp [ReadsClear] at hclear).any (by decide)
  · exact absurd hacc Bool.false_ne_true
  · by_contra hsome
    rw [← Option.not_isSome_iff_eq_none, not_not] at hsome
    obtain ⟨mid, b₀, earlier, rfl, rfl, hall⟩ := hs
    have hall := hall hsome
    have hstart : b₀.chip.mii = b.chip.mii := hall (b₀, .getTick) (by simp)
    -- the device has been at the access since `start` was read
    have hin : (b, .getTick) :: mid ++ [(b₀, .getTick)] <:+:
        (b, .getTick) :: (mid ++ (b₀, .getTick) :: earlier) :=
      List.IsPrefix.isInfix ⟨earlier, by simp⟩
    have hle := htime (b, .getTick) mid (b₀, .getTick) hin (hstart ▸ hsome) (by
      simp only [List.forall_mem_cons]
      exact ⟨hstart.symm, fun z hz => (hall z (List.mem_append_left _ hz)).trans hstart.symm⟩)
    exact absurd hover (UInt32.not_lt.mpr hle)

/-- The loop goes on until the access is over or a poll reads the bit clear. -/
theorem busyWait_awaits (start : UInt32) (fuel : ℕ) :
    Triple MiiDevice (fun v => Awaits past 3 (PendingSince start) v ∧ v.hw.chip.bank = 3)
      (busyWait 0x0A 0x01 100 start fuel) (fun _ => Awaits past 0 (Settled 0)) fun _ => True := by
  induction fuel with
  | zero => exact Triple.stuck fun _ _ => trivial
  | succ fuel ih =>
    apply (readMistat_awaits start).bind
    intro status
    apply Triple.ite
    · intro hset
      refine Triple.bind ((halGetTick_over start).pre fun v h => ⟨h.2.1 hset, h.2.2⟩)
        fun now => Triple.ite ?_ ?_
      · exact fun hover => Triple.pure fun v h => (h.1.mono fun _ _ hs => hs.2 hover).any le_rfl
      · exact fun _ => ih.pre fun v h => ⟨h.1.mono fun _ _ hs => hs.1, h.2⟩
    · intro hclear
      rw [not_not] at hclear
      exact Triple.pure fun v h => h.1 hclear

theorem writePHY_awaits (fuel : ℕ) (phyAddr : UInt8) (data : UInt16) :
    Triple MiiDevice (Awaits past 0 (Settled 0)) (writePHY fuel phyAddr data)
      (fun _ => Awaits past 0 (Settled 0)) fun _ => True := by
  apply (setBank_awaits Settled.stage (by decide) (.inl rfl)).seq
  apply (writeReg_awaits (S := Settled 2) (by decide) rfl (by exact fun _ _ h => .inl h)).seq
  apply (writeReg_awaits (S := Settled 2) (by decide) rfl (by exact fun _ _ h => .inl h)).seq
  apply (writeReg_awaits (S := fun _ _ => True) (j := 3) (by decide) rfl fun _ _ _ => trivial).seq
  apply ((setBank_awaits .true (by decide) (.inr le_rfl)).pre fun _ h => h.1).seq
  apply (halGetTick_awaits.pre fun _ h => ⟨h.1.any (by decide), h.2⟩).bind
  intro timeout
  exact busyWait_awaits timeout fuel

/-- One of the two reads of `MIRD`, which come last. -/
theorem readMird_awaits {addr : UInt8} (hmac : (Reg.select 2 (addr &&& 0x1F)).isMacMii = true)
    (hacc : (Event.spi [0x00 ||| (addr &&& 0x1F)] 1).accessesMii = true)
    (hpoll : addr &&& 0x1F ≠ 0x0A &&& 0x1F) :
    Triple MiiDevice (fun v => (Awaits past 2 (Settled 2) v ∧ v.hw.chip.bank = 2) ∧ P v.log)
      (readReg addr)
      (fun x v => (Awaits past 2 (Settled 2) v ∧ v.hw.chip.bank = 2) ∧
        ∃ b e log, v.log = (b, e) :: log ∧ b.chip.so = x ∧ P log) fun _ => True := by
  refine Triple.bind (Q := fun bs v => (Awaits past 2 (Settled 2) v ∧ v.hw.chip.bank = 2) ∧
    ∃ b e log, v.log = (b, e) :: log ∧ b.chip.so = bs.headD 0 ∧ P log) ?_
    fun bs => Triple.pure fun _ => id
  unfold spiReceive
  apply Triple.act
  intro v b hv hb
  have hbank : b.chip.bank = 2 := hb.host.bank_eq.trans hv.1.2
  rw [Chip.transact_dummy (by rw [hbank]; exact hmac)]
  refine ⟨⟨(hv.1.1.move Settled.stage hb).cons (.inr hacc) (fun _ hat => ?_)
    (fun _ hs hends _ => hs.none_of_endsSoon hends)
    (fun _ hs _ hends => .inl (hs.none_of_endsSoon hends)), hbank⟩, b, _, v.log, rfl, rfl, hv.2⟩
  refine (hat.push fun hclear => hpoll ?_).any le_rfl
  simpa [ReadsClear] using hclear.1

/-- `readPHY` returns the dummy bytes of its last two actions. -/
theorem readPHY_awaits (fuel : ℕ) (phyAddr : UInt8) :
    Triple MiiDevice (Awaits past 0 (Settled 0)) (readPHY fuel phyAddr)
      (fun r v => Awaits past 2 (Settled 2) v ∧
        ∃ lo hi, lastDummies v.log = some (lo, hi) ∧ r = ofLe16 lo hi) fun _ => True := by
  apply (setBank_awaits Settled.stage (by decide) (.inl rfl)).seq
  apply (writeReg_awaits (S := Settled 2) (by decide) rfl (by exact fun _ _ h => .inl h)).seq
  apply (writeReg_awaits (S := fun _ _ => True) (j := 3) (by decide) rfl fun _ _ _ => trivial).seq
  apply ((setBank_awaits .true (by decide) (.inr le_rfl)).pre fun _ h => h.1).seq
  apply (halGetTick_awaits.pre fun _ h => ⟨h.1.any (by decide), h.2⟩).bind
  intro timeout
  apply (busyWait_awaits timeout fuel).seq
  apply (setBank_awaits Settled.stage (by decide) (.inl rfl)).seq
  apply (writeReg_awaits (S := Settled 2) (by decide) rfl (by exact fun _ _ h => .inl h)).seq
  apply ((readMird_awaits (P := fun _ => True) (by decide) rfl (by decide)).pre
    fun _ h => ⟨h, trivial⟩).bind
  intro lo
  apply (readMird_awaits (P := fun log => ∃ b e rest, log = (b, e) :: rest ∧
    b.chip.so = lo ∧ True) (by decide) rfl (by decide)).bind
  intro hi
  refine Triple.pure fun v h => ⟨h.1.1, lo, hi, ?_, rfl⟩
  obtain ⟨-, b, e, log, hlog, rfl, b', e', log', rfl, rfl, -⟩ := h
  rw [hlog]
  rfl

end ENC28J60

end Walk

/-- What `phyRoundTrip` does, whatever the device makes of the accesses. -/
theorem phyRoundTrip_spec (past : History) (fuel : ℕ) (phyAddr : UInt8) (data : UInt16) :
    Triple MiiDevice (fun v => v.log = past) (phyRoundTrip fuel phyAddr data)
      (fun r v => Awaits past 2 (Settled 2) v ∧
        ∃ lo hi, lastDummies v.log = some (lo, hi) ∧ r = ofLe16 lo hi) fun _ => True := by
  have hstart : ∀ v : View Board Statics Event, v.log = past → Awaits past 0 (Settled 0) v :=
    fun v h => ⟨[], h, by simp [Resumes], movedAt_nil,
      fun _ _ => ⟨by simp [MiiWaits], .inr (.inl rfl)⟩⟩
  exact ((ENC28J60.writePHY_awaits fuel phyAddr data).pre hstart).seq
    (ENC28J60.readPHY_awaits fuel phyAddr)

/-- While time passes, the round trip comes to its end, even if the device never ends an access. -/
theorem phyRoundTrip_returns {env : ℕ → Board → Board} {tick : ℕ → ℕ} (h : Clock 100 env tick)
    (phyAddr : UInt8) (data : UInt16) (w : World Board Statics Event) :
    Returns env w (fun n => phyRoundTrip n phyAddr data) fun _ _ => True := by
  apply (ENC28J60.writePHY_returns h phyAddr data w).bind
  intro _ w' _
  exact (ENC28J60.readPHY_returns h phyAddr w').post fun _ _ _ => trivial

/-- From any state: the round trip returns while time passes. The value read is the value written
exactly if the dummy bytes before `MIRDL` and `MIRDH` are its two halves; and no access is
disturbed exactly if, when a poll gets a dummy byte with bit 0 clear, the device ends it soon. -/
theorem phy_roundTrip_iff {env : ℕ → Board → Board} (henv : ∀ n b, MiiDevice b (env n b))
    (w : World Board Statics Event) (phyAddr : UInt8) (data : UInt16) :
    (∀ tick, Clock 100 env tick →
      ∃ r N, ∀ fuel > N, (phyRoundTrip fuel phyAddr data env w).1 = some r) ∧
    ∀ fuel r, (phyRoundTrip fuel phyAddr data env w).1 = some r →
      (r = data ↔ lastDummies (phyRoundTrip fuel phyAddr data env w).2.log =
        some (data.toUInt8, (data >>> 8).toUInt8)) ∧
      ∃ new, (phyRoundTrip fuel phyAddr data env w).2.log = new ++ w.log ∧
        (Timely new → (MiiWaits new ↔ EndsSoon new)) := by
  constructor
  · intro tick hclock
    obtain ⟨r, w', -, N, hrun⟩ := phyRoundTrip_returns hclock phyAddr data w
    exact ⟨r, N, fun fuel hfuel => congrArg Prod.fst (hrun fuel hfuel)⟩
  · intro fuel r hret
    obtain ⟨⟨new, hnew, hresumes, -, hcond⟩, lo, hi, hlast, rfl⟩ :=
      (phyRoundTrip_spec w.log fuel phyAddr data env henv w rfl).1 r hret
    refine ⟨?_, new, hnew, fun htime => ⟨fun h => h.endsSoon hresumes, fun hends => ?_⟩⟩
    · rw [hlast, ofLe16_eq_iff, Option.some.injEq, Prod.mk.injEq]
    · exact (hcond htime hends).1

/-- A device that ends every MII access before the next action, with a tick for each action. -/
def promptMii (n : ℕ) (b : Board) : Board :=
  match b.chip.mii with
  | none => { b with tick := UInt32.ofNat n }
  | some (.read addr) =>
    { chip := { b.chip with mii := none, mird := b.chip.phy addr }, tick := UInt32.ofNat n }
  | some (.write addr data) =>
    { chip := { b.chip with mii := none, phy := Function.update b.chip.phy addr data }
      tick := UInt32.ofNat n }

theorem promptMii_device (n : ℕ) (b : Board) : MiiDevice b (promptMii n b) := by
  unfold promptMii
  cases hmii : b.chip.mii with
  | none => exact ⟨.refl _, fun _ => ⟨hmii, rfl, rfl⟩, by simp [hmii], by simp [hmii]⟩
  | some op =>
    cases op with
    | read addr =>
      refine ⟨⟨fun _ _ => rfl, rfl, rfl, rfl, rfl⟩, by simp [hmii], fun a ha => ?_, by simp [hmii]⟩
      obtain rfl : addr = a := by simpa [hmii] using ha
      exact ⟨rfl, .inr ⟨rfl, rfl⟩⟩
    | write addr data =>
      refine ⟨⟨fun _ _ => rfl, rfl, rfl, rfl, rfl⟩, by simp [hmii], by simp [hmii],
        fun a x ha => ?_⟩
      obtain ⟨rfl, rfl⟩ : addr = a ∧ data = x := by simpa [hmii] using ha
      exact ⟨rfl, .inr ⟨rfl, rfl⟩⟩

theorem promptMii_clock : Clock 100 promptMii id where
  reads n b := by
    unfold promptMii
    split <;> rfl
  mono := monotone_id
  unbounded t := ⟨t + 1, Nat.lt_succ_self t⟩
  step n := by
    have hlimit : (100 : UInt32).toNat = 100 := rfl
    rw [hlimit]
    simp

theorem phyRoundTrip_bench :
    (phyRoundTrip 1 0x14 0x0A40 promptMii benchWorld).1 = some 0 := by decide +kernel

theorem phy_roundTrip_iff_bench :
    (∃ r N, ∀ fuel > N, (phyRoundTrip fuel 0x14 0x0A40 promptMii benchWorld).1 = some r) ∧
    ((0 : UInt16) = 0x0A40 ↔ lastDummies (phyRoundTrip 1 0x14 0x0A40 promptMii benchWorld).2.log =
      some ((0x0A40 : UInt16).toUInt8, ((0x0A40 : UInt16) >>> 8).toUInt8)) ∧
    ∃ new, (phyRoundTrip 1 0x14 0x0A40 promptMii benchWorld).2.log = new ++ benchWorld.log ∧
      (Timely new → (MiiWaits new ↔ EndsSoon new)) := by
  obtain ⟨hreturns, hvalue⟩ :=
    phy_roundTrip_iff promptMii_device benchWorld 0x14 0x0A40
  exact ⟨hreturns id promptMii_clock, hvalue 1 0 phyRoundTrip_bench⟩

/-- Although the PHY has stored `0x0A40`, the dummy bytes make it 0. -/
theorem phy_roundTrip_differs : ¬ ∀ (env : ℕ → Board → Board) (tick : ℕ → ℕ)
    (w : World Board Statics Event) (fuel : ℕ) (phyAddr : UInt8) (data r : UInt16),
    (∀ n b, MiiDevice b (env n b)) → Clock 100 env tick → w.hw.chip.mii = none →
      (phyRoundTrip fuel phyAddr data env w).1 = some r →
        Timely (phyRoundTrip fuel phyAddr data env w).2.log → r = data := by
  intro h
  have hidle : ∀ x ∈ (phyRoundTrip 1 0x14 0x0A40 promptMii benchWorld).2.log,
      x.1.chip.mii = none := by
    decide +kernel
  have htime : Timely (phyRoundTrip 1 0x14 0x0A40 promptMii benchWorld).2.log := by
    intro y mid x hin hpending _
    have hnone := hidle x (hin.mem (by simp))
    rw [hnone] at hpending
    cases hpending
  have hsame := h promptMii id benchWorld 1 0x14 0x0A40 0 promptMii_device promptMii_clock rfl
    phyRoundTrip_bench htime
  exact absurd hsame (by decide)

end EthernetPing
