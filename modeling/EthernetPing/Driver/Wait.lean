import EthernetPing.Driver.Config

/-!
# Waiting with a time limit

`readPHY`, `writePHY` and `sendPacket` wait in the same loop, `busyWait`. It only looks
at the board, so that what it sees is the board left to itself. The tick counter has 32
bits; its differences are right as long as less than a full turn passes between two
looks at it. While time passes in this way, the three functions return, and the wait in
each of them is on time.
-/

namespace EthernetPing

/-- The board at the `k`-th action from `w` on, if the driver only looks. -/
def boardAt (env : ℕ → Board → Board) (w : World Board Statics Event) : ℕ → Board
  | 0 => env w.now w.hw
  | k + 1 => env (w.now + (k + 1)) (boardAt env w k)

/-- The byte that `readReg` gets. -/
def Board.status (b : Board) (addr : UInt8) : UInt8 :=
  (b.chip.transact [0x00 ||| (addr &&& 0x1F)] 1).1.headD 0

/-- What the loop sees from `w` on: its `i`-th poll reads the status bit `busy i`, and the tick
that follows is `tick i`, counted in 32 bits. -/
structure Samples (env : ℕ → Board → Board) (w : World Board Statics Event) (addr mask : UInt8)
    (busy : ℕ → Bool) (tick : ℕ → ℕ) : Prop where
  busy : ∀ i, ((boardAt env w (2 * i)).status addr &&& mask != 0) = busy i
  tick : ∀ i, (boardAt env w (2 * i + 1)).tick = UInt32.ofNat (tick i)

/-- True time from `t₀` on. It passes, and by less than `2^32 - limit - 1` between two reads. -/
structure Passing (limit : UInt32) (t₀ : ℕ) (tick : ℕ → ℕ) : Prop where
  start : t₀ ≤ tick 0
  mono : ∀ i, tick i ≤ tick (i + 1)
  unbounded : ∀ t, ∃ i, t < tick i
  firstStep : tick 0 < t₀ + (2 ^ 32 - limit.toNat - 1)
  step : ∀ i, tick (i + 1) < tick i + (2 ^ 32 - limit.toNat - 1)

section Loop

variable {env : ℕ → Board → Board} {w w' : World Board Statics Event} {addr mask : UInt8}
  {limit start : UInt32}

theorem boardAt_add_two (hnow : w'.now = w.now + 2) (hhw : w'.hw = boardAt env w 1) (k : ℕ) :
    boardAt env w' k = boardAt env w (k + 2) := by
  induction k with
  | zero => rw [boardAt, hnow, hhw]; rfl
  | succ k ih =>
    have hidx : w.now + 2 + (k + 1) = w.now + (k + 2 + 1) := by omega
    rw [boardAt, ih, hnow, hidx]
    rfl

namespace ENC28J60

def looked (env : ℕ → Board → Board) (w : World Board Statics Event) (e : Event) :
    World Board Statics Event where
  hw := env w.now w.hw
  loc := w.loc
  log := (env w.now w.hw, e) :: w.log
  now := w.now + 1

theorem readReg_eq (addr : UInt8) (env : ℕ → Board → Board) (w : World Board Statics Event) :
    readReg addr env w = (some ((boardAt env w 0).status addr),
      looked env w (.spi [0x00 ||| (addr &&& 0x1F)] 1)) := by
  have hsame : ((env w.now w.hw).chip.transact [0x00 ||| (addr &&& 0x1F)] 1).2 =
      (env w.now w.hw).chip := by
    rw [Chip.transact_rcr]
  have hread : spiReceive [0x00 ||| (addr &&& 0x1F)] 1 env w =
      (some ((env w.now w.hw).chip.transact [0x00 ||| (addr &&& 0x1F)] 1).1,
        looked env w (.spi [0x00 ||| (addr &&& 0x1F)] 1)) := by
    unfold spiReceive Prog.act
    dsimp only
    rw [hsame]
    rfl
  exact Prog.bind_eq hread

theorem halGetTick_eq (env : ℕ → Board → Board) (w : World Board Statics Event) :
    halGetTick env w = (some (boardAt env w 0).tick, looked env w .getTick) := rfl

/-- One round of the loop, which looks twice at most. -/
theorem busyWait_round (env : ℕ → Board → Board) (w : World Board Statics Event)
    (addr mask : UInt8) (limit start : UInt32) : ∃ w₁ w₂ : World Board Statics Event,
    w₁.now = w.now + 1 ∧ w₂.now = w.now + 2 ∧ w₂.hw = boardAt env w 1 ∧
      w₁.log.head? = some (boardAt env w 0, .spi [0x00 ||| (addr &&& 0x1F)] 1) ∧
      w₂.log.head? = some (boardAt env w 1, .getTick) ∧ ∀ fuel,
        busyWait addr mask limit start (fuel + 1) env w =
          if (boardAt env w 0).status addr &&& mask ≠ 0 then
            if (boardAt env w 1).tick - start > limit then (some (), w₂)
            else busyWait addr mask limit start fuel env w₂
          else (some (), w₁) := by
  refine ⟨looked env w (.spi [0x00 ||| (addr &&& 0x1F)] 1),
    looked env (looked env w (.spi [0x00 ||| (addr &&& 0x1F)] 1)) .getTick, rfl, rfl, rfl, rfl, rfl,
    fun fuel => (Prog.bind_eq (readReg_eq addr env w)).trans ?_⟩
  split_ifs with hbusy hover
  · exact (Prog.bind_eq (halGetTick_eq env _)).trans (congrFun (congrFun (if_pos hover) env) _)
  · exact (Prog.bind_eq (halGetTick_eq env _)).trans (congrFun (congrFun (if_neg hover) env) _)
  · rfl

/-- The loop ends in the first round that finds the bit clear or the limit exceeded. -/
theorem busyWait_stops {k : ℕ} (hgo : ∀ i < k, (boardAt env w (2 * i)).status addr &&& mask ≠ 0 ∧
      ¬ (boardAt env w (2 * i + 1)).tick - start > limit)
    (hstop : (boardAt env w (2 * k)).status addr &&& mask = 0 ∨
      (boardAt env w (2 * k + 1)).tick - start > limit) :
    ∃ w', (∀ fuel > k, busyWait addr mask limit start fuel env w = (some (), w')) ∧
      if (boardAt env w (2 * k)).status addr &&& mask = 0 then
        w'.now = w.now + (2 * k + 1) ∧ w'.log.head? =
          some (boardAt env w (2 * k), .spi [0x00 ||| (addr &&& 0x1F)] 1)
      else w'.now = w.now + (2 * k + 2) ∧ w'.log.head? =
        some (boardAt env w (2 * k + 1), .getTick) := by
  induction k generalizing w with
  | zero =>
    obtain ⟨w₁, w₂, h₁, h₂, -, hpoll, htick, hround⟩ := busyWait_round env w addr mask limit start
    by_cases hclear : (boardAt env w 0).status addr &&& mask = 0
    · refine ⟨w₁, fun fuel hfuel => ?_, ?_⟩
      · obtain ⟨fuel, rfl⟩ := Nat.exists_eq_succ_of_ne_zero (Nat.ne_of_gt hfuel)
        exact (hround fuel).trans (if_neg (not_not.mpr hclear))
      · rw [if_pos hclear]
        exact ⟨h₁, hpoll⟩
    · have hover := hstop.resolve_left hclear
      refine ⟨w₂, fun fuel hfuel => ?_, ?_⟩
      · obtain ⟨fuel, rfl⟩ := Nat.exists_eq_succ_of_ne_zero (Nat.ne_of_gt hfuel)
        exact (hround fuel).trans ((if_pos hclear).trans (if_pos hover))
      · rw [if_neg hclear]
        exact ⟨h₂, htick⟩
  | succ k ih =>
    obtain ⟨w₁, w₂, -, hnow, hhw, -, -, hround⟩ := busyWait_round env w addr mask limit start
    obtain ⟨hbusy, hover⟩ := hgo 0 (Nat.succ_pos k)
    have hshift : ∀ i, boardAt env w₂ i = boardAt env w (i + 2) := boardAt_add_two hnow hhw
    obtain ⟨w', hrun, hend⟩ := ih (w := w₂)
      (fun i hi => by
        rw [hshift, hshift]
        exact hgo (i + 1) (Nat.succ_lt_succ hi))
      (by rw [hshift, hshift]; exact hstop)
    refine ⟨w', fun fuel hfuel => ?_, ?_⟩
    · obtain ⟨fuel, rfl⟩ := Nat.exists_eq_succ_of_ne_zero (Nat.ne_of_gt (Nat.zero_lt_of_lt hfuel))
      rw [hround fuel, if_pos hbusy, if_neg hover]
      exact hrun fuel (Nat.lt_of_succ_lt_succ hfuel)
    · have hpoll : w.now + 2 + (2 * k + 1) = w.now + (2 * (k + 1) + 1) := by omega
      have htick : w.now + 2 + (2 * k + 2) = w.now + (2 * (k + 1) + 2) := by omega
      rw [hshift, hshift, hnow, hpoll, htick] at hend
      exact hend

end ENC28J60

end Loop

section Clock

variable {limit : UInt32} {t₀ : ℕ} {tick : ℕ → ℕ}

theorem Passing.le (h : Passing limit t₀ tick) (i : ℕ) : t₀ ≤ tick i := by
  induction i with
  | zero => exact h.start
  | succ i ih => exact ih.trans (h.mono i)

/-- Up to the first read that is over the limit, the elapsed time fits into 32 bits. -/
theorem Passing.elapsed_lt (h : Passing limit t₀ tick) {i : ℕ}
    (hin : ∀ j < i, tick j - t₀ ≤ limit.toNat) : tick i - t₀ < 2 ^ 32 := by
  have hlimit := limit.toNat_lt
  cases i with
  | zero =>
    have := h.firstStep
    omega
  | succ i =>
    have := h.step i
    have := hin i (Nat.lt_succ_self i)
    omega

/-- There the wrapping difference tells the elapsed time. -/
theorem Passing.over_iff (h : Passing limit t₀ tick) {i : ℕ}
    (hin : ∀ j < i, tick j - t₀ ≤ limit.toNat) :
    UInt32.ofNat (tick i) - UInt32.ofNat t₀ > limit ↔ limit.toNat < tick i - t₀ := by
  have hle := h.le i
  have hlt := h.elapsed_lt hin
  have hdiff : (UInt32.ofNat (tick i) - UInt32.ofNat t₀).toNat = tick i - t₀ := by
    rw [UInt32.toNat_sub, UInt32.toNat_ofNat', UInt32.toNat_ofNat']
    omega
  rw [gt_iff_lt, UInt32.lt_iff_toNat_lt, hdiff]

end Clock

/-- The loop ends, with the first poll that reads the bit clear or the first tick read that is
truly over the limit, whichever comes first; before that, the bit was set at every poll and the
limit not exceeded at any read. -/
theorem busyWait_ends {env : ℕ → Board → Board} {w : World Board Statics Event}
    {addr mask : UInt8} {limit : UInt32} {busy : ℕ → Bool} {t₀ : ℕ} {tick : ℕ → ℕ}
    (hsamples : Samples env w addr mask busy tick) (htime : Passing limit t₀ tick) :
    ∃ k, (busy k = false ∨ limit.toNat < tick k - t₀) ∧
      (∀ i < k, busy i = true ∧ tick i - t₀ ≤ limit.toNat) ∧
      ∀ fuel > k, ∃ w',
        ENC28J60.busyWait addr mask limit (UInt32.ofNat t₀) fuel env w = (some (), w') ∧
          w'.now = w.now + if busy k then 2 * k + 2 else 2 * k + 1 := by
  have hex : ∃ i, busy i = false ∨ limit.toNat < tick i - t₀ := by
    obtain ⟨i, hi⟩ := htime.unbounded (t₀ + limit.toNat)
    exact ⟨i, .inr (by omega)⟩
  classical
  have hbefore : ∀ i < Nat.find hex, busy i = true ∧ tick i - t₀ ≤ limit.toNat := by
    intro i hi
    have hnot := Nat.find_min hex hi
    rw [not_or, Bool.not_eq_false, Nat.not_lt] at hnot
    exact hnot
  have hbit : ∀ i, (boardAt env w (2 * i)).status addr &&& mask = 0 ↔ busy i = false := by
    intro i
    rw [← hsamples.busy i, bne_eq_false_iff_eq]
  have hover : ∀ i ≤ Nat.find hex, (boardAt env w (2 * i + 1)).tick - UInt32.ofNat t₀ > limit ↔
      limit.toNat < tick i - t₀ := by
    intro i hi
    rw [hsamples.tick i]
    exact htime.over_iff fun j hj => (hbefore j (lt_of_lt_of_le hj hi)).2
  have hgo : ∀ i < Nat.find hex, (boardAt env w (2 * i)).status addr &&& mask ≠ 0 ∧
      ¬ (boardAt env w (2 * i + 1)).tick - UInt32.ofNat t₀ > limit := by
    intro i hi
    obtain ⟨hset, hin⟩ := hbefore i hi
    constructor
    · intro hclear
      exact Bool.false_ne_true (((hbit i).mp hclear).symm.trans hset)
    · rw [hover i hi.le]
      exact Nat.not_lt.mpr hin
  obtain ⟨w', hrun, hend⟩ := ENC28J60.busyWait_stops hgo
    ((Nat.find_spec hex).imp (hbit _).mpr (hover _ le_rfl).mpr)
  refine ⟨Nat.find hex, Nat.find_spec hex, hbefore, fun fuel hfuel => ⟨w', hrun fuel hfuel, ?_⟩⟩
  simp only [hbit] at hend
  cases hbusy : busy (Nat.find hex) with
  | false =>
    rw [if_pos hbusy] at hend
    exact hend.1
  | true =>
    rw [if_neg (by rw [hbusy]; decide)] at hend
    exact hend.1

section Returns

variable {env : ℕ → Board → Board} {w : World Board Statics Event} {addr mask : UInt8}
  {limit : UInt32} {tick : ℕ → ℕ} {m : ℕ}

/-- The tick counter shows true time, `tick n` at the `n`-th action, whatever the driver does. It
passes, and over four actions by less than a full turn of the counter less the limit. -/
structure Clock (limit : UInt32) (env : ℕ → Board → Board) (tick : ℕ → ℕ) : Prop where
  reads : ∀ n b, (env n b).tick = UInt32.ofNat (tick n)
  mono : Monotone tick
  unbounded : ∀ t, ∃ n, t < tick n
  step : ∀ n, tick (n + 4) < tick n + (2 ^ 32 - limit.toNat - 1)

/-- A loop whose start tick was read at the action `m` has ended at the action before `w.now`: with
a poll that read the bit clear or a tick read truly over the limit. It began at the action `first`,
and none of its earlier tick reads was over the limit. -/
structure Waited (addr mask : UInt8) (limit : UInt32) (tick : ℕ → ℕ) (m first : ℕ)
    (w : World Board Statics Event) : Prop where
  ended : ∃ b, w.log.head? = some (b, .spi [0x00 ||| (addr &&& 0x1F)] 1) ∧
      b.status addr &&& mask = 0 ∨
    w.log.head? = some (b, .getTick) ∧ limit.toNat < tick (w.now - 1) - tick m
  within : ∀ n ≥ first, n + 3 ≤ w.now → tick n - tick m ≤ limit.toNat

theorem Clock.passing (h : Clock limit env tick) {n : ℕ} (hm : m ≤ n) (hsoon : n ≤ m + 4) :
    Passing limit (tick m) fun i => tick (n + 2 * i) where
  start := h.mono (by omega)
  mono i := h.mono (by omega)
  unbounded t := by
    obtain ⟨i, hi⟩ := h.unbounded t
    exact ⟨i, hi.trans_le (h.mono (by omega))⟩
  firstStep := (h.mono (by omega)).trans_lt (h.step m)
  step i := (h.mono (by omega)).trans_lt (h.step (n + 2 * i))

namespace ENC28J60

theorem halGetTick_returns (h : Clock limit env tick) (w : World Board Statics Event) :
    Returns env w (fun _ => halGetTick) fun t w' =>
      t = UInt32.ofNat (tick w.now) ∧ w'.now = w.now + 1 :=
  ⟨_, _, ⟨h.reads w.now w.hw, rfl⟩, 0, fun _ _ => rfl⟩

/-- A loop that starts soon after its tick was read ends on time, whatever the device answers. -/
theorem busyWait_returns (h : Clock limit env tick) (addr mask : UInt8) (hm : m ≤ w.now)
    (hsoon : w.now ≤ m + 3) : Returns env w
      (fun n => busyWait addr mask limit (UInt32.ofNat (tick m)) n)
      fun _ w' => Waited addr mask limit tick m w.now w' := by
  have htime := h.passing (m := m) (n := w.now + 1) (by omega) (by omega)
  have hread : ∀ i, (boardAt env w (2 * i + 1)).tick = UInt32.ofNat (tick (w.now + 1 + 2 * i)) := by
    intro i
    have hidx : w.now + (2 * i + 1) = w.now + 1 + 2 * i := by omega
    rw [boardAt, h.reads, hidx]
  have hex : ∃ i, (boardAt env w (2 * i)).status addr &&& mask = 0 ∨
      limit.toNat < tick (w.now + 1 + 2 * i) - tick m := by
    obtain ⟨i, hi⟩ := htime.unbounded (tick m + limit.toNat)
    exact ⟨i, .inr (by omega)⟩
  classical
  have hbefore : ∀ i < Nat.find hex, (boardAt env w (2 * i)).status addr &&& mask ≠ 0 ∧
      tick (w.now + 1 + 2 * i) - tick m ≤ limit.toNat := by
    intro i hi
    have hnot := Nat.find_min hex hi
    rw [not_or, Nat.not_lt] at hnot
    exact hnot
  have hover : ∀ i ≤ Nat.find hex,
      (boardAt env w (2 * i + 1)).tick - UInt32.ofNat (tick m) > limit ↔
        limit.toNat < tick (w.now + 1 + 2 * i) - tick m := by
    intro i hi
    rw [hread]
    exact htime.over_iff fun j hj => (hbefore j (lt_of_lt_of_le hj hi)).2
  have hgo : ∀ i < Nat.find hex, (boardAt env w (2 * i)).status addr &&& mask ≠ 0 ∧
      ¬ (boardAt env w (2 * i + 1)).tick - UInt32.ofNat (tick m) > limit := by
    intro i hi
    obtain ⟨hset, hin⟩ := hbefore i hi
    exact ⟨hset, (hover i hi.le).not.mpr (Nat.not_lt.mpr hin)⟩
  obtain ⟨w', hrun, hend⟩ :=
    busyWait_stops hgo ((Nat.find_spec hex).imp_right (hover _ le_rfl).mpr)
  have hlate : w'.now ≤ w.now + (2 * Nat.find hex + 2) := by
    split_ifs at hend <;> omega
  refine ⟨(), w', ⟨?_, fun n hfirst hn => ?_⟩, Nat.find hex, hrun⟩
  · split_ifs at hend with hclear
    · exact ⟨_, .inl ⟨hend.2, hclear⟩⟩
    · have hidx : w'.now - 1 = w.now + 1 + 2 * Nat.find hex := by omega
      refine ⟨_, .inr ⟨hend.2, ?_⟩⟩
      rw [hidx]
      exact (Nat.find_spec hex).resolve_left hclear
  · -- the round before the last read its tick after the action `n`
    obtain ⟨k, hk⟩ := Nat.exists_eq_succ_of_ne_zero (n := Nat.find hex) (by omega)
    have hlast := (hbefore k (by omega)).2
    have hle := h.mono (show n ≤ w.now + 1 + 2 * k by omega)
    omega

theorem spiTransmit_returns (w : World Board Statics Event) (mosi : List UInt8) :
    Returns env w (fun _ => spiTransmit mosi) fun _ w' => w'.now = w.now + 1 :=
  ⟨(), _, rfl, 0, fun _ _ => rfl⟩

theorem writeReg_returns (w : World Board Statics Event) (addr data : UInt8) :
    Returns env w (fun _ => writeReg addr data) fun _ w' => w'.now = w.now + 1 :=
  spiTransmit_returns w _

theorem setBank_returns (w : World Board Statics Event) (bank : UInt8) :
    Returns env w (fun _ => setBank bank) fun _ w' => w'.now = w.now + 2 :=
  ⟨(), _, rfl, 0, fun _ _ => rfl⟩

theorem readReg_returns (w : World Board Statics Event) (addr : UInt8) :
    Returns env w (fun _ => readReg addr) fun _ w' => w'.now = w.now + 1 :=
  ⟨_, _, rfl, 0, fun _ _ => readReg_eq addr env w⟩

/-- From any state and whatever the device answers, `readPHY` returns: its start tick is read at its
seventh action, the loop begins at the eighth and ends on time, and five actions follow. -/
theorem readPHY_returns (h : Clock 100 env tick) (phyAddr : UInt8)
    (w : World Board Statics Event) :
    Returns env w (fun n => readPHY n phyAddr) fun _ w' => ∃ v,
      Waited 0x0A 0x01 100 tick (w.now + 6) (w.now + 7) v ∧ w'.now = v.now + 5 := by
  apply (setBank_returns w 2).bind
  intro _ w₁ h₁
  apply (writeReg_returns w₁ 0x14 phyAddr).bind
  intro _ w₂ h₂
  apply (writeReg_returns w₂ 0x12 0x01).bind
  intro _ w₃ h₃
  apply (setBank_returns w₃ 3).bind
  intro _ w₄ h₄
  apply (halGetTick_returns h w₄).bind
  rintro _ w₅ ⟨rfl, h₅⟩
  have hstart : w₄.now = w.now + 6 := by omega
  have hfirst : w₅.now = w.now + 7 := by omega
  apply (busyWait_returns (m := w₄.now) h 0x0A 0x01 (by omega) (by omega)).bind
  intro _ v hwait
  apply (setBank_returns v 2).bind
  intro _ w₆ h₆
  apply (writeReg_returns w₆ 0x12 0x00).bind
  intro _ w₇ h₇
  apply (readReg_returns w₇ 0x18).bind
  intro lo w₈ h₈
  apply (readReg_returns w₈ 0x19).bind
  intro hi w₉ h₉
  rw [hstart, hfirst] at hwait
  exact Returns.pure ⟨v, hwait, by omega⟩

/-- `writePHY` returns too, with the end of its loop. -/
theorem writePHY_returns (h : Clock 100 env tick) (phyAddr : UInt8) (data : UInt16)
    (w : World Board Statics Event) :
    Returns env w (fun n => writePHY n phyAddr data) fun _ w' =>
      Waited 0x0A 0x01 100 tick (w.now + 7) (w.now + 8) w' := by
  apply (setBank_returns w 2).bind
  intro _ w₁ h₁
  apply (writeReg_returns w₁ 0x14 phyAddr).bind
  intro _ w₂ h₂
  apply (writeReg_returns w₂ 0x16 _).bind
  intro _ w₃ h₃
  apply (writeReg_returns w₃ 0x17 _).bind
  intro _ w₄ h₄
  apply (setBank_returns w₄ 3).bind
  intro _ w₅ h₅
  apply (halGetTick_returns h w₅).bind
  rintro _ w₆ ⟨rfl, h₆⟩
  have hstart : w₅.now = w.now + 7 := by omega
  have hfirst : w₆.now = w.now + 8 := by omega
  rw [← hstart, ← hfirst]
  exact busyWait_returns h 0x0A 0x01 (by omega) (by omega)

/-- And so does `sendPacket`, where the bank is selected between the tick read and the loop. -/
theorem sendPacket_returns (h : Clock 200 env tick) (buf : List UInt8) (len : UInt16)
    (w : World Board Statics Event) :
    Returns env w (fun n => sendPacket n buf len) fun _ w' =>
      Waited 0x1F 0x08 200 tick (w.now + 11) (w.now + 14) w' := by
  apply (spiTransmit_returns w _).bind
  intro _ w₁ h₁
  apply (setBank_returns w₁ 0).bind
  intro _ w₂ h₂
  apply (writeReg_returns w₂ 0x04 _).bind
  intro _ w₃ h₃
  apply (writeReg_returns w₃ 0x05 _).bind
  intro _ w₄ h₄
  apply (writeReg_returns w₄ 0x02 _).bind
  intro _ w₅ h₅
  apply (writeReg_returns w₅ 0x03 _).bind
  intro _ w₆ h₆
  apply (spiTransmit_returns w₆ _).bind
  intro _ w₇ h₇
  apply (writeReg_returns w₇ 0x06 _).bind
  intro _ w₈ h₈
  apply (writeReg_returns w₈ 0x07 _).bind
  intro _ w₉ h₉
  apply (spiTransmit_returns w₉ _).bind
  intro _ w₁₀ h₁₀
  apply (halGetTick_returns h w₁₀).bind
  rintro _ w₁₁ ⟨rfl, h₁₁⟩
  apply (setBank_returns w₁₁ 0).bind
  intro _ w₁₂ h₁₂
  have hstart : w₁₀.now = w.now + 11 := by omega
  have hfirst : w₁₂.now = w.now + 14 := by omega
  rw [← hstart, ← hfirst]
  exact busyWait_returns h 0x1F 0x08 (by omega) (by omega)

end ENC28J60

end Returns

/-- A board on which only the time passes, one tick for each action. -/
def clockwork (_ : ℕ) (b : Board) : Board := { b with tick := b.tick + 1 }

/-- The PHY is busy for ever, and the tick counter wraps in 50 ms. -/
def stuckWorld : World Board Statics Event where
  hw :=
    { chip :=
        { benchChip with
          regs := fun r => if r = Reg.ECON1 then 0x03 else 0, mii := some (.read 0), so := 0x01 }
      tick := UInt32.ofNat (2 ^ 32 - 50) }
  loc := .load fun _ => 0
  log := []
  now := 0

theorem boardAt_clockwork (k : ℕ) : boardAt clockwork stuckWorld k =
    { stuckWorld.hw with tick := UInt32.ofNat (2 ^ 32 - 50 + (k + 1)) } := by
  induction k with
  | zero => rfl
  | succ k ih =>
    have htick : UInt32.ofNat (2 ^ 32 - 50 + (k + 1)) + 1 =
        UInt32.ofNat (2 ^ 32 - 50 + (k + 1 + 1)) := (UInt32.ofNat_add _ 1).symm
    rw [boardAt, ih, clockwork, htick]

theorem samples_clockwork : Samples clockwork stuckWorld 0x0A 0x01 (fun _ => true)
    fun i => 2 ^ 32 - 50 + (2 * i + 2) where
  busy i := by
    rw [boardAt_clockwork]
    exact (by decide : (stuckWorld.hw.status 0x0A &&& 0x01 != 0) = true)
  tick i := by rw [boardAt_clockwork]

theorem busyWait_ends_clockwork : ∃ k, (true = false ∨ (100 : UInt32).toNat <
        2 ^ 32 - 50 + (2 * k + 2) - (2 ^ 32 - 50)) ∧
      (∀ i < k, true = true ∧ 2 ^ 32 - 50 + (2 * i + 2) - (2 ^ 32 - 50) ≤ (100 : UInt32).toNat) ∧
      ∀ fuel > k, ∃ w', ENC28J60.busyWait 0x0A 0x01 100 (UInt32.ofNat (2 ^ 32 - 50)) fuel clockwork
          stuckWorld = (some (), w') ∧
        w'.now = stuckWorld.now + if true then 2 * k + 2 else 2 * k + 1 := by
  have hlimit : (100 : UInt32).toNat = 100 := rfl
  have htime : Passing 100 (2 ^ 32 - 50) fun i => 2 ^ 32 - 50 + (2 * i + 2) := by
    constructor
    · omega
    · intro i; omega
    · exact fun t => ⟨t, by omega⟩
    · rw [hlimit]; omega
    · intro i; rw [hlimit]; omega
  exact busyWait_ends samples_clockwork htime

end EthernetPing
