import EthernetPing.Driver.Transmit
import EthernetPing.Net.MainLoop

/-!
# Received lengths

`packetReceive` takes the four bytes of the FCS off the length word in 16-bit arithmetic
before it clamps the length. Whatever the device answers, it reads as many bytes as it
returns; whether that is the right number depends on the subtraction not wrapping.
-/

namespace EthernetPing

/-- `header[4] | (header[5] << 8)` -/
def Taken.lengthWord (t : Taken) : UInt16 := ofLe16 (t.header.getD 4 0) (t.header.getD 5 0)

/-- The bytes that a packet with this length word has to offer, at most `maxlen`. -/
def dueLength (word maxlen : UInt16) : ℕ :=
  if 4 ≤ word.toNat then min (word.toNat - 4) maxlen.toNat else 0

/-- The call returned the length that is due and wrote that many bytes, and for a packet without
an FCS the main loop passes nothing up. -/
structure LengthDue (t : Taken) (maxlen : UInt16) (r : UInt16 × List UInt8) : Prop where
  written : r.2.length = r.1.toNat
  due : r.1.toNat = dueLength t.lengthWord maxlen
  passUp : t.lengthWord.toNat < 4 → ∀ pool pktBuf, passUp pool pktBuf r.1 = none

section Length

variable {R : Board → Board → Prop} {E : DrvAssn}

/-- Only the driver itself changes its variables, whatever the device does. -/
theorem CalmKept.loc (R : Board → Board → Prop) (φ : Statics → Prop) :
    CalmKept R fun v => φ v.loc :=
  ⟨fun h _ => h, fun h _ => h⟩

namespace ENC28J60

theorem readBuffer_length {I : DrvAssn} (hI : CalmKept R I) (len : UInt16) :
    Triple R I (readBuffer len) (fun bs v => I v ∧ bs.length = len.toNat) E := by
  unfold readBuffer spiReceive
  apply Triple.act
  intro v b hv hb
  refine ⟨hI.act (hI.move hv hb) (Event.calm_of_cmd (by decide) (by decide) _ _), ?_⟩
  rw [Chip.transact_rbm, Chip.length_rbm]

theorem fetchPacket_length {I : DrvAssn} (hI : CalmKept R I) (maxlen : UInt16) :
    Triple R I (fetchPacket maxlen) (fun t v => I v ∧
      t.pktLen = clampLen t.lengthWord maxlen ∧ t.buf.length = t.pktLen.toNat) E := by
  apply (setBank_calm hI 0).seq
  refine Triple.bind (Q := fun _ => I) (Triple.read fun _ => id) ?_
  intro rxPtr
  apply (writeReg_calm hI _ (by decide) (by decide)).seq
  apply (writeReg_calm hI _ (by decide) (by decide)).seq
  apply (readBuffer_calm hI 6).bind
  intro header
  apply (readBuffer_length hI _).bind
  intro buf
  exact Triple.pure fun v h => ⟨h.1, rfl, h.2⟩

/-- A call that takes a packet returns the clamped length and as many bytes. -/
theorem packetReceive_taken (ts : List Taken) (maxlen : UInt16) :
    Triple R (fun v => v.loc.taken = ts) (packetReceive maxlen)
      (fun r v => ∀ t, v.loc.taken = ts ++ [t] →
        r.1 = clampLen t.lengthWord maxlen ∧ r.2.length = r.1.toNat) E := by
  have hI : CalmKept R fun v => v.loc.taken = ts := .loc R fun s => s.taken = ts
  apply (setBank_calm hI 1).seq
  apply (readReg_calm hI 0x19).bind
  intro pktCnt
  apply Triple.ite
  · intro _
    refine Triple.pure fun v h t ht => ?_
    rw [h] at ht
    simp at ht
  · intro _
    apply (fetchPacket_length hI maxlen).bind
    intro t
    apply Triple.seq (S := fun v => v.loc.taken = ts ++ [t] ∧
      t.pktLen = clampLen t.lengthWord maxlen ∧ t.buf.length = t.pktLen.toNat)
    · refine Triple.modify fun v h => ⟨?_, h.2⟩
      exact congrArg (· ++ [t]) h.1
    · apply Triple.of_fact
      rintro ⟨hlen, hbuf⟩
      apply (freeSpace_calm (CalmKept.loc R fun s => s.taken = ts ++ [t]) t.nextPtr).seq
      refine Triple.pure fun v h t' ht' => ?_
      obtain rfl : t = t' := by simpa [h] using ht'
      exact ⟨hlen, hbuf⟩

end ENC28J60

theorem clampLen_of_le {word maxlen : UInt16} (h : 4 ≤ word.toNat) :
    (ENC28J60.clampLen word maxlen).toNat = min (word.toNat - 4) maxlen.toNat := by
  have hsub : (word - 4).toNat = word.toNat - 4 :=
    UInt16.toNat_sub_of_le _ _ (UInt16.le_iff_toNat_le.mpr h)
  rw [ENC28J60.clampLen]
  simp only [gt_iff_lt, UInt16.lt_iff_toNat_lt]
  split_ifs <;> omega

theorem clampLen_of_lt {word maxlen : UInt16} (h : word.toNat < 4) :
    (ENC28J60.clampLen word maxlen).toNat = min (word.toNat + 65532) maxlen.toNat := by
  have hsub : (word - 4).toNat = word.toNat + 65532 := by
    rw [UInt16.toNat_sub]
    have : (4 : UInt16).toNat = 4 := rfl
    omega
  rw [ENC28J60.clampLen]
  simp only [gt_iff_lt, UInt16.lt_iff_toNat_lt]
  split_ifs <;> omega

/-- Whatever the device and the header: the length is right exactly if the length word counts an
FCS, or no byte may be written. -/
theorem packetReceive_length_iff {env : ℕ → Board → Board} {w : World Board Statics Event}
    {maxlen : UInt16} {r : UInt16 × List UInt8} {t : Taken}
    (hret : (ENC28J60.packetReceive maxlen env w).1 = some r)
    (htaken : (ENC28J60.packetReceive maxlen env w).2.loc.taken = w.loc.taken ++ [t]) :
    LengthDue t maxlen r ↔ 4 ≤ t.lengthWord.toNat ∨ maxlen = 0 := by
  have hrun := ENC28J60.packetReceive_taken (R := fun _ _ => True) (E := fun _ => True)
    w.loc.taken maxlen env (fun _ _ => trivial) w rfl
  obtain ⟨hlen, hbuf⟩ := hrun.1 r hret t htaken
  by_cases hword : 4 ≤ t.lengthWord.toNat
  · refine iff_of_true ⟨hbuf, ?_, fun hlt => ?_⟩ (.inl hword)
    · rw [hlen, clampLen_of_le hword, dueLength, if_pos hword]
    · exact absurd hlt (Nat.not_lt.mpr hword)
  · have hwrap : (ENC28J60.clampLen t.lengthWord maxlen).toNat = _ :=
      clampLen_of_lt (Nat.not_le.mp hword)
    rw [← hlen] at hwrap
    constructor
    · intro h
      have hdue := h.due
      rw [dueLength, if_neg hword, hwrap] at hdue
      exact .inr (UInt16.toNat_inj.mp (by rw [UInt16.toNat_zero]; omega))
    · intro h
      obtain rfl := h.resolve_left hword
      have hzero : r.1 = 0 := UInt16.toNat_inj.mp (hwrap.trans (Nat.min_eq_right (Nat.zero_le _)))
      refine ⟨hbuf, ?_, fun _ pool pktBuf => ?_⟩
      · rw [dueLength, if_neg hword, hzero]
        rfl
      · rw [passUp, hzero, if_neg (UInt16.lt_irrefl 0)]

def wordPacket (word : UInt16) : Packet where
  data := [0xDE, 0xAD, 0xBE, 0xEF]
  count := 4
  status := word
  pad := 0
  start := 0
  next := 10

/-- What is read of it with a clamped length of `len`. -/
def wordTaken (word len : UInt16) (buf : List UInt8) : Taken :=
  ⟨0, [10, 0, 4, 0, word.toUInt8, (word >>> 8).toUInt8], len, buf⟩

theorem packetReceive_length_iff_eight :
    LengthDue (wordTaken 8 4 [0xDE, 0xAD, 0xBE, 0xEF]) 400 (4, [0xDE, 0xAD, 0xBE, 0xEF]) ↔
      4 ≤ (wordTaken 8 4 [0xDE, 0xAD, 0xBE, 0xEF]).lengthWord.toNat ∨ (400 : UInt16) = 0 :=
  @packetReceive_length_iff (fun _ b => b) (packetWorld (wordPacket 8)) _ _ _
    (by decide +kernel) (by decide +kernel)

/-- A length word of 3 makes the call fill the whole buffer. -/
theorem packetReceive_length_wraps : ¬ ∀ (env : ℕ → Board → Board)
    (w : World Board Statics Event) (maxlen : UInt16) (r : UInt16 × List UInt8) (t : Taken),
    (ENC28J60.packetReceive maxlen env w).1 = some r →
      (ENC28J60.packetReceive maxlen env w).2.loc.taken = w.loc.taken ++ [t] →
        LengthDue t maxlen r := by
  intro h
  have hrun : (ENC28J60.packetReceive 400 (fun _ b => b) (packetWorld (wordPacket 3))).1.map
      (fun r => r.1) = some 400 := by decide +kernel
  have htaken : (ENC28J60.packetReceive 400 (fun _ b => b)
      (packetWorld (wordPacket 3))).2.loc.taken.map Taken.lengthWord = [3] := by decide +kernel
  obtain ⟨r, hr, hlen⟩ := Option.map_eq_some_iff.mp hrun
  obtain ⟨t, ht, hword⟩ := List.map_eq_singleton_iff.mp htaken
  have hdue := (h _ _ _ r t hr (ht.trans (List.nil_append _).symm)).due
  rw [hlen, hword] at hdue
  exact absurd hdue (by decide)

end Length

end EthernetPing
