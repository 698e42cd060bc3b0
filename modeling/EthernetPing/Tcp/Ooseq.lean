import EthernetPing.Tcp.Stream

/-!
# The queue of segments out of sequence

The segments on `ooseq` are pieces of the stream, in order and without overlap, wherever a
new one is put between them and whatever it covers, and also when a segment in sequence has
taken its part.
-/

namespace EthernetPing

variable {base : UInt32} {data : List UInt8} {pos lo hi : ℕ} {s : InSeg} {q : List InSeg}

/-- The queued segments hold pieces of the stream between the positions `lo` and `hi`, in order
and apart from each other; nothing comes behind a FIN. -/
def Waiting (base : UInt32) (data : List UInt8) (hi : ℕ) : ℕ → List InSeg → Prop
  | _, [] => True
  | lo, s :: rest => ∃ pos, lo ≤ pos ∧ pos < hi ∧ s.Holds base data pos ∧ 0 < s.weight ∧
      (s.fin = true → rest = []) ∧ Waiting base data hi (pos + s.len.toNat) rest

theorem Waiting.mono {lo' hi' : ℕ} (h : Waiting base data hi lo q) (hlo : lo' ≤ lo)
    (hhi : hi ≤ hi') : Waiting base data hi' lo' q := by
  induction q generalizing lo lo' with
  | nil => trivial
  | cons s rest ih =>
    obtain ⟨pos, hpos, hlt, hs, hw, hfin, hrest⟩ := h
    exact ⟨pos, hlo.trans hpos, hlt.trans_le hhi, hs, hw, hfin, ih hrest le_rfl⟩

theorem InSeg.Holds.pos_of_not_fin (h : s.Holds base data pos) (hw : 0 < s.weight)
    (hfin : s.fin = false) : 0 < s.len.toNat := by
  rwa [h.weight, hfin] at hw

theorem InSeg.Holds.weight_pos (h : s.Holds base data pos) (hlen : 0 < s.len.toNat) :
    0 < s.weight := by
  rw [h.weight]
  exact Nat.add_pos_left hlen _

/-- Queued segments that a segment ends behind. -/
def InSeg.covers (s x : InSeg) : Bool :=
  seqGeq (s.seqno + s.len.toUInt32) (x.seqno + x.len.toUInt32)

theorem tcpOosInsertSegment_covered {x : InSeg} (hx : s.covers x = true) (hxfin : x.fin = false) :
    tcpOosInsertSegment s (x :: q) = tcpOosInsertSegment s q := by
  have hx' : seqGeq (s.seqno + s.len.toUInt32) (x.seqno + x.len.toUInt32) = true := hx
  simp only [tcpOosInsertSegment, List.takeWhile_cons, List.dropWhile_cons, hx', hxfin,
    List.any_cons, Bool.false_or, if_true]

theorem InSeg.Holds.covers {x : InSeg} {xpos : ℕ} (hs : s.Holds base data pos)
    (hx : x.Holds base data xpos) (hle : pos ≤ xpos) (hnear : xpos ≤ pos + 2 ^ 17) :
    s.covers x = true ↔ xpos + x.len.toNat ≤ pos + s.len.toNat := by
  have hshort := hs.short
  have hxshort := hx.short
  rw [InSeg.covers, hs.stop, hx.stop]
  exact seqLeq_seqAt (by omega) (by omega)

/-- Inserting a segment in front of the part of the queue that begins behind its start. -/
theorem tcpOosInsertSegment_waiting (hs : s.Holds base data pos) (hw : 0 < s.weight)
    (hlt : pos < hi) (hq : Waiting base data hi lo q) (hlo : pos < lo) (hnear : hi ≤ pos + 2 ^ 17) :
    Waiting base data hi pos (tcpOosInsertSegment s q) := by
  by_cases hsfin : s.fin = true
  · rw [tcpOosInsertSegment, if_pos hsfin]
    exact ⟨pos, le_rfl, hlt, hs, hw, fun _ => rfl, trivial⟩
  · rw [Bool.not_eq_true] at hsfin
    have hlen := hs.pos_of_not_fin hw hsfin
    have hle := hs.short
    induction q generalizing lo with
    | nil =>
      rw [tcpOosInsertSegment, if_neg (by rw [hsfin]; exact Bool.false_ne_true)]
      exact ⟨pos, le_rfl, hlt, hs, hw, fun _ => rfl, trivial⟩
    | cons x rest ih =>
      obtain ⟨xpos, hxlo, hxhi, hx, hxw, hxfin, hrest⟩ := hq
      have hcovers := hs.covers hx (by omega) (by omega)
      by_cases hcov : s.covers x = true
      · by_cases hxf : x.fin = true
        · -- the segment that is covered ends the stream, and so does the one inserted
          have hend := hx.fin hxf
          have hsend : pos + s.len.toNat = data.length := by
            have := hs.le
            have := hcovers.mp hcov
            omega
          have hcov' : seqGeq (s.seqno + s.len.toUInt32) (x.seqno + x.len.toUInt32) = true := hcov
          have hone : tcpOosInsertSegment s (x :: rest) = [{ s with fin := true }] := by
            simp [tcpOosInsertSegment, hcov', hxf, hsfin, hxfin hxf]
          rw [hone]
          exact ⟨pos, le_rfl, hlt, hs.addFin hsend, (hs.addFin hsend).weight_pos hlen,
            fun _ => rfl, trivial⟩
        · rw [Bool.not_eq_true] at hxf
          rw [tcpOosInsertSegment_covered hcov hxf]
          exact ih hrest (by omega)
      · have hrest' : Waiting base data hi xpos (x :: rest) :=
          ⟨xpos, le_rfl, hxhi, hx, hxw, hxfin, hrest⟩
        have hover : seqGt (s.seqno + s.len.toUInt32) x.seqno = true ↔
            xpos < pos + s.len.toNat := by
          rw [seqGt, hs.stop, hx.seqno]
          exact seqLt_seqAt (by omega) (by omega)
        have hcov' : ¬ seqGeq (s.seqno + s.len.toUInt32) (x.seqno + x.len.toUInt32) = true := hcov
        simp only [tcpOosInsertSegment, hsfin, Bool.false_eq_true, if_false, List.takeWhile_cons,
          List.dropWhile_cons, hcov', List.any_nil]
        split_ifs with hgt
        · have hgt' := hover.mp hgt
          have hcut : (x.seqno - s.seqno).toUInt16.toNat = xpos - pos := by
            rw [hx.seqno, hs.seqno, toUInt16_seqAt_sub (by omega) (by omega)]
          have hcutHolds := hs.realloc (x.seqno - s.seqno).toUInt16 (by omega)
            (fun hf => absurd (hsfin.symm.trans hf) Bool.false_ne_true)
          refine ⟨pos, le_rfl, hlt, hcutHolds, hcutHolds.weight_pos ?_,
            fun hf => absurd (hsfin.symm.trans hf) Bool.false_ne_true, hrest'.mono ?_ le_rfl⟩
          · change 0 < (x.seqno - s.seqno).toUInt16.toNat
            omega
          · change pos + (x.seqno - s.seqno).toUInt16.toNat ≤ xpos
            omega
        · rw [hover] at hgt
          exact ⟨pos, le_rfl, hlt, hs, hw, fun hf => absurd (hsfin.symm.trans hf)
            Bool.false_ne_true, hrest'.mono (by omega) le_rfl⟩

/-- The segment that the walk through the queue has just passed begins before `pos`, and the rest
of the queue behind its end `mid`. -/
def Passed (base : UInt32) (data : List UInt8) (lo pos : ℕ) : Option InSeg → ℕ → Prop
  | none, mid => mid = lo
  | some x, mid => ∃ xpos, lo ≤ xpos ∧ xpos < pos ∧ x.Holds base data xpos ∧ x.fin = false ∧
      0 < x.len.toNat ∧ mid = xpos + x.len.toNat

variable {prev : Option InSeg} {mid : ℕ}

theorem Passed.append (h : Passed base data lo pos prev mid) (hpos : pos < hi)
    (hq : Waiting base data hi mid q) : Waiting base data hi lo (prev.toList ++ q) := by
  cases prev with
  | none =>
    obtain rfl := h
    exact hq
  | some x =>
    obtain ⟨xpos, hlo, hlt, hx, hfin, hlen, rfl⟩ := h
    exact ⟨xpos, hlo, hlt.trans hpos, hx, hx.weight_pos hlen,
      fun hf => absurd (hfin.symm.trans hf) Bool.false_ne_true, hq⟩

/-- A segment is cut where one begins that is queued behind it. -/
theorem InSeg.Holds.cutAt {x : InSeg} {xpos : ℕ} (hx : x.Holds base data xpos)
    (hfin : x.fin = false) (hlen : 0 < x.len.toNat) (hlt : xpos < pos)
    (hnear : pos ≤ xpos + 2 ^ 17) :
    (x.cutAt (seqAt base pos)).Holds base data xpos ∧ 0 < (x.cutAt (seqAt base pos)).len.toNat ∧
      xpos + (x.cutAt (seqAt base pos)).len.toNat ≤ pos := by
  have hshort := hx.short
  have hover : seqGt (x.seqno + x.len.toUInt32) (seqAt base pos) = true ↔
      pos < xpos + x.len.toNat := by
    rw [seqGt, hx.stop]
    exact seqLt_seqAt (by omega) (by omega)
  rw [InSeg.cutAt]
  split_ifs with hgt
  · have hgt' := hover.mp hgt
    have hcut : (seqAt base pos - x.seqno).toUInt16.toNat = pos - xpos := by
      rw [hx.seqno, toUInt16_seqAt_sub (by omega) (by omega)]
    have hholds := hx.realloc (seqAt base pos - x.seqno).toUInt16 (by omega)
      (fun hf => absurd (hfin.symm.trans hf) Bool.false_ne_true)
    refine ⟨hholds, ?_, ?_⟩
    · change 0 < (seqAt base pos - x.seqno).toUInt16.toNat
      omega
    · change xpos + (seqAt base pos - x.seqno).toUInt16.toNat ≤ pos
      omega
  · rw [hover] at hgt
    exact ⟨hx, hlen, by omega⟩

/-- The segment that the walk has passed is cut before a new one is inserted behind it. -/
theorem Passed.cut (h : Passed base data lo pos prev mid) (hpos : pos < hi)
    (hnear : hi ≤ lo + 2 ^ 17) (hlo : lo ≤ pos) (hq : Waiting base data hi pos q) :
    Waiting base data hi lo ((prev.map fun x => x.cutAt (seqAt base pos)).toList ++ q) := by
  cases prev with
  | none => exact hq.mono hlo le_rfl
  | some x =>
    obtain ⟨xpos, hxlo, hlt, hx, hfin, hlen, -⟩ := h
    obtain ⟨hcut, hcutlen, hcutle⟩ := hx.cutAt hfin hlen hlt (by omega)
    exact ⟨xpos, hxlo, hlt.trans hpos, hcut, hcut.weight_pos hcutlen,
      fun hf => absurd (((x.cutAt_fin _).trans hfin).symm.trans hf) Bool.false_ne_true,
      hq.mono hcutle le_rfl⟩

theorem InSeg.Holds.cutAtEdge {tcplen : UInt16} {edge : ℕ} (hs : s.Holds base data pos)
    (hw : 0 < s.weight) (htcp : tcplen = s.tcplen) (hpos : pos < edge)
    (hnear : edge < pos + 2 ^ 16) :
    (s.cutAtEdge tcplen (seqAt base edge)).Holds base data pos ∧
      0 < (s.cutAtEdge tcplen (seqAt base edge)).weight := by
  have hshort := hs.short
  have hle := hs.weight_le
  have hstop : tcplen.toUInt32 + s.seqno = seqAt base (pos + s.weight) := by
    rw [htcp, UInt32.add_comm, hs.next]
  have hover : seqGt (tcplen.toUInt32 + s.seqno) (seqAt base edge) = true ↔
      edge < pos + s.weight := by
    rw [seqGt, hstop]
    exact seqLt_seqAt (by omega) (by omega)
  rw [InSeg.cutAtEdge]
  split_ifs with hgt
  · have hgt' := hover.mp hgt
    have hcut : (seqAt base edge - s.seqno).toUInt16.toNat = edge - pos := by
      rw [hs.seqno, toUInt16_seqAt_sub (by omega) (by omega)]
    have hholds := hs.dropFin.realloc (seqAt base edge - s.seqno).toUInt16
      (by change _ ≤ s.len.toNat; omega) nofun
    refine ⟨hholds, hholds.weight_pos ?_⟩
    change 0 < (seqAt base edge - s.seqno).toUInt16.toNat
    omega
  · exact ⟨hs, hw⟩

/-- The place of a segment is in front of the first queued one that begins behind it. -/
theorem Passed.here {x : InSeg} {xpos : ℕ} (h : Passed base data lo pos prev mid)
    (hs : s.Holds base data pos) (hx : x.Holds base data xpos) (hlo : lo ≤ pos) (hmid : mid ≤ xpos)
    (hnear : xpos ≤ lo + 2 ^ 17) (hpos : pos ≤ lo + 2 ^ 17) :
    (match prev with
      | none => seqLt s.seqno x.seqno
      | some prev => seqBetween s.seqno (prev.seqno + 1) (x.seqno - 1)) = true ↔ pos < xpos := by
  cases prev with
  | none =>
    obtain rfl := h
    dsimp only
    rw [hs.seqno, hx.seqno]
    exact seqLt_seqAt (by omega) (by omega)
  | some y =>
    obtain ⟨ypos, hylo, hylt, hy, -, hylen, rfl⟩ := h
    dsimp only
    rw [seqBetween, seqGeq, Bool.and_eq_true, hs.seqno, hx.seqno, hy.seqno, seqAt_add_one,
      seqAt_sub_one base (by omega), seqLeq_seqAt (by omega) (by omega),
      seqLeq_seqAt (by omega) (by omega)]
    omega

/-- Step lemma: the queue stays in order when a segment is put into it. -/
theorem oosWalk_waiting {copied : Bool} {tcplen : UInt16} {edge : ℕ} (hs : s.Holds base data pos)
    (hw : 0 < s.weight) (htcp : tcplen = s.tcplen) (hlo : lo ≤ pos) (hpos : pos < hi)
    (hedge : pos < edge) (hedge' : edge < pos + 2 ^ 16) (hnear : hi ≤ lo + 2 ^ 16)
    (hprev : Passed base data lo pos prev mid) (hq : Waiting base data hi mid q) (hmid : lo ≤ mid) :
    Waiting base data hi lo (oosWalk copied s tcplen (seqAt base edge) prev q) := by
  induction q generalizing prev mid lo with
  | nil => simpa [oosWalk] using hprev.append hpos (q := []) trivial
  | cons x rest ih =>
    have hkeep := hprev.append hpos hq
    obtain ⟨xpos, hxlo, hxhi, hx, hxw, hxfin, hrest⟩ := hq
    have hhere := hprev.here hs hx hlo hxlo (by omega) (by omega)
    have hsame : s.seqno = x.seqno ↔ pos = xpos := by
      rw [hs.seqno, hx.seqno]
      exact seqAt_inj (by omega) (by omega)
    have hbehind := fun (hne : pos ≠ xpos) (hnot : ¬ _) =>
      lt_of_le_of_ne (not_lt.mp (mt hhere.mpr hnot)) hne.symm
    unfold oosWalk
    dsimp only
    split_ifs with heq hlonger hbefore hcopied hlast hstay
    · -- the same start: the longer segment takes the place of the shorter one
      simp only [Bool.and_eq_true, decide_eq_true_eq, UInt16.lt_iff_toNat_lt] at hlonger
      have hxeq := hsame.mp heq
      have hxf : x.fin = false := by
        rw [← Bool.not_eq_true]
        intro hf
        simp [hxfin hf] at hlonger
      have hxlen := hx.pos_of_not_fin hxw hxf
      rw [tcpOosInsertSegment_covered ((hs.covers hx (by omega) (by omega)).mpr (by omega)) hxf]
      refine hprev.append hpos (Waiting.mono (tcpOosInsertSegment_waiting hs hw hpos hrest ?_ ?_)
        (by omega) le_rfl)
      · omega
      · omega
    · exact hkeep
    · have hlt := hhere.mp hbefore
      rw [hs.seqno]
      refine hprev.cut hpos (by omega) hlo ?_
      have hwait : Waiting base data hi xpos (x :: rest) :=
        ⟨xpos, le_rfl, hxhi, hx, hxw, hxfin, hrest⟩
      exact tcpOosInsertSegment_waiting hs hw hpos hwait hlt (by omega)
    · exact hkeep
    · exact hkeep
    · -- behind the last one
      have hlt := hbehind (fun h => heq (hsame.mpr h)) hbefore
      rw [Bool.or_eq_true, not_or, Bool.not_eq_true] at hstay
      obtain ⟨hcut, hcutlen, hcutle⟩ :=
        hx.cutAt hstay.1 (hx.pos_of_not_fin hxw hstay.1) hlt (by omega)
      obtain ⟨hedged, hedgedw⟩ := hs.cutAtEdge hw htcp hedge hedge'
      rw [hs.seqno]
      exact hprev.append hpos ⟨xpos, hxlo, hxhi, hcut, hcut.weight_pos hcutlen,
        fun hf => absurd (((x.cutAt_fin _).trans hstay.1).symm.trans hf) Bool.false_ne_true,
        pos, hcutle, hpos, hedged, hedgedw, fun _ => rfl, trivial⟩
    · have hlt := hbehind (fun h => heq (hsame.mpr h)) hbefore
      have hxf : x.fin = false := by
        rw [← Bool.not_eq_true]
        intro hf
        rw [hxfin hf, List.isEmpty_nil, Bool.true_and, seqGt, hs.seqno, hx.seqno,
          seqLt_seqAt (by omega) (by omega)] at hlast
        exact hlast hlt
      have hxlen := hx.pos_of_not_fin hxw hxf
      exact hprev.append hpos (ih (by omega) (by omega)
        ⟨xpos, hxlo, hlt, hx, hxf, hxlen, rfl⟩ hrest (by omega))

theorem coverOoseq_waiting (hs : s.Holds base data pos) (hw : 0 < s.weight)
    (hfin : s.fin = true → q = []) (hq : Waiting base data hi lo q) (hlo : pos < lo)
    (hnear : hi ≤ pos + 2 ^ 17) :
    (coverOoseq s q).1.Holds base data pos ∧ 0 < (coverOoseq s q).1.weight ∧
      ((coverOoseq s q).1.fin = true → (coverOoseq s q).2 = []) ∧
      Waiting base data hi (pos + (coverOoseq s q).1.len.toNat) (coverOoseq s q).2 := by
  induction q generalizing s lo with
  | nil => exact ⟨hs, hw, hfin, trivial⟩
  | cons x rest ih =>
    obtain ⟨xpos, hxlo, hxhi, hx, hxw, hxfin, hrest⟩ := hq
    have hsfin : s.fin = false := by
      rw [← Bool.not_eq_true]
      exact fun hf => List.cons_ne_nil x rest (hfin hf)
    have hlen := hs.pos_of_not_fin hw hsfin
    have hshort := hs.short
    have hxshort := hx.short
    have hweight : s.weight = s.len.toNat := by rw [hs.weight, hsfin]; rfl
    have hcovers : seqGeq (s.seqno + s.tcplen.toUInt32) (x.seqno + x.len.toUInt32) = true ↔
        xpos + x.len.toNat ≤ pos + s.len.toNat := by
      rw [hs.next, hx.stop, hweight, seqGeq, seqLeq_seqAt (by omega) (by omega)]
    have hover : seqGt (s.seqno + s.tcplen.toUInt32) x.seqno = true ↔
        xpos < pos + s.len.toNat := by
      rw [hs.next, hx.seqno, hweight, seqGt, seqLt_seqAt (by omega) (by omega)]
    have hnofin : ∀ {P : Prop}, s.fin = true → P := fun hf =>
      absurd (hsfin.symm.trans hf) Bool.false_ne_true
    rw [coverOoseq]
    split_ifs with hcov hkeeps hgt hsyn
    · -- a covered FIN is the end of the segment that covers it
      rw [Bool.and_eq_true] at hkeeps
      have hend := hx.fin hkeeps.1
      have hsend : pos + s.len.toNat = data.length := by
        have := hs.le
        have := hcovers.mp hcov
        omega
      rw [hxfin hkeeps.1]
      exact ⟨hs.addFin hsend, (hs.addFin hsend).weight_pos hlen, fun _ => rfl, trivial⟩
    · have hxf : x.fin = false := by
        rw [hs.syn, Bool.not_false, Bool.and_true, Bool.not_eq_true] at hkeeps
        exact hkeeps
      have hxlen := hx.pos_of_not_fin hxw hxf
      exact ih hs hw hnofin hrest (by omega)
    · exact absurd (hs.syn.symm.trans hsyn) Bool.false_ne_true
    · have hgt' := hover.mp hgt
      have hcut : (x.seqno - s.seqno).toUInt16.toNat = xpos - pos := by
        rw [hx.seqno, hs.seqno, toUInt16_seqAt_sub (by omega) (by omega)]
      have hholds := hs.realloc (x.seqno - s.seqno).toUInt16 (by omega)
        (fun hf => absurd (hsfin.symm.trans hf) Bool.false_ne_true)
      dsimp only
      refine ⟨hholds, hholds.weight_pos ?_, hnofin, xpos, ?_, hxhi, hx, hxw, hxfin, hrest⟩
      · change 0 < (x.seqno - s.seqno).toUInt16.toNat
        omega
      · change pos + (x.seqno - s.seqno).toUInt16.toNat ≤ xpos
        omega
    · rw [hover] at hgt
      dsimp only
      exact ⟨hs, hw, hnofin, xpos, by omega, hxhi, hx, hxw, hxfin, hrest⟩

end EthernetPing
