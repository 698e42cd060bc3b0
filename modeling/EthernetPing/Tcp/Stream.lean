import EthernetPing.Lib.Bytes
import EthernetPing.Net.Chain
import EthernetPing.Tcp.InOrder

/-!
# Segments of a byte stream

The peer numbers the bytes of one stream, and its FIN is the end of that stream. A segment
is a piece of the stream at a position, and stays one when `tcp_receive` cuts something off
at its front or at its end.
-/

namespace EthernetPing

variable {base : UInt32} {data : List UInt8} {pos n : ℕ} {s : InSeg}

section Piece

/-- The segment holds the bytes of the stream from `pos` on. Its FIN is the end of the stream. -/
structure InSeg.Holds (base : UInt32) (data : List UInt8) (s : InSeg) (pos : ℕ) : Prop where
  seqno : s.seqno = seqAt base pos
  syn : s.syn = false
  chain : ChainOk s.p
  bytes : chainBytes s.p = piece data pos s.len.toNat
  le : pos + s.len.toNat ≤ data.length
  fin : s.fin = true → pos + s.len.toNat = data.length
  short : s.len.toNat + 1 < 2 ^ 16

theorem InSeg.Holds.weight (h : s.Holds base data pos) :
    s.weight = s.len.toNat + if s.fin then 1 else 0 := by
  rw [InSeg.weight, h.syn, Bool.or_false]

theorem InSeg.Holds.toNat_tcplen (h : s.Holds base data pos) : s.tcplen.toNat = s.weight := by
  have hshort := h.short
  rw [s.tcplen_eq, UInt16.toNat_ofNat', h.weight]
  split_ifs <;> omega

theorem InSeg.Holds.weight_le (h : s.Holds base data pos) : s.weight ≤ s.len.toNat + 1 := by
  rw [h.weight]
  split_ifs <;> omega

theorem InSeg.Holds.toNat_totLen (h : s.Holds base data pos) :
    (totLen s.p).toNat = s.len.toNat := by
  rw [h.chain.toNat_totLen, h.bytes, length_piece _ h.le]

theorem InSeg.Holds.stop (h : s.Holds base data pos) :
    s.seqno + s.len.toUInt32 = seqAt base (pos + s.len.toNat) := by
  rw [h.seqno, seqAt_add_toUInt32]

theorem InSeg.Holds.next (h : s.Holds base data pos) :
    s.seqno + s.tcplen.toUInt32 = seqAt base (pos + s.weight) := by
  rw [h.seqno, seqAt_add_toUInt32, h.toNat_tcplen]

/-- Cutting the end off a segment; the FIN has to go if there is something to cut. -/
theorem InSeg.Holds.realloc (h : s.Holds base data pos) (len : UInt16)
    (hlen : len.toNat ≤ s.len.toNat) (hfin : s.fin = true → len.toNat = s.len.toNat) :
    (s.realloc len).Holds base data pos := by
  have hsize : s.len.toNat = (chainBytes s.p).length := by rw [h.bytes, length_piece _ h.le]
  obtain ⟨hchain, hbytes⟩ := pbufRealloc_spec h.chain (hsize ▸ hlen)
  have hle := h.le
  have hshort := h.short
  refine ⟨h.seqno, h.syn, hchain, ?_, ?_, fun hf => ?_, ?_⟩
  · exact hbytes.trans (by rw [h.bytes]; exact take_piece data hlen)
  · change pos + len.toNat ≤ data.length
    omega
  · change pos + len.toNat = data.length
    rw [hfin hf]
    exact h.fin hf
  · change len.toNat + 1 < 2 ^ 16
    omega

theorem InSeg.Holds.dropFin (h : s.Holds base data pos) :
    ({ s with fin := false } : InSeg).Holds base data pos :=
  ⟨h.seqno, h.syn, h.chain, h.bytes, h.le, nofun, h.short⟩

theorem InSeg.Holds.addFin (h : s.Holds base data pos) (hend : pos + s.len.toNat = data.length) :
    ({ s with fin := true } : InSeg).Holds base data pos :=
  ⟨h.seqno, h.syn, h.chain, h.bytes, h.le, fun _ => hend, h.short⟩

/-- A segment cut to the window is not empty. -/
theorem InSeg.Holds.fitWindow {wnd : UInt16} (h : s.Holds base data pos) (hwnd : wnd ≠ 0)
    (hpos : 0 < s.weight) :
    (s.fitWindow wnd).Holds base data pos ∧ 0 < (s.fitWindow wnd).weight := by
  have hwnd' : wnd.toNat ≠ 0 := fun h₀ => hwnd (UInt16.toNat_inj.mp h₀)
  have hle := h.weight_le
  rw [InSeg.fitWindow]
  split_ifs with hlt hsyn
  · exact absurd (h.syn.symm.trans hsyn) Bool.false_ne_true
  · rw [UInt16.lt_iff_toNat_lt, h.toNat_tcplen] at hlt
    have hcut := h.dropFin.realloc wnd (by change _ ≤ s.len.toNat; omega)
      (fun hf => absurd hf Bool.false_ne_true)
    refine ⟨hcut, ?_⟩
    rw [hcut.weight]
    exact Nat.pos_of_ne_zero hwnd'
  · exact ⟨h, hpos⟩

end Piece

section TrimFront

theorem trimFront_spec {p : List Pbuf} {off rest : UInt16} (h : ChainOk p)
    (hsum : off.toNat + rest.toNat = (chainBytes p).length) :
    ChainOk (trimFront rest p off) ∧
      chainBytes (trimFront rest p off) = (chainBytes p).drop off.toNat := by
  induction p generalizing off with
  | nil => exact ⟨trivial, by simp [trimFront, chainBytes]⟩
  | cons q qs ih =>
    rw [length_chainBytes_cons] at hsum
    rw [trimFront]
    split_ifs with hlt
    · have hsub : (off - q.len).toNat = off.toNat - q.len.toNat :=
        UInt16.toNat_sub_of_le _ _ (UInt16.le_of_lt hlt)
      have hlt' := UInt16.lt_iff_toNat_lt.mp hlt
      have hrest : (off - q.len).toNat + rest.toNat = (chainBytes qs).length := by omega
      obtain ⟨hok, hbytes⟩ := ih h.2 hrest
      have hnone : ({ q with totLen := rest, len := 0 } : Pbuf).bytes = [] := rfl
      refine ⟨⟨?_, hok⟩, ?_⟩
      · rw [hbytes, List.length_drop]
        change rest.toNat = 0 + _
        omega
      · have hgone : q.bytes.drop off.toNat = [] :=
          List.drop_of_length_le (by rw [q.length_bytes]; omega)
        rw [chainBytes_cons, chainBytes_cons, hnone, List.nil_append, hbytes, hsub,
          List.drop_append, hgone, q.length_bytes, List.nil_append]
    · exact ⟨h.removeHeader (UInt16.not_lt.mp hlt), chainBytes_removeHeader (UInt16.not_lt.mp hlt)⟩

theorem InSeg.Holds.trimFront_off (h : s.Holds base data pos) (hlo : pos ≤ n)
    (hhi : n ≤ pos + s.len.toNat) : (seqAt base n - s.seqno).toUInt16.toNat = n - pos := by
  have hshort := h.short
  rw [h.seqno, toUInt16_seqAt_sub hlo (by omega)]

theorem InSeg.Holds.trimFront_len (h : s.Holds base data pos) (hlo : pos ≤ n)
    (hhi : n ≤ pos + s.len.toNat) :
    (s.trimFront (seqAt base n)).len.toNat = s.len.toNat - (n - pos) := by
  have hoff := h.trimFront_off hlo hhi
  change (s.len - (seqAt base n - s.seqno).toUInt16).toNat = _
  rw [UInt16.toNat_sub_of_le _ _ (UInt16.le_iff_toNat_le.mpr (by omega)), hoff]

theorem InSeg.Holds.trimFront (h : s.Holds base data pos) (hlo : pos ≤ n)
    (hhi : n ≤ pos + s.len.toNat) : (s.trimFront (seqAt base n)).Holds base data n := by
  have hshort := h.short
  have hle := h.le
  have hoff := h.trimFront_off hlo hhi
  have hlen := h.trimFront_len hlo hhi
  have htot := h.toNat_totLen
  have hrest : (totLen s.p - (seqAt base n - s.seqno).toUInt16).toNat =
      s.len.toNat - (n - pos) := by
    rw [UInt16.toNat_sub_of_le _ _ (UInt16.le_iff_toNat_le.mpr (by omega)), hoff, htot]
  have hsum : (seqAt base n - s.seqno).toUInt16.toNat +
      (totLen s.p - (seqAt base n - s.seqno).toUInt16).toNat = (chainBytes s.p).length := by
    rw [hoff, hrest, h.bytes, length_piece _ h.le]
    omega
  obtain ⟨hchain, hbytes⟩ := trimFront_spec h.chain hsum
  refine ⟨rfl, h.syn, hchain, ?_, ?_, fun hfin => ?_, ?_⟩
  · rw [hlen]
    refine hbytes.trans ?_
    rw [h.bytes, drop_piece, hoff, Nat.add_sub_cancel' hlo]
  · omega
  · have hend := h.fin hfin
    omega
  · omega

end TrimFront

end EthernetPing
