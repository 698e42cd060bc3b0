import EthernetPing.Net.Pbuf

/-!
# The bytes of a chain

What the operations on chains of pbufs do to the bytes they hold. The total lengths that
each buffer keeps are right before and after.
-/

namespace EthernetPing

variable {q : Pbuf} {p qs : List Pbuf} {len n : UInt16}

section RemoveHeader

theorem Pbuf.removeHeader_bytes (hn : n ≤ q.len) :
    (q.removeHeader n).bytes = q.bytes.drop n.toNat := by
  have hle := UInt16.le_iff_toNat_le.mp hn
  rw [removeHeader, if_pos hn, Pbuf.bytes, Pbuf.bytes]
  apply List.ext_getElem
  · simp [UInt16.toNat_sub_of_le _ _ hn]
  · intro i h₁ h₂
    simp

theorem chainBytes_removeHeader (hn : n ≤ q.len) :
    chainBytes (q.removeHeader n :: qs) = (chainBytes (q :: qs)).drop n.toNat := by
  have hle := UInt16.le_iff_toNat_le.mp hn
  rw [chainBytes_cons, chainBytes_cons, Pbuf.removeHeader_bytes hn,
    List.drop_append_of_le_length (by simpa using hle)]

theorem ChainOk.removeHeader (h : ChainOk (q :: qs)) (hn : n ≤ q.len) :
    ChainOk (q.removeHeader n :: qs) := by
  have hle := UInt16.le_iff_toNat_le.mp hn
  have htot := h.1
  refine ⟨?_, h.2⟩
  rw [Pbuf.removeHeader, if_pos hn]
  rw [UInt16.toNat_sub_of_le _ _ hn,
    UInt16.toNat_sub_of_le _ _ (UInt16.le_iff_toNat_le.mpr (by omega))]
  omega

end RemoveHeader

section Realloc

theorem pbufReallocLoop_spec {shrink : UInt16} (h : ChainOk p) (hp : p ≠ [])
    (hlen : len.toNat + shrink.toNat = (chainBytes p).length) :
    ChainOk (pbufReallocLoop shrink p len) ∧
      chainBytes (pbufReallocLoop shrink p len) = (chainBytes p).take len.toNat := by
  induction p generalizing len with
  | nil => exact absurd rfl hp
  | cons q qs ih =>
    have htot := h.1
    rw [length_chainBytes_cons] at hlen
    rw [pbufReallocLoop]
    split_ifs with hlt
    · have hlt' := UInt16.lt_iff_toNat_lt.mp hlt
      have hsub : (len - q.len).toNat = len.toNat - q.len.toNat :=
        UInt16.toNat_sub_of_le _ _ (UInt16.le_of_lt hlt)
      have hqs : qs ≠ [] := by
        rintro rfl
        simp [chainBytes] at hlen
        omega
      have hrest : (len - q.len).toNat + shrink.toNat = (chainBytes qs).length := by omega
      obtain ⟨hok, hbytes⟩ := ih h.2 hqs hrest
      have hkept := congrArg List.length hbytes
      rw [List.length_take] at hkept
      refine ⟨⟨?_, hok⟩, ?_⟩
      · change (q.totLen - shrink).toNat = q.len.toNat + _
        rw [UInt16.toNat_sub_of_le _ _ (UInt16.le_iff_toNat_le.mpr (by omega))]
        omega
      · have hall : q.bytes.take len.toNat = q.bytes :=
          List.take_of_length_le (by rw [q.length_bytes]; omega)
        rw [chainBytes_cons, chainBytes_cons, hbytes, hsub, List.take_append, q.length_bytes, hall]
        rfl
    · have hle := UInt16.le_iff_toNat_le.mp (UInt16.not_lt.mp hlt)
      refine ⟨⟨by simp [chainBytes], trivial⟩, ?_⟩
      rw [chainBytes_cons, chainBytes_cons, List.take_append_of_le_length (by simpa using hle),
        Pbuf.bytes, Pbuf.bytes, ← List.map_take, List.take_range, Nat.min_eq_left hle]
      exact List.append_nil _

/-- `pbuf_realloc` keeps the front of a chain. -/
theorem pbufRealloc_spec (h : ChainOk p) (hlen : len.toNat ≤ (chainBytes p).length) :
    ChainOk (pbufRealloc p len) ∧
      chainBytes (pbufRealloc p len) = (chainBytes p).take len.toNat := by
  have htot := h.toNat_totLen
  rw [pbufRealloc]
  split_ifs with hle
  · have hle' := UInt16.le_iff_toNat_le.mp hle
    exact ⟨h, (List.take_of_length_le (by omega)).symm⟩
  · have hlt := UInt16.not_le.mp hle
    have hsub : (totLen p - len).toNat = (totLen p).toNat - len.toNat :=
      UInt16.toNat_sub_of_le _ _ (UInt16.le_of_lt hlt)
    refine pbufReallocLoop_spec h ?_ (by omega)
    rintro rfl
    exact hle UInt16.zero_le

end Realloc

theorem chainBytes_pbufCat (h t : List Pbuf) :
    chainBytes (pbufCat h t) = chainBytes h ++ chainBytes t := by
  rw [pbufCat, chainBytes, List.flatMap_append]
  congr 1
  induction h with
  | nil => rfl
  | cons q qs ih => simpa [Pbuf.bytes, chainBytes] using ih

end EthernetPing
