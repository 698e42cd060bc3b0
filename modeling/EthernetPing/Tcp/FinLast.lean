import EthernetPing.Tcp.Input

/-!
# The form of the out-of-order queue

Only the last segment of `ooseq` can have a FIN: a segment that is inserted behind one with a
FIN is dropped, and one with a FIN drops what comes behind it.
-/

namespace EthernetPing

section Realloc

theorem pbufRealloc_payload (p : List Pbuf) (len : UInt16) :
    (pbufRealloc p len).head?.map Pbuf.payload = p.head?.map Pbuf.payload := by
  rw [pbufRealloc]
  split_ifs
  · rfl
  · cases p with
    | nil => rfl
    | cons q qs =>
      rw [pbufReallocLoop]
      split_ifs <;> rfl

theorem totLen_pbufRealloc {p : List Pbuf} {len : UInt16} (h : len < totLen p) :
    totLen (pbufRealloc p len) = len := by
  rw [pbufRealloc, if_neg (by simpa using h)]
  cases p with
  | nil => exact absurd h (UInt16.not_lt.mpr (UInt16.zero_le))
  | cons q qs =>
    rw [pbufReallocLoop]
    split_ifs
    · change q.totLen - (q.totLen - len) = len
      grind
    · rfl

end Realloc

section Queue

/-- Only the last segment of the queue has a FIN. -/
def FinLast : List InSeg → Prop
  | [] => True
  | s :: rest => (s.fin = true → rest = []) ∧ FinLast rest

theorem FinLast.of_suffix {q r : List InSeg} (h : FinLast q) (hr : r <:+ q) : FinLast r := by
  obtain ⟨gone, rfl⟩ := hr
  induction gone with
  | nil => exact h
  | cons s gone ih => exact ih h.2

theorem FinLast.cons {s : InSeg} {rest : List InSeg} (h : FinLast rest) (hs : s.fin = false) :
    FinLast (s :: rest) :=
  ⟨fun hfin => absurd (hs.symm.trans hfin) Bool.false_ne_true, h⟩

theorem FinLast.single (s : InSeg) : FinLast [s] := ⟨fun _ => rfl, trivial⟩

theorem FinLast.head_fin {s x : InSeg} {rest : List InSeg} (h : FinLast (s :: x :: rest)) :
    s.fin = false := by
  cases hfin : s.fin with
  | false => rfl
  | true => exact absurd (h.1 hfin) (List.cons_ne_nil x rest)

theorem FinLast.append_cons {prev : Option InSeg} {x : InSeg} {rest q : List InSeg}
    (h : FinLast (prev.toList ++ x :: rest)) (hq : FinLast q) : FinLast (prev.toList ++ q) := by
  cases prev with
  | none => exact hq
  | some s => exact hq.cons h.head_fin

/-- What is left of the queue behind a segment with a FIN that was taken off it is empty. -/
theorem FinLast.dropWhile_eq_nil {q : List InSeg} {f : InSeg → Bool} (h : FinLast q)
    (hfin : (q.takeWhile f).any InSeg.fin = true) : q.dropWhile f = [] := by
  induction q with
  | nil => rfl
  | cons s rest ih =>
    rw [List.takeWhile_cons] at hfin
    rw [List.dropWhile_cons]
    split_ifs at hfin ⊢ with hs
    · rw [List.any_cons, Bool.or_eq_true] at hfin
      rcases hfin with hfin | hfin
      · rw [h.1 hfin, List.dropWhile_nil]
      · exact ih h.2 hfin
    · cases hfin

theorem tcpOosInsertSegment_finLast {q : List InSeg} (s : InSeg) (h : FinLast q) :
    FinLast (tcpOosInsertSegment s q) := by
  unfold tcpOosInsertSegment
  by_cases hs : s.fin = true
  · rw [if_pos hs]
    exact .single s
  · rw [if_neg hs]
    rw [Bool.not_eq_true] at hs
    dsimp only
    by_cases hany : (q.takeWhile fun x =>
        seqGeq (s.seqno + s.len.toUInt32) (x.seqno + x.len.toUInt32)).any InSeg.fin = true
    · rw [h.dropWhile_eq_nil hany]
      exact .single _
    · rw [if_neg hany]
      have hrest := h.of_suffix (List.dropWhile_suffix fun x : InSeg =>
        seqGeq (s.seqno + s.len.toUInt32) (x.seqno + x.len.toUInt32))
      split
      · exact .single s
      · next x rest hdrop =>
        rw [hdrop] at hrest
        split_ifs
        · exact hrest.cons hs
        · exact hrest.cons hs

theorem InSeg.cutAt_fin (s : InSeg) (seqno : UInt32) : (s.cutAt seqno).fin = s.fin := by
  unfold InSeg.cutAt
  split_ifs <;> rfl

/-- Step lemma: inserting a segment keeps the form of the queue. -/
theorem oosWalk_finLast {copied : Bool} {s : InSeg} {tcplen : UInt16} {edge : UInt32}
    {prev : Option InSeg} {q : List InSeg} (h : FinLast (prev.toList ++ q)) :
    FinLast (oosWalk copied s tcplen edge prev q) := by
  induction q generalizing prev with
  | nil => simpa [oosWalk] using h
  | cons next rest ih =>
    have hq : FinLast (next :: rest) := h.of_suffix (List.suffix_append _ _)
    have hinsert := tcpOosInsertSegment_finLast s hq
    unfold oosWalk
    dsimp only
    split_ifs with _ _ _ _ hlast hkeep
    · exact h.append_cons hinsert
    · exact h
    · cases prev with
      | none => exact hinsert
      | some prev =>
        exact hinsert.cons ((prev.cutAt_fin s.seqno).trans (FinLast.head_fin h))
    · exact h
    · exact h
    · rw [Bool.or_eq_true, not_or, Bool.not_eq_true] at hkeep
      refine h.append_cons (FinLast.cons (.single _) ?_)
      exact (next.cutAt_fin s.seqno).trans hkeep.1
    · exact h.append_cons (@ih (some next) hq)

theorem coverOoseq_suffix (s : InSeg) (q : List InSeg) : (coverOoseq s q).2 <:+ q := by
  induction q generalizing s with
  | nil => exact List.suffix_rfl
  | cons next rest ih =>
    rw [coverOoseq]
    split
    · exact (ih _).trans (List.suffix_cons ..)
    · split
      · exact List.suffix_rfl
      · exact List.suffix_rfl

theorem drainOoseq_suffix (q : List InSeg) (c : Conn) (o : Out) :
    (drainOoseq q c o).1.ooseq <:+ q := by
  induction q generalizing c o with
  | nil => exact List.suffix_rfl
  | cons s rest ih =>
    rw [drainOoseq]
    split_ifs
    · exact (ih ..).trans (List.suffix_cons ..)
    · exact List.suffix_rfl

variable {c : Conn} {o : Out}

theorem tcpReceiveInSeq_finLast (s : InSeg) (h : FinLast c.ooseq) :
    FinLast (tcpReceiveInSeq c o s).1.ooseq := by
  refine FinLast.of_suffix ?_ (drainOoseq_suffix ..)
  split_ifs
  · trivial
  · exact h.of_suffix (coverOoseq_suffix ..)

theorem tcpReceiveOutOfSeq_finLast (s : InSeg) (tcplen : UInt16) (h : FinLast c.ooseq) :
    FinLast (tcpReceiveOutOfSeq c o s tcplen).1.ooseq := by
  unfold tcpReceiveOutOfSeq
  dsimp only
  split_ifs
  · exact .single s
  · trivial
  · exact oosWalk_finLast h

theorem tcpReceive_finLast (s : Segment) (h : FinLast c.ooseq) :
    FinLast (tcpReceive c o s).1.ooseq := by
  rw [tcpReceive, tcpReceiveData]
  split_ifs
  · exact tcpReceiveInSeq_finLast _ h
  · exact tcpReceiveOutOfSeq_finLast _ _ h
  · exact h
  · exact h
  · exact h

end Queue

end EthernetPing
