import Mathlib.Data.List.Sort
import Mathlib.Tactic

/-!
# Agendas

An agenda lists what is to be done in the order of time, and what was put down first comes
first. Serving it up to a moment comes to an end if nothing that is put down again is due
earlier than that moment.
-/

namespace EthernetPing

/-- What is to be done, and when. -/
structure Due (α : Type*) where
  time : ℕ
  what : α

namespace Agenda

variable {α : Type*} {now : ℕ} {d e : Due α} {ds : List (Due α)}

/-- The agenda with `d`, behind what is due at the same time. -/
def insert (d : Due α) (ds : List (Due α)) : List (Due α) :=
  ds.orderedInsert (fun a b => a.time < b.time) d

theorem insert_perm (d : Due α) (ds : List (Due α)) : (insert d ds).Perm (d :: ds) :=
  ds.perm_orderedInsert _ d

theorem mem_insert : e ∈ insert d ds ↔ e = d ∨ e ∈ ds := by
  rw [(insert_perm d ds).mem_iff, List.mem_cons]

def Sorted (ds : List (Due α)) : Prop := ds.Pairwise fun a b => a.time ≤ b.time

theorem Sorted.insert (d : Due α) (h : Sorted ds) : Sorted (insert d ds) := by
  induction ds with
  | nil => exact List.pairwise_singleton _ _
  | cons x xs ih =>
    obtain ⟨hx, hxs⟩ := List.pairwise_cons.mp h
    rw [Agenda.insert, List.orderedInsert_cons]
    split_ifs with hlt
    · refine List.pairwise_cons.mpr ⟨fun y hy => ?_, h⟩
      rcases List.mem_cons.mp hy with rfl | hy
      · exact hlt.le
      · exact hlt.le.trans (hx y hy)
    · refine List.pairwise_cons.mpr ⟨fun y hy => ?_, ih hxs⟩
      rcases mem_insert.mp hy with rfl | hy
      · exact not_lt.mp hlt
      · exact hx y hy

/-- How often an entry can come up before the moment `now` is over: once more if it is put down
again for that very moment. -/
def Due.weight (now : ℕ) (d : Due α) : ℕ :=
  if now < d.time then 0 else if d.time = now then 1 else 2

/-- A bound for what is served up to a moment. -/
def weight (now : ℕ) (ds : List (Due α)) : ℕ := (ds.map (Due.weight now)).sum

theorem weight_cons (now : ℕ) (d : Due α) (ds : List (Due α)) :
    weight now (d :: ds) = Due.weight now d + weight now ds := rfl

theorem weight_insert (now : ℕ) (d : Due α) (ds : List (Due α)) :
    weight now (insert d ds) = Due.weight now d + weight now ds :=
  ((insert_perm d ds).map _).sum_eq

theorem weight_le (now : ℕ) (ds : List (Due α)) : weight now ds ≤ 2 * ds.length := by
  induction ds with
  | nil => exact le_rfl
  | cons d ds ih =>
    rw [weight_cons, List.length_cons, Due.weight]
    split_ifs <;> omega

/-- What is put down again, later than it was and not before `now`, comes up less often. -/
theorem weight_lt (hd : d.time ≤ now) (hlater : d.time < e.time) (hnow : now ≤ e.time) :
    Due.weight now e < Due.weight now d := by
  unfold Due.weight
  split_ifs <;> omega

theorem weight_pos (hd : d.time ≤ now) : 0 < Due.weight now d := by
  unfold Due.weight
  split_ifs <;> omega

theorem Sorted.first_le (h : Sorted (d :: ds)) : ∀ e ∈ d :: ds, d.time ≤ e.time := by
  intro e he
  rcases List.mem_cons.mp he with rfl | he
  · exact le_rfl
  · exact (List.pairwise_cons.mp h).1 e he

end Agenda

end EthernetPing
