import Lights3.Lib.SortedMap

/-!
# Counted holds

Parties hold items, each party a list with repetitions, and a table counts the
holds per item. The table is exact when every count is the number of holds of all
parties; taking and releasing a party's items keeps it exact.
-/
namespace Holders

variable {α β κ : Type*} [DecidableEq α] [LinearOrder κ]

/-- One more hold of each item. -/
def pinAll (count : α → Nat) (xs : List α) : α → Nat :=
  xs.foldl (fun c x => Function.update c x (c x + 1)) count

/-- One hold less of each item; a count of zero stays. -/
def unpinAll (count : α → Nat) (xs : List α) : α → Nat :=
  xs.foldl (fun c x => Function.update c x (c x - 1)) count

theorem foldl_update_apply (f : Nat → Nat) (count : α → Nat) (xs : List α) (y : α) :
    xs.foldl (fun c x => Function.update c x (f (c x))) count y = f^[xs.count y] (count y) := by
  induction xs generalizing count with
  | nil => rfl
  | cons x xs ih =>
      rw [List.foldl_cons, ih, List.count_cons]
      by_cases hxy : x = y
      · simp [hxy]
      · simp [Function.update_of_ne (Ne.symm hxy), hxy]

theorem pinAll_apply (count : α → Nat) (xs : List α) (y : α) :
    pinAll count xs y = count y + xs.count y :=
  (foldl_update_apply Nat.succ count xs y).trans (Nat.succ_iterate _ _)

theorem unpinAll_apply (count : α → Nat) (xs : List α) (y : α) :
    unpinAll count xs y = count y - xs.count y :=
  (foldl_update_apply Nat.pred count xs y).trans (Nat.pred_iterate _ _)

/-- How often the parties of the table hold the item. -/
def held (items : β → List α) (m : SortedMap κ β) (x : α) : Nat :=
  m.total (fun _ v => (items v).count x)

variable {items : β → List α} {m : SortedMap κ β}

/-- The holds of one party and those of the others. -/
theorem held_of_get? {k : κ} {v : β} (h : m.get? k = some v) (x : α) :
    held items m x = (items v).count x + held items (m.erase k) x := by
  unfold held
  rw [SortedMap.total_erase _ m k, SortedMap.share, h]
  rfl

theorem held_of_absent {k : κ} (h : m.get? k = none) (x : α) :
    held items m x = held items (m.erase k) x := by
  unfold held
  rw [SortedMap.total_erase _ m k, SortedMap.share, h]
  exact Nat.zero_add _

theorem held_insert (k : κ) (v : β) (x : α) :
    held items (m.insert k v) x = (items v).count x + held items (m.erase k) x :=
  SortedMap.total_insert _ m k v

/-- Nobody holds the item. -/
theorem held_eq_zero {x : α} : held items m x = 0 ↔ ∀ k v, m.get? k = some v → x ∉ items v := by
  unfold held SortedMap.total
  rw [List.sum_eq_zero_iff_forall_eq_nat]
  constructor
  · intro h k v hget
    have hzero := h ((items v).count x)
      (List.mem_map.mpr ⟨(k, v), SortedMap.mem_entries.mpr hget, rfl⟩)
    exact List.count_eq_zero.mp hzero
  · intro h n hn
    obtain ⟨⟨k, v⟩, hmem, rfl⟩ := List.mem_map.mp hn
    exact List.count_eq_zero.mpr (h k v (SortedMap.mem_entries.mp hmem))

end Holders
