import Mathlib.Tactic

/-!
# The shortest prefix that reaches a sum

A selection takes the items of a ranking from the front until their sizes reach a need. It can be
kept while the items arrive one by one: what was cut off once is never selected later.
-/
namespace ShortestPrefix

variable {α : Type*} (size : α → ℕ)

def total (l : List α) : ℕ := (l.map size).sum

/-- The selected items are a prefix, the need is reached if it can be, and no shorter prefix does.
-/
structure Selects (need : ℕ) (l p : List α) : Prop where
  front : p <+: l
  reaches : need ≤ total size p ∨ p = l
  minimal : ∀ q, q <+: p → q ≠ p → total size q < need

def shortest : ℕ → List α → List α
  | 0, _ => []
  | _ + 1, [] => []
  | n + 1, a :: l => a :: shortest (n + 1 - size a) l

variable {size} {m n : ℕ} {a : α} {l r : List α}

@[simp] theorem total_nil : total size [] = 0 := rfl

@[simp] theorem total_cons : total size (a :: l) = size a + total size l := by simp [total]

theorem total_append : total size (l ++ r) = total size l + total size r := by simp [total]

theorem total_perm (h : l.Perm r) : total size l = total size r := (h.map size).sum_eq

@[simp] theorem shortest_zero : shortest size 0 l = [] := by rw [shortest]

@[simp] theorem shortest_nil : shortest size n [] = [] := by cases n <;> rfl

theorem shortest_cons (hn : 0 < n) :
    shortest size n (a :: l) = a :: shortest size (n - size a) l := by
  obtain ⟨n, rfl⟩ := Nat.exists_eq_add_of_lt hn
  rw [Nat.zero_add, shortest]

theorem selects_shortest (size : α → ℕ) (n : ℕ) (l : List α) :
    Selects size n l (shortest size n l) := by
  induction l generalizing n with
  | nil => exact ⟨by simp, Or.inr (by simp), by simp⟩
  | cons a l ih =>
      rcases Nat.eq_zero_or_pos n with rfl | hn
      · exact ⟨by simp, by simp, by simp⟩
      · rw [shortest_cons hn]
        obtain ⟨hfront, hreaches, hminimal⟩ := ih (n - size a)
        refine ⟨List.cons_prefix_cons.mpr ⟨rfl, hfront⟩, ?_, ?_⟩
        · refine hreaches.imp (fun h => ?_) (fun h => by rw [h])
          rw [total_cons]
          omega
        · intro q hq hne
          cases q with
          | nil => exact hn
          | cons b q =>
              obtain ⟨rfl, hq⟩ := List.cons_prefix_cons.mp hq
              have hlt := hminimal q hq (fun h => hne (by rw [h]))
              rw [total_cons]
              omega

theorem total_shortest_le : total size (shortest size n l) ≤ total size l := by
  obtain ⟨s, hs⟩ := (selects_shortest size n l).front
  conv_rhs => rw [← hs, total_append]
  omega

/-- What a smaller need selects is among what a larger one selects. -/
theorem shortest_shortest (h : m ≤ n) :
    shortest size m (shortest size n l) = shortest size m l := by
  induction l generalizing m n with
  | nil => simp
  | cons a l ih =>
      rcases Nat.eq_zero_or_pos m with rfl | hm
      · simp
      · rw [shortest_cons (hm.trans_le h), shortest_cons hm, shortest_cons hm,
          ih (Nat.sub_le_sub_right h _)]

/-- An item that was cut off is not selected after another item has arrived. -/
theorem shortest_orderedInsert (le : α → α → Prop) [DecidableRel le] :
    shortest size n ((shortest size n l).orderedInsert le a) =
      shortest size n (l.orderedInsert le a) := by
  induction l generalizing n with
  | nil => simp
  | cons b l ih =>
      rcases Nat.eq_zero_or_pos n with rfl | hn
      · simp
      · have hfront : shortest size n (b :: l) = b :: shortest size (n - size b) l :=
          shortest_cons hn
        rw [hfront, List.orderedInsert_cons, List.orderedInsert_cons]
        split_ifs with hab
        · rw [shortest_cons hn, shortest_cons hn, ← hfront, shortest_shortest (Nat.sub_le n _)]
        · rw [shortest_cons hn, shortest_cons hn, ih]

theorem shortest_append_of_le (h : n ≤ total size l) :
    shortest size n (l ++ r) = shortest size n l := by
  induction l generalizing n with
  | nil => simp [Nat.le_zero.mp h]
  | cons b l ih =>
      rcases Nat.eq_zero_or_pos n with rfl | hn
      · simp
      · rw [total_cons] at h
        rw [List.cons_append, shortest_cons hn, shortest_cons hn, ih (by omega)]

theorem shortest_concat_of_lt (h : total size l < n) : shortest size n (l ++ [a]) = l ++ [a] := by
  induction l generalizing n with
  | nil => rw [List.nil_append, shortest_cons (Nat.zero_lt_of_lt h), shortest_nil]
  | cons b l ih =>
      rw [total_cons] at h
      rw [List.cons_append, shortest_cons (Nat.zero_lt_of_lt h), ih (by omega)]

end ShortestPrefix
