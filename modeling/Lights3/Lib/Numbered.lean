import Mathlib.Data.Finset.Max

/-!
# Numbered collections

A collection whose elements carry ids, as it changes over time. When an element is only ever
added above all ids in use and the highest id is never given up, ids are not recycled: an id
means the same element in all states of the collection.
-/
namespace Numbered

variable {ι β : Type*}

/-- An id of both collections means the same in both. -/
def Agree (xs ys : List (ι × β)) : Prop :=
  ∀ id b c, (id, b) ∈ xs → (id, c) ∈ ys → b = c

variable {t : ι × β} {xs ys : List (ι × β)}

theorem Agree.symm (h : Agree xs ys) : Agree ys xs :=
  fun id b c hb hc => (h id c b hc hb).symm

theorem agree_self (h : (xs.map Prod.fst).Nodup) : Agree xs xs := by
  intro id b c hb hc
  exact congrArg Prod.snd (List.inj_on_of_nodup_map h hb hc rfl)

variable [LinearOrder ι]

/-- The later collection reaches at least as high, and its new ids are above the earlier ones. -/
structure Grows (old new : List (ι × β)) : Prop where
  reaches : ∀ x ∈ old, ∃ y ∈ new, x.1 ≤ y.1
  fresh : ∀ y ∈ new, y ∈ old ∨ ∀ x ∈ old, x.1 < y.1

theorem Grows.trans {zs : List (ι × β)} (h₁ : Grows xs ys) (h₂ : Grows ys zs) : Grows xs zs := by
  constructor
  · intro x hx
    obtain ⟨y, hy, hxy⟩ := h₁.reaches x hx
    obtain ⟨z, hz, hyz⟩ := h₂.reaches y hy
    exact ⟨z, hz, hxy.trans hyz⟩
  · intro z hz
    rcases h₂.fresh z hz with hz | hz
    · exact h₁.fresh z hz
    · refine Or.inr (fun x hx => ?_)
      obtain ⟨y, hy, hxy⟩ := h₁.reaches x hx
      exact hxy.trans_lt (hz y hy)

theorem Grows.agree (h : Grows xs ys) (hnodup : (xs.map Prod.fst).Nodup) : Agree xs ys := by
  intro id b c hb hc
  rcases h.fresh (id, c) hc with hc | hc
  · exact agree_self hnodup id b c hb hc
  · exact absurd (hc (id, b) hb) (lt_irrefl id)

/-- While elements come and go, `t` stays and what is new is above it. -/
structure Keeps (t : ι × β) (old new : List (ι × β)) : Prop where
  stays : t ∈ new
  above : ∀ y ∈ new, y ∈ old ∨ t.1 < y.1

theorem Keeps.refl (h : t ∈ xs) : Keeps t xs xs :=
  ⟨h, fun _ hy => Or.inl hy⟩

theorem Keeps.append (h : Keeps t xs ys) {y : ι × β} (hy : ∀ x ∈ ys, x.1 < y.1) :
    Keeps t xs (ys ++ [y]) := by
  refine ⟨List.mem_append_left _ h.stays, fun z hz => ?_⟩
  rcases List.mem_append.mp hz with hz | hz
  · exact h.above z hz
  · rw [List.mem_singleton.mp hz]
    exact Or.inr (hy t h.stays)

theorem Keeps.filter (h : Keeps t xs ys) {removed : List ι} (ht : t.1 ∉ removed) :
    Keeps t xs (ys.filter (fun y => y.1 ∉ removed)) :=
  ⟨List.mem_filter.mpr ⟨h.stays, decide_eq_true ht⟩,
    fun z hz => h.above z (List.mem_filter.mp hz).1⟩

theorem Keeps.grows (h : Keeps t xs ys) (htop : ∀ x ∈ xs, x.1 ≤ t.1) : Grows xs ys :=
  ⟨fun x hx => ⟨t, h.stays, htop x hx⟩,
    fun y hy => (h.above y hy).imp_right (fun hlt x hx => (htop x hx).trans_lt hlt)⟩

theorem exists_top (h : xs ≠ []) : ∃ t ∈ xs, ∀ x ∈ xs, x.1 ≤ t.1 := by
  classical
  obtain ⟨x, hx⟩ := List.exists_mem_of_ne_nil xs h
  obtain ⟨t, ht, htop⟩ := Finset.exists_max_image xs.toFinset Prod.fst ⟨x, List.mem_toFinset.mpr hx⟩
  exact ⟨t, List.mem_toFinset.mp ht, fun x hx => htop x (List.mem_toFinset.mpr hx)⟩

/-- None of the ids to remove is the highest one in use. -/
def SparesTop (ids removed : List ι) : Prop :=
  ∀ id ∈ removed, id ∈ ids → ∃ k ∈ ids, id < k

instance (ids removed : List ι) : Decidable (SparesTop ids removed) :=
  inferInstanceAs (Decidable (∀ id ∈ removed, id ∈ ids → ∃ k ∈ ids, id < k))

theorem SparesTop.not_mem {removed : List ι} (h : SparesTop (xs.map Prod.fst) removed) (ht : t ∈ xs)
    (htop : ∀ x ∈ xs, x.1 ≤ t.1) : t.1 ∉ removed := by
  intro hmem
  obtain ⟨k, hk, hlt⟩ := h t.1 hmem (List.mem_map_of_mem ht)
  obtain ⟨x, hx, rfl⟩ := List.mem_map.mp hk
  exact absurd hlt (not_lt_of_ge (htop x hx))

end Numbered
