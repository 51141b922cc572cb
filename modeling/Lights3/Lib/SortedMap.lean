import Mathlib.Tactic

/-!
# Finite maps with an ordered key type

A map is its list of entries in strictly increasing key order. The order proof
is a field, so an unsorted or duplicated table cannot be built. The entry list
is what an ordered engine iterates over and `get?` is what it reads. Additive
ledgers over a table are sums formed by `total`.
-/

/-- Entries in strictly increasing key order. -/
@[ext] structure SortedMap (α : Type*) (β : Type*) [LinearOrder α] where
  entries : List (α × β)
  sorted : entries.Pairwise (fun x y => x.1 < y.1)

namespace SortedMap

variable {α β γ : Type*} [LinearOrder α]

instance [DecidableEq β] : DecidableEq (SortedMap α β) := fun m n =>
  decidable_of_iff (m.entries = n.entries) SortedMap.ext_iff.symm

/-- First value stored under `k`, by a linear pass. -/
def find (k : α) : List (α × β) → Option β
  | [] => none
  | e :: es => if k = e.1 then some e.2 else find k es

/-- Ordered insertion, replacing an entry with the same key. -/
def place (k : α) (v : β) : List (α × β) → List (α × β)
  | [] => [(k, v)]
  | e :: es =>
      if k < e.1 then (k, v) :: e :: es
      else if k = e.1 then (k, v) :: es
      else e :: place k v es

attribute [local simp] find place

variable {es : List (α × β)} {k : α} {v : β}

theorem find_eq_none_of_forall_lt (h : ∀ e ∈ es, k < e.1) : find k es = none := by
  induction es with
  | nil => rfl
  | cons e es ih =>
      have hne : k ≠ e.1 := ne_of_lt (h e List.mem_cons_self)
      simp only [find, if_neg hne]
      exact ih (fun x hx => h x (List.mem_cons_of_mem e hx))

theorem mem_of_find (h : find k es = some v) : (k, v) ∈ es := by
  induction es with
  | nil => simp [find] at h
  | cons e es ih =>
      simp only [find] at h
      split_ifs at h with hk
      · cases h
        simp [hk]
      · exact List.mem_cons_of_mem e (ih h)

theorem find_of_mem (hs : es.Pairwise (fun x y => x.1 < y.1)) (h : (k, v) ∈ es) :
    find k es = some v := by
  induction es with
  | nil => simp at h
  | cons e es ih =>
      obtain ⟨he, hs⟩ := List.pairwise_cons.mp hs
      rcases List.mem_cons.mp h with heq | hmem
      · subst heq
        simp [find]
      · have hne : k ≠ e.1 := ne_of_gt (he _ hmem)
        simp only [find, if_neg hne]
        exact ih hs hmem

theorem mem_place {x : α × β} (h : x ∈ place k v es) : x = (k, v) ∨ x ∈ es := by
  induction es with
  | nil => simpa [place] using h
  | cons e es ih =>
      simp only [place] at h
      split_ifs at h with h1 h2
      · simpa using h
      · rcases List.mem_cons.mp h with rfl | hm
        · exact Or.inl rfl
        · exact Or.inr (List.mem_cons_of_mem e hm)
      · rcases List.mem_cons.mp h with rfl | hm
        · exact Or.inr List.mem_cons_self
        · rcases ih hm with rfl | hm
          · exact Or.inl rfl
          · exact Or.inr (List.mem_cons_of_mem e hm)

theorem pairwise_place (k : α) (v : β) (hs : es.Pairwise (fun x y => x.1 < y.1)) :
    (place k v es).Pairwise (fun x y => x.1 < y.1) := by
  induction es with
  | nil => simp [place]
  | cons e es ih =>
      obtain ⟨he, hs'⟩ := List.pairwise_cons.mp hs
      simp only [place]
      split_ifs with h1 h2
      · refine List.pairwise_cons.mpr ⟨?_, hs⟩
        intro y hy
        rcases List.mem_cons.mp hy with rfl | hy
        · exact h1
        · exact h1.trans (he y hy)
      · exact List.pairwise_cons.mpr ⟨fun y hy => h2 ▸ he y hy, hs'⟩
      · refine List.pairwise_cons.mpr ⟨?_, ih hs'⟩
        intro y hy
        rcases mem_place hy with rfl | hy
        · exact lt_of_le_of_ne (not_lt.mp h1) (Ne.symm h2)
        · exact he y hy

theorem find_place (k j : α) (v : β) (es : List (α × β)) :
    find j (place k v es) = if j = k then some v else find j es := by
  induction es with
  | nil => simp [place, find]
  | cons e es ih =>
      by_cases hj : j = k
      · subst hj
        simp only [place, if_true] at ih ⊢
        split_ifs with h1 h2
        · simp [find]
        · simp [find]
        · simpa only [find, if_neg h2] using ih
      · simp only [place, if_neg hj] at ih ⊢
        split_ifs with h1 h2
        · simp [find, hj]
        · have hne : j ≠ e.1 := fun he => hj (he.trans h2.symm)
          simp [find, hj, hne]
        · simp only [find, ih]

/-- The empty table. -/
def empty : SortedMap α β := ⟨[], List.Pairwise.nil⟩

def get? (m : SortedMap α β) (k : α) : Option β := find k m.entries

def insert (m : SortedMap α β) (k : α) (v : β) : SortedMap α β :=
  ⟨place k v m.entries, pairwise_place k v m.sorted⟩

/-- Keeps the entries whose key satisfies `p`; range deletion is one instance. -/
def keep (m : SortedMap α β) (p : α → Bool) : SortedMap α β :=
  ⟨m.entries.filter (fun e => p e.1), m.sorted.filter _⟩

def erase (m : SortedMap α β) (k : α) : SortedMap α β := m.keep (fun j => decide (j ≠ k))

def keys (m : SortedMap α β) : List α := m.entries.map Prod.fst

@[simp] theorem get?_empty (k : α) : (empty : SortedMap α β).get? k = none := rfl

@[simp] theorem get?_insert (m : SortedMap α β) (k j : α) (v : β) :
    (m.insert k v).get? j = if j = k then some v else m.get? j :=
  find_place k j v m.entries

theorem mem_entries {m : SortedMap α β} : (k, v) ∈ m.entries ↔ m.get? k = some v :=
  ⟨find_of_mem m.sorted, mem_of_find⟩

@[simp] theorem get?_keep (m : SortedMap α β) (p : α → Bool) (k : α) :
    (m.keep p).get? k = if p k then m.get? k else none := by
  apply Option.ext
  intro v
  rw [← mem_entries]
  simp only [keep, List.mem_filter]
  split_ifs with h
  · simp only [h, and_true]
    exact mem_entries
  · simp [h]

@[simp] theorem get?_erase (m : SortedMap α β) (k j : α) :
    (m.erase k).get? j = if j = k then none else m.get? j := by
  simp only [erase, get?_keep]
  by_cases h : j = k <;> simp [h]

theorem isSome_insert {m : SortedMap α β} {j : α} (h : (m.get? j).isSome) :
    ((m.insert k v).get? j).isSome := by
  rw [get?_insert]
  split_ifs
  · rfl
  · exact h

theorem get?_insert_cases {m : SortedMap α β} {j : α} {w : β} (h : (m.insert k v).get? j = some w) :
    (j = k ∧ w = v) ∨ (j ≠ k ∧ m.get? j = some w) := by
  rw [get?_insert] at h
  split_ifs at h with hj
  · exact Or.inl ⟨hj, (Option.some.inj h).symm⟩
  · exact Or.inr ⟨hj, h⟩

theorem get?_erase_some {m : SortedMap α β} {j : α} {w : β} (h : (m.erase k).get? j = some w) :
    j ≠ k ∧ m.get? j = some w := by
  rw [get?_erase] at h
  split_ifs at h with hj
  exact ⟨hj, h⟩

theorem mem_keys {m : SortedMap α β} : k ∈ m.keys ↔ ∃ v, m.get? k = some v := by
  simp only [keys, List.mem_map]
  constructor
  · rintro ⟨⟨a, v⟩, hm, rfl⟩
    exact ⟨v, mem_entries.mp hm⟩
  · rintro ⟨v, hv⟩
    exact ⟨(k, v), mem_entries.mpr hv, rfl⟩

theorem keys_pairwise (m : SortedMap α β) : m.keys.Pairwise (· < ·) :=
  List.pairwise_map.mpr m.sorted

/-- Two strictly sorted entry lists with the same members are equal. -/
theorem eq_of_mem_iff {fs : List (α × β)} (hes : es.Pairwise (fun x y => x.1 < y.1))
    (hfs : fs.Pairwise (fun x y => x.1 < y.1)) (h : ∀ x, x ∈ es ↔ x ∈ fs) : es = fs := by
  have hnd {l : List (α × β)} (hl : l.Pairwise (fun x y => x.1 < y.1)) : l.Nodup :=
    hl.imp (fun hlt heq => absurd (congrArg Prod.fst heq) (ne_of_lt hlt))
  refine ((List.perm_ext_iff_of_nodup (hnd hes) (hnd hfs)).mpr h).eq_of_pairwise ?_ hes hfs
  intro a b _ _ hab hba
  exact absurd (hab.trans hba) (lt_irrefl _)

/-- A table is determined by its reads. -/
theorem ext_get? {m n : SortedMap α β} (h : ∀ k, m.get? k = n.get? k) : m = n := by
  apply SortedMap.ext
  refine eq_of_mem_iff m.sorted n.sorted ?_
  rintro ⟨k, v⟩
  rw [mem_entries, mem_entries, h k]

theorem insert_eq_self {m : SortedMap α β} (h : m.get? k = some v) : m.insert k v = m := by
  apply ext_get?
  intro j
  by_cases hj : j = k <;> simp [hj, h]

theorem erase_eq_self {m : SortedMap α β} (h : m.get? k = none) : m.erase k = m := by
  apply ext_get?
  intro j
  by_cases hj : j = k <;> simp [hj, h]

/-- Replaying the entries of a table into another one. -/
def insertAll (m : SortedMap α β) (es : List (α × β)) : SortedMap α β :=
  es.foldl (fun t e => t.insert e.1 e.2) m

theorem get?_insertAll (m : SortedMap α β) (hs : es.Pairwise (fun x y => x.1 < y.1)) (k : α) :
    (m.insertAll es).get? k = (find k es).or (m.get? k) := by
  induction es generalizing m with
  | nil => simp [insertAll, find]
  | cons e es ih =>
      obtain ⟨he, hs⟩ := List.pairwise_cons.mp hs
      have h := ih (m.insert e.1 e.2) hs
      simp only [insertAll, List.foldl_cons] at h ⊢
      rw [h, get?_insert]
      by_cases hk : k = e.1
      · subst hk
        rw [find_eq_none_of_forall_lt he]
        simp [find]
      · simp [find, hk]

theorem insertAll_empty (m : SortedMap α β) : empty.insertAll m.entries = m := by
  apply ext_get?
  intro k
  rw [get?_insertAll _ m.sorted]
  exact Option.or_none

theorem mem_of_get?_insertAll {m : SortedMap α β} (h : (m.insertAll es).get? k = some v) :
    (k, v) ∈ es ∨ m.get? k = some v := by
  induction es generalizing m with
  | nil => exact Or.inr h
  | cons e es ih =>
      rcases ih (m := m.insert e.1 e.2) h with hmem | hget
      · exact Or.inl (List.mem_cons_of_mem e hmem)
      · rcases get?_insert_cases hget with ⟨rfl, rfl⟩ | ⟨-, hget⟩
        · exact Or.inl List.mem_cons_self
        · exact Or.inr hget

theorem get?_insertAll_of_not_mem {m : SortedMap α β} (h : k ∉ es.map (·.1)) :
    (m.insertAll es).get? k = m.get? k := by
  induction es generalizing m with
  | nil => rfl
  | cons e es ih =>
      rw [List.map_cons, List.mem_cons, not_or] at h
      have htail : ((m.insert e.1 e.2).insertAll es).get? k = (m.insert e.1 e.2).get? k := ih h.2
      rw [get?_insert, if_neg h.1] at htail
      exact htail

theorem get?_insertAll_of_mem {m : SortedMap α β} (hs : (es.map (·.1)).Nodup) (h : (k, v) ∈ es) :
    (m.insertAll es).get? k = some v := by
  induction es generalizing m with
  | nil => exact absurd h List.not_mem_nil
  | cons e es ih =>
      rw [List.map_cons, List.nodup_cons] at hs
      rcases List.mem_cons.mp h with rfl | h
      · have htail := get?_insertAll_of_not_mem (m := m.insert k v) hs.1
        rw [get?_insert, if_pos rfl] at htail
        exact htail
      · exact ih hs.2 h

/-- The entries of a table in any order. -/
theorem insertAll_perm (m : SortedMap α β) (h : m.entries.Perm es) : empty.insertAll es = m := by
  have hkeys : (es.map (·.1)).Nodup :=
    ((List.pairwise_map.mpr m.sorted).imp ne_of_lt).perm (h.map _) Ne.symm
  apply ext_get?
  intro k
  cases hget : m.get? k with
  | some v => exact get?_insertAll_of_mem hkeys (h.mem_iff.mp (mem_entries.mpr hget))
  | none =>
      rw [Option.eq_none_iff_forall_ne_some]
      intro v hv
      have hmem := (mem_of_get?_insertAll hv).resolve_right (by simp)
      rw [mem_entries.mp (h.mem_iff.mpr hmem)] at hget
      cases hget

section Total

variable {M : Type*} [AddCommMonoid M]

/-- The sum of one contribution per entry. -/
def total (f : α → β → M) (m : SortedMap α β) : M :=
  (m.entries.map (fun e => f e.1 e.2)).sum

/-- The contribution stored under one key, zero when it is absent. -/
def share (f : α → β → M) (m : SortedMap α β) (k : α) : M :=
  (m.get? k).elim 0 (f k)

theorem total_split (f : α → β → M) (m : SortedMap α β) (p : α → Bool) :
    total f m = total f (m.keep p) + total f (m.keep (fun k => !p k)) := by
  unfold total keep
  simp only
  induction m.entries with
  | nil => simp
  | cons e es ih =>
      cases hp : p e.1 with
      | true => simp [hp, ih, add_assoc]
      | false => simp [hp, ih, add_left_comm]

theorem sum_filter_find (f : α → β → M) (k : α) {es : List (α × β)}
    (hs : es.Pairwise (fun x y => x.1 < y.1)) :
    ((es.filter (fun e => decide (e.1 = k))).map (fun e => f e.1 e.2)).sum =
      (find k es).elim 0 (f k) := by
  induction es with
  | nil => simp [find]
  | cons e es ih =>
      obtain ⟨he, hs⟩ := List.pairwise_cons.mp hs
      by_cases hk : e.1 = k
      · subst hk
        have hrest : es.filter (fun x => decide (x.1 = e.1)) = [] := by
          rw [List.filter_eq_nil_iff]
          intro x hx
          simpa using ne_of_gt (he x hx)
        simp [find, hrest]
      · simp [find, hk, Ne.symm hk, ih hs]

theorem total_keep_eq (f : α → β → M) (m : SortedMap α β) (k : α) :
    total f (m.keep (fun j => decide (j = k))) = share f m k :=
  sum_filter_find f k m.sorted

/-- Every ledger splits into the share of one key and the rest. -/
theorem total_erase (f : α → β → M) (m : SortedMap α β) (k : α) :
    total f m = share f m k + total f (m.erase k) := by
  rw [total_split f m (fun j => decide (j = k)), total_keep_eq]
  congr 2
  simp only [erase]
  congr 1
  funext j
  simp

theorem share_insert_self (f : α → β → M) (m : SortedMap α β) (k : α) (v : β) :
    share f (m.insert k v) k = f k v := by
  simp [share]

theorem erase_insert (m : SortedMap α β) (k : α) (v : β) : (m.insert k v).erase k = m.erase k := by
  apply ext_get?
  intro j
  by_cases h : j = k <;> simp [h]

theorem total_insert (f : α → β → M) (m : SortedMap α β) (k : α) (v : β) :
    total f (m.insert k v) = f k v + total f (m.erase k) := by
  rw [total_erase f (m.insert k v) k, share_insert_self, erase_insert]

end Total

end SortedMap
