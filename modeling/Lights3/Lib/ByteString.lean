import Mathlib.Tactic

/-!
# Byte strings in lexicographic order

Ordered engines compare keys as byte strings. A key range that shares a prefix
is an interval whose upper end is the prefix with its last byte incremented,
carrying over trailing `0xff` bytes. Substring search is the leftmost match.
-/

instance UInt8.instLinearOrder : LinearOrder UInt8 where
  le_refl _ := UInt8.le_refl _
  le_trans _ _ _ := UInt8.le_trans
  le_antisymm _ _ := UInt8.le_antisymm
  le_total := UInt8.le_total
  lt_iff_le_not_ge a b := by
    rw [UInt8.lt_iff_toNat_lt, UInt8.le_iff_toNat_le, UInt8.le_iff_toNat_le]
    omega
  toDecidableLE := fun a b => inferInstanceAs (Decidable (a ≤ b))

instance UInt64.instLinearOrder : LinearOrder UInt64 where
  le_refl _ := UInt64.le_refl _
  le_trans _ _ _ := UInt64.le_trans
  le_antisymm _ _ := UInt64.le_antisymm
  le_total := UInt64.le_total
  lt_iff_le_not_ge a b := by
    rw [UInt64.lt_iff_toNat_lt, UInt64.le_iff_toNat_le, UInt64.le_iff_toNat_le]
    omega
  toDecidableLE := fun a b => inferInstanceAs (Decidable (a ≤ b))

/-- A string of the modelled program: bytes, compared lexicographically. -/
abbrev Bytes := List UInt8

instance Bytes.instLawfulBEq : LawfulBEq Bytes := inferInstance

instance Bytes.instLawfulBEqList : LawfulBEq (List Bytes) := inferInstance

-- Quantifiers over the elements of a list are decided along the list, although the bytes and the
-- words are finite types.
instance (priority := 2000) decidableForallMem {α : Type*} (p : α → Prop) [DecidablePred p]
    (l : List α) : Decidable (∀ x ∈ l, p x) := List.decidableBAll p l

instance (priority := 2000) decidableExistsMem {α : Type*} (p : α → Prop) [DecidablePred p]
    (l : List α) : Decidable (∃ x ∈ l, p x) := List.decidableBEx p l

namespace ByteString

/-- The bytes of an ASCII literal. -/
def ascii (s : String) : Bytes := s.toList.map (fun c => UInt8.ofNat c.toNat)

theorem cons_le_cons_iff {c d : UInt8} {x y : Bytes} : c :: x ≤ d :: y ↔ c < d ∨ c = d ∧ x ≤ y := by
  rw [← not_lt, List.cons_lt_cons_iff, ← not_lt (a := y)]
  constructor
  · intro h
    rcases lt_trichotomy c d with hlt | heq | hgt
    · exact Or.inl hlt
    · exact Or.inr ⟨heq, fun hyx => h (Or.inr ⟨heq.symm, hyx⟩)⟩
    · exact absurd (Or.inl hgt) h
  · rintro (hlt | ⟨rfl, hxy⟩) (hgt | ⟨heq, hyx⟩)
    · exact absurd (hlt.trans hgt) (lt_irrefl c)
    · exact absurd (heq ▸ hlt) (lt_irrefl _)
    · exact absurd hgt (lt_irrefl c)
    · exact hxy hyx

theorem nil_le (x : Bytes) : [] ≤ x := by
  rw [← not_lt]
  exact List.not_lt_nil x

theorem not_cons_le_nil (c : UInt8) (x : Bytes) : ¬ c :: x ≤ [] := by
  rw [not_le]
  exact List.nil_lt_cons c x

@[simp] theorem append_lt_append_left (p x y : Bytes) : p ++ x < p ++ y ↔ x < y := by
  induction p with
  | nil => rfl
  | cons c p ih => simp [ih]

@[simp] theorem append_le_append_left (p x y : Bytes) : p ++ x ≤ p ++ y ↔ x ≤ y := by
  rw [← not_lt, ← not_lt, append_lt_append_left]

/-- A string followed by a zero byte is the least string above it. -/
theorem append_zero_le_iff {a x : Bytes} : a ++ [0] ≤ x ↔ a < x := by
  induction a generalizing x with
  | nil =>
      cases x with
      | nil => simp [not_cons_le_nil]
      | cons d y =>
          have hd : (0 : UInt8) < d ∨ 0 = d := (UInt8.le_iff_lt_or_eq).mp UInt8.zero_le
          simp [cons_le_cons_iff, hd, nil_le]
  | cons c a ih =>
      cases x with
      | nil => simp [not_cons_le_nil]
      | cons d y =>
          rw [List.cons_append, cons_le_cons_iff, ih]
          exact List.cons_lt_cons_iff.symm

theorem prefix_le {p x : Bytes} (h : p <+: x) : p ≤ x := by
  obtain ⟨t, rfl⟩ := h
  simpa using (append_le_append_left p [] t).mpr (nil_le t)

/-- Between two strings that share a prefix, every string shares it. -/
theorem prefix_of_le_of_le {p x y z : Bytes} (hx : p <+: x) (hz : p <+: z)
    (hxy : x ≤ y) (hyz : y ≤ z) : p <+: y := by
  induction p generalizing x y z with
  | nil => exact List.nil_prefix
  | cons c p ih =>
      obtain ⟨x, rfl⟩ := hx
      obtain ⟨z, rfl⟩ := hz
      cases y with
      | nil => exact absurd hxy (not_cons_le_nil c (p ++ x))
      | cons d y =>
          rw [List.cons_append, cons_le_cons_iff] at hxy hyz
          have hcd : c = d := by
            rcases hxy with h1 | ⟨h1, _⟩
            · rcases hyz with h2 | ⟨h2, _⟩
              · exact absurd (h1.trans h2) (lt_irrefl c)
              · exact h2.symm
            · exact h1
          subst hcd
          simp only [lt_irrefl, true_and, false_or] at hxy hyz
          exact List.cons_prefix_cons.mpr
            ⟨rfl, ih (List.prefix_append p x) (List.prefix_append p z) hxy hyz⟩

/-- Increment the last byte that is not `0xff` and cut the string after it;
`none` when every byte is `0xff`. -/
def successor : Bytes → Option Bytes
  | [] => none
  | c :: s =>
      match successor s with
      | some t => some (c :: t)
      | none => if c = 0xff then none else some [c + 1]

attribute [local simp] successor

theorem successor_append_singleton (s : Bytes) {c : UInt8} (hc : c ≠ 0xff) :
    successor (s ++ [c]) = some (s ++ [c + 1]) := by
  induction s with
  | nil => simp [hc]
  | cons d s ih => simp [ih]

theorem eq_max_of_successor_none {s : Bytes} (h : successor s = none) : ∀ c ∈ s, c = 0xff := by
  induction s with
  | nil => simp
  | cons c s ih =>
      simp only [successor] at h
      split at h
      · cases h
      · rename_i hs
        split_ifs at h with hc
        intro d hd
        rcases List.mem_cons.mp hd with rfl | hd
        · exact hc
        · exact ih hs d hd

theorem prefix_of_all_max {s x : Bytes} (hs : ∀ c ∈ s, c = 0xff) (h : s ≤ x) : s <+: x := by
  induction s generalizing x with
  | nil => exact List.nil_prefix
  | cons c s ih =>
      cases x with
      | nil => exact absurd h (not_cons_le_nil c s)
      | cons d x =>
          have hc : c = 0xff := hs c List.mem_cons_self
          rw [cons_le_cons_iff] at h
          rcases h with h | ⟨rfl, h⟩
          · have hd : d ≤ 0xff := UInt8.le_iff_toNat_le.mpr (Nat.le_of_lt_succ d.toNat_lt)
            exact absurd (hc ▸ h) (not_lt.mpr hd)
          · have htail := ih (fun e he => hs e (List.mem_cons_of_mem c he)) h
            exact List.cons_prefix_cons.mpr ⟨rfl, htail⟩

theorem lt_succ_iff {c d : UInt8} (hc : c ≠ 0xff) : d < c + 1 ↔ d ≤ c := by
  have hne : c.toNat ≠ 255 := fun h => hc (UInt8.toNat_inj.mp h)
  have hlt := c.toNat_lt
  rw [UInt8.lt_iff_toNat_lt, UInt8.le_iff_toNat_le, UInt8.toNat_add]
  have h1 : (1 : UInt8).toNat = 1 := rfl
  rw [h1]
  omega

/-- The half-open interval from `s` to its successor is the set of strings that
start with `s`. -/
theorem lt_successor_iff {s t x : Bytes} (ht : successor s = some t) : s ≤ x ∧ x < t ↔ s <+: x := by
  induction s generalizing t x with
  | nil => simp at ht
  | cons c s ih =>
      simp only [successor] at ht
      cases x with
      | nil => simp [not_cons_le_nil]
      | cons d x =>
          rw [cons_le_cons_iff, List.cons_prefix_cons]
          split at ht
          · rename_i t' hs
            cases ht
            rw [List.cons_lt_cons_iff, ← ih hs]
            constructor
            · rintro ⟨h1 | ⟨rfl, h1⟩, h2⟩
              · rcases h2 with h2 | ⟨rfl, h2⟩
                · exact absurd (h1.trans h2) (lt_irrefl c)
                · exact absurd h1 (lt_irrefl d)
              · rcases h2 with h2 | ⟨_, h2⟩
                · exact absurd h2 (lt_irrefl c)
                · exact ⟨rfl, h1, h2⟩
            · rintro ⟨rfl, h1, h2⟩
              exact ⟨Or.inr ⟨rfl, h1⟩, Or.inr ⟨rfl, h2⟩⟩
          · rename_i hs
            split_ifs at ht with hc
            cases ht
            rw [List.cons_lt_cons_iff]
            have hmax := eq_max_of_successor_none hs
            constructor
            · rintro ⟨h1, h2⟩
              have hdc : d ≤ c := by
                rcases h2 with h2 | ⟨_, h2⟩
                · exact (lt_succ_iff hc).mp h2
                · simp at h2
              rcases h1 with h1 | ⟨rfl, h1⟩
              · exact absurd h1 (not_lt.mpr hdc)
              · exact ⟨rfl, prefix_of_all_max hmax h1⟩
            · rintro ⟨rfl, h1⟩
              exact ⟨Or.inr ⟨rfl, prefix_le h1⟩, Or.inl ((lt_succ_iff hc).mpr le_rfl)⟩

theorem successor_isSome_of_mem {s : Bytes} {c : UInt8} (hc : c ∈ s) (hne : c ≠ 0xff) :
    ∃ t, successor s = some t := by
  cases h : successor s with
  | some t => exact ⟨t, rfl⟩
  | none => exact absurd (eq_max_of_successor_none h c hc) hne

/-- Offset of the leftmost occurrence of `d`. -/
def indexOf (d : Bytes) : Bytes → Option Nat
  | [] => if d = [] then some 0 else none
  | c :: s => if d.isPrefixOf (c :: s) then some 0 else (indexOf d s).map (· + 1)

attribute [local simp] indexOf

theorem prefix_drop_of_indexOf {d s : Bytes} {i : Nat} (h : indexOf d s = some i) :
    d <+: s.drop i := by
  induction s generalizing i with
  | nil =>
      simp only [indexOf] at h
      split_ifs at h with hd
      simp [hd]
  | cons c s ih =>
      simp only [indexOf] at h
      split_ifs at h with hp
      · cases h
        simpa using hp
      · obtain ⟨j, hj, rfl⟩ := Option.map_eq_some_iff.mp h
        simpa using ih hj

/-- A string that agrees up to the end of the leftmost match has the same one. -/
theorem indexOf_congr {d s t : Bytes} {i : Nat} (h : indexOf d s = some i)
    (ht : s.take (i + d.length) <+: t) : indexOf d t = some i := by
  induction s generalizing i t with
  | nil =>
      simp only [indexOf] at h
      split_ifs at h with hd
      cases h
      subst hd
      cases t <;> simp
  | cons c s ih =>
      simp only [indexOf] at h
      split_ifs at h with hp
      · cases h
        have hd : d <+: c :: s := by simpa using hp
        have hdt : d <+: t := by
          rw [Nat.zero_add, ← List.prefix_iff_eq_take.mp hd] at ht
          exact ht
        cases t with
        | nil =>
            have : d = [] := List.prefix_nil.mp hdt
            simp [this]
        | cons e t => simp [hdt]
      · obtain ⟨j, hj, rfl⟩ := Option.map_eq_some_iff.mp h
        have htake : (c :: s).take (j + 1 + d.length) = c :: s.take (j + d.length) := by
          rw [show j + 1 + d.length = (j + d.length) + 1 by omega, List.take_succ_cons]
        rw [htake] at ht
        obtain ⟨u, rfl⟩ := ht
        have hrec := ih hj (List.prefix_append _ u)
        have hnp : ¬ d.isPrefixOf (c :: (s.take (j + d.length) ++ u)) = true := by
          intro hq
          apply hp
          rw [List.isPrefixOf_iff_prefix] at hq ⊢
          have hlen := (prefix_drop_of_indexOf hj).length_le
          rw [List.length_drop] at hlen
          have hmin : (s.take (j + d.length)).length = j + d.length ∨ d.length = 0 := by
            rw [List.length_take]
            omega
          rcases hmin with hmin | hzero
          · have h1 : d <+: c :: s.take (j + d.length) := by
              refine List.prefix_of_prefix_length_le hq ?_ (by simp [hmin]; omega)
              exact List.prefix_append (c :: s.take (j + d.length)) u
            exact h1.trans (List.cons_prefix_cons.mpr ⟨rfl, List.take_prefix _ _⟩)
          · simp [List.length_eq_zero_iff.mp hzero]
        simp only [List.cons_append, indexOf, if_neg hnp, hrec, Option.map_some]

end ByteString
