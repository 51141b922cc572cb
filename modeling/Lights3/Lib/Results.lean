import Mathlib.Tactic

/-!
# Computations that succeed or fail

How a computation in `Except` comes apart.
-/

attribute [local simp] bind pure Except.bind Except.pure

theorem bind_eq_ok {ε α β : Type} {x : Except ε α} {f : α → Except ε β} {b : β} :
    (x >>= f) = .ok b ↔ ∃ a, x = .ok a ∧ f a = .ok b := by
  cases x with
  | error e => simp
  | ok a => simp

theorem of_bind_ok {ε α β : Type} {x : Except ε α} {f : α → Except ε β} {b : β}
    (h : (x >>= f) = .ok b) : ∃ a, x = .ok a ∧ f a = .ok b :=
  bind_eq_ok.mp h

theorem bind_eq_error {ε α β : Type} {x : Except ε α} {f : α → Except ε β} {e : ε} :
    (x >>= f) = .error e ↔ x = .error e ∨ ∃ a, x = .ok a ∧ f a = .error e := by
  cases x with
  | error e => simp
  | ok a => simp

theorem pure_eq_ok {ε α : Type} {a b : α} : (pure a : Except ε α) = .ok b ↔ b = a := by
  simp [eq_comm]

theorem exists_unit {p : Unit → Prop} : (∃ u, p u) ↔ p () :=
  ⟨fun ⟨_, h⟩ => h, fun h => ⟨(), h⟩⟩

theorem map_eq_ok {ε α β : Type} {x : Except ε α} {f : α → β} {b : β} :
    x.map f = .ok b ↔ ∃ a, x = .ok a ∧ f a = b := by
  cases x <;> simp [Except.map]

theorem toOption_eq_some {ε α : Type*} {x : Except ε α} {a : α} :
    x.toOption = some a ↔ x = .ok a := by
  cases x <;> simp [Except.toOption]

/-- An invariant of the steps of a fold that succeeds. -/
theorem foldlM_ok_invariant {ε α β : Type} {step : α → β → Except ε α} {P : α → Prop}
    {bs : List β} (hstep : ∀ a, ∀ b ∈ bs, ∀ a', P a → step a b = .ok a' → P a') {a a' : α}
    (ha : P a) (h : bs.foldlM step a = .ok a') : P a' := by
  induction bs generalizing a with
  | nil =>
      cases h
      exact ha
  | cons b bs ih =>
      rw [List.foldlM_cons] at h
      obtain ⟨a₁, hb, h⟩ := of_bind_ok h
      exact ih (fun a c hc => hstep a c (List.mem_cons_of_mem b hc))
        (hstep a b List.mem_cons_self a₁ ha hb) h

theorem foldlM_some_invariant {α β : Type} {step : α → β → Option α} {P : α → Prop}
    (hstep : ∀ a b a', P a → step a b = some a' → P a') {bs : List β} {a a' : α} (ha : P a)
    (h : bs.foldlM step a = some a') : P a' := by
  induction bs generalizing a with
  | nil =>
      cases h
      exact ha
  | cons b bs ih =>
      rw [List.foldlM_cons] at h
      obtain ⟨a₁, hb, h⟩ := Option.bind_eq_some_iff.mp h
      exact ih (hstep a b a₁ ha hb) h

/-- A traversal succeeds with the results of the elements. -/
theorem mapM_eq_ok {ε α β : Type} {f : α → Except ε β} {xs : List α} {ys : List β} :
    xs.mapM f = .ok ys ↔ List.Forall₂ (fun x y => f x = .ok y) xs ys := by
  induction xs generalizing ys with
  | nil => simp [eq_comm]
  | cons x xs ih =>
      rw [List.mapM_cons, bind_eq_ok, List.forall₂_cons_left_iff]
      constructor
      · rintro ⟨y, hy, h⟩
        obtain ⟨ys, hys, h⟩ := of_bind_ok h
        exact ⟨y, ys, hy, ih.mp hys, pure_eq_ok.mp h⟩
      · rintro ⟨y, ys, hy, hys, rfl⟩
        exact ⟨y, hy, bind_eq_ok.mpr ⟨ys, ih.mpr hys, rfl⟩⟩

theorem exists_mem_of_forall₂ {α β : Type} {R : α → β → Prop} {xs : List α} {ys : List β} {x : α}
    (h : List.Forall₂ R xs ys) (hx : x ∈ xs) : ∃ y ∈ ys, R x y := by
  induction h with
  | nil => cases hx
  | cons hy _ ih =>
      rcases List.mem_cons.mp hx with rfl | hx
      · exact ⟨_, List.mem_cons_self, hy⟩
      · obtain ⟨y, hmem, hxy⟩ := ih hx
        exact ⟨y, List.mem_cons_of_mem _ hmem, hxy⟩

/-- Each element has its result in a traversal that succeeds. -/
theorem mapM_eq_ok_mem {ε α β : Type} {f : α → Except ε β} {xs : List α} {ys : List β} {x : α}
    (h : xs.mapM f = .ok ys) (hx : x ∈ xs) : ∃ y ∈ ys, f x = .ok y :=
  exists_mem_of_forall₂ (mapM_eq_ok.mp h) hx

/-- Each result of a traversal is that of an element. -/
theorem mem_of_mapM_eq_ok {ε α β : Type} {f : α → Except ε β} {xs : List α} {ys : List β} {y : β}
    (h : xs.mapM f = .ok ys) (hy : y ∈ ys) : ∃ x ∈ xs, f x = .ok y :=
  exists_mem_of_forall₂ (List.Forall₂.flip (R := fun y x => f x = .ok y) (mapM_eq_ok.mp h)) hy

theorem forM_eq_ok {ε α : Type} {f : α → Except ε Unit} {xs : List α} {u : Unit} :
    xs.forM f = .ok u ↔ ∀ x ∈ xs, f x = .ok () := by
  induction xs with
  | nil => simp
  | cons x xs ih =>
      change (f x >>= fun _ => xs.forM f) = .ok u ↔ _
      rw [bind_eq_ok]
      constructor
      · rintro ⟨⟨⟩, hx, hrest⟩ y hy
        rcases List.mem_cons.mp hy with rfl | hy
        · exact hx
        · exact ih.mp hrest y hy
      · intro h
        exact ⟨(), h x List.mem_cons_self, ih.mpr (fun y hy => h y (List.mem_cons_of_mem x hy))⟩
