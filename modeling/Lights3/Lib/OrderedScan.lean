import Lights3.Lib.SortedMap

/-!
# Scans of sorted lists

On a sorted list a predicate that is closed downwards cuts the list in two, so
seeking to a key is filtering. The bidirectional iterator of an ordered engine
is a zipper: the entries already passed, nearest first, and the entries ahead.
-/
namespace OrderedScan

variable {α β : Type*} {R : α → α → Prop} {l : List α}

theorem dropWhile_eq_filter (p : α → Bool) (hs : l.Pairwise R)
    (hp : ∀ a b, R a b → p b = true → p a = true) : l.dropWhile p = l.filter (fun a => !p a) := by
  induction l with
  | nil => rfl
  | cons a as ih =>
      obtain ⟨ha, hs⟩ := List.pairwise_cons.mp hs
      cases hpa : p a with
      | true => simp [hpa, ih hs]
      | false =>
          have hall : ∀ b ∈ as, p b = false := by
            intro b hb
            by_contra h
            simp [hp a b (ha b hb) (by simpa using h)] at hpa
          have hkeep : as.filter (fun b => !p b) = as :=
            List.filter_eq_self.mpr (fun b hb => by simp [hall b hb])
          simp [hpa, hkeep]

theorem takeWhile_eq_filter (p : α → Bool) (hs : l.Pairwise R)
    (hp : ∀ a b, R a b → p b = true → p a = true) : l.takeWhile p = l.filter p := by
  induction l with
  | nil => rfl
  | cons a as ih =>
      obtain ⟨ha, hs⟩ := List.pairwise_cons.mp hs
      cases hpa : p a with
      | true => simp [hpa, ih hs]
      | false =>
          have hall : ∀ b ∈ as, ¬ p b = true := by
            intro b hb h
            simp [hp a b (ha b hb) h] at hpa
          simp [hpa, List.filter_eq_nil_iff.mpr hall]

/-- The keys below a bound are closed downwards. -/
theorem lt_down {κ : Type*} [Preorder κ] [DecidableLT κ] (t : κ) (x y : κ × β) (hxy : x.1 < y.1)
    (hy : decide (y.1 < t) = true) : decide (x.1 < t) = true :=
  decide_eq_true (hxy.trans (of_decide_eq_true hy))

theorem takeWhile_congr {p q : α → Bool} (h : ∀ a ∈ l, p a = q a) :
    l.takeWhile p = l.takeWhile q := by
  induction l with
  | nil => rfl
  | cons a as ih =>
      rw [List.forall_mem_cons] at h
      simp only [List.takeWhile_cons, h.1, ih h.2]

theorem dropWhile_congr {p q : α → Bool} (h : ∀ a ∈ l, p a = q a) :
    l.dropWhile p = l.dropWhile q := by
  induction l with
  | nil => rfl
  | cons a as ih =>
      rw [List.forall_mem_cons] at h
      simp only [List.dropWhile_cons, h.1, ih h.2]

/-- Stepping over a first element `x` of a sorted list removes `x` from it. -/
theorem tail_eq_filter {κ : Type*} [LinearOrder κ] {key : α → κ} {x : κ}
    [Decidable (l.head?.map key = some x)] (hs : l.Pairwise (fun a b => key a < key b))
    (hx : ∀ a ∈ l, x ≤ key a) :
    (if l.head?.map key = some x then l.tail else l) = l.filter (fun a => !decide (key a = x)) := by
  cases l with
  | nil => simp
  | cons a as =>
      obtain ⟨ha, -⟩ := List.pairwise_cons.mp hs
      have hrest : as.filter (fun b => !decide (key b = x)) = as := by
        refine List.filter_eq_self.mpr (fun b hb => ?_)
        have hlt : x < key b := lt_of_le_of_lt (hx a List.mem_cons_self) (ha b hb)
        simpa using ne_of_gt hlt
      by_cases h : key a = x
      · simp [h, hrest]
      · simp [h, hrest]

/-- The last element of a sorted list is its greatest one. -/
theorem getLast?_eq_iff {κ : Type*} [LinearOrder κ] {key : α → κ} {x : α}
    (hs : l.Pairwise (fun a b => key a < key b)) :
    l.getLast? = some x ↔ x ∈ l ∧ ∀ y ∈ l, key y ≤ key x := by
  rw [List.getLast?_eq_some_iff]
  constructor
  · rintro ⟨ys, rfl⟩
    refine ⟨by simp, fun y hy => ?_⟩
    rcases List.mem_append.mp hy with hy | hy
    · exact le_of_lt ((List.pairwise_append.mp hs).2.2 y hy x (by simp))
    · rw [List.mem_singleton.mp hy]
  · rintro ⟨hx, hmax⟩
    obtain ⟨ys, zs, rfl⟩ := List.append_of_mem hx
    cases zs with
    | nil => exact ⟨ys, rfl⟩
    | cons z zs =>
        have hlt : key x < key z :=
          (List.pairwise_cons.mp (List.pairwise_append.mp hs).2.1).1 z List.mem_cons_self
        exact absurd (hmax z (by simp)) (not_le.mpr hlt)

/-- An iterator position: what was passed, nearest first, and what is ahead. It is
valid while something is ahead. -/
structure Cursor (α : Type*) where
  passed : List α
  ahead : List α

namespace Cursor

/-- The position before the first element that is not below the target. -/
def seek (below : α → Bool) (l : List α) : Cursor α :=
  ⟨(l.takeWhile below).reverse, l.dropWhile below⟩

def next : Cursor α → Cursor α
  | ⟨ps, []⟩ => ⟨ps, []⟩
  | ⟨ps, a :: as⟩ => ⟨a :: ps, as⟩

/-- Stepping back from the first element makes the position invalid. -/
def prev : Cursor α → Cursor α
  | ⟨[], _⟩ => ⟨[], []⟩
  | ⟨p :: ps, as⟩ => ⟨ps, p :: as⟩

@[simp] theorem ahead_seek (below : α → Bool) (l : List α) :
    (seek below l).ahead = l.dropWhile below := rfl

theorem contents_seek (below : α → Bool) (l : List α) :
    (seek below l).passed.reverse ++ (seek below l).ahead = l := by
  simp [seek]

@[simp] theorem ahead_next (c : Cursor α) : c.next.ahead = c.ahead.tail := by
  obtain ⟨ps, as⟩ := c
  cases as <;> rfl

theorem contents_next (c : Cursor α) :
    c.next.passed.reverse ++ c.next.ahead = c.passed.reverse ++ c.ahead := by
  obtain ⟨ps, as⟩ := c
  cases as <;> simp [next]

/-- Stepping back and forth behind a passed element. -/
theorem next_prev {c : Cursor α} (h : c.passed ≠ []) : c.prev.next = c := by
  obtain ⟨ps, as⟩ := c
  cases ps with
  | nil => exact absurd rfl h
  | cons p ps => rfl

theorem head_prev (c : Cursor α) : c.prev.ahead.head? = c.passed.head? := by
  obtain ⟨ps, as⟩ := c
  cases ps <;> rfl

end Cursor

end OrderedScan
