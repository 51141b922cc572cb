import Mathlib.Data.List.Basic

/-!
# Closing a set along a partial function

A worklist follows `next` from every member and stops at members seen before. Each round
takes one element from the stack or adds a member, so the stack and the targets that are still
missing bound the number of rounds.
-/
namespace Closure

variable {α : Type*} (next : α → Option α)

/-- The members outside the stack have their targets among the members. -/
def Done (stack seen : List α) : Prop :=
  ∀ x ∈ seen, x ∈ stack ∨ ∀ p, next x = some p → p ∈ seen

variable {next}

/-- Once the top of the stack is done, the other members are as they were. -/
theorem Done.pop {stack seen seen' : List α} {x : α} (h : Done next (x :: stack) seen)
    (hsub : seen ⊆ seen') (hx : ∀ p, next x = some p → p ∈ seen') {y : α} (hy : y ∈ seen) :
    y ∈ stack ∨ ∀ p, next y = some p → p ∈ seen' := by
  rcases h y hy with hmem | hclosed
  · rcases List.mem_cons.mp hmem with rfl | hmem
    · exact Or.inr hx
    · exact Or.inl hmem
  · exact Or.inr (fun p hp => hsub (hclosed p hp))

variable [DecidableEq α] (next)

/-- The members once the stack is empty, if it is after that many rounds. -/
def close : Nat → List α → List α → Option (List α)
  | _, [], seen => some seen
  | 0, _ :: _, _ => none
  | n + 1, x :: stack, seen =>
      match next x with
      | none => close n stack seen
      | some p => if p ∈ seen then close n stack seen else close n (p :: stack) (p :: seen)

/-- The targets that are not seen yet. -/
def missing (targets seen : List α) : Nat := (targets.filter (fun p => p ∉ seen)).length

variable {next}

theorem missing_cons_lt {targets seen : List α} {p : α} (hp : p ∈ targets) (hnew : p ∉ seen) :
    missing targets (p :: seen) < missing targets seen := by
  unfold missing
  have hsub : targets.filter (fun q => q ∉ p :: seen) =
      (targets.filter (fun q => q ∉ seen)).filter (fun q => q ≠ p) := by
    rw [List.filter_filter]
    exact List.filter_congr (by simp [not_or])
  rw [hsub]
  refine List.length_filter_lt_length_iff_exists.mpr ⟨p, ?_, by simp⟩
  simp [hp, hnew]

/-- The stack is empty after enough rounds. -/
theorem exists_close {targets : List α} (htargets : ∀ x p, next x = some p → p ∈ targets) {n : Nat}
    {stack seen : List α} (hn : stack.length + missing targets seen ≤ n) :
    ∃ out, close next n stack seen = some out := by
  induction n generalizing stack seen with
  | zero =>
      obtain rfl : stack = [] := List.length_eq_zero_iff.mp (by omega)
      exact ⟨seen, by simp [close]⟩
  | succ n ih =>
      cases stack with
      | nil => exact ⟨seen, by simp [close]⟩
      | cons x stack =>
          rw [List.length_cons] at hn
          unfold close
          split
          · exact ih (by omega)
          · rename_i p hp
            split_ifs with hseen
            · exact ih (by omega)
            · have hlt := missing_cons_lt (htargets x p hp) hseen
              exact ih (by rw [List.length_cons]; omega)

/-- What the loop leaves holds the members it starts from and the targets of its members. -/
theorem close_closed {n : Nat} {stack seen out : List α} (h : close next n stack seen = some out)
    (hdone : Done next stack seen) : seen ⊆ out ∧ ∀ x ∈ out, ∀ p, next x = some p → p ∈ out := by
  fun_induction close next n stack seen with
  | case1 n seen =>
      cases h
      exact ⟨List.Subset.refl _, fun x hx => (hdone x hx).resolve_left List.not_mem_nil⟩
  | case2 => cases h
  | case3 n x stack seen hnone ih =>
      exact ih h (fun _ => hdone.pop (List.Subset.refl _) (by simp [hnone]))
  | case4 n x stack seen p hp hseen ih =>
      exact ih h (fun _ => hdone.pop (List.Subset.refl _) (by simp [hp, hseen]))
  | case5 n x stack seen p hp hseen ih =>
      have hsub := List.subset_cons_self p seen
      obtain ⟨hout, hclosed⟩ := ih h (fun y hy => by
        rcases List.mem_cons.mp hy with rfl | hy
        · exact Or.inl List.mem_cons_self
        · exact (hdone.pop hsub (by simp [hp]) hy).imp_left (List.mem_cons_of_mem p))
      exact ⟨List.Subset.trans hsub hout, hclosed⟩

/-- The loop stays in every set that holds its members and their targets. -/
theorem close_subset {n : Nat} {stack seen out : List α} (h : close next n stack seen = some out)
    {K : Set α} (hclosed : ∀ x ∈ K, ∀ p, next x = some p → p ∈ K) (hstack : ∀ x ∈ stack, x ∈ K)
    (hseen : ∀ x ∈ seen, x ∈ K) : ∀ x ∈ out, x ∈ K := by
  fun_induction close next n stack seen with
  | case1 n seen =>
      cases h
      exact hseen
  | case2 => cases h
  | case3 n x stack seen hnone ih => exact ih h (List.forall_mem_cons.mp hstack).2 hseen
  | case4 n x stack seen p hp hmem ih => exact ih h (List.forall_mem_cons.mp hstack).2 hseen
  | case5 n x stack seen p hp hmem ih =>
      obtain ⟨hx, hstack⟩ := List.forall_mem_cons.mp hstack
      have hpK := hclosed x hx p hp
      exact ih h (List.forall_mem_cons.mpr ⟨hpK, hstack⟩) (List.forall_mem_cons.mpr ⟨hpK, hseen⟩)

end Closure
