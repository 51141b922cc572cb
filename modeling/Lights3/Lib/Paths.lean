import Mathlib.Tactic

/-!
# Directory paths

The directory of a list of segments writes every segment followed by a separator.
When no segment contains the separator, a directory is above another exactly when its
segments are an initial part of the other's.
-/

/-- Every segment followed by the separator. -/
def dirPath {α : Type*} (sep : α) (segs : List (List α)) : List α := segs.flatMap (· ++ [sep])

namespace DirPath

variable {α : Type*} {sep : α} {xs ys : List (List α)}

@[simp] theorem nil (sep : α) : dirPath sep [] = [] := rfl

@[simp] theorem cons (sep : α) (s : List α) (segs : List (List α)) :
    dirPath sep (s :: segs) = s ++ sep :: dirPath sep segs := by
  simp [dirPath]

theorem append (sep : α) (xs ys : List (List α)) :
    dirPath sep (xs ++ ys) = dirPath sep xs ++ dirPath sep ys := by
  simp [dirPath]

/-- Two segments up to their separators. -/
theorem append_sep_inj {s t x y : List α} (hs : sep ∉ s) (ht : sep ∉ t)
    (h : s ++ sep :: x = t ++ sep :: y) : s = t ∧ x = y := by
  induction s generalizing t with
  | nil =>
      cases t with
      | nil => exact ⟨rfl, (List.cons.inj h).2⟩
      | cons c t => exact absurd (List.cons.inj h).1 (fun hc => ht (hc ▸ List.mem_cons_self))
  | cons c s ih =>
      cases t with
      | nil => exact absurd (List.cons.inj h).1.symm (fun hc => hs (hc ▸ List.mem_cons_self))
      | cons d t =>
          obtain ⟨rfl, hrest⟩ := List.cons.inj h
          obtain ⟨rfl, hxy⟩ := ih (fun hm => hs (List.mem_cons_of_mem c hm))
            (fun hm => ht (List.mem_cons_of_mem c hm)) hrest
          exact ⟨rfl, hxy⟩

/-- A directory is above a file exactly when its segments begin the file's. -/
theorem prefix_file_iff (hx : ∀ s ∈ xs, sep ∉ s) (hy : ∀ s ∈ ys, sep ∉ s) {file : List α}
    (hf : sep ∉ file) : dirPath sep xs <+: dirPath sep ys ++ file ↔ xs <+: ys := by
  constructor
  · intro h
    induction xs generalizing ys with
    | nil => exact List.nil_prefix
    | cons s xs ih =>
        obtain ⟨rest, hrest⟩ := h
        rw [cons, List.append_assoc, List.cons_append] at hrest
        cases ys with
        | nil =>
            rw [nil, List.nil_append] at hrest
            exact absurd (hrest ▸ List.mem_append_right s List.mem_cons_self) hf
        | cons t ys =>
            rw [cons, List.append_assoc, List.cons_append] at hrest
            obtain ⟨rfl, htail⟩ := append_sep_inj (hx s List.mem_cons_self)
              (hy t List.mem_cons_self) hrest
            have hxs := ih (fun s hs => hx s (List.mem_cons_of_mem _ hs))
              (fun s hs => hy s (List.mem_cons_of_mem _ hs)) ⟨rest, htail⟩
            exact List.prefix_cons_inj s |>.mpr hxs
  · rintro ⟨zs, rfl⟩
    exact ⟨dirPath sep zs ++ file, by rw [append, List.append_assoc]⟩

theorem prefix_iff (hx : ∀ s ∈ xs, sep ∉ s) (hy : ∀ s ∈ ys, sep ∉ s) :
    dirPath sep xs <+: dirPath sep ys ↔ xs <+: ys := by
  have h := prefix_file_iff hx hy (List.not_mem_nil (a := sep))
  rwa [List.append_nil] at h

end DirPath
