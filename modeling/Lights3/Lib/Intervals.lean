import Mathlib.Tactic

/-!
# Disjoint intervals of numbers

Half-open intervals that have no number in common and lie below a bound. A holder of an
interval may hand out its front, give the interval up, or get a new one above the bound.
-/
namespace Intervals

/-- The intervals `[a.1, a.2)` and `[b.1, b.2)` have no number in common. -/
def Apart (a b : Nat × Nat) : Prop := min a.2 b.2 ≤ max a.1 b.1

instance (a b : Nat × Nat) : Decidable (Apart a b) := inferInstanceAs (Decidable (_ ≤ _))

theorem Apart.symm {a b : Nat × Nat} (h : Apart a b) : Apart b a := by
  unfold Apart at h ⊢
  omega

structure Packed (bound : Nat) (spans : List (Nat × Nat)) : Prop where
  apart : spans.Pairwise Apart
  below : ∀ s ∈ spans, s.2 ≤ bound

namespace Packed

variable {bound lo hi : Nat} {spans spans' : List (Nat × Nat)}

theorem nil (bound : Nat) : Packed bound [] :=
  ⟨List.Pairwise.nil, nofun⟩

theorem perm (h : Packed bound spans) (hp : spans.Perm spans') : Packed bound spans' :=
  ⟨(hp.pairwise_iff fun h => h.symm).mp h.apart, fun s hs => h.below s (hp.mem_iff.mpr hs)⟩

theorem sublist (h : Packed bound spans) (hs : spans'.Sublist spans) : Packed bound spans' :=
  ⟨h.apart.sublist hs, fun s hmem => h.below s (hs.subset hmem)⟩

theorem mono (h : Packed bound spans) {bound' : Nat} (hle : bound ≤ bound') : Packed bound' spans :=
  ⟨h.apart, fun s hs => (h.below s hs).trans hle⟩

/-- The front of an interval goes to someone else. -/
theorem split (h : Packed bound ((lo, hi) :: spans)) {mid : Nat} (hlo : lo ≤ mid)
    (hhi : mid ≤ hi) : Packed bound ((lo, mid) :: (mid, hi) :: spans) := by
  obtain ⟨hapart, htail⟩ := List.pairwise_cons.mp h.apart
  obtain ⟨hbelow, hrest⟩ := List.forall_mem_cons.mp h.below
  have hpart (s : Nat × Nat) (hs : s ∈ spans) : Apart (lo, mid) s ∧ Apart (mid, hi) s := by
    have := hapart s hs
    unfold Apart at this ⊢
    dsimp only at this ⊢
    omega
  refine ⟨List.pairwise_cons.mpr ⟨?_, List.pairwise_cons.mpr
    ⟨fun s hs => (hpart s hs).2, htail⟩⟩, ?_⟩
  · refine List.forall_mem_cons.mpr ⟨?_, fun s hs => (hpart s hs).1⟩
    unfold Apart
    dsimp only
    omega
  · exact List.forall_mem_cons.mpr ⟨hhi.trans hbelow, List.forall_mem_cons.mpr ⟨hbelow, hrest⟩⟩

/-- A new interval above all others. -/
theorem grow (h : Packed bound spans) (hhi : bound ≤ hi) : Packed hi ((bound, hi) :: spans) := by
  refine ⟨List.pairwise_cons.mpr ⟨fun s hs => ?_, h.apart⟩,
    List.forall_mem_cons.mpr ⟨le_rfl, fun s hs => (h.below s hs).trans hhi⟩⟩
  have := h.below s hs
  unfold Apart
  dsimp only
  omega

theorem cons_empty (h : Packed bound spans) : Packed bound ((0, 0) :: spans) := by
  refine ⟨List.pairwise_cons.mpr ⟨fun s _ => ?_, h.apart⟩,
    List.forall_mem_cons.mpr ⟨Nat.zero_le _, h.below⟩⟩
  unfold Apart
  dsimp only
  omega

end Packed

end Intervals
