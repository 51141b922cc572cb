import Lights3.Lib.Runs
import Mathlib.Data.List.Basic

/-!
# Interleaved tasks

Any number of tasks run over one shared state. A request starts a task, an event lets one task make
its next move, and the environment may change the shared state in between. An invariant of such a
system consists of a fact about the shared state and a fact about each task; a move has to keep the
facts of the other tasks.
-/
namespace Interleaving

structure Config (σ τ : Type*) where
  shared : σ
  tasks : List τ := []

inductive Event (ρ ι ε : Type*) where
  | spawn (r : ρ)
  | advance (i : Nat) (x : ι)
  | env (a : ε)

/-- How tasks start and move. A move gets what it finds out from outside as an input. -/
structure Machine (σ τ ρ ι ε : Type*) where
  start : ρ → τ
  move : σ → ι → τ → σ × τ
  env : σ → ε → σ

namespace Machine

variable {σ τ ρ ι ε : Type*} (M : Machine σ τ ρ ι ε)

def step (s : Config σ τ) : Event ρ ι ε → Config σ τ
  | .spawn r => ⟨s.shared, s.tasks ++ [M.start r]⟩
  | .advance i x =>
      match s.tasks[i]? with
      | none => s
      | some t => ⟨(M.move s.shared x t).1, s.tasks.set i (M.move s.shared x t).2⟩
  | .env a => ⟨M.env s.shared a, s.tasks⟩

def run (s : Config σ τ) (es : List (Event ρ ι ε)) : Config σ τ := es.foldl M.step s

variable {M} {s : Config σ τ} {t : τ} {i : Nat} {x : ι}

theorem step_advance (h : s.tasks[i]? = some t) :
    M.step s (.advance i x) = ⟨(M.move s.shared x t).1, s.tasks.set i (M.move s.shared x t).2⟩ := by
  simp only [step, h]

theorem step_advance_none (h : s.tasks[i]? = none) : M.step s (.advance i x) = s := by
  simp only [step, h]

/-- What can follow on a configuration. -/
theorem step_cases {R : Config σ τ → Prop} (e : Event ρ ι ε) (same : R s)
    (spawn : ∀ r, e = .spawn r → R ⟨s.shared, s.tasks ++ [M.start r]⟩)
    (move : ∀ i x t, e = .advance i x → s.tasks[i]? = some t →
      R ⟨(M.move s.shared x t).1, s.tasks.set i (M.move s.shared x t).2⟩)
    (env : ∀ a, e = .env a → R ⟨M.env s.shared a, s.tasks⟩) : R (M.step s e) := by
  cases e with
  | spawn r => exact spawn r rfl
  | env a => exact env a rfl
  | advance i x =>
      cases ht : s.tasks[i]? with
      | none =>
          rw [step_advance_none ht]
          exact same
      | some t =>
          rw [step_advance ht]
          exact move i x t rfl ht

/-- A task that has nothing more to do stays. -/
theorem mem_run_of_final (hfinal : ∀ σ x, (M.move σ x t).2 = t) (h : t ∈ s.tasks)
    (es : List (Event ρ ι ε)) : t ∈ (M.run s es).tasks := by
  induction es generalizing s with
  | nil => exact h
  | cons e es ih =>
      refine ih (step_cases (R := fun s => t ∈ s.tasks) e h (fun r _ => List.mem_append_left _ h)
        (fun i x u _ hu => ?_) (fun a _ => h))
      obtain ⟨j, hj⟩ := List.mem_iff_getElem?.mp h
      refine List.mem_iff_getElem?.mpr ⟨j, ?_⟩
      by_cases hij : i = j
      · subst hij
        obtain ⟨hlt, -⟩ := List.getElem?_eq_some_iff.mp hu
        rw [hj, Option.some.injEq] at hu
        rw [List.getElem?_set_self hlt, ← hu, hfinal]
      · rw [List.getElem?_set_ne hij, hj]

end Machine

/-- A condition on the moves of tasks, as a condition on events. -/
def OnMoves {σ τ ρ ι ε : Type*} (C : Config σ τ → τ → Prop) (s : Config σ τ) : Event ρ ι ε → Prop
  | .advance i _ => ∀ t ∈ s.tasks[i]?, C s t
  | _ => True

instance {σ τ ρ ι ε : Type*} (C : Config σ τ → τ → Prop) [∀ s t, Decidable (C s t)] (s : Config σ τ)
    (e : Event ρ ι ε) : Decidable (OnMoves C s e) :=
  match e with
  | .advance i _ => inferInstanceAs (Decidable (∀ t ∈ s.tasks[i]?, C s t))
  | .spawn _ | .env _ => inferInstanceAs (Decidable True)

section

variable {σ τ ρ ι ε : Type*} {M : Machine σ τ ρ ι ε} {s : Config σ τ} {t u : τ} {i j : Nat} {x : ι}

/-- The tasks after a move: the one that moved and the others. -/
theorem getElem?_set_cases {t' : τ} (h : (s.tasks.set i t')[j]? = some u) :
    (i = j ∧ u = t') ∨ (i ≠ j ∧ s.tasks[j]? = some u) := by
  rw [List.getElem?_set] at h
  split at h
  next hij =>
    split at h
    · exact .inl ⟨hij, (Option.some.inj h).symm⟩
    · cases h
  next hij => exact .inr ⟨hij, h⟩

/-! ## Facts about tasks -/

/-- A fact about the shared state and one about each task. -/
structure Holds (G : σ → Prop) (P : σ → τ → Prop) (s : Config σ τ) : Prop where
  shared : G s.shared
  task : ∀ t ∈ s.tasks, P s.shared t

theorem Holds.step {G : σ → Prop} {P : σ → τ → Prop} (h : Holds G P s) (e : Event ρ ι ε)
    (spawn : ∀ r, e = .spawn r → P s.shared (M.start r))
    (move : ∀ i x t, e = .advance i x → s.tasks[i]? = some t →
      G (M.move s.shared x t).1 ∧ P (M.move s.shared x t).1 (M.move s.shared x t).2 ∧
        ∀ j u, i ≠ j → s.tasks[j]? = some u → P s.shared u → P (M.move s.shared x t).1 u)
    (env : ∀ a, e = .env a → G (M.env s.shared a) ∧ ∀ u ∈ s.tasks, P s.shared u →
      P (M.env s.shared a) u) :
    Holds G P (M.step s e) := by
  refine Machine.step_cases e h (fun r hr => ⟨h.shared, fun t ht => ?_⟩) (fun i x t he ht => ?_)
    (fun a ha => ⟨(env a ha).1, fun t ht => (env a ha).2 t ht (h.task t ht)⟩)
  · rcases List.mem_append.mp ht with hold | hnew
    · exact h.task t hold
    · exact List.mem_singleton.mp hnew ▸ spawn r hr
  · obtain ⟨hG, hP, hothers⟩ := move i x t he ht
    refine ⟨hG, fun u hu => ?_⟩
    obtain ⟨j, hj⟩ := List.mem_iff_getElem?.mp hu
    rcases getElem?_set_cases hj with ⟨-, rfl⟩ | ⟨hij, hj⟩
    · exact hP
    · exact hothers j u hij hj (h.task u (List.mem_of_getElem? hj))

/-! ## Locks -/

/-- No two tasks hold the same lock, and the locks that are held are taken. -/
structure Exclusive {κ : Type*} (taken : σ → κ → Bool) (holds : τ → Option κ)
    (s : Config σ τ) : Prop where
  taken_of_holds : ∀ (i : Nat) t l, s.tasks[i]? = some t → holds t = some l → taken s.shared l
  unique : ∀ (i j : Nat) t u l, s.tasks[i]? = some t → s.tasks[j]? = some u →
    holds t = some l → holds u = some l → i = j

/-- A move leaves the locks alone, takes one that is free, or gives back its own. -/
theorem Exclusive.step {κ : Type*} [DecidableEq κ] {taken : σ → κ → Bool} {holds : τ → Option κ}
    (h : Exclusive taken holds s) (e : Event ρ ι ε) (spawn : ∀ r, holds (M.start r) = none)
    (move : ∀ x t,
      (taken (M.move s.shared x t).1 = taken s.shared ∧ holds (M.move s.shared x t).2 = holds t) ∨
      (∃ l, taken s.shared l = false ∧ taken (M.move s.shared x t).1 =
        Function.update (taken s.shared) l true ∧ holds (M.move s.shared x t).2 = some l) ∨
      ∃ l, holds t = some l ∧ taken (M.move s.shared x t).1 =
        Function.update (taken s.shared) l false ∧ holds (M.move s.shared x t).2 = none)
    (env : ∀ a, taken (M.env s.shared a) = taken s.shared) : Exclusive taken holds
      (M.step s e) := by
  refine Machine.step_cases e h (fun r _ => ?_) (fun i x t _ ht => ?_) (fun a _ => ?_)
  · have hold : ∀ (j : Nat) u l, (s.tasks ++ [M.start r])[j]? = some u → holds u = some l →
        s.tasks[j]? = some u := by
      intro j u l hj hl
      rw [List.getElem?_append] at hj
      split at hj
      · exact hj
      · rw [List.getElem?_singleton] at hj
        split at hj
        · rw [← Option.some.inj hj, spawn r] at hl
          cases hl
        · cases hj
    exact ⟨fun j u l hj hl => h.taken_of_holds j u l (hold j u l hj hl) hl,
      fun j j' u u' l hj hj' hl hl' =>
      h.unique j j' u u' l (hold j u l hj hl) (hold j' u' l hj' hl') hl hl'⟩
  · have hacquire : ∀ l, holds (M.move s.shared x t).2 = some l →
        taken (M.move s.shared x t).1 l ∧ (holds t = some l ∨ taken s.shared l = false) := by
      intro l hl
      rcases move x t with ⟨htaken, hheld⟩ | ⟨l', hfree, htaken, hheld⟩ | ⟨l', -, -, hheld⟩
      · rw [hheld] at hl
        exact ⟨htaken ▸ h.taken_of_holds i t l ht hl, .inl hl⟩
      · obtain rfl : l' = l := Option.some.inj (hheld.symm.trans hl)
        exact ⟨by simp [htaken], .inr hfree⟩
      · rw [hheld] at hl
        cases hl
    have hrelease : ∀ l, taken s.shared l → taken (M.move s.shared x t).1 l = false →
        holds t = some l := by
      intro l hl hl'
      rcases move x t with ⟨htaken, -⟩ | ⟨l', -, htaken, -⟩ | ⟨l', hheld, htaken, -⟩
      · simp [htaken, hl] at hl'
      · simp [htaken, Function.update_apply, hl] at hl'
      · by_cases hll : l = l'
        · exact hll ▸ hheld
        · simp [htaken, hll, hl] at hl'
    -- No other task holds a lock that the move ends up with.
    have hown : ∀ (j : Nat) u l, i ≠ j → s.tasks[j]? = some u → holds u = some l →
        holds (M.move s.shared x t).2 ≠ some l := by
      intro j u l hij hj hl hl'
      rcases (hacquire l hl').2 with hheld | hfree
      · exact hij (h.unique i j t u l ht hj hheld hl)
      · rw [h.taken_of_holds j u l hj hl] at hfree
        cases hfree
    constructor
    · intro j u l hj hl
      rcases getElem?_set_cases hj with ⟨-, rfl⟩ | ⟨hij, hj⟩
      · exact (hacquire l hl).1
      · by_contra hfree
        have hheld := hrelease l (h.taken_of_holds j u l hj hl) (by simpa using hfree)
        exact hij (h.unique i j t u l ht hj hheld hl)
    · intro j j' u u' l hj hj' hl hl'
      rcases getElem?_set_cases hj with ⟨rfl, rfl⟩ | ⟨hij, hj⟩ <;>
        rcases getElem?_set_cases hj' with ⟨rfl, rfl⟩ | ⟨hij', hj'⟩
      · rfl
      · exact absurd hl (hown j' u' l hij' hj' hl')
      · exact absurd hl' (hown j u l hij hj hl)
      · exact h.unique j j' u u' l hj hj' hl hl'
  · exact ⟨by simpa only [env a] using h.taken_of_holds, h.unique⟩

end

end Interleaving
