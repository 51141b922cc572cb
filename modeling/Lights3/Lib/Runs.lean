import Mathlib.Order.Basic

/-!
# Conditions along a run

A run folds a step function over a list of events. A condition on states holds throughout
the run if it holds of every state on the way, the first and the last included. A condition
on steps holds along the run if it holds of every event in the state where it happens.
-/

section Runs

variable {σ ε : Type*} {step : σ → ε → σ} {P I : σ → Prop} {s : σ}

def Throughout (step : σ → ε → σ) (P : σ → Prop) : σ → List ε → Prop
  | s, [] => P s
  | s, e :: es => P s ∧ Throughout step P (step s e) es

namespace Throughout

instance decidable (step : σ → ε → σ) (P : σ → Prop) [DecidablePred P] (s : σ) (es : List ε) :
    Decidable (Throughout step P s es) :=
  match es with
  | [] => inferInstanceAs (Decidable (P s))
  | e :: es =>
      have := decidable step P (step s e) es
      inferInstanceAs (Decidable (P s ∧ Throughout step P (step s e) es))

theorem last {es : List ε} (h : Throughout step P s es) : P (es.foldl step s) := by
  induction es generalizing s with
  | nil => exact h
  | cons e es ih => exact ih h.2

end Throughout

def Along (step : σ → ε → σ) (R : σ → ε → Prop) : σ → List ε → Prop
  | _, [] => True
  | s, e :: es => R s e ∧ Along step R (step s e) es

namespace Along

variable {R : σ → ε → Prop}

instance decidable (step : σ → ε → σ) (R : σ → ε → Prop) [∀ s e, Decidable (R s e)] (s : σ)
    (es : List ε) : Decidable (Along step R s es) :=
  match es with
  | [] => inferInstanceAs (Decidable True)
  | e :: es =>
      have := decidable step R (step s e) es
      inferInstanceAs (Decidable (R s e ∧ Along step R (step s e) es))

variable {es : List ε}

theorem of_mem (h : ∀ e ∈ es, ∀ s, R s e) (s : σ) : Along step R s es := by
  induction es generalizing s with
  | nil => trivial
  | cons e es ih =>
      obtain ⟨he, hes⟩ := List.forall_mem_cons.mp h
      exact ⟨he s, ih hes (step s e)⟩

theorem of_forall (h : ∀ s e, R s e) (s : σ) (es : List ε) : Along step R s es :=
  of_mem (fun e _ s => h s e) s

theorem and {Q : σ → ε → Prop} (h : Along step R s es) (h' : Along step Q s es) :
    Along step (fun s e => R s e ∧ Q s e) s es := by
  induction es generalizing s with
  | nil => trivial
  | cons e es ih => exact ⟨⟨h.1, h'.1⟩, ih h.2 h'.2⟩

/-- An invariant that the steps keep that meet the condition. -/
theorem invariant (h : Along step R s es) (hs : I s) (hstep : ∀ s e, R s e → I s → I (step s e)) :
    I (es.foldl step s) := by
  induction es generalizing s with
  | nil => exact hs
  | cons e es ih => exact ih h.2 (hstep s e h.1 hs)

/-- A condition that the invariant and the steps' condition imply holds along the run too. -/
theorem imp_of_invariant {Q : σ → ε → Prop} (h : Along step R s es) (hs : I s)
    (hstep : ∀ s e, R s e → I s → I (step s e)) (himp : ∀ s e, R s e → I s → Q s e) :
    Along step Q s es := by
  induction es generalizing s with
  | nil => trivial
  | cons e es ih => exact ⟨himp s e h.1 hs, ih h.2 (hstep s e h.1 hs)⟩

theorem append {fs : List ε} :
    Along step R s (es ++ fs) ↔ Along step R s es ∧ Along step R (es.foldl step s) fs := by
  induction es generalizing s with
  | nil => simp [Along]
  | cons e es ih => simp only [List.cons_append, Along, List.foldl_cons, ih, and_assoc]

theorem last {e : ε} (h : Along step R s (es ++ [e])) : R (es.foldl step s) e := by
  induction es generalizing s with
  | nil => exact h.1
  | cons e es ih => exact ih h.2

end Along

/-- A condition of states that each step keeps exactly if it meets a condition of steps. -/
theorem throughout_iff_along {R : σ → ε → Prop} {es : List ε}
    (hstep : ∀ s e, I s → P s → (P (step s e) ↔ R s e)) (hkeep : ∀ s e, I s → I (step s e))
    (hs : I s) (hP : P s) : Throughout step P s es ↔ Along step R s es := by
  induction es generalizing s with
  | nil => exact ⟨fun _ => trivial, fun _ => hP⟩
  | cons e es ih =>
      constructor
      · rintro ⟨-, h⟩
        have hnext : P (step s e) := by
          cases es with
          | nil => exact h
          | cons => exact h.1
        exact ⟨(hstep s e hs hP).mp hnext, (ih (hkeep s e hs) hnext).mp h⟩
      · rintro ⟨hR, h⟩
        have hnext := (hstep s e hs hP).mpr hR
        exact ⟨hP, (ih (hkeep s e hs) hnext).mpr h⟩

end Runs
