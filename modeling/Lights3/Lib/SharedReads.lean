import Lights3.Lib.Runs

/-!
# Reading a shared value

A program reads a value that others overwrite between its reads. Each read is one step and sees the
value of that moment. A run is steady if every read sees the value of the first one; then the
program ends as if it were alone.
-/

inductive Reads (σ α : Type) where
  | done (a : α)
  | read (k : σ → Reads σ α)

namespace Reads

variable {σ α : Type}

/-- What the program gives if nobody writes. -/
def alone (s : σ) : Reads σ α → α
  | done a => a
  | read k => (k s).alone s

def result? : Reads σ α → Option α
  | done a => some a
  | read _ => none

/-- The shared value and all that it has been, the rest of the program, and what its first read saw.
-/
structure Session (σ α : Type) where
  shared : σ
  rest : Reads σ α
  first : Option σ := none
  history : List σ := [shared]

inductive Event (σ : Type) where
  | write (s : σ)
  | step

namespace Session

def next (c : Session σ α) : Event σ → Session σ α
  | .write s => { c with shared := s, history := s :: c.history }
  | .step =>
      match c.rest with
      | done _ => c
      | read k => { c with rest := k c.shared, first := c.first.orElse fun _ => some c.shared }

/-- A read sees the value that the first one saw. -/
def Steady (c : Session σ α) : Event σ → Prop
  | .write _ => True
  | .step => ∀ v ∈ c.first, c.shared = v

/-- After the first read the rest of the program gives what the whole gives for the value that was
read. -/
structure Follows (p : Reads σ α) (c : Session σ α) : Prop where
  shared : c.shared ∈ c.history
  first : ∀ v ∈ c.first, v ∈ c.history ∧ c.rest.alone v = p.alone v
  unread : c.first = none → c.rest = p

theorem Follows.next {p : Reads σ α} {c : Session σ α} (h : Follows p c) {e : Event σ}
    (he : c.Steady e) :
    Follows p (c.next e) := by
  obtain ⟨shared, rest, first, history⟩ := c
  cases e with
  | write s =>
      exact ⟨List.mem_cons_self, fun v hv =>
        ⟨List.mem_cons_of_mem _ (h.first v hv).1, (h.first v hv).2⟩, h.unread⟩
  | step =>
      cases rest with
      | done a => exact h
      | read k =>
          cases first with
          | none =>
              have hp : read k = p := h.unread rfl
              subst hp
              refine ⟨h.shared, fun v hv => ?_, nofun⟩
              obtain rfl : shared = v := Option.some.inj hv
              exact ⟨h.shared, rfl⟩
          | some w =>
              refine ⟨h.shared, fun v hv => ?_, nofun⟩
              obtain rfl : shared = v := he v hv
              exact h.first shared hv

/-- In a steady run the program gives what it gives alone, for one of the values there have been. -/
theorem result_of_steady {p : Reads σ α} {s : σ} {es : List (Event σ)} {a : α}
    (h : Along Session.next Steady { shared := s, rest := p } es)
    (hdone : (es.foldl Session.next { shared := s, rest := p }).rest.result? = some a) :
    ∃ v ∈ (es.foldl Session.next { shared := s, rest := p }).history, p.alone v = a := by
  have hfollows : Follows p (es.foldl Session.next { shared := s, rest := p }) :=
    h.invariant (I := Follows p) ⟨List.mem_cons_self, by simp, fun _ => rfl⟩ fun _ _ he hc =>
      hc.next he
  generalize es.foldl Session.next { shared := s, rest := p } = c at hdone hfollows ⊢
  obtain ⟨shared, rest, first, history⟩ := c
  cases rest with
  | read k => cases hdone
  | done b =>
      obtain rfl : b = a := Option.some.inj hdone
      cases first with
      | none =>
          have hp : done b = p := hfollows.unread rfl
          subst hp
          exact ⟨shared, hfollows.shared, rfl⟩
      | some v => exact ⟨v, (hfollows.first v rfl).1, (hfollows.first v rfl).2.symm⟩

end Session
end Reads
