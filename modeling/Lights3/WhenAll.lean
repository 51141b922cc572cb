import Mathlib.Tactic

/-!
# Joining tasks

`when_all` and `StartedState` of `core/task.h`. The coroutine that awaits and the runners of its
tasks take their steps on any threads; a step is one access to the latch, the end of a task, or a
resumption. A task that finishes inside `start` is one whose runner takes its steps before the next
one of the coroutine. The variant for tasks without a value is the one with values of a type with
one element.
-/
namespace Lights3

/-- Where the coroutine of `when_all` is. -/
inductive WhenAllPhase where
  | starting
  /-- Starting has failed, and the votes of the tasks that were not started are to be cast. -/
  | compensating
  /-- In `await_suspend`, before the continuation is written and before the vote. -/
  | awaiting | voting
  | suspended
  /-- It has cast the last vote and resumes itself. -/
  | last
  | resumed
  | returned
  deriving DecidableEq

/-- Where the runner of a task is; `last` if it has cast the last vote. -/
inductive RunnerPhase where
  | running | finished | last | gone
  deriving DecidableEq

/-- The vote is not cast. -/
def RunnerPhase.owes : RunnerPhase → Bool
  | .running | .finished => true
  | .last | .gone => false

def WhenAllPhase.owes : WhenAllPhase → Bool
  | .starting | .compensating | .awaiting | .voting => true
  | _ => false

/-- How many steps may follow. -/
def RunnerPhase.weight : RunnerPhase → Nat
  | .running => 3 | .finished => 2 | .last => 1 | .gone => 0

def WhenAllPhase.weight : WhenAllPhase → Nat
  | .starting => 7 | .compensating => 6 | .awaiting => 5 | .voting => 4 | .last =>
      3 | .suspended => 2
  | .resumed => 1 | .returned => 0

/-- The tasks, by their number: what starting one throws, and how it ends. -/
structure WhenAllTasks (α ε : Type) where
  count : Nat
  startError : Nat → Option ε := fun _ => none
  outcome : Nat → Except ε α

/-- The frame of `when_all`; `pending` and `continuation` are the latch. -/
structure WhenAllState (α ε : Type) where
  phase : WhenAllPhase := .starting
  spawnErr : Option ε := none
  pending : Int
  continuation : Bool := false
  /-- The runners that were started. -/
  runners : List RunnerPhase := []
  results : Nat → Option α := fun _ => none
  errors : Nat → Option ε := fun _ => none
  /-- How often the coroutine was resumed, and whether the latch was used after that. -/
  resumes : Nat := 0
  touchedLate : Bool := false
  /-- A runner resumed a continuation that was not there. -/
  crashed : Bool := false
  result : Option (Except ε (List α)) := none

inductive WhenAllEvent where
  | main
  | runner (i : Nat)

namespace WhenAllTasks

variable {α ε : Type} (w : WhenAllTasks α ε)

def initial : WhenAllState α ε := { pending := w.count + 1 }

/-- An access to the latch. -/
def touch (s : WhenAllState α ε) : WhenAllState α ε :=
  { s with touchedLate := s.touchedLate || 0 < s.resumes }

/-- The end of `when_all`; nothing comes of a result that is not there. -/
def collect (s : WhenAllState α ε) : Option (Except ε (List α)) :=
  match s.spawnErr with
  | some e => some (.error e)
  | none =>
      match (List.range w.count).findSome? s.errors with
      | some e => some (.error e)
      | none => ((List.range w.count).mapM s.results).map .ok

/-- The next step of the coroutine. -/
def mainStep (s : WhenAllState α ε) : WhenAllState α ε :=
  match s.phase with
  | .starting =>
      if s.runners.length < w.count then
        match w.startError s.runners.length with
        | some e => { s with spawnErr := some e, phase := .compensating }
        | none => { s with runners := s.runners ++ [.running] }
      else { s with phase := .awaiting }
  | .compensating =>
      { touch s with pending := s.pending - (w.count - s.runners.length), phase := .awaiting }
  | .awaiting => { touch s with continuation := true, phase := .voting }
  | .voting =>
      { touch s with pending := s.pending - 1,
                     phase := if s.pending = 1 then .last else .suspended }
  | .last => { s with phase := .resumed, resumes := s.resumes + 1 }
  | .resumed => { s with phase := .returned, result := w.collect s }
  | .suspended | .returned => s

/-- The next step of a runner: its task ends, it votes, and it resumes the coroutine if the vote was
the last. -/
def runnerStep (s : WhenAllState α ε) (i : Nat) : WhenAllState α ε :=
  match s.runners[i]? with
  | some .running =>
      match w.outcome i with
      | .ok a => { s with runners := s.runners.set i .finished,
                          results := Function.update s.results i (some a) }
      | .error e => { s with runners := s.runners.set i .finished,
                             errors := Function.update s.errors i (some e) }
  | some .finished =>
      { touch s with pending := s.pending - 1,
                     runners := s.runners.set i (if s.pending = 1 then .last else .gone) }
  | some .last =>
      if s.continuation then
        { touch s with runners := s.runners.set i .gone, phase := .resumed,
                       resumes := s.resumes + 1 }
      else { touch s with runners := s.runners.set i .gone, crashed := true }
  | some .gone | none => s

def step (s : WhenAllState α ε) : WhenAllEvent → WhenAllState α ε
  | .main => w.mainStep s
  | .runner i => w.runnerStep s i

/-- What the caller should get. -/
def expected : Except ε (List α) :=
  match (List.range w.count).findSome? w.startError with
  | some e => .error e
  | none => (List.range w.count).mapM w.outcome

/-! ## The votes -/

/-- The value and the error of an outcome, as they are stored. -/
def stored : Except ε α → Option α × Option ε
  | .ok a => (some a, none)
  | .error e => (none, some e)

/-- A task that has not come to its end. -/
def unfinished (runners : List RunnerPhase) (i : Nat) : Prop :=
  runners[i]? = none ∨ runners[i]? = some .running

instance (runners : List RunnerPhase) (i : Nat) : Decidable (unfinished runners i) :=
  inferInstanceAs (Decidable (_ ∨ _))

/-- The votes that are out, who has the right to resume, and what is stored. -/
structure Sound (s : WhenAllState α ε) : Prop where
  started : s.runners.length ≤ w.count
  votes : s.pending = (if s.phase.owes then 1 else 0) +
    (if s.phase = .starting ∨ s.phase = .compensating then (w.count - s.runners.length : Int) else
      0) +
    s.runners.countP (·.owes)
  last : s.resumes + (if s.phase = .last then 1 else 0) + s.runners.countP (· = .last) =
    if s.pending = 0 then 1 else 0
  resumes : s.resumes = if s.phase = .resumed ∨ s.phase = .returned then 1 else 0
  continuation : s.phase = .voting ∨ s.phase = .suspended → s.continuation = true
  begun : ∀ k < s.runners.length, w.startError k = none
  starting : s.phase = .starting → s.spawnErr = none
  spawned : s.phase ≠ .starting → (s.runners.length = w.count ∧ s.spawnErr = none) ∨
    (s.runners.length < w.count ∧ ∃ e, s.spawnErr = some e ∧ w.startError s.runners.length = some e)
  written : ∀ i, (s.results i, s.errors i) = if unfinished s.runners i then (none, none) else
    stored (w.outcome i)
  returned : s.phase = .returned → s.result = some w.expected
  clean : s.touchedLate = false ∧ s.crashed = false

variable {w} {s : WhenAllState α ε}

theorem Sound.initial : w.Sound w.initial := by
  have hpos : (w.count : Int) + 1 ≠ 0 := by omega
  constructor <;> simp [WhenAllTasks.initial, unfinished, WhenAllPhase.owes, hpos]
  omega

/-- While a vote is out nobody has been resumed. -/
theorem Sound.resumes_zero (h : w.Sound s) (hpending : s.pending ≠ 0) : s.resumes = 0 := by
  have := h.last
  rw [if_neg hpending] at this
  omega

theorem touch_eq (h : s.resumes = 0) : touch s = s := by
  have hsame : (s.touchedLate || decide (0 < s.resumes)) = s.touchedLate := by simp [h]
  rw [touch, hsame]

variable {results : Nat → Option α} {errors : Nat → Option ε}

/-- The stored results of the tasks, collected. -/
theorem collect_stored {l : List Nat} (h : ∀ i ∈ l, (results i, errors i) = stored (w.outcome i)) :
    (match l.findSome? errors with
      | some e => some (.error e)
      | none => (l.mapM results).map .ok) = some (l.mapM w.outcome) := by
  induction l with
  | nil => rfl
  | cons i l ih =>
      have hi := h i List.mem_cons_self
      have ih := ih fun j hj => h j (List.mem_cons_of_mem _ hj)
      rw [List.findSome?_cons, List.mapM_cons, List.mapM_cons]
      cases hout : w.outcome i with
      | error e =>
          rw [hout, stored, Prod.mk.injEq] at hi
          rw [hi.2]
          rfl
      | ok a =>
          rw [hout, stored, Prod.mk.injEq] at hi
          rw [hi.1, hi.2]
          dsimp only
          cases hfind : l.findSome? errors with
          | some e =>
              rw [hfind] at ih
              rw [← Option.some.inj ih]
              rfl
          | none =>
              rw [hfind] at ih
              cases hmap : l.mapM results with
              | none =>
                  rw [hmap] at ih
                  cases ih
              | some as =>
                  rw [hmap] at ih
                  rw [← Option.some.inj ih]
                  rfl

/-- Once all votes are cast, the end of `when_all` gives what is expected. -/
theorem Sound.collect_eq (h : w.Sound s) (hpending : s.pending = 0) (hphase : s.phase ≠ .starting) :
    w.collect s = some w.expected := by
  have hall : ∀ i < s.runners.length, ¬ unfinished s.runners i := by
    intro i hi hrunning
    have hcount := h.votes
    rw [hpending] at hcount
    have hzero : s.runners.countP (·.owes) = 0 := by
      have := h.started
      split_ifs at hcount <;> omega
    rcases hrunning with hnone | hrunning
    · rw [List.getElem?_eq_none_iff] at hnone
      omega
    · have := List.countP_eq_zero.mp hzero _ (List.mem_of_getElem? hrunning)
      exact this rfl
  unfold collect expected
  rcases h.spawned hphase with ⟨hlen, hnone⟩ | ⟨hlt, e, hsome, hstart⟩
  · have hstart : (List.range w.count).findSome? w.startError = none := by
      rw [List.findSome?_eq_none_iff]
      exact fun k hk => h.begun k (hlen ▸ List.mem_range.mp hk)
    rw [hnone, hstart]
    refine collect_stored fun i hi => ?_
    rw [h.written i, if_neg (hall i (hlen ▸ List.mem_range.mp hi))]
  · have hstart : (List.range w.count).findSome? w.startError = some e := by
      rw [List.findSome?_eq_some_iff]
      refine ⟨List.range s.runners.length, s.runners.length,
        (List.range' (s.runners.length + 1) (w.count - s.runners.length - 1)), ?_,
        hstart, fun k hk =>
          h.begun k (List.mem_range.mp hk)⟩
      have happend : List.range' 0 s.runners.length ++ List.range' (0 + s.runners.length) _ = _ :=
        List.range'_append_1 (n := w.count - s.runners.length - 1 + 1)
      rw [Nat.zero_add] at happend
      rw [List.range_eq_range', List.range_eq_range', ← List.range'_succ, happend]
      congr 1
      omega
    rw [hsome, hstart]

/-! ## The steps of the coroutine -/

theorem Sound.mainStep (h : w.Sound s) : w.Sound (w.mainStep s) := by
  have hvotes := h.votes
  have hlast := h.last
  have hresumes := h.resumes
  unfold WhenAllTasks.mainStep
  cases hphase : s.phase with
  | starting =>
      have hspawn := h.starting hphase
      simp only [hphase, WhenAllPhase.owes, if_true, true_or, reduceCtorEq, or_self, if_false]
        at hvotes hlast hresumes
      dsimp only
      split
      next hlt =>
        split
        next e he =>
          exact { h with
            votes := by simpa [WhenAllPhase.owes] using hvotes
            last := by simpa using hlast
            resumes := by simpa using hresumes
            continuation := by simp
            starting := by simp
            spawned := fun _ => .inr ⟨hlt, e, rfl, he⟩
            returned := by simp }
        next he =>
          refine { h with started := by simpa using hlt, votes := ?_, last := ?_,
                          resumes := ?_, continuation := ?_,
                          begun := ?_, starting := fun _ => hspawn, spawned := ?_, written :=
                            ?_, returned := ?_ }
          · have hone : [RunnerPhase.running].countP (·.owes) = 1 := rfl
            simp only [WhenAllPhase.owes, if_true, true_or, List.length_append,
              List.length_singleton, List.countP_append, hone]
            push_cast
            omega
          · simpa [List.countP_append] using hlast
          · simpa using hresumes
          · simp
          · intro k hk
            rw [List.length_append, List.length_singleton] at hk
            rcases Nat.lt_succ_iff_lt_or_eq.mp hk with hk | rfl
            · exact h.begun k hk
            · exact he
          · simp
          · intro i
            have hsame : unfinished (s.runners ++ [.running]) i ↔ unfinished s.runners i := by
              simp only [unfinished, List.getElem?_append]
              split
              · rfl
              next hi =>
                rw [List.getElem?_eq_none_iff.mpr (by omega : s.runners.length ≤ i),
                  List.getElem?_singleton]
                split <;> simp
            rw [h.written i]
            simp only [hsame]
          · simp
      next hge =>
        have hlen : s.runners.length = w.count := le_antisymm h.started (by omega)
        exact { h with
          votes := by simp [WhenAllPhase.owes, hvotes, hlen]
          last := by simpa using hlast
          resumes := by simpa using hresumes
          continuation := by simp
          starting := by simp
          spawned := fun _ => .inl ⟨hlen, hspawn⟩
          returned := by simp }
  | compensating =>
      simp only [hphase, WhenAllPhase.owes, if_true, or_true, reduceCtorEq, or_self, if_false]
        at hvotes hlast hresumes
      have hspawned := h.spawned (by simp [hphase])
      have hstarted := h.started
      rw [touch_eq (h.resumes_zero (by omega))]
      exact { h with
        votes := by
          simp [WhenAllPhase.owes]
          omega
        last := by
          simp only [reduceCtorEq, if_false]
          rw [if_neg (by omega)]
          rw [if_neg (by omega)] at hlast
          exact hlast
        resumes := by simpa using hresumes
        continuation := by simp
        starting := by simp
        spawned := fun _ => hspawned
        returned := by simp }
  | awaiting =>
      simp only [hphase, WhenAllPhase.owes, if_true, reduceCtorEq, or_self, if_false]
        at hvotes hlast hresumes
      have hspawned := h.spawned (by simp [hphase])
      rw [touch_eq (h.resumes_zero (by omega))]
      exact { h with
        votes := by simpa [WhenAllPhase.owes] using hvotes
        last := by simpa using hlast
        resumes := by simpa using hresumes
        continuation := by simp
        starting := by simp
        spawned := fun _ => hspawned
        returned := by simp }
  | voting =>
      simp only [hphase, WhenAllPhase.owes, if_true, reduceCtorEq, or_self, if_false]
        at hvotes hlast hresumes
      have hspawned := h.spawned (by simp [hphase])
      rw [touch_eq (h.resumes_zero (by omega))]
      rw [if_neg (by omega)] at hlast
      have hcontinuation := h.continuation (.inl hphase)
      by_cases hone : s.pending = 1
      · rw [if_pos hone]
        exact { h with
          votes := by
            simp [WhenAllPhase.owes]
            omega
          last := by
            simp [hone]
            omega
          resumes := by simpa using hresumes
          continuation := by simp
          starting := by simp
          spawned := fun _ => hspawned
          returned := by simp }
      · rw [if_neg hone]
        exact { h with
          votes := by
            simp [WhenAllPhase.owes]
            omega
          last := by
            simp only [reduceCtorEq, if_false]
            rw [if_neg (by omega)]
            exact hlast
          resumes := by simpa using hresumes
          continuation := fun _ => hcontinuation
          starting := by simp
          spawned := fun _ => hspawned
          returned := by simp }
  | last =>
      simp only [hphase, WhenAllPhase.owes, if_true, reduceCtorEq, or_self, if_false]
        at hvotes hlast hresumes
      have hspawned := h.spawned (by simp [hphase])
      exact { h with
        votes := by simpa [WhenAllPhase.owes] using hvotes
        last := by
          simp only [reduceCtorEq, if_false]
          omega
        resumes := by simp [hresumes]
        continuation := by simp
        starting := by simp
        spawned := fun _ => hspawned
        returned := by simp }
  | resumed =>
      simp only [hphase, WhenAllPhase.owes, true_or, if_true, reduceCtorEq, or_self, if_false]
        at hvotes hlast hresumes
      have hspawned := h.spawned (by simp [hphase])
      have hzero : s.pending = 0 := by
        by_contra hne
        rw [if_neg hne] at hlast
        omega
      exact { h with
        votes := by simpa [WhenAllPhase.owes] using hvotes
        last := by simpa using hlast
        resumes := by simpa using hresumes
        continuation := by simp
        starting := by simp
        spawned := fun _ => hspawned
        returned := fun _ => h.collect_eq hzero (by simp [hphase]) }
  | suspended => exact h
  | returned => exact h

/-! ## The steps of the runners -/

variable {runners : List RunnerPhase} {i : Nat}

theorem countP_set {r r' : RunnerPhase} (hr : runners[i]? = some r) (p : RunnerPhase → Bool) :
    (runners.set i r').countP p + (if p r then 1 else 0) =
      runners.countP p + (if p r' then 1 else 0) := by
  obtain ⟨hi, hget⟩ := List.getElem?_eq_some_iff.mp hr
  have hpos : p r → 0 < runners.countP p :=
    fun hp => List.countP_pos_iff.mpr ⟨r, List.mem_of_getElem? hr, hp⟩
  rw [List.countP_set hi, hget]
  cases hp : p r with
  | false => simp
  | true =>
      have := hpos hp
      simp only [if_true]
      omega

/-- A runner that has come to its end stays so. -/
theorem unfinished_set {r r' : RunnerPhase} (hr : runners[i]? = some r) (hold : r ≠ .running)
    (hnew : r' ≠ .running) (j : Nat) : unfinished (runners.set i r') j ↔ unfinished runners j := by
  obtain ⟨hi, -⟩ := List.getElem?_eq_some_iff.mp hr
  unfold unfinished
  by_cases hij : i = j
  · subst hij
    rw [List.getElem?_set_self hi, hr]
    simp [hold, hnew]
  · rw [List.getElem?_set_ne hij]

/-- A task has come to its end. -/
theorem written_finish (h : w.Sound s) (hr : s.runners[i]? = some .running)
    (hi : (results i, errors i) = stored (w.outcome i))
    (hother : ∀ j, j ≠ i → results j = s.results j ∧ errors j = s.errors j) (j : Nat) :
    (results j, errors j) =
      if unfinished (s.runners.set i .finished) j then (none, none) else stored (w.outcome j) := by
  obtain ⟨hlt, -⟩ := List.getElem?_eq_some_iff.mp hr
  by_cases hij : j = i
  · subst hij
    rw [hi, if_neg]
    simp [unfinished, hlt]
  · have hsame : unfinished (s.runners.set i .finished) j ↔ unfinished s.runners j := by
      rw [unfinished, unfinished, List.getElem?_set_ne (Ne.symm hij)]
    rw [(hother j hij).1, (hother j hij).2, h.written j]
    simp only [hsame]

/-- Who has cast the last vote finds the coroutine suspended: nobody has been resumed. -/
theorem Sound.suspended_of_last (h : w.Sound s) (hr : s.runners[i]? = some .last) :
    s.phase = .suspended := by
  have hvotes := h.votes
  have hlast := h.last
  have hresumes := h.resumes
  have hstarted := h.started
  have hpos : 0 < s.runners.countP (· = .last) :=
    List.countP_pos_iff.mpr ⟨_, List.mem_of_getElem? hr, rfl⟩
  have hzero : s.pending = 0 := by
    by_contra hne
    rw [if_neg hne] at hlast
    omega
  rw [if_pos hzero] at hlast
  cases hphase : s.phase <;>
    simp only [hphase, WhenAllPhase.owes, if_true, reduceCtorEq, or_self, or_true, true_or,
    if_false] at hvotes hlast hresumes ⊢ <;> omega

theorem Sound.runnerStep (h : w.Sound s) (i : Nat) : w.Sound (w.runnerStep s i) := by
  have hvotes := h.votes
  have hlast := h.last
  unfold WhenAllTasks.runnerStep
  cases hr : s.runners[i]? with
  | none => exact h
  | some r =>
      cases r with
      | gone => exact h
      | running =>
          have howes : (s.runners.set i .finished).countP (·.owes) + 1 =
              s.runners.countP (·.owes) + 1 :=
            countP_set hr (·.owes)
          have hlasts : (s.runners.set i .finished).countP (· = .last) =
              s.runners.countP (· = .last) :=
            countP_set hr (· = .last)
          have hempty : s.results i = none ∧ s.errors i = none := by
            have hi := h.written i
            rwa [if_pos (.inr hr), Prod.mk.injEq] at hi
          dsimp only
          split
          next a hout =>
            refine { h with started := by simpa using h.started,
                            votes := by simp only [List.length_set]; omega,
                            last := by rw [hlasts]; exact hlast, begun := by simpa using h.begun,
                            spawned := by simpa using h.spawned, written :=
                              written_finish h hr ?_ ?_ }
            · simp [hout, stored, hempty.2]
            · exact fun j hij => ⟨Function.update_of_ne hij _ _, rfl⟩
          next e hout =>
            refine { h with started := by simpa using h.started,
                            votes := by simp only [List.length_set]; omega,
                            last := by rw [hlasts]; exact hlast, begun := by simpa using h.begun,
                            spawned := by simpa using h.spawned, written :=
                              written_finish h hr ?_ ?_ }
            · simp [hout, stored, hempty.1]
            · exact fun j hij => ⟨rfl, Function.update_of_ne hij _ _⟩
      | finished =>
          have hpos : 0 < s.runners.countP (·.owes) :=
            List.countP_pos_iff.mpr ⟨_, List.mem_of_getElem? hr, rfl⟩
          have hstarted := h.started
          have hpending : s.pending ≠ 0 := by
            split_ifs at hvotes <;> omega
          rw [if_neg hpending] at hlast
          simp only [touch_eq (h.resumes_zero hpending)]
          by_cases hone : s.pending = 1
          · have howes : (s.runners.set i .last).countP (·.owes) + 1 = s.runners.countP (·.owes) :=
            countP_set hr (·.owes)
            have hlasts : (s.runners.set i .last).countP (· = .last) =
                s.runners.countP (· = .last) + 1 :=
              countP_set hr (· = .last)
            rw [if_pos hone]
            refine { h with started := by simpa using h.started,
                            votes := by simp only [List.length_set]; omega,
                            last := ?_, begun := by simpa using h.begun,
                              spawned := by simpa using h.spawned,
                            written := fun j => ?_ }
            · simp only [hone, sub_self, if_true]
              omega
            · rw [h.written j]
              simp only [unfinished_set hr (by simp) (by simp : RunnerPhase.last ≠ .running)]
          · have howes : (s.runners.set i .gone).countP (·.owes) + 1 = s.runners.countP (·.owes) :=
            countP_set hr (·.owes)
            have hlasts : (s.runners.set i .gone).countP (· = .last) =
                s.runners.countP (· = .last) :=
            countP_set hr (· = .last)
            rw [if_neg hone]
            refine { h with started := by simpa using h.started,
                            votes := by simp only [List.length_set]; omega,
                            last := ?_, begun := by simpa using h.begun,
                              spawned := by simpa using h.spawned,
                            written := fun j => ?_ }
            · have hne : s.pending - 1 ≠ 0 := by omega
              simp only [hne, if_false, hlasts]
              exact hlast
            · rw [h.written j]
              simp only [unfinished_set hr (by simp) (by simp : RunnerPhase.gone ≠ .running)]
      | last =>
          have hpos : 0 < s.runners.countP (· = .last) :=
            List.countP_pos_iff.mpr ⟨_, List.mem_of_getElem? hr, rfl⟩
          have hzero : s.pending = 0 := by
            by_contra hne
            rw [if_neg hne] at hlast
            omega
          have howes : (s.runners.set i .gone).countP (·.owes) = s.runners.countP (·.owes) :=
            countP_set hr (·.owes)
          have hlasts : (s.runners.set i .gone).countP (· = .last) + 1 =
              s.runners.countP (· = .last) :=
            countP_set hr (· = .last)
          rw [if_pos hzero] at hlast
          have hphase := h.suspended_of_last hr
          have hresumes : s.resumes = 0 := by
            rw [h.resumes, hphase]
            rfl
          rw [hphase] at hvotes
          simp only [h.continuation (.inr hphase), if_true, touch_eq hresumes]
          refine { h with started := by simpa using h.started, votes := ?_, last := ?_,
                          resumes := by simp [hresumes],
                          continuation := by simp, begun := by simpa using h.begun,
                            starting := by simp,
                          spawned := fun _ => ?_, written := fun j => ?_, returned := by simp }
          · simp only [howes]
            exact hvotes
          · simp only [hzero, hresumes, if_true, reduceCtorEq, if_false]
            omega
          · simpa using h.spawned (by simp [hphase])
          · have hsame := unfinished_set hr (by simp) (by simp : RunnerPhase.gone ≠ .running) j
            simp only [hsame]
            exact h.written j

theorem Sound.step (h : w.Sound s) (e : WhenAllEvent) : w.Sound (w.step s e) := by
  cases e with
  | main => exact h.mainStep
  | runner i => exact h.runnerStep i

theorem run_sound (w : WhenAllTasks α ε) (es : List WhenAllEvent) :
    w.Sound (es.foldl w.step w.initial) := by
  induction es using List.reverseRecOn with
  | nil => exact .initial
  | append_singleton es e ih =>
      rw [List.foldl_append]
      exact ih.step e

/-! ## Progress -/

/-- As long as the coroutine has not returned, somebody can take a step. -/
theorem Sound.progress (h : w.Sound s) (hquiet : ∀ e, w.step s e = s) : s.phase = .returned := by
  have hmain : w.mainStep s = s := hquiet .main
  have hphase : (w.mainStep s).phase = s.phase := congrArg (·.phase) hmain
  have hlength : (w.mainStep s).runners.length = s.runners.length :=
    congrArg (·.runners.length) hmain
  have hrunner : ∀ r ∈ s.runners, r = .gone := by
    intro r hr
    obtain ⟨i, hi⟩ := List.mem_iff_getElem?.mp hr
    have hlt := (List.getElem?_eq_some_iff.mp hi).1
    have hsame : (w.runnerStep s i).runners[i]? = s.runners[i]? := by
      rw [show w.runnerStep s i = s from hquiet (.runner i)]
    unfold WhenAllTasks.runnerStep at hsame
    cases r with
    | gone => rfl
    | running =>
        rw [hi] at hsame
        dsimp only at hsame
        split at hsame <;> simp [hlt] at hsame
    | finished =>
        rw [hi] at hsame
        split_ifs at hsame <;> simp [hlt] at hsame
    | last =>
        rw [hi] at hsame
        dsimp only at hsame
        split at hsame <;> simp [hlt] at hsame
  have howes : s.runners.countP (·.owes) = 0 := by
    rw [List.countP_eq_zero]
    exact fun r hr => by simp [hrunner r hr, RunnerPhase.owes]
  have hlasts : s.runners.countP (· = .last) = 0 := by
    rw [List.countP_eq_zero]
    exact fun r hr => by simp [hrunner r hr]
  have hvotes := h.votes
  have hlast := h.last
  have hresumes := h.resumes
  unfold WhenAllTasks.mainStep at hphase hlength
  cases hs : s.phase <;> simp only [hs] at hphase hlength
  case returned => rfl
  case starting =>
    split at hphase
    · split at hphase
      · cases hphase
      · simp_all
    · cases hphase
  case suspended =>
    -- All votes are cast, and nobody has the right to resume.
    simp only [hs, howes, hlasts, reduceCtorEq, or_self, if_false] at hvotes hlast hresumes
    rw [if_pos (by simpa [WhenAllPhase.owes] using hvotes)] at hlast
    omega
  case voting => split at hphase <;> cases hphase
  all_goals cases hphase

/-- The steps that are left, at most. -/
def weight (s : WhenAllState α ε) : Nat :=
  s.phase.weight + 4 * (w.count - s.runners.length) + (s.runners.map (·.weight)).sum

theorem weight_set {r : RunnerPhase} (hr : runners[i]? = some r) (r' : RunnerPhase) :
    ((runners.set i r').map (·.weight)).sum + r.weight =
      (runners.map (·.weight)).sum + r'.weight := by
  induction runners generalizing i with
  | nil => cases hr
  | cons x xs ih =>
      cases i with
      | zero =>
          obtain rfl := Option.some.inj hr
          simp only [List.set_cons_zero, List.map_cons, List.sum_cons]
          omega
      | succ i =>
          have := ih hr
          simp only [List.set_cons_succ, List.map_cons, List.sum_cons]
          omega

/-- Every step that changes something is one of finitely many. -/
theorem Sound.weight_step (h : w.Sound s) (e : WhenAllEvent) :
    w.step s e = s ∨ w.weight (w.step s e) < w.weight s := by
  cases e with
  | main =>
      simp only [WhenAllTasks.step]
      unfold WhenAllTasks.mainStep weight touch
      cases hphase : s.phase with
      | starting =>
          right
          dsimp only
          split
          next hlt =>
            split
            · simp [WhenAllPhase.weight]
            · simp [RunnerPhase.weight]
              omega
          · simp [WhenAllPhase.weight]
      | voting =>
          right
          dsimp only
          split <;> simp [WhenAllPhase.weight]
      | suspended | returned => exact .inl rfl
      | compensating | awaiting | last | resumed => exact .inr (by simp [WhenAllPhase.weight])
  | runner i =>
      simp only [WhenAllTasks.step]
      unfold WhenAllTasks.runnerStep
      cases hr : s.runners[i]? with
      | none => exact .inl rfl
      | some r =>
          cases r with
          | gone => exact .inl rfl
          | running =>
              right
              have := weight_set hr .finished
              dsimp only
              split <;> simp only [weight, List.length_set, RunnerPhase.weight] at this ⊢ <;> omega
          | finished =>
              right
              have hlast := weight_set hr .last
              have hgone := weight_set hr .gone
              dsimp only
              split <;> simp only [weight, touch, List.length_set, RunnerPhase.weight]
                at hlast hgone ⊢ <;> omega
          | last =>
              right
              have hphase := h.suspended_of_last hr
              have := weight_set hr .gone
              simp only [h.continuation (.inr hphase), if_true, weight, touch, hphase,
                List.length_set, RunnerPhase.weight, WhenAllPhase.weight] at this ⊢
              omega

end WhenAllTasks

/-! ## A task that is started early -/

/-- The child of `Started`; `last` if it has cast the last vote and holds the continuation. -/
inductive ChildPhase where
  | running | last | gone
  deriving DecidableEq

/-- The coroutine that collects the child, before and inside `await_suspend`. -/
inductive CollectorPhase where
  | working | voting | suspended | last | resumed
  deriving DecidableEq

/-- `StartedState` and the two who vote on it. -/
structure StartedState where
  votes : Int := 2
  continuation : Bool := false
  done : Bool := false
  child : ChildPhase := .running
  collector : CollectorPhase := .working
  resumes : Nat := 0
  deriving DecidableEq

inductive StartedEvent where
  | child | collector

namespace StartedState

/-- `complete`: the section under the lock, and the resumption after it. -/
def complete (st : StartedState) : StartedState :=
  match st.child with
  | .running =>
      { st with
        done := true, votes := st.votes - 1, child :=
          if st.votes = 1 ∧ st.continuation then .last else .gone }
  | .last => { st with child := .gone, collector := .resumed, resumes := st.resumes + 1 }
  | .gone => st

/-- `StartedAwaiter::await_suspend`. -/
def awaitSuspend (st : StartedState) : StartedState :=
  match st.collector with
  | .working => { st with continuation := true, collector := .voting }
  | .voting =>
      { st with votes := st.votes - 1, collector := if st.votes = 1 then .last else .suspended }
  | .last => { st with collector := .resumed, resumes := st.resumes + 1 }
  | .suspended | .resumed => st

def step (st : StartedState) : StartedEvent → StartedState
  | .child => st.complete
  | .collector => st.awaitSuspend

/-- What the phases say about the other fields. -/
def shape (child : ChildPhase) (collector : CollectorPhase) : StartedState where
  votes := (if child = .running then 1 else 0) + if collector = .working ∨
    collector = .voting then 1 else 0
  continuation := collector ≠ .working
  done := child ≠ .running
  child := child
  collector := collector
  resumes := if collector = .resumed then 1 else 0

/-- One has the right to resume, or has done so, once both votes are cast. -/
def OneResumes (child : ChildPhase) (collector : CollectorPhase) : Prop :=
  (if child = .last then 1 else 0) + (if collector = .last ∨ collector = .resumed then 1 else 0) =
    if (shape child collector).votes = 0 then 1 else 0

instance (child : ChildPhase) (collector : CollectorPhase) :
    Decidable (OneResumes child collector) :=
  inferInstanceAs (Decidable (_ = _))

/-- The states that can be reached. -/
def Sound (st : StartedState) : Prop :=
  ∃ child collector, OneResumes child collector ∧ st = shape child collector

variable {st : StartedState}

theorem Sound.step (h : st.Sound) (e : StartedEvent) : (st.step e).Sound := by
  obtain ⟨child, collector, hone, rfl⟩ := h
  refine ⟨_, _, ?_, (?_ : _ = shape ((shape child collector).step e).child
    ((shape child collector).step e).collector)⟩
    <;> revert hone <;> cases e <;> cases child <;> cases collector <;> decide

theorem run_sound (es : List StartedEvent) : (es.foldl step {}).Sound := by
  induction es using List.reverseRecOn with
  | nil => exact ⟨.running, .working, by decide, rfl⟩
  | append_singleton es e ih =>
      rw [List.foldl_append]
      exact ih.step e

theorem Sound.progress (h : st.Sound) (hquiet : ∀ e, st.step e = st) : st.resumes = 1 := by
  obtain ⟨child, collector, hone, rfl⟩ := h
  have hchild := hquiet .child
  have hcollector := hquiet .collector
  revert hone hchild hcollector
  cases child <;> cases collector <;> decide

theorem Sound.resumed_done (h : st.Sound) : st.resumes ≤ 1 ∧ (0 < st.resumes → st.done) := by
  obtain ⟨child, collector, hone, rfl⟩ := h
  revert hone
  cases child <;> cases collector <;> decide

end StartedState

/-- However the tasks and the coroutine take their steps, `when_all` is resumed at most once, when
every runner has ended, with the latch untouched from then on; it returns the values in the order of
the tasks, the error of starting them, or that of the first task that failed. When nobody can take a
step any more it has been resumed and has returned, and that point comes. In the same way the
collector of a started task is resumed once, after the child. -/
theorem when_all_joins {α ε : Type} (w : WhenAllTasks α ε) (es : List WhenAllEvent)
    (cs : List StartedEvent) : (let s := es.foldl w.step w.initial
     s.resumes ≤ 1 ∧ (0 < s.resumes → ∀ r ∈ s.runners, r = .gone) ∧ s.touchedLate = false ∧
      s.crashed = false ∧ (s.phase = .returned → s.resumes = 1 ∧ s.result = some w.expected) ∧
      ((∀ e, w.step s e = s) → s.phase = .returned) ∧ ∀ e, w.step s e = s ∨
      w.weight (w.step s e) < w.weight s) ∧
    (let st := cs.foldl StartedState.step {}
     st.resumes ≤ 1 ∧ (0 < st.resumes → st.done) ∧ ((∀ e, st.step e = st) → st.resumes = 1)) := by
  constructor
  · intro s
    have h : w.Sound s := w.run_sound es
    have hlast := h.last
    refine ⟨?_, fun hresumed r hr => ?_, h.clean.1, h.clean.2, fun hreturned =>
      ⟨?_, h.returned hreturned⟩, h.progress, h.weight_step⟩
    · split_ifs at hlast <;> omega
    · have hzero : s.pending = 0 := by
        by_contra hne
        rw [if_neg hne] at hlast
        omega
      rw [if_pos hzero] at hlast
      have hvotes := h.votes
      have hstarted := h.started
      have howes : s.runners.countP (·.owes) = 0 := by split_ifs at hvotes <;> omega
      have hlasts : s.runners.countP (· = .last) = 0 := by omega
      have hr₁ := List.countP_eq_zero.mp howes r hr
      have hr₂ := List.countP_eq_zero.mp hlasts r hr
      cases r with
      | gone => rfl
      | last => exact absurd rfl hr₂
      | running | finished => exact absurd rfl hr₁
    · rw [h.resumes, hreturned]
      rfl
  · intro st
    have h : st.Sound := StartedState.run_sound cs
    exact ⟨h.resumed_done.1, h.resumed_done.2, h.progress⟩

/-- Two tasks that fail, the second one first; the error is that of the first. -/
example : let w : WhenAllTasks Nat String :=
  { count := 2, outcome := fun i => .error (if i = 0 then "first" else "second") }
    ([.main, .main, .runner 1, .runner 1, .main, .main, .main, .runner 0, .runner 0,
      .runner 0, .main].foldl w.step w.initial).result = some (.error "first") := rfl

end Lights3
