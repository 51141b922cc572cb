import Lights3.Lib.Runs
import Mathlib.Tactic

/-!
# The semaphore

`AsyncSemaphore` of `core/semaphore.h`. The tasks that acquire are numbered in the order in which
they come. A step is a section under the mutex, an exchange of the flag that claims a waiter, or the
resumption of a waiter by the one who has claimed it.
-/
namespace Lights3

/-- How an acquisition ends: with a permit, or with `OperationCancelled`. -/
inductive AcquireOutcome where
  | permit | cancelled
  deriving DecidableEq

structure AsyncSemaphore where
  permits : Int
  capacity : Int
  closed : Bool := false
  waiters : List Nat := []

/-- The semaphore and the tasks that use it. -/
structure SemaphoreTasks where
  sem : AsyncSemaphore
  /-- The number of the next task. -/
  next : Nat := 0
  /-- The tasks with a token that have not come to the mutex yet. -/
  preparing : List Nat := []
  /-- The tasks whose cancel callback is registered. -/
  registered : List Nat := []
  /-- The waiters whose flag is set. -/
  claimed : List Nat := []
  /-- Claimed by the cancel callback, and not yet taken off the queue by it. -/
  cancelling : List Nat := []
  /-- Taken off the queue by `close`, and not yet woken. -/
  closing : List Nat := []
  /-- Claimed, and about to be resumed. -/
  waking : List (Nat × AcquireOutcome) := []
  resumed : List (Nat × AcquireOutcome) := []
  /-- The tasks that have a permit. -/
  holders : List Nat := []
  released : List Nat := []
  /-- The waiters in the order in which they were queued, and in which the queue was served. -/
  enqueued : List Nat := []
  granted : List Nat := []

inductive SemaphoreEvent where
  /-- `acquire` without a token. -/
  | acquire
  /-- `acquire` with a token up to the mutex. A token that is cancelled registers nothing. -/
  | prepare (registers : Bool)
  /-- `acquire` with a token from the mutex on; the token may be cancelled by then. -/
  | enter (i : Nat) (cancelled : Bool)
  | tryAcquire
  /-- The cancel callback up to the mutex. -/
  | cancel (i : Nat)
  /-- The cancel callback under the mutex. -/
  | unlink (i : Nat)
  | release (i : Nat)
  | setCapacity (n : Int)
  | close
  /-- `wake_cancelled`. -/
  | wakeCancelled (i : Nat)
  | resume (i : Nat)

namespace SemaphoreTasks

variable (s : SemaphoreTasks)

/-- The first waiter that is not claimed, and what is behind it. -/
def popWaiter (claimed : List Nat) : List Nat → Option Nat × List Nat
  | [] => (none, [])
  | w :: ws => if w ∈ claimed then popWaiter claimed ws else (some w, ws)

/-- A permit goes to the first waiter that is not claimed, or back. -/
def offer : SemaphoreTasks :=
  match popWaiter s.claimed s.sem.waiters with
  | (some w, ws) =>
      { s with
        sem := { s.sem with waiters := ws }
        claimed := w :: s.claimed
        waking := s.waking ++ [(w, .permit)]
        holders := w :: s.holders
        granted := s.granted ++ [w] }
  | (none, ws) => { s with sem := { s.sem with waiters := ws, permits := s.sem.permits + 1 } }

/-- The task goes on with a permit. -/
abbrev letIn (i : Nat) : SemaphoreTasks :=
  { s with
    sem := { s.sem with permits := s.sem.permits - 1 }
    resumed := s.resumed ++ [(i, .permit)]
    holders := i :: s.holders }

/-- The task goes on with `OperationCancelled`. -/
abbrev fail (i : Nat) : SemaphoreTasks := { s with resumed := s.resumed ++ [(i, .cancelled)] }

abbrev enqueue (i : Nat) : SemaphoreTasks :=
  { s with
    sem := { s.sem with waiters := s.sem.waiters ++ [i] }
    enqueued := s.enqueued ++ [i] }

/-- The number of the next task is given out. -/
abbrev arrive : SemaphoreTasks := { s with next := s.next + 1 }

abbrev claim (i : Nat) : SemaphoreTasks := { s with claimed := i :: s.claimed }

def acquire : SemaphoreTasks :=
  if s.sem.closed then s.arrive.fail s.next
  else if 0 < s.sem.permits then s.arrive.letIn s.next
  else s.arrive.enqueue s.next

def prepare (registers : Bool) : SemaphoreTasks :=
  { s.arrive with
    preparing := s.preparing ++ [s.next]
    registered := if registers then s.next :: s.registered else s.registered }

/-- A task that is claimed already stays suspended, its cancel callback resumes it. -/
def enter (i : Nat) (cancelled : Bool) : SemaphoreTasks :=
  let s := { s with preparing := s.preparing.erase i }
  if s.sem.closed || cancelled || i ∉ s.registered then
    if i ∈ s.claimed then s else (s.claim i).fail i
  else if 0 < s.sem.permits then
    if i ∈ s.claimed then s else (s.claim i).letIn i
  else s.enqueue i

def tryAcquire : SemaphoreTasks :=
  if s.sem.closed || s.sem.permits ≤ 0 then s else s.arrive.letIn s.next

def cancel (i : Nat) : SemaphoreTasks :=
  if i ∈ s.claimed then s else { s.claim i with cancelling := i :: s.cancelling }

def unlink (i : Nat) : SemaphoreTasks :=
  { s with
    sem := { s.sem with waiters := s.sem.waiters.erase i }
    cancelling := s.cancelling.erase i
    waking := s.waking ++ [(i, .cancelled)] }

/-- `release_one`. -/
def release (i : Nat) : SemaphoreTasks :=
  offer { s with holders := s.holders.erase i, released := i :: s.released }

def setCapacity (n : Int) : SemaphoreTasks :=
  let delta := n - s.sem.capacity
  if delta ≤ 0 then
    { s with sem := { s.sem with capacity := n, permits := s.sem.permits + delta } }
  else offer^[delta.toNat] { s with sem := { s.sem with capacity := n } }

def close : SemaphoreTasks :=
  { s with
    sem := { s.sem with closed := true, waiters := [] }
    closing := s.closing ++ s.sem.waiters }

def wakeCancelled (i : Nat) : SemaphoreTasks :=
  let s := { s with closing := s.closing.erase i }
  if i ∈ s.claimed then s else { s.claim i with waking := s.waking ++ [(i, .cancelled)] }

def resume (x : Nat × AcquireOutcome) : SemaphoreTasks :=
  { s with waking := s.waking.erase x, resumed := s.resumed ++ [x] }

/-- An event that is not possible changes nothing. -/
def step : SemaphoreEvent → SemaphoreTasks
  | .acquire => s.acquire
  | .prepare registers => s.prepare registers
  | .enter i cancelled => if i ∈ s.preparing then s.enter i cancelled else s
  | .tryAcquire => s.tryAcquire
  | .cancel i => if i ∈ s.registered then s.cancel i else s
  | .unlink i => if i ∈ s.cancelling then s.unlink i else s
  | .release i => if i ∈ s.holders ∧ (i, .permit) ∈ s.resumed then s.release i else s
  | .setCapacity n => s.setCapacity n
  | .close => s.close
  | .wakeCancelled i => if i ∈ s.closing then s.wakeCancelled i else s
  | .resume i => match s.waking.find? (fun x => x.1 = i) with
      | some x => s.resume x
      | none => s

/-- The permits that are out. -/
def outstanding : Nat := s.holders.length

/-- The outcomes that are decided. -/
def outcomes : List (Nat × AcquireOutcome) := s.resumed ++ s.waking

/-- In how many places a task is: it has its outcome, or its cancel callback is at work, or nobody
has claimed it and it is on its way to the mutex, in the queue or with `close`. -/
def places (i : Nat) : Nat :=
  (s.outcomes.map (·.1)).count i + s.cancelling.count i +
    if i ∈ s.claimed then 0
    else s.preparing.count i + s.sem.waiters.count i + s.closing.count i

/-- What holds whatever the capacity is. -/
structure Orderly : Prop where
  /-- A waiter that is not claimed finds no permit left. -/
  idle : ∀ w ∈ s.sem.waiters, w ∉ s.claimed → s.sem.permits ≤ 0
  fifo : (s.granted ++ s.sem.waiters).Sublist s.enqueued
  once : ∀ i, s.places i = if i < s.next then 1 else 0
  /-- A permit that was given is held or was released. -/
  given : ∀ i, s.outcomes.count (i, .permit) = s.holders.count i + s.released.count i
  claimed : ∀ i ∈ s.claimed, i < s.next
  cancelling : ∀ i ∈ s.cancelling, i ∈ s.claimed
  registered : ∀ i ∈ s.registered, i < s.next ∧ (i ∉ s.claimed →
    0 < s.preparing.count i + s.sem.waiters.count i + s.closing.count i)

structure Sound : Prop extends s.Orderly where
  balance : s.sem.permits + s.outstanding = s.sem.capacity

variable {s} {i : Nat}

/-! ## The queue -/

theorem popWaiter_some {claimed ws ws' : List Nat} {w : Nat}
    (h : popWaiter claimed ws = (some w, ws')) :
    ∃ skipped, ws = skipped ++ w :: ws' ∧ (∀ x ∈ skipped, x ∈ claimed) ∧ w ∉ claimed := by
  induction ws with
  | nil => cases h
  | cons x ws ih =>
      unfold popWaiter at h
      split_ifs at h with hx
      · obtain ⟨skipped, rfl, hskipped, hw⟩ := ih h
        exact ⟨x :: skipped, rfl, by simpa [hx] using hskipped, hw⟩
      · cases h
        exact ⟨[], rfl, by simp, hx⟩

theorem popWaiter_none {claimed ws ws' : List Nat} (h : popWaiter claimed ws = (none, ws')) :
    ws' = [] ∧ ∀ x ∈ ws, x ∈ claimed := by
  induction ws with
  | nil =>
      cases h
      simp
  | cons x ws ih =>
      unfold popWaiter at h
      split_ifs at h with hx
      · obtain ⟨rfl, hws⟩ := ih h
        exact ⟨rfl, by simpa [hx] using hws⟩
      · cases h

/-- What an offer can do. -/
theorem offer_cases (s : SemaphoreTasks) :
    (∃ skipped w ws, s.sem.waiters = skipped ++ w :: ws ∧ (∀ x ∈ skipped, x ∈ s.claimed) ∧
      w ∉ s.claimed ∧ s.offer =
        { s with
          sem := { s.sem with waiters := ws }
          claimed := w :: s.claimed
          waking := s.waking ++ [(w, .permit)]
          holders := w :: s.holders
          granted := s.granted ++ [w] }) ∨
    ((∀ x ∈ s.sem.waiters, x ∈ s.claimed) ∧ s.offer =
      { s with sem := { s.sem with waiters := [], permits := s.sem.permits + 1 } }) := by
  unfold offer
  split
  · next w ws hpop =>
    obtain ⟨skipped, hws, hskipped, hw⟩ := popWaiter_some hpop
    exact Or.inl ⟨skipped, w, ws, hws, hskipped, hw, rfl⟩
  · next ws hpop =>
    obtain ⟨rfl, hws⟩ := popWaiter_none hpop
    exact Or.inr ⟨hws, rfl⟩

/-! ## Places -/

/-- The count of a task among those that nobody has claimed. -/
def loose (s : SemaphoreTasks) (i : Nat) : Nat :=
  s.preparing.count i + s.sem.waiters.count i + s.closing.count i

theorem places_fail (s : SemaphoreTasks) (i j : Nat) :
    (s.fail i).places j = s.places j + if i = j then 1 else 0 := by
  simp only [places, outcomes, List.map_append, List.count_append, List.map_cons, List.map_nil,
    List.count_cons, List.count_nil, beq_iff_eq]
  omega

theorem places_letIn (s : SemaphoreTasks) (i j : Nat) :
    (s.letIn i).places j = s.places j + if i = j then 1 else 0 := by
  simp only [places, outcomes, List.map_append, List.count_append, List.map_cons, List.map_nil,
    List.count_cons, List.count_nil, beq_iff_eq]
  omega

theorem places_waking (s : SemaphoreTasks) (i j : Nat) (o : AcquireOutcome) :
    ({ s with waking := s.waking ++ [(i, o)] } : SemaphoreTasks).places j =
      s.places j + if i = j then 1 else 0 := by
  simp only [places, outcomes, List.map_append, List.count_append, List.map_cons, List.map_nil,
    List.count_cons, List.count_nil, beq_iff_eq]
  omega

theorem places_enqueue (hi : i ∉ s.claimed) (j : Nat) :
    (s.enqueue i).places j = s.places j + if i = j then 1 else 0 := by
  simp only [places, outcomes, List.count_append, List.count_cons, List.count_nil, beq_iff_eq]
  by_cases hij : i = j
  · subst hij
    simp only [hi, if_false, if_true]
    omega
  · simp [hij]

variable {t : SemaphoreTasks}

/-- A claim takes the task from where nobody had claimed it. -/
theorem places_claim (hi : i ∉ s.claimed) (hone : s.loose i = 1) (hout : t.outcomes = s.outcomes)
    (hcan : t.cancelling = s.cancelling) (hclaimed : t.claimed = i :: s.claimed)
    (hloose : ∀ j, j ≠ i → j ∉ s.claimed → t.loose j = s.loose j) (j : Nat) :
    t.places j + (if i = j then 1 else 0) = s.places j := by
  have hj := hloose j
  unfold loose at hone hj
  simp only [places, hout, hcan, hclaimed, List.mem_cons]
  by_cases hij : i = j
  · subst hij
    simp [hi, hone]
  · by_cases hc : j ∈ s.claimed
    · simp [hij, hc]
    · simp [hij, hc, Ne.symm hij, hj (Ne.symm hij) hc]

/-- What was claimed does not count where it still is. -/
theorem places_of_loose (hout : t.outcomes.Perm s.outcomes) (hcan : t.cancelling = s.cancelling)
    (hclaimed : t.claimed = s.claimed) (hloose : ∀ j, j ∉ s.claimed → t.loose j = s.loose j)
    (j : Nat) : t.places j = s.places j := by
  have hj := hloose j
  have hcount := (hout.map (·.1)).count_eq j
  unfold loose at hj
  simp only [places, hcount, hcan, hclaimed]
  split_ifs with hc
  · rfl
  · rw [hj hc]

/-! ## Steps -/

namespace Orderly

theorem lt_next (h : s.Orderly) (hi : 0 < s.places i) : i < s.next := by
  by_contra hge
  rw [h.once i, if_neg hge] at hi
  exact lt_irrefl 0 hi

theorem places_le (h : s.Orderly) (i : Nat) : s.places i ≤ 1 := by
  rw [h.once i]
  split_ifs <;> omega

/-- A task that nobody has claimed is in one place. -/
theorem loose_eq (h : s.Orderly) (hi : i ∉ s.claimed) (hpos : 0 < s.loose i) :
    s.loose i = 1 ∧ i < s.next := by
  have hle := h.places_le i
  have hlt := h.lt_next (i := i)
  unfold loose at *
  rw [places, if_neg hi] at hle hlt
  exact ⟨by omega, hlt (by omega)⟩

/-- The next task is nowhere yet. -/
theorem next_not_claimed (h : s.Orderly) : s.next ∉ s.claimed :=
  fun hc => lt_irrefl _ (h.claimed _ hc)

variable {t : SemaphoreTasks}

theorem once_arrive (h : s.Orderly) (hnext : t.next = s.next + 1)
    (ht : ∀ j, t.places j = s.places j + if s.next = j then 1 else 0) (j : Nat) :
    t.places j = if j < t.next then 1 else 0 := by
  rw [ht, h.once, hnext]
  by_cases hj : s.next = j
  · subst hj
    simp
  · rw [if_neg hj]
    have hlt : j < s.next + 1 ↔ j < s.next := by omega
    simp only [hlt, add_zero]

theorem claimed_arrive (h : s.Orderly) : ∀ i ∈ s.claimed, i < s.next + 1 :=
  fun j hj => Nat.lt_succ_of_lt (h.claimed j hj)

theorem registered_arrive (h : s.Orderly) (hle : ∀ j, s.loose j ≤ t.loose j) :
    ∀ i ∈ s.registered, i < s.next + 1 ∧ (i ∉ s.claimed → 0 < t.loose i) :=
  fun j hj => ⟨Nat.lt_succ_of_lt (h.registered j hj).1,
    fun hc => lt_of_lt_of_le ((h.registered j hj).2 hc) (hle j)⟩

theorem offer (h : s.Orderly) : s.offer.Orderly := by
  rcases offer_cases s with ⟨skipped, w, ws, hws, hskipped, hw, heq⟩ | ⟨hws, heq⟩
  · have hcount (j : Nat) (hj : j ∉ s.claimed) :
        s.sem.waiters.count j = ws.count j + if w = j then 1 else 0 := by
      have hskip : skipped.count j = 0 := List.count_eq_zero.mpr (fun hm => hj (hskipped j hm))
      rw [hws, List.count_append, hskip, List.count_cons]
      simp
    obtain ⟨hloose, hnext⟩ := h.loose_eq hw (by rw [loose, hcount w hw, if_pos rfl]; omega)
    rw [heq]
    refine ⟨?_, ?_, ?_, ?_, by simpa [hnext] using h.claimed,
      fun j hj => List.mem_cons_of_mem _ (h.cancelling j hj), ?_⟩
    · intro x hx hclaimed
      exact h.idle x (by simp [hws, show x ∈ ws from hx])
        (fun hc => hclaimed (List.mem_cons_of_mem _ hc))
    · refine List.Sublist.trans ?_ h.fifo
      simp only [hws, List.append_assoc, List.singleton_append]
      exact (List.Sublist.refl _).append (List.sublist_append_right _ _)
    · intro j
      have hwoken :=
        places_waking { s.claim w with sem := { s.sem with waiters := ws } } w j .permit
      rw [places_claim (t := { s.claim w with sem := { s.sem with waiters := ws } }) hw
        hloose rfl rfl
        rfl (fun k hkw hk => by simp [loose, hcount k hk, Ne.symm hkw]) j, h.once j] at hwoken
      exact hwoken
    · intro j
      have hj := h.given j
      simp only [outcomes, List.count_append, List.count_cons, List.count_nil, beq_iff_eq,
        Prod.mk.injEq, and_true] at hj ⊢
      omega
    · intro j hj
      refine ⟨(h.registered j hj).1, fun hc => ?_⟩
      simp only [List.mem_cons, not_or] at hc
      have hold := (h.registered j hj).2 hc.2
      rw [hcount j hc.2, if_neg (Ne.symm hc.1)] at hold
      exact hold
  · have hcount (j : Nat) (hj : j ∉ s.claimed) : s.sem.waiters.count j = 0 :=
      List.count_eq_zero.mpr (fun hm => hj (hws j hm))
    rw [heq]
    refine ⟨by simp, ?_, fun j => ?_, h.given, h.claimed, h.cancelling, ?_⟩
    · exact List.Sublist.trans ((List.Sublist.refl _).append (List.nil_sublist _)) h.fifo
    · have hshorter := places_of_loose (s := s)
        (t := { s with sem := { s.sem with waiters := [], permits := s.sem.permits + 1 } })
        .rfl rfl rfl (fun k hk => by simp [loose, hcount k hk]) j
      rwa [h.once j] at hshorter
    · intro j hj
      refine ⟨(h.registered j hj).1, fun hc => ?_⟩
      have hold := (h.registered j hj).2 hc
      rw [hcount j hc] at hold
      exact hold

theorem offers (h : s.Orderly) (n : Nat) : (SemaphoreTasks.offer^[n] s).Orderly := by
  induction n generalizing s with
  | zero => exact h
  | succ n ih => exact ih h.offer

/-- The outcome of a task that fails adds no permit. -/
theorem given_cancelled (h : s.Orderly) (i j : Nat) :
    (s.resumed ++ [(i, AcquireOutcome.cancelled)] ++ s.waking).count (j, .permit) =
      s.holders.count j + s.released.count j := by
  have hj := h.given j
  simpa [outcomes, List.count_append, List.count_cons] using hj

theorem given_permit (h : s.Orderly) (i j : Nat) :
    (s.resumed ++ [(i, AcquireOutcome.permit)] ++ s.waking).count (j, .permit) =
      (i :: s.holders).count j + s.released.count j := by
  have hj := h.given j
  simp only [outcomes, List.count_append, List.count_cons, List.count_nil, beq_iff_eq,
    Prod.mk.injEq, and_true] at hj ⊢
  omega

theorem letIn (h : s.Orderly) : (s.arrive.letIn s.next).Orderly := by
  refine ⟨fun w hw hc => ?_, h.fifo, h.once_arrive rfl (places_letIn s.arrive s.next),
    h.given_permit s.next, h.claimed_arrive, h.cancelling, h.registered_arrive fun _ => le_rfl⟩
  have hidle := h.idle w hw hc
  change s.sem.permits - 1 ≤ 0
  omega

theorem acquire (h : s.Orderly) : s.acquire.Orderly := by
  unfold SemaphoreTasks.acquire
  split_ifs with hclosed hpermits
  · exact ⟨h.idle, h.fifo, h.once_arrive rfl (places_fail s.arrive s.next),
      h.given_cancelled s.next, h.claimed_arrive, h.cancelling, h.registered_arrive fun _ => le_rfl⟩
  · exact h.letIn
  · refine ⟨fun w _ _ => not_lt.mp hpermits, ?_,
      h.once_arrive rfl (places_enqueue (s := s.arrive) h.next_not_claimed), h.given,
      h.claimed_arrive, h.cancelling, h.registered_arrive fun j => ?_⟩
    · rw [← List.append_assoc]
      exact h.fifo.append (List.Sublist.refl _)
    · simp only [loose, List.count_append]
      omega

theorem tryAcquire (h : s.Orderly) : s.tryAcquire.Orderly := by
  unfold SemaphoreTasks.tryAcquire
  split_ifs with hno
  · exact h
  · exact h.letIn

theorem prepare (h : s.Orderly) (registers : Bool) : (s.prepare registers).Orderly := by
  have hplaces : ∀ j, (s.prepare registers).places j = s.places j + if s.next =
      j then 1 else 0 := by
    intro j
    simp only [places, SemaphoreTasks.prepare, outcomes, List.count_append, List.count_cons,
      List.count_nil, beq_iff_eq]
    by_cases hj : s.next = j
    · subst hj
      simp only [h.next_not_claimed, if_false, if_true]
      omega
    · simp [hj]
  refine ⟨h.idle, h.fifo, h.once_arrive rfl hplaces, h.given, h.claimed_arrive, h.cancelling, ?_⟩
  intro j hj
  change j ∈ (if registers then s.next :: s.registered else s.registered) at hj
  change j < s.next + 1 ∧ (j ∉ s.claimed →
    0 < (s.preparing ++ [s.next]).count j + s.sem.waiters.count j + s.closing.count j)
  rw [List.count_append]
  have hold : j ∈ s.registered ∨ j = s.next := by
    split_ifs at hj
    · exact (List.mem_cons.mp hj).symm
    · exact Or.inl hj
  rcases hold with hold | rfl
  · refine ⟨Nat.lt_succ_of_lt (h.registered j hold).1, fun hc => ?_⟩
    have hpos := (h.registered j hold).2 hc
    omega
  · exact ⟨Nat.lt_succ_self _, fun _ => by simp⟩

/-- A task that is claimed keeps its claim when it is elsewhere. -/
theorem move (h : s.Orderly) (hnext : t.next = s.next) (hregistered : t.registered = s.registered)
    (hout : t.outcomes.Perm s.outcomes) (hholders : t.holders = s.holders)
    (hreleased : t.released = s.released) (hcan : t.cancelling = s.cancelling)
    (hclaimed : t.claimed = s.claimed) (hloose : ∀ j, j ∉ s.claimed → t.loose j = s.loose j)
    (hidle : ∀ w ∈ t.sem.waiters, w ∉ s.claimed → t.sem.permits ≤ 0)
    (hfifo : (t.granted ++ t.sem.waiters).Sublist t.enqueued) : t.Orderly := by
  refine ⟨fun w hw hc => hidle w hw (hclaimed ▸ hc), hfifo, fun j => ?_, fun j => ?_, ?_, ?_, ?_⟩
  · rw [places_of_loose hout hcan hclaimed hloose j, h.once j, hnext]
  · rw [hout.count_eq, hholders, hreleased, h.given j]
  · rw [hclaimed, hnext]
    exact h.claimed
  · rw [hcan, hclaimed]
    exact h.cancelling
  · rw [hregistered, hclaimed, hnext]
    intro j hj
    refine ⟨(h.registered j hj).1, fun hc => ?_⟩
    have hpos := (h.registered j hj).2 hc
    have heq := hloose j hc
    unfold loose at heq
    omega

/-- The one who claims a task gives it its outcome. -/
theorem settle (h : s.Orderly) (hi : i ∉ s.claimed) (hpos : 0 < s.loose i) (hnext : t.next = s.next)
    (hregistered : t.registered = s.registered) (hclaimed : t.claimed = i :: s.claimed)
    (hcan : ∀ j ∈ t.cancelling, j = i ∨ j ∈ s.cancelling)
    (hloose : ∀ j, j ≠ i → j ∉ s.claimed → t.loose j = s.loose j)
    (hplaces : s.loose i = 1 → ∀ j, t.places j = s.places j)
    (hgiven : ∀ j, t.outcomes.count (j, .permit) = t.holders.count j + t.released.count j)
    (hwaiters : t.sem.waiters = s.sem.waiters) (hpermits : t.sem.permits ≤ s.sem.permits)
    (hgranted : t.granted = s.granted) (henqueued : t.enqueued = s.enqueued) : t.Orderly := by
  obtain ⟨hone, hlt⟩ := h.loose_eq hi hpos
  refine ⟨fun w hw hc => ?_, ?_, fun j => ?_, hgiven, ?_, fun j hj => ?_, ?_⟩
  · rw [hclaimed, List.mem_cons, not_or] at hc
    exact hpermits.trans (h.idle w (hwaiters ▸ hw) hc.2)
  · rw [hgranted, hwaiters, henqueued]
    exact h.fifo
  · rw [hplaces hone j, h.once j, hnext]
  · rw [hclaimed, hnext]
    simpa [hlt] using h.claimed
  · rw [hclaimed, List.mem_cons]
    exact (hcan j hj).imp_right (h.cancelling j)
  · rw [hregistered, hclaimed, hnext]
    intro j hj
    refine ⟨(h.registered j hj).1, fun hc => ?_⟩
    rw [List.mem_cons, not_or] at hc
    have hpos := (h.registered j hj).2 hc.2
    have heq := hloose j hc.1 hc.2
    unfold loose at heq
    omega

theorem enter (h : s.Orderly) (hi : i ∈ s.preparing) (cancelled : Bool) :
    (s.enter i cancelled).Orderly := by
  have hcount : 0 < s.preparing.count i := List.count_pos_iff.mpr hi
  have hpos : 0 < s.loose i := by
    unfold loose
    omega
  have herase (j : Nat) (hj : j ≠ i) : (s.preparing.erase i).count j = s.preparing.count j :=
    List.count_erase_of_ne hj
  -- a task that stays suspended, for its cancel callback
  have hstay (hc : i ∈ s.claimed) : Orderly { s with preparing := s.preparing.erase i } := by
    refine h.move rfl rfl .rfl rfl rfl rfl rfl (fun j hj => ?_) h.idle h.fifo
    have hne : j ≠ i := fun hji => hj (hji ▸ hc)
    simp [loose, herase j hne]
  have hclaimPlaces (hc : i ∉ s.claimed) (hone : s.loose i = 1) (j : Nat) :
      places { s.claim i with preparing := s.preparing.erase i } j + (if i = j then 1 else 0) =
        s.places j :=
    places_claim (t := { s.claim i with preparing := s.preparing.erase i }) hc hone rfl rfl rfl
      (fun k hk _ => by simp [loose, herase k hk]) j
  unfold SemaphoreTasks.enter
  dsimp only
  split_ifs with hfail hc hpermits hc
  · exact hstay hc
  · refine h.settle hc hpos rfl rfl rfl (fun _ => Or.inr)
      (fun j hj _ => by simp [loose, herase j hj]) (fun hone j => ?_)
      (h.given_cancelled i) rfl le_rfl rfl rfl
    rw [← hclaimPlaces hc hone j]
    exact places_fail _ i j
  · exact hstay hc
  · refine h.settle hc hpos rfl rfl rfl (fun _ => Or.inr)
      (fun j hj _ => by simp [loose, herase j hj]) (fun hone j => ?_)
      (h.given_permit i) rfl (by simp) rfl rfl
    rw [← hclaimPlaces hc hone j]
    exact places_letIn _ i j
  · refine h.move rfl rfl .rfl rfl rfl rfl rfl (fun j hj => ?_) (fun w _ _ => not_lt.mp hpermits) ?_
    · simp only [loose, List.count_append, List.count_cons, List.count_nil,
        List.count_erase, beq_iff_eq]
      split_ifs with hij
      · subst hij
        omega
      · omega
    · rw [← List.append_assoc]
      exact h.fifo.append (List.Sublist.refl _)

theorem cancel (h : s.Orderly) (hi : i ∈ s.registered) : (s.cancel i).Orderly := by
  unfold SemaphoreTasks.cancel
  split_ifs with hc
  · exact h
  · refine h.settle hc ((h.registered i hi).2 hc) rfl rfl rfl (fun _ => List.mem_cons.mp)
      (fun _ _ _ => rfl) (fun hone j => ?_) h.given rfl le_rfl rfl rfl
    rw [← places_claim (t := s.claim i) hc hone rfl rfl rfl (fun _ _ _ => rfl) j]
    simp only [places, outcomes, List.count_cons, beq_iff_eq]
    omega

theorem unlink (h : s.Orderly) (hi : i ∈ s.cancelling) : (s.unlink i).Orderly := by
  have hc := h.cancelling i hi
  have herase (j : Nat) (hj : j ≠ i) : (s.sem.waiters.erase i).count j = s.sem.waiters.count j :=
    List.count_erase_of_ne hj
  have hcount : 0 < s.cancelling.count i := List.count_pos_iff.mpr hi
  refine ⟨fun w hw => h.idle w (List.mem_of_mem_erase hw), ?_, fun j => ?_, fun j => ?_, h.claimed,
    fun j hj => h.cancelling j (List.mem_of_mem_erase hj), fun j hj => ?_⟩
  · exact List.Sublist.trans ((List.Sublist.refl _).append List.erase_sublist) h.fifo
  · let t : SemaphoreTasks :=
      { s with
        sem := { s.sem with waiters := s.sem.waiters.erase i }
        cancelling := s.cancelling.erase i }
    have hleft : t.places j + (if i = j then 1 else 0) = s.places j := by
      simp only [t, places, outcomes, List.count_erase, beq_iff_eq]
      by_cases hij : i = j
      · subst hij
        simp only [hc, if_true]
        omega
      · simp [hij]
    exact (places_waking t i j .cancelled).trans (hleft.trans (h.once j))
  · have hj := h.given j
    simpa [outcomes, SemaphoreTasks.unlink, List.count_append, List.count_cons] using hj
  · refine ⟨(h.registered j hj).1, fun hcj => ?_⟩
    have hne : j ≠ i := fun hji => hcj (hji ▸ hc)
    have hpos := (h.registered j hj).2 hcj
    change 0 < s.preparing.count j + (s.sem.waiters.erase i).count j + s.closing.count j
    rwa [herase j hne]

theorem wakeCancelled (h : s.Orderly) (hi : i ∈ s.closing) : (s.wakeCancelled i).Orderly := by
  have hcount : 0 < s.closing.count i := List.count_pos_iff.mpr hi
  have hpos : 0 < s.loose i := by
    unfold loose
    omega
  have herase (j : Nat) (hj : j ≠ i) : (s.closing.erase i).count j = s.closing.count j :=
    List.count_erase_of_ne hj
  unfold SemaphoreTasks.wakeCancelled
  dsimp only
  split_ifs with hc
  · refine h.move rfl rfl .rfl rfl rfl rfl rfl (fun j hj => ?_) h.idle h.fifo
    have hne : j ≠ i := fun hji => hj (hji ▸ hc)
    simp [loose, herase j hne]
  · refine h.settle hc hpos rfl rfl rfl (fun _ => Or.inr)
      (fun j hj _ => by simp [loose, herase j hj]) (fun hone j => ?_)
      (fun j => ?_) rfl le_rfl rfl rfl
    · rw [← places_claim (t := { s.claim i with closing := s.closing.erase i }) hc hone rfl rfl rfl
        (fun k hk _ => by simp [loose, herase k hk]) j]
      exact places_waking { s.claim i with closing := s.closing.erase i } i j .cancelled
    · have hj := h.given j
      simpa [outcomes, List.count_append, List.count_cons] using hj

theorem release (h : s.Orderly) (hi : i ∈ s.holders) : (s.release i).Orderly := by
  refine Orderly.offer { h with given := fun j => ?_ }
  have hj := h.given j
  have hcount : 0 < s.holders.count i := List.count_pos_iff.mpr hi
  change s.outcomes.count (j, .permit) = (s.holders.erase i).count j + (i :: s.released).count j
  simp only [List.count_erase, List.count_cons, beq_iff_eq]
  by_cases hij : i = j
  · subst hij
    simp only [if_true]
    omega
  · simp only [hij, if_false]
    omega

theorem setCapacity (h : s.Orderly) (n : Int) : (s.setCapacity n).Orderly := by
  unfold SemaphoreTasks.setCapacity
  dsimp only
  split_ifs with hdelta
  · refine { h with idle := fun w hw hc => ?_ }
    have hidle := h.idle w hw hc
    change s.sem.permits + (n - s.sem.capacity) ≤ 0
    omega
  · have hnew : Orderly { s with sem := { s.sem with capacity := n } } := { h with }
    exact hnew.offers _

theorem close (h : s.Orderly) : s.close.Orderly := by
  refine h.move rfl rfl .rfl rfl rfl rfl rfl (fun j _ => ?_) (by simp [SemaphoreTasks.close]) ?_
  · simp only [loose, SemaphoreTasks.close, List.count_append, List.count_nil]
    omega
  · exact List.Sublist.trans ((List.Sublist.refl _).append (List.nil_sublist _)) h.fifo

theorem resume (h : s.Orderly) {x : Nat × AcquireOutcome} (hx : x ∈ s.waking) :
    (s.resume x).Orderly := by
  refine h.move rfl rfl ?_ rfl rfl rfl rfl (fun _ _ => rfl) h.idle h.fifo
  change (s.resumed ++ [x] ++ s.waking.erase x).Perm (s.resumed ++ s.waking)
  rw [List.append_assoc]
  exact (List.perm_cons_erase hx).symm.append_left s.resumed

theorem step (h : s.Orderly) (e : SemaphoreEvent) : (s.step e).Orderly := by
  cases e with
  | acquire => exact h.acquire
  | prepare registers => exact h.prepare registers
  | tryAcquire => exact h.tryAcquire
  | setCapacity n => exact h.setCapacity n
  | close => exact h.close
  | enter i cancelled =>
      simp only [SemaphoreTasks.step]
      split_ifs with hi
      · exact h.enter hi cancelled
      · exact h
  | cancel i =>
      simp only [SemaphoreTasks.step]
      split_ifs with hi
      · exact h.cancel hi
      · exact h
  | unlink i =>
      simp only [SemaphoreTasks.step]
      split_ifs with hi
      · exact h.unlink hi
      · exact h
  | release i =>
      simp only [SemaphoreTasks.step]
      split_ifs with hi
      · exact h.release hi.1
      · exact h
  | wakeCancelled i =>
      simp only [SemaphoreTasks.step]
      split_ifs with hi
      · exact h.wakeCancelled hi
      · exact h
  | resume i =>
      simp only [SemaphoreTasks.step]
      split
      · next x hx => exact h.resume (List.mem_of_find?_eq_some hx)
      · exact h

end Orderly

/-! ## The balance -/

/-- The permits that are free or out. -/
def total (s : SemaphoreTasks) : Int := s.sem.permits + s.outstanding

theorem total_offer (s : SemaphoreTasks) : s.offer.total = s.total + 1 := by
  rcases offer_cases s with ⟨skipped, w, ws, -, -, -, heq⟩ | ⟨-, heq⟩
  · rw [heq]
    simp only [total, outstanding, List.length_cons]
    omega
  · rw [heq]
    simp only [total, outstanding]
    omega

theorem capacity_offer (s : SemaphoreTasks) : s.offer.sem.capacity = s.sem.capacity := by
  rcases offer_cases s with ⟨skipped, w, ws, -, -, -, heq⟩ | ⟨-, heq⟩ <;> rw [heq]

theorem total_offers (n : Nat) (s : SemaphoreTasks) :
    (offer^[n] s).total = s.total + n ∧ (offer^[n] s).sem.capacity = s.sem.capacity := by
  induction n generalizing s with
  | zero => exact ⟨by simp, rfl⟩
  | succ n ih =>
      obtain ⟨htotal, hcapacity⟩ := ih s.offer
      rw [Function.iterate_succ_apply]
      refine ⟨?_, hcapacity.trans (capacity_offer s)⟩
      rw [htotal, total_offer]
      omega

theorem total_letIn (s : SemaphoreTasks) (i : Nat) : (s.letIn i).total = s.total := by
  simp only [total, outstanding, List.length_cons]
  omega

/-- Each step changes the total as it changes the capacity. -/
theorem total_step (s : SemaphoreTasks) (e : SemaphoreEvent) :
    (s.step e).total - (s.step e).sem.capacity = s.total - s.sem.capacity := by
  cases e with
  | acquire =>
      simp only [step, acquire]
      split_ifs
      · rfl
      · rw [total_letIn]
        rfl
      · rfl
  | prepare registers => rfl
  | enter i cancelled =>
      simp only [step, enter]
      split_ifs
      any_goals rfl
      rw [total_letIn]
      rfl
  | tryAcquire =>
      simp only [step, tryAcquire]
      split_ifs
      · rfl
      · rw [total_letIn]
        rfl
  | cancel i =>
      simp only [step, cancel]
      split_ifs <;> rfl
  | unlink i =>
      simp only [step, unlink]
      split_ifs <;> rfl
  | release i =>
      simp only [step]
      split_ifs with hi
      · have hlen := List.length_erase_of_mem hi.1
        have hpos := List.length_pos_of_mem hi.1
        rw [release, total_offer, capacity_offer]
        simp only [total, outstanding, hlen]
        omega
      · rfl
  | setCapacity n =>
      simp only [step, setCapacity]
      split_ifs with hdelta
      · simp only [total, outstanding]
        omega
      · obtain ⟨htotal, hcapacity⟩ := total_offers (n - s.sem.capacity).toNat
          { s with sem := { s.sem with capacity := n } }
        rw [htotal, hcapacity]
        simp only [total, outstanding]
        omega
  | close => rfl
  | wakeCancelled i =>
      simp only [step, wakeCancelled]
      split_ifs <;> rfl
  | resume i =>
      simp only [step]
      split <;> rfl

theorem Sound.step (h : s.Sound) (e : SemaphoreEvent) : (s.step e).Sound := by
  refine ⟨h.toOrderly.step e, ?_⟩
  have hbalance := h.balance
  have htotal := total_step s e
  unfold total at htotal
  omega

/-! ## Runs -/

/-- A semaphore of that capacity after the events. -/
def ofEvents (capacity : Int) (es : List SemaphoreEvent) : SemaphoreTasks :=
  es.foldl step { sem := { permits := capacity, capacity } }

theorem sound_ofEvents (capacity : Int) (es : List SemaphoreEvent) :
    (ofEvents capacity es).Sound := by
  have hinit : Sound { sem := { permits := capacity, capacity } } :=
    ⟨⟨by simp, by simp, by simp [places, outcomes], by simp [outcomes], by simp, by simp, by simp⟩,
      by simp [outstanding]⟩
  unfold ofEvents
  generalize ({ sem := { permits := capacity, capacity } } : SemaphoreTasks) = s at hinit
  induction es generalizing s with
  | nil => exact hinit
  | cons e es ih => exact ih _ (hinit.step e)

def permitsGiven (s : SemaphoreTasks) : Nat := s.outcomes.countP (fun x => x.2 = .permit)

/-- The step grants a permit. -/
def Grants (s : SemaphoreTasks) (e : SemaphoreEvent) : Prop :=
  s.permitsGiven < (s.step e).permitsGiven

instance (s : SemaphoreTasks) (e : SemaphoreEvent) : Decidable (s.Grants e) :=
  inferInstanceAs (Decidable (_ < _))

/-- The capacity is not set below the number of permits that are out. -/
def KeepsRoom (s : SemaphoreTasks) (e : SemaphoreEvent) : Prop :=
  ∀ n, e = .setCapacity n → (s.outstanding : Int) ≤ n

theorem permits_offers (n : Nat) (s : SemaphoreTasks) :
    s.sem.permits ≤ (offer^[n] s).sem.permits := by
  induction n generalizing s with
  | zero => exact le_rfl
  | succ n ih =>
      have hone : s.sem.permits ≤ s.offer.sem.permits := by
        rcases offer_cases s with ⟨skipped, w, ws, -, -, -, heq⟩ | ⟨-, heq⟩
        · rw [heq]
        · rw [heq]
          exact Int.le_add_one le_rfl
      exact hone.trans (ih s.offer)

/-- The count stays above zero while the capacity keeps room. -/
theorem permits_step (h : s.Sound) {e : SemaphoreEvent} (hroom : s.KeepsRoom e)
    (hp : 0 ≤ s.sem.permits) : 0 ≤ (s.step e).sem.permits := by
  cases e with
  | acquire =>
      simp only [step, acquire]
      split_ifs with hclosed hpos
      · exact hp
      · exact Int.le_sub_one_of_lt hpos
      · exact hp
  | enter i cancelled =>
      simp only [step, enter]
      split_ifs with hi hfail hc hpos
      any_goals exact hp
      exact Int.le_sub_one_of_lt hpos
  | tryAcquire =>
      simp only [step, tryAcquire]
      split_ifs with hno
      · exact hp
      · simp only [Bool.or_eq_true, decide_eq_true_eq, not_or, not_le] at hno
        exact Int.le_sub_one_of_lt hno.2
  | release i =>
      simp only [step]
      split_ifs
      · exact hp.trans (permits_offers 1 _)
      · exact hp
  | setCapacity n =>
      have hbalance := h.balance
      have hn := hroom n rfl
      simp only [step, setCapacity]
      split_ifs
      · change 0 ≤ s.sem.permits + (n - s.sem.capacity)
        omega
      · exact hp.trans (permits_offers _ { s with sem := { s.sem with capacity := n } })
  | prepare | close => exact hp
  | cancel i =>
      simp only [step, cancel]
      split_ifs <;> exact hp
  | unlink i =>
      simp only [step, unlink]
      split_ifs <;> exact hp
  | wakeCancelled i =>
      simp only [step, wakeCancelled]
      split_ifs <;> exact hp
  | resume i =>
      simp only [step]
      split <;> exact hp

/-- The permits balance, a waiter that nobody has claimed finds none left, the queue is served in
order, and each task has its outcome once, with a permit that is held or released. A run that never
sets the capacity below the number of permits that are out keeps within it. -/
theorem semaphore_sound (capacity : Int) (es : List SemaphoreEvent) :
    (ofEvents capacity es).Sound ∧
    (0 ≤ capacity → ∀ e, Along step KeepsRoom (ofEvents capacity []) (es ++ [e]) →
      ((ofEvents capacity es).step e).outstanding ≤
        ((ofEvents capacity es).step e).sem.capacity) := by
  have hsound := sound_ofEvents capacity es
  refine ⟨hsound, fun hcapacity e hroom => ?_⟩
  have hinv : (ofEvents capacity (es ++ [e])).Sound ∧
      0 ≤ (ofEvents capacity (es ++ [e])).sem.permits :=
    hroom.invariant (I := fun s => s.Sound ∧ 0 ≤ s.sem.permits)
      ⟨sound_ofEvents capacity [], hcapacity⟩
      (fun s e hstep hi => ⟨hi.1.step e, permits_step hi.1 hstep hi.2⟩)
  rw [show ofEvents capacity (es ++ [e]) = (ofEvents capacity es).step e by simp [ofEvents]] at hinv
  have hbalance := hinv.1.balance
  omega

/-- A task that waits gets the permit that comes back. -/
theorem semaphore_sound_handed_over :
    (((ofEvents 1 [.acquire, .acquire]).step (.release 0)).outstanding : Int) ≤
      ((ofEvents 1 [.acquire, .acquire]).step (.release 0)).sem.capacity :=
  (semaphore_sound 1 [.acquire, .acquire]).2 (by decide) (.release 0)
    ⟨by simp [KeepsRoom], by simp [KeepsRoom], by simp [KeepsRoom], trivial⟩

/-- The capacity is set from two to one while two permits are out and a task waits. -/
def shrunk : List SemaphoreEvent := [.acquire, .acquire, .acquire, .setCapacity 1]

/-- The permit that comes back goes to the task that waits, and two are out again. -/
theorem semaphore_over_admits :
    (ofEvents 2 shrunk).Grants (.release 0) ∧
      ¬ (((ofEvents 2 shrunk).step (.release 0)).outstanding : Int) ≤
        ((ofEvents 2 shrunk).step (.release 0)).sem.capacity := by
  decide

end SemaphoreTasks

end Lights3
