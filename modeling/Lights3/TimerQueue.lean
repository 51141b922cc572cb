import Lights3.Lib.Runs
import Lights3.Lib.SortedMap

/-!
# The timer queue

`TimerQueue` of `core/timer.cc`. A timer is scheduled, then due, then taken by the thread that runs
the callbacks. Each step is one section under the mutex, or the start or the return of a callback. A
callback is a value that is handed on; while it runs, its thread makes calls like any other thread.
-/
namespace Lights3

structure DueItem (F : Type) where
  id : Nat
  deadline : Int
  fn : F

structure TimerQueue (F : Type) where
  /-- Ordered by deadline and id. -/
  items : SortedMap (Int ×ₗ Nat) F := .empty
  deadlines : SortedMap Nat Int := .empty
  due : List (DueItem F) := []
  nextId : Nat := 0
  runningId : Nat := 0
  stopping : Bool := false

namespace TimerQueue

variable {F : Type} (q : TimerQueue F)

/-- `add`; after shutdown the id is 0. -/
def add (now delay : Int) (fn : F) : TimerQueue F × Nat :=
  if q.stopping then (q, 0)
  else
    ({ q with
        nextId := q.nextId + 1
        items := q.items.insert (toLex (now + delay, q.nextId + 1)) fn
        deadlines := q.deadlines.insert (q.nextId + 1) (now + delay) }, q.nextId + 1)

def dueIds : List Nat := q.due.map DueItem.id

/-- `pending_locked`. -/
def pendingLocked (id : Nat) : Bool := q.runningId = id || id ∈ q.dueIds

/-- `cancel` up to its wait. There is no result yet if it has to wait. -/
def cancel (onFireThread : Bool) (id : Nat) : TimerQueue F × Option Bool :=
  match q.deadlines.get? id with
  | some deadline =>
      ({ q with
          items := q.items.erase (toLex (deadline, id))
          deadlines := q.deadlines.erase id }, some true)
  | none => if id ≠ 0 && !onFireThread && q.pendingLocked id then (q, none) else (q, some false)

/-- One round of `loop`. -/
def schedule (now : Int) : TimerQueue F :=
  if q.stopping then q
  else
    match q.items.entries with
    | [] => q
    | (key, fn) :: _ =>
        let (deadline, id) := ofLex key
        if now < deadline then q
        else
          { q with
            due := q.due ++ [⟨id, deadline, fn⟩]
            deadlines := q.deadlines.erase id
            items := q.items.erase key }

/-- The beginning of the destructor. -/
def stop : TimerQueue F := { q with stopping := true, due := [] }

variable {q}

/-- What one round of `loop` can do. -/
theorem schedule_cases (now : Int) :
    q.schedule now = q ∨ ∃ deadline id fn, q.items.get? (toLex (deadline, id)) = some fn ∧
      q.schedule now =
        { q with
          due := q.due ++ [⟨id, deadline, fn⟩]
          deadlines := q.deadlines.erase id
          items := q.items.erase (toLex (deadline, id)) } := by
  unfold schedule
  split_ifs with hstop
  · exact Or.inl rfl
  · cases hitems : q.items.entries with
    | nil => exact Or.inl rfl
    | cons e es =>
        obtain ⟨key, fn⟩ := e
        by_cases hnow : now < (ofLex key).1
        · exact Or.inl (if_pos hnow)
        · refine Or.inr ⟨(ofLex key).1, (ofLex key).2, fn, ?_, if_neg hnow⟩
          exact SortedMap.mem_entries.mp (by simp [hitems])

/-- What `cancel` can do before it waits. -/
theorem cancel_cases (onFireThread : Bool) (id : Nat) :
    (∃ deadline, q.deadlines.get? id = some deadline ∧ q.cancel onFireThread id =
      ({ q with
          items := q.items.erase (toLex (deadline, id))
          deadlines := q.deadlines.erase id }, some true)) ∨
    (q.deadlines.get? id = none ∧ id ≠ 0 ∧ onFireThread = false ∧ q.pendingLocked id = true ∧
      q.cancel onFireThread id = (q, none)) ∨
    (q.deadlines.get? id = none ∧ (id = 0 ∨ onFireThread = true ∨ q.pendingLocked id = false) ∧
      q.cancel onFireThread id = (q, some false)) := by
  unfold cancel
  cases hd : q.deadlines.get? id with
  | some deadline => exact Or.inl ⟨deadline, rfl, rfl⟩
  | none =>
      by_cases hwait : (id ≠ 0 && !onFireThread && q.pendingLocked id) = true
      · have hparts := hwait
        simp only [Bool.and_eq_true, Bool.not_eq_true', decide_eq_true_eq] at hparts
        exact Or.inr (Or.inl ⟨rfl, hparts.1.1, hparts.1.2, hparts.2, if_pos hwait⟩)
      · refine Or.inr (Or.inr ⟨rfl, ?_, if_neg hwait⟩)
        simpa [imp_iff_not_or, or_assoc] using hwait

end TimerQueue

/-! ## Threads -/

/-- Where the callback thread is in `fire_loop`. -/
inductive FirePhase (F : Type) where
  | idle
  /-- The item is taken and its callback not yet called. -/
  | taken (item : DueItem F)
  | calling (item : DueItem F)
  /-- The callback has returned. -/
  | called (item : DueItem F)

def FirePhase.item? {F : Type} : FirePhase F → Option (DueItem F)
  | idle => none
  | taken item | calling item | called item => some item

/-- Who calls: the callback that runs, or another thread. -/
inductive TimerCaller where
  | callback
  | thread (n : Nat)
  deriving DecidableEq

structure TimerThreads (F : Type) where
  queue : TimerQueue F := {}
  fire : FirePhase F := .idle
  /-- The ids that the threads wait for in `cancel`. -/
  waiting : SortedMap Nat Nat := .empty

inductive TimerEvent (F : Type) where
  | add (c : TimerCaller) (now delay : Int) (fn : F)
  | cancel (c : TimerCaller) (id : Nat)
  /-- A thread that waits in `cancel` looks again. -/
  | wake (n : Nat)
  | schedule (now : Int)
  | take
  | call
  | callReturns
  | settle
  | stop

namespace TimerThreads

variable {F : Type} (s : TimerThreads F)

/-- The caller is not inside a call. -/
def ready : TimerCaller → Bool
  | .callback => match s.fire with
      | .calling _ => true
      | _ => false
  | .thread n => (s.waiting.get? n).isNone

/-- A call of `cancel` that has to wait puts its thread to sleep. -/
def cancel (c : TimerCaller) (id : Nat) : TimerThreads F :=
  let x := s.queue.cancel (c = .callback) id
  match x.2, c with
  | none, .thread n => { s with queue := x.1, waiting := s.waiting.insert n id }
  | _, _ => { s with queue := x.1 }

def wake (n : Nat) : TimerThreads F :=
  match s.waiting.get? n with
  | some id => if s.queue.pendingLocked id then s else { s with waiting := s.waiting.erase n }
  | none => s

/-- `fire_loop` up to the call. -/
def take : TimerThreads F :=
  match s.fire, s.queue.due with
  | .idle, item :: due =>
      { s with
        queue := { s.queue with due := due, runningId := item.id }
        fire := .taken item }
  | _, _ => s

/-- An event that is not possible changes nothing. -/
def step : TimerEvent F → TimerThreads F
  | .add c now delay fn => if s.ready c then { s with queue := (s.queue.add now delay fn).1 } else s
  | .cancel c id => if s.ready c then s.cancel c id else s
  | .wake n => s.wake n
  | .schedule now => { s with queue := s.queue.schedule now }
  | .take => s.take
  | .call => match s.fire with
      | .taken item => { s with fire := .calling item }
      | _ => s
  | .callReturns => match s.fire with
      | .calling item => { s with fire := .called item }
      | _ => s
  | .settle => match s.fire with
      | .called _ => { s with queue := { s.queue with runningId := 0 }, fire := .idle }
      | _ => s
  | .stop => { s with queue := s.queue.stop }

/-- The call of `cancel` that the event ends: its caller, its id and its result. -/
def returned : TimerEvent F → Option (TimerCaller × Nat × Bool)
  | .cancel c id =>
      if s.ready c then (s.queue.cancel (c = .callback) id).2.map (fun r => (c, id, r)) else none
  | .wake n => match s.waiting.get? n with
      | some id => if s.queue.pendingLocked id then none else some (.thread n, id, false)
      | none => none
  | _ => none

/-- The callback that the event starts. -/
def started : TimerEvent F → Option Nat
  | .call => match s.fire with
      | .taken item => some item.id
      | _ => none
  | _ => none

/-- The callback that runs. -/
def running : Option Nat :=
  match s.fire with
  | .calling item => some item.id
  | _ => none

/-- The callback of `id` does not start along the run. -/
def NeverStarts (id : Nat) (s : TimerThreads F) (es : List (TimerEvent F)) : Prop :=
  Along step (fun s e => s.started e ≠ some id) s es

/-! ## Invariants -/

/-- The id is scheduled, due or with the callback thread. -/
def Holds (id : Nat) : Prop :=
  (s.queue.deadlines.get? id).isSome ∨ id ∈ s.queue.dueIds ∨ ∃ item ∈ s.fire.item?, item.id = id

/-- An id is in one place only, and ids are not given out twice. -/
structure Sound : Prop where
  items : ∀ deadline id, (s.queue.items.get? (toLex (deadline, id))).isSome →
    s.queue.deadlines.get? id = some deadline
  given : ∀ id, s.Holds id → 0 < id ∧ id ≤ s.queue.nextId
  due : ∀ id ∈ s.queue.dueIds, s.queue.deadlines.get? id = none
  nodup : s.queue.dueIds.Nodup
  fire : ∀ item ∈ s.fire.item?, s.queue.deadlines.get? item.id = none ∧ item.id ∉ s.queue.dueIds
  running : s.queue.runningId = (s.fire.item?.map (·.id)).getD 0
  waiting : ∀ n id, s.waiting.get? n = some id →
    id ≤ s.queue.nextId ∧ s.queue.deadlines.get? id = none

/-- The callback of `id` can start no more. -/
structure Spent (id : Nat) : Prop where
  given : id ≤ s.queue.nextId
  scheduled : s.queue.deadlines.get? id = none
  due : id ∉ s.queue.dueIds
  taken : ∀ item, s.fire = .taken item → item.id ≠ id

variable {s} {id : Nat}

theorem Sound.add (h : s.Sound) (now delay : Int) (fn : F) :
    Sound { s with queue := (s.queue.add now delay fn).1 } := by
  unfold TimerQueue.add
  split_ifs with hstop
  · exact h
  · have hnew : ∀ id, s.Holds id → id ≠ s.queue.nextId + 1 := by
      intro id hid
      have hle := (h.given id hid).2
      omega
    refine ⟨?_, ?_, ?_, h.nodup, ?_, h.running, ?_⟩
    · intro deadline id hget
      simp only [SortedMap.get?_insert, toLex_inj, Prod.mk.injEq] at hget ⊢
      by_cases hid : id = s.queue.nextId + 1
      · by_cases hd : deadline = now + delay
        · simp [hid, hd]
        · rw [if_neg (fun hc => hd hc.1)] at hget
          have hold : s.Holds id := Or.inl (by rw [h.items deadline id hget]; rfl)
          exact absurd hid (hnew id hold)
      · rw [if_neg (fun hc => hid hc.2)] at hget
        rw [if_neg hid]
        exact h.items deadline id hget
    · intro id hid
      by_cases hnext : id = s.queue.nextId + 1
      · exact ⟨by omega, le_of_eq hnext⟩
      · have hold : s.Holds id := by
          simpa [Holds, TimerQueue.dueIds, hnext] using hid
        exact ⟨(h.given id hold).1, Nat.le_succ_of_le (h.given id hold).2⟩
    · intro id hid
      rw [SortedMap.get?_insert, if_neg (hnew id (Or.inr (Or.inl hid)))]
      exact h.due id hid
    · intro item hitem
      rw [SortedMap.get?_insert, if_neg (hnew _ (Or.inr (Or.inr ⟨item, hitem, rfl⟩)))]
      exact h.fire item hitem
    · intro n id hn
      obtain ⟨hle, hnone⟩ := h.waiting n id hn
      rw [SortedMap.get?_insert, if_neg (by omega)]
      exact ⟨Nat.le_succ_of_le hle, hnone⟩

/-- A timer leaves the schedule. -/
theorem Sound.unschedule (h : s.Sound) {deadline : Int}
    (hid : s.queue.deadlines.get? id = some deadline) : Sound { s with queue :=
      { s.queue with
        items := s.queue.items.erase (toLex (deadline, id))
        deadlines := s.queue.deadlines.erase id } } := by
  refine ⟨?_, ?_, ?_, h.nodup, ?_, h.running, ?_⟩
  · intro d j hget
    simp only [SortedMap.get?_erase, toLex_inj, Prod.mk.injEq] at hget ⊢
    by_cases hkey : d = deadline ∧ j = id
    · rw [if_pos hkey] at hget
      cases hget
    · rw [if_neg hkey] at hget
      have hd := h.items d j hget
      rw [if_neg ?_]
      · exact hd
      · rintro rfl
        rw [hid] at hd
        exact hkey ⟨(Option.some.inj hd).symm, rfl⟩
  · intro j hj
    refine h.given j ?_
    rcases hj with hj | hj
    · obtain ⟨d, hd⟩ := Option.isSome_iff_exists.mp hj
      exact Or.inl (by rw [(SortedMap.get?_erase_some hd).2]; rfl)
    · exact Or.inr hj
  · intro j hj
    simp [h.due j hj]
  · intro item hitem
    exact ⟨by simp [(h.fire item hitem).1], (h.fire item hitem).2⟩
  · intro n j hn
    exact ⟨(h.waiting n j hn).1, by simp [(h.waiting n j hn).2]⟩

theorem Sound.schedule (h : s.Sound) (now : Int) :
    Sound { s with queue := s.queue.schedule now } := by
  rcases TimerQueue.schedule_cases (q := s.queue) now with heq | ⟨deadline, id, fn, hget, heq⟩
  · rw [heq]
    exact h
  · have hid := h.items deadline id (by simp [hget])
    have hnotDue : id ∉ s.queue.dueIds := fun hmem => by simp [h.due id hmem] at hid
    have hnotFire : ∀ item ∈ s.fire.item?, item.id ≠ id := by
      rintro item hitem rfl
      simp [(h.fire item hitem).1] at hid
    have h' := h.unschedule hid
    have hids : (s.queue.due ++ [DueItem.mk id deadline fn]).map DueItem.id =
        s.queue.dueIds ++ [id] := by
      simp [TimerQueue.dueIds]
    have hmem (j : Nat) (hj : j ∈ (s.queue.due ++ [DueItem.mk id deadline fn]).map DueItem.id) :
        j ∈ s.queue.dueIds ∨ j = id := by
      simpa [hids] using hj
    rw [heq]
    refine ⟨h'.items, ?_, ?_, ?_, ?_, h'.running, h'.waiting⟩
    · rintro j (hj | hj | hj)
      · exact h'.given j (Or.inl hj)
      · rcases hmem j hj with hj | rfl
        · exact h'.given j (Or.inr (Or.inl hj))
        · exact h.given j (Or.inl (by simp [hid]))
      · exact h'.given j (Or.inr (Or.inr hj))
    · intro j hj
      rcases hmem j hj with hj | rfl
      · exact h'.due j hj
      · simp
    · change ((s.queue.due ++ [DueItem.mk id deadline fn]).map DueItem.id).Nodup
      rw [hids]
      exact h.nodup.append (by simp) (by simpa using hnotDue)
    · intro item hitem
      refine ⟨(h'.fire item hitem).1, fun hj => ?_⟩
      rcases hmem _ hj with hj | hj
      · exact (h.fire item hitem).2 hj
      · exact hnotFire item hitem hj

theorem Sound.take (h : s.Sound) : s.take.Sound := by
  unfold TimerThreads.take
  split
  · next item due hfire hdue =>
    have hids : s.queue.dueIds = item.id :: due.map DueItem.id := by simp [TimerQueue.dueIds, hdue]
    have hnodup := h.nodup
    rw [hids, List.nodup_cons] at hnodup
    refine ⟨h.items, ?_, ?_, hnodup.2, ?_, rfl, h.waiting⟩
    · rintro id (hid | hid | ⟨item', hitem, rfl⟩)
      · exact h.given id (Or.inl hid)
      · exact h.given id (Or.inr (Or.inl (by rw [hids]; exact List.mem_cons_of_mem _ hid)))
      · cases hitem
        exact h.given item.id (Or.inr (Or.inl (by simp [hids])))
    · exact fun id hid => h.due id (by rw [hids]; exact List.mem_cons_of_mem _ hid)
    · rintro item' hitem
      cases hitem
      exact ⟨h.due item.id (by simp [hids]), hnodup.1⟩
  · exact h

/-- The callback thread moves on with its item. -/
theorem Sound.advance (h : s.Sound) {fire : FirePhase F} (hfire : fire.item? = s.fire.item?) :
    Sound { s with fire := fire } :=
  ⟨h.items, fun id hid => h.given id (by simpa only [Holds, hfire] using hid), h.due, h.nodup,
    fun item hitem => h.fire item (hfire ▸ hitem), by rw [hfire]; exact h.running, h.waiting⟩

theorem Sound.settle (h : s.Sound) :
    Sound { s with queue := { s.queue with runningId := 0 }, fire := .idle } := by
  refine ⟨h.items, ?_, h.due, h.nodup, ?_, rfl, h.waiting⟩
  · rintro id (hid | hid | ⟨item, hitem, -⟩)
    · exact h.given id (Or.inl hid)
    · exact h.given id (Or.inr (Or.inl hid))
    · cases hitem
  · rintro item hitem
    cases hitem

theorem Sound.stop (h : s.Sound) : Sound { s with queue := s.queue.stop } := by
  refine ⟨h.items, ?_, ?_, List.nodup_nil, ?_, h.running, h.waiting⟩
  · rintro id (hid | hid | hid)
    · exact h.given id (Or.inl hid)
    · cases hid
    · exact h.given id (Or.inr (Or.inr hid))
  · rintro id hid
    cases hid
  · exact fun item hitem => ⟨(h.fire item hitem).1, List.not_mem_nil⟩

theorem Sound.wait (h : s.Sound) {n : Nat} (hgiven : id ≤ s.queue.nextId)
    (hnone : s.queue.deadlines.get? id = none) :
    Sound { s with waiting := s.waiting.insert n id } := by
  refine { h with waiting := fun m j hm => ?_ }
  rcases SortedMap.get?_insert_cases hm with ⟨-, rfl⟩ | ⟨-, hold⟩
  · exact ⟨hgiven, hnone⟩
  · exact h.waiting m j hold

theorem Sound.wake (h : s.Sound) (n : Nat) : (s.wake n).Sound := by
  have herase : Sound { s with waiting := s.waiting.erase n } :=
    ⟨h.items, h.given, h.due, h.nodup, h.fire, h.running,
      fun m j hm => h.waiting m j (SortedMap.get?_erase_some hm).2⟩
  unfold TimerThreads.wake
  split
  · split_ifs
    · exact h
    · exact herase
  · exact h

/-- What is pending has been given out. -/
theorem Sound.pending (h : s.Sound) (hne : id ≠ 0) (hp : s.queue.pendingLocked id = true) :
    s.Holds id := by
  simp only [TimerQueue.pendingLocked, Bool.or_eq_true, decide_eq_true_eq] at hp
  rcases hp with hrun | hdue
  · rw [h.running] at hrun
    cases hitem : s.fire.item? with
    | none =>
        rw [hitem] at hrun
        exact absurd hrun.symm hne
    | some item =>
        rw [hitem] at hrun
        exact Or.inr (Or.inr ⟨item, hitem, hrun⟩)
  · exact Or.inr (Or.inl hdue)

theorem Sound.cancel (h : s.Sound) (c : TimerCaller) (id : Nat) : (s.cancel c id).Sound := by
  unfold TimerThreads.cancel
  rcases TimerQueue.cancel_cases (q := s.queue) (c = .callback) id with
    ⟨deadline, hid, heq⟩ | ⟨hnone, hne, hc, hp, heq⟩ | ⟨-, -, heq⟩
  · rw [heq]
    cases c <;> exact h.unschedule hid
  · rw [heq]
    cases c with
    | callback => exact h
    | thread n => exact h.wait (h.given id (h.pending hne hp)).2 hnone
  · rw [heq]
    cases c <;> exact h

theorem Sound.step (h : s.Sound) (e : TimerEvent F) : (s.step e).Sound := by
  cases e with
  | add c now delay fn =>
      simp only [TimerThreads.step]
      split_ifs
      · exact h.add now delay fn
      · exact h
  | cancel c id =>
      simp only [TimerThreads.step]
      split_ifs
      · exact h.cancel c id
      · exact h
  | wake n => exact h.wake n
  | schedule now => exact h.schedule now
  | take => exact h.take
  | call | callReturns =>
      simp only [TimerThreads.step]
      split
      · next item hfire => exact h.advance (by rw [hfire]; rfl)
      · exact h
  | settle =>
      simp only [TimerThreads.step]
      split
      · exact h.settle
      · exact h
  | stop => exact h.stop

theorem sound_init : Sound ({} : TimerThreads F) := by
  refine ⟨by simp, ?_, by simp [TimerQueue.dueIds], by simp [TimerQueue.dueIds],
    by simp [FirePhase.item?],
    rfl, by simp⟩
  intro id hid
  simp [Holds, TimerQueue.dueIds, FirePhase.item?] at hid

/-! ## What can start no more -/

theorem Spent.schedule (h : s.Sound) (hs : s.Spent id) (now : Int) :
    Spent { s with queue := s.queue.schedule now } id := by
  rcases TimerQueue.schedule_cases (q := s.queue) now with heq | ⟨deadline, j, fn, hget, heq⟩
  · rw [heq]
    exact hs
  · have hj := h.items deadline j (by simp [hget])
    have hne : id ≠ j := by
      rintro rfl
      simp [hs.scheduled] at hj
    rw [heq]
    refine ⟨hs.given, by simp [hs.scheduled], ?_, hs.taken⟩
    have hdue := hs.due
    simp only [TimerQueue.dueIds, List.map_append, List.map_cons, List.map_nil, List.mem_append,
      List.mem_singleton, not_or] at hdue ⊢
    exact ⟨hdue, hne⟩

theorem Spent.take (hs : s.Spent id) : s.take.Spent id := by
  unfold TimerThreads.take
  split
  · next item due hfire hdue =>
    have hids : s.queue.dueIds = item.id :: due.map DueItem.id := by simp [TimerQueue.dueIds, hdue]
    have hnot := hs.due
    rw [hids, List.mem_cons, not_or] at hnot
    refine ⟨hs.given, hs.scheduled, hnot.2, fun item' hitem => ?_⟩
    cases hitem
    exact Ne.symm hnot.1
  · exact hs

theorem Spent.cancel (hs : s.Spent id) (c : TimerCaller) (j : Nat) : (s.cancel c j).Spent id := by
  have hkeep {q : TimerQueue F} {w : SortedMap Nat Nat} (hnext : q.nextId = s.queue.nextId)
      (hd : q.deadlines.get? id = none) (hdue : q.due = s.queue.due) :
      Spent { s with queue := q, waiting := w } id :=
    ⟨hnext ▸ hs.given, hd, by simpa only [TimerQueue.dueIds, hdue] using hs.due, hs.taken⟩
  unfold TimerThreads.cancel
  rcases TimerQueue.cancel_cases (q := s.queue) (c = .callback) j with
    ⟨deadline, -, heq⟩ | ⟨-, -, -, -, heq⟩ | ⟨-, -, heq⟩
  · rw [heq]
    cases c <;> exact hkeep rfl (by simp [hs.scheduled]) rfl
  · rw [heq]
    cases c <;> exact hkeep rfl hs.scheduled rfl
  · rw [heq]
    cases c <;> exact hkeep rfl hs.scheduled rfl

theorem Spent.step (h : s.Sound) (hs : s.Spent id) (e : TimerEvent F) : (s.step e).Spent id := by
  cases e with
  | add c now delay fn =>
      simp only [TimerThreads.step, TimerQueue.add]
      split_ifs
      · exact hs
      · refine ⟨Nat.le_succ_of_le hs.given, ?_, hs.due, hs.taken⟩
        rw [SortedMap.get?_insert, if_neg (by have := hs.given; omega)]
        exact hs.scheduled
      · exact hs
  | cancel c j =>
      simp only [TimerThreads.step]
      split_ifs
      · exact hs.cancel c j
      · exact hs
  | wake n =>
      simp only [TimerThreads.step, TimerThreads.wake]
      split
      · split_ifs
        · exact hs
        · exact { hs with }
      · exact hs
  | schedule now => exact hs.schedule h now
  | take => exact hs.take
  | call | callReturns =>
      simp only [TimerThreads.step]
      split
      · exact { hs with taken := by simp }
      · exact hs
  | settle =>
      simp only [TimerThreads.step]
      split
      · exact { hs with taken := by simp }
      · exact hs
  | stop => exact { hs with due := List.not_mem_nil }

/-- What an event starts was taken. -/
theorem started_eq_some {e : TimerEvent F} (h : s.started e = some id) :
    e = .call ∧ ∃ item, s.fire = .taken item ∧ item.id = id := by
  cases e with
  | call =>
      cases hfire : s.fire with
      | taken item => exact ⟨rfl, item, rfl, by simpa [started, hfire] using h⟩
      | idle | calling | called => simp [started, hfire] at h
  | add | cancel | wake | schedule | take | callReturns | settle | stop => cases h

theorem Spent.neverStarts (h : s.Sound) (hs : s.Spent id) (es : List (TimerEvent F)) :
    NeverStarts id s es := by
  refine Along.imp_of_invariant (R := fun _ _ => True) (I := fun s => s.Sound ∧ s.Spent id)
    (Along.of_forall (fun _ _ => trivial) s es) ⟨h, hs⟩ ?_ ?_
  · exact fun s e _ hi => ⟨hi.1.step e, hi.2.step hi.1 e⟩
  · intro s e _ hi hstart
    obtain ⟨-, item, hfire, hid⟩ := started_eq_some hstart
    exact hi.2.taken item hfire hid

theorem sound_run (h : s.Sound) (es : List (TimerEvent F)) : (es.foldl step s).Sound := by
  induction es generalizing s with
  | nil => exact h
  | cons e es ih => exact ih (h.step e)

/-- A callback that starts is spent. -/
theorem spent_of_started (h : s.Sound) {e : TimerEvent F} (he : s.started e = some id) :
    (s.step e).Spent id := by
  obtain ⟨rfl, item, hfire, rfl⟩ := started_eq_some he
  have hitem : item ∈ s.fire.item? := by simp [hfire, FirePhase.item?]
  simp only [step, hfire]
  exact ⟨(h.given item.id (Or.inr (Or.inr ⟨item, hitem, rfl⟩))).2, (h.fire item hitem).1,
    (h.fire item hitem).2, by simp⟩

theorem neverStarts_or_spent (h : s.Sound) (es : List (TimerEvent F)) :
    NeverStarts id s es ∨ (es.foldl step s).Spent id := by
  induction es generalizing s with
  | nil => exact Or.inl trivial
  | cons e es ih =>
      by_cases he : s.started e = some id
      · right
        have hi : (s.step e).Sound ∧ (s.step e).Spent id := ⟨h.step e, spent_of_started h he⟩
        have hrun : Along step (fun _ _ => True) (s.step e) es :=
          Along.of_forall (fun _ _ => trivial) _ es
        exact (hrun.invariant (I := fun s => s.Sound ∧ s.Spent id) hi
          (fun s e _ hi => ⟨hi.1.step e, hi.2.step hi.1 e⟩)).2
      · exact (ih (h.step e)).imp (fun hes => ⟨he, hes⟩) (fun hs => hs)

/-! ## The barrier -/

theorem spent_unschedule (h : s.Sound) {deadline : Int}
    (hid : s.queue.deadlines.get? id = some deadline) (w : SortedMap Nat Nat) :
    Spent { s with
      queue := { s.queue with
        items := s.queue.items.erase (toLex (deadline, id))
        deadlines := s.queue.deadlines.erase id }
      waiting := w } id := by
  refine ⟨(h.given id (Or.inl (by simp [hid]))).2, by simp, fun hmem => ?_, ?_⟩
  · have hnone := h.due id hmem
    rw [hid] at hnone
    cases hnone
  · rintro item hfire rfl
    have hnone := (h.fire item (by simp [show s.fire = .taken item from hfire, FirePhase.item?])).1
    rw [hid] at hnone
    cases hnone

theorem running_of_ready (h : s.ready .callback = true) : s.running.isSome := by
  unfold ready at h
  unfold running
  cases hfire : s.fire <;> simp [hfire] at h ⊢

/-- What a call of `cancel` that returns has seen. -/
theorem returned_cases (h : s.Sound) {e : TimerEvent F} {c : TimerCaller} {r : Bool}
    (hret : s.returned e = some (c, id, r)) :
    (r = true ∧ (s.queue.deadlines.get? id).isSome ∧ (s.step e).Spent id ∧
      (s.step e).fire = s.fire) ∨
    (r = false ∧ (s.step e).queue = s.queue ∧ (s.step e).fire = s.fire ∧
      s.queue.deadlines.get? id = none ∧
      (id = 0 ∨ (c = .callback ∧ s.running.isSome) ∨ s.queue.pendingLocked id = false)) := by
  cases e with
  | cancel c' j =>
      simp only [returned, step] at hret ⊢
      split_ifs at hret ⊢ with hready
      unfold TimerThreads.cancel
      rcases TimerQueue.cancel_cases (q := s.queue) (c' = .callback) j with
        ⟨deadline, hid, heq⟩ | ⟨-, -, -, -, heq⟩ | ⟨hnone, hwhy, heq⟩
      · rw [heq] at hret ⊢
        cases hret
        exact Or.inl ⟨rfl, by simp [hid], by cases c <;> exact spent_unschedule h hid _,
          by cases c <;> rfl⟩
      · rw [heq] at hret
        cases hret
      · rw [heq] at hret ⊢
        cases hret
        refine Or.inr ⟨rfl, by cases c <;> rfl, by cases c <;> rfl, hnone, ?_⟩
        refine hwhy.imp_right (Or.imp_left fun hc => ?_)
        cases of_decide_eq_true hc
        exact ⟨rfl, running_of_ready hready⟩
  | wake n =>
      simp only [returned, step, TimerThreads.wake] at hret ⊢
      cases hwait : s.waiting.get? n with
      | none => simp [hwait] at hret
      | some j =>
          simp only [hwait] at hret ⊢
          split_ifs at hret ⊢ with hp
          cases hret
          exact Or.inr ⟨rfl, rfl, rfl, (h.waiting n id hwait).2,
            Or.inr (Or.inr (by simpa using hp))⟩
  | add | schedule | take | call | callReturns | settle | stop => cases hret

/-- The callback of a due timer starts when the callbacks before it have run. -/
theorem due_starts (hfire : s.fire = .idle) (hdue : id ∈ s.queue.dueIds) :
    ∃ es, ¬ NeverStarts id s es := by
  obtain ⟨due, hq⟩ : ∃ due, s.queue.due = due := ⟨_, rfl⟩
  induction due generalizing s with
  | nil => simp [TimerQueue.dueIds, hq] at hdue
  | cons item due ih =>
      have htake : s.step .take =
          { s with
            queue := { s.queue with due := due, runningId := item.id }
            fire := .taken item } := by
        simp only [step, TimerThreads.take, hfire, hq]
      by_cases hid : item.id = id
      · refine ⟨[.take, .call], fun hnever => hnever.2.1 ?_⟩
        rw [htake]
        exact congrArg some hid
      · have hrest : id ∈ due.map DueItem.id := by
          have hmem := hdue
          simp only [TimerQueue.dueIds, hq, List.map_cons, List.mem_cons] at hmem
          exact hmem.resolve_left (Ne.symm hid)
        let round : List (TimerEvent F) := [.take, .call, .callReturns, .settle]
        have hround : round.foldl step s =
            { s with queue := { s.queue with due := due, runningId := 0 }, fire := .idle } := by
          rw [List.foldl_cons, htake]
          rfl
        obtain ⟨es, hes⟩ :=
          ih (s := round.foldl step s) (by rw [hround]) (by rw [hround]; exact hrest)
          (by rw [hround])
        exact ⟨round ++ es, fun hnever => hes (Along.append.mp hnever).2⟩

theorem due_starts_of_calling {item : DueItem F} (hfire : s.fire = .calling item)
    (hdue : id ∈ s.queue.dueIds) : ∃ es, ¬ NeverStarts id s es := by
  let back : List (TimerEvent F) := [.callReturns, .settle]
  have hback : back.foldl step s =
      { s with queue := { s.queue with runningId := 0 }, fire := .idle } := by
    simp only [back, List.foldl_cons, List.foldl_nil, step, hfire]
  obtain ⟨es, hes⟩ :=
    due_starts (s := back.foldl step s) (by rw [hback]) (by rw [hback]; exact hdue)
  exact ⟨back ++ es, fun hnever => hes (Along.append.mp hnever).2⟩

/-- Threads that started with an empty queue. -/
def ofEvents (es : List (TimerEvent F)) : TimerThreads F := es.foldl step {}

/-- The callback that runs has its item with the callback thread. -/
theorem running_eq_some (h : s.running = some id) :
    ∃ item, s.fire = .calling item ∧ item.id = id := by
  unfold running at h
  cases hfire : s.fire with
  | calling item => exact ⟨item, rfl, by simpa [hfire] using h⟩
  | idle | taken | called => simp [hfire] at h

/-- When `cancel` has returned the callback does not start, except if a callback has cancelled
another timer that is due. The callback does not run then unless it is the caller, and if the result
is true it never starts. -/
theorem cancel_barrier (es : List (TimerEvent F)) (e : TimerEvent F) {c : TimerCaller} {r : Bool}
    (hret : (ofEvents es).returned e = some (c, id, r)) (hid : id ≤ (ofEvents es).queue.nextId) :
    ((∀ later, NeverStarts id ((ofEvents es).step e) later) ↔
      ¬ (c = .callback ∧ id ∈ (ofEvents es).queue.dueIds)) ∧
    (¬ (c = .callback ∧ (ofEvents es).running = some id) →
      ((ofEvents es).step e).running ≠ some id) ∧
    (r = true → ∀ later, NeverStarts id {} (es ++ e :: later)) := by
  have h : (ofEvents es).Sound := sound_run sound_init es
  have hbefore : NeverStarts id {} es ∨ (ofEvents es).Spent id := neverStarts_or_spent sound_init es
  have happend (later : List (TimerEvent F)) : NeverStarts id {} (es ++ e :: later) ↔
      NeverStarts id {} es ∧ NeverStarts id (ofEvents es) (e :: later) := Along.append
  generalize ofEvents es = s at *
  have hstart : s.started e ≠ some id := by
    intro hs
    cases (started_eq_some hs).1
    cases hret
  -- the callback thread holds only what is neither scheduled nor due
  have hheld (item : DueItem F) (hitem : s.fire.item? = some item) (heq : item.id = id) :
      0 < id ∧ s.queue.deadlines.get? id = none ∧ s.queue.pendingLocked id = true := by
    subst heq
    refine ⟨(h.given _ (Or.inr (Or.inr ⟨item, hitem, rfl⟩))).1, (h.fire item hitem).1, ?_⟩
    simp [TimerQueue.pendingLocked, h.running, hitem]
  have hrunning (hr : s.running = some id) :
      0 < id ∧ s.queue.deadlines.get? id = none ∧ s.queue.pendingLocked id = true := by
    obtain ⟨item, hfire, heq⟩ := running_eq_some hr
    exact hheld item (by simp [hfire, FirePhase.item?]) heq
  rcases returned_cases h hret with ⟨rfl, hsome, hspent, hfire⟩ | ⟨rfl, hqueue, hfire, hnone, hwhy⟩
  · have hnever := hspent.neverStarts (h.step e)
    refine ⟨⟨fun _ hdue => ?_, fun _ => hnever⟩, fun _ hr => ?_, fun _ later => ?_⟩
    · rw [h.due id hdue.2] at hsome
      cases hsome
    · have hr' : s.running = some id := by rw [← hr, running, running, hfire]
      rw [(hrunning hr').2.1] at hsome
      cases hsome
    · refine (happend later).mpr ⟨hbefore.resolve_right fun hs => ?_, hstart, hnever later⟩
      rw [hs.scheduled] at hsome
      cases hsome
  · refine ⟨⟨fun hnever hdue => ?_, fun hdue => ?_⟩, fun hself hr => ?_, fun hr => ?_⟩
    · -- the callback returns, and those of the timers before run
      obtain ⟨hc, hmem⟩ := hdue
      obtain ⟨j, hj⟩ : ∃ j, s.running = some j := by
        rcases hwhy with rfl | ⟨-, hrun⟩ | hp
        · exact absurd (h.given 0 (Or.inr (Or.inl hmem))).1 (lt_irrefl 0)
        · exact Option.isSome_iff_exists.mp hrun
        · simp [TimerQueue.pendingLocked, hmem] at hp
      obtain ⟨item, hcalling, -⟩ := running_eq_some hj
      obtain ⟨later, hlater⟩ := due_starts_of_calling (s := s.step e) (hfire.trans hcalling)
        (by rw [hqueue]; exact hmem)
      exact hlater (hnever later)
    · refine Spent.neverStarts (h.step e)
        ⟨by rw [hqueue]; exact hid, by rw [hqueue]; exact hnone, ?_, ?_⟩
      · rw [hqueue]
        intro hmem
        rcases hwhy with rfl | ⟨hc, -⟩ | hp
        · exact absurd (h.given 0 (Or.inr (Or.inl hmem))).1 (lt_irrefl 0)
        · exact hdue ⟨hc, hmem⟩
        · simp [TimerQueue.pendingLocked, hmem] at hp
      · intro item htaken heq
        rw [hfire] at htaken
        obtain ⟨hpos, -, hpending⟩ := hheld item (by simp [htaken, FirePhase.item?]) heq
        rcases hwhy with rfl | ⟨-, hrun⟩ | hp
        · exact absurd hpos (lt_irrefl 0)
        · simp [running, htaken] at hrun
        · simp [hpending] at hp
    · have hr' : s.running = some id := by rw [← hr, running, running, hfire]
      obtain ⟨hpos, -, hpending⟩ := hrunning hr'
      rcases hwhy with rfl | ⟨hc, -⟩ | hp
      · exact absurd hpos (lt_irrefl 0)
      · exact hself ⟨hc, hr'⟩
      · simp [hpending] at hp
    · cases hr

/-- Two timers are due, and the first callback runs. -/
def twoDue : List (TimerEvent Unit) :=
  [.add (.thread 0) 0 1 (), .add (.thread 0) 0 1 (), .schedule 1, .schedule 1, .take, .call]

/-- The callback of the second timer starts after it was cancelled. -/
theorem cancel_barrier_broken :
    (ofEvents twoDue).returned (.cancel .callback 2) = some (.callback, 2, false) ∧
      ¬ NeverStarts 2 ((ofEvents twoDue).step (.cancel .callback 2))
        [.callReturns, .settle, .take, .call] := by
  constructor
  · decide
  · intro h
    exact absurd h.2.2.2.1 (by decide)

/-- Another thread waits for the second callback. -/
def twoCalled : List (TimerEvent Unit) :=
  twoDue ++ [.cancel (.thread 0) 2, .callReturns, .settle, .take, .call, .callReturns, .settle]

theorem cancel_barrier_waited :
    (ofEvents twoCalled).returned (.wake 0) = some (.thread 0, 2, false) ∧
      ∀ later, NeverStarts 2 ((ofEvents twoCalled).step (.wake 0)) later := by
  have hret : (ofEvents twoCalled).returned (.wake 0) = some (.thread 0, 2, false) := by decide
  exact ⟨hret, (cancel_barrier twoCalled (.wake 0) hret (by decide)).1.mpr (by decide)⟩

/-- However a run is cut in two, the callback of a timer starts on one side at most; and as long as
the timer is due, it can still start. -/
theorem callback_starts_once (es later : List (TimerEvent F)) :
    (NeverStarts id {} es ∨ NeverStarts id (ofEvents es) later) ∧
    (id ∈ (ofEvents es).queue.dueIds → ∃ next, ¬ NeverStarts id (ofEvents es) next) := by
  constructor
  · exact (neverStarts_or_spent sound_init es).imp_right fun hs =>
      hs.neverStarts (sound_run sound_init es) later
  · intro hdue
    generalize ofEvents es = s at hdue
    let back : List (TimerEvent F) := [.call, .callReturns, .settle]
    have hback : (back.foldl step s).fire = .idle ∧ (back.foldl step s).queue.dueIds =
        s.queue.dueIds := by
      cases hfire : s.fire <;> simp [back, step, hfire, TimerQueue.dueIds]
    obtain ⟨es, hes⟩ := due_starts hback.1 (hback.2 ▸ hdue)
    exact ⟨back ++ es, fun hnever => hes (Along.append.mp hnever).2⟩

end TimerThreads

end Lights3
