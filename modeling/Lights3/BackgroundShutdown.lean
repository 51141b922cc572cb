import Mathlib.Tactic

/-!
# Shutting a background runner down

`BackgroundTaskGroup` of `core/background.h` with the timer and the passes of `LifecycleRunner`
(`s3/lifecycle.cc`); `MaintenanceRunner` has the same three functions. A step is a section under the
mutex of the group or of the timer queue, or a move of a callback or of a pass between two of them.
A pass runs from the launch of its coroutine to its re-arming; after that the coroutine only has to
come to its end. `TimerQueue::cancel` takes the timer out of the queue, or returns once the callback
of the timer has.
-/
namespace Lights3

/-- Where `shutdown_background` is. -/
inductive ShutdownPhase where
  | idle
  | closing
  /-- In `TimerQueue::cancel`, with the id that it was called with. -/
  | cancelling (id : Nat)
  | waiting
  | returned
  deriving DecidableEq

structure BackgroundRunner where
  /-- The fields of the task group. -/
  closing : Bool := false
  count : Int := 0
  /-- `start_background` was called. -/
  started : Bool := false
  scanTimer : Nat := 0
  /-- The id of the next timer. -/
  nextTimer : Nat := 1
  /-- The timers of the runner in the timer queue. -/
  armed : List Nat := []
  /-- The callbacks that are running, by their timers: before `spawn`, between its section and the
  launch of the coroutine, and after that. -/
  fired : List Nat := []
  spawning : List Nat := []
  leaving : List Nat := []
  /-- The passes: in `run_once`, before the section of `schedule_scan`, and at the end of the
  coroutine. -/
  scanning : Nat := 0
  rearming : Nat := 0
  ending : Nat := 0
  shutdown : ShutdownPhase := .idle

inductive BackgroundEvent where
  | start
  /-- The timer is due. -/
  | fire (id : Nat)
  /-- The section of `spawn`, and the launch, which fails if there is no memory for the frame. -/
  | spawn (id : Nat)
  | launch (id : Nat) (ok : Bool)
  | leave (id : Nat)
  /-- A pass is through, or is given up before it comes to the re-arming. -/
  | scanned (rearms : Bool)
  | rearm
  | finish
  | beginClose
  | readTimer
  | cancel
  | waitIdle

namespace BackgroundRunner

variable (interval : Int) (r : BackgroundRunner)

/-- `schedule_scan`. -/
def scheduleScan : BackgroundRunner :=
  if interval ≤ 0 ∨ r.closing then r
  else { r with scanTimer := r.nextTimer, nextTimer := r.nextTimer + 1,
                armed := r.nextTimer :: r.armed }

/-- The section of `BackgroundTaskGroup::spawn`; a callback that is refused is done. -/
def spawnSection (id : Nat) : BackgroundRunner :=
  if r.closing then { r with fired := r.fired.erase id, leaving := id :: r.leaving }
  else { r with fired := r.fired.erase id, count := r.count + 1, spawning := id :: r.spawning }

/-- The launch; without a frame the count goes down again. -/
def launchPass (id : Nat) (ok : Bool) : BackgroundRunner :=
  let r := { r with spawning := r.spawning.erase id, leaving := id :: r.leaving }
  if ok then { r with scanning := r.scanning + 1 } else { r with count := r.count - 1 }

/-- Whether the callback of the timer is still running. -/
def callbackRuns (id : Nat) : Bool := id ∈ r.fired || id ∈ r.spawning || id ∈ r.leaving

def step : BackgroundEvent → BackgroundRunner
  | .start => if r.started then r else { r with started := true }.scheduleScan interval
  | .fire id =>
      if id ∈ r.armed then { r with armed := r.armed.erase id, fired := id :: r.fired } else r
  | .spawn id => if id ∈ r.fired then r.spawnSection id else r
  | .launch id ok => if id ∈ r.spawning then r.launchPass id ok else r
  | .leave id => { r with leaving := r.leaving.erase id }
  | .scanned rearms =>
      if 0 < r.scanning then
        if rearms then { r with scanning := r.scanning - 1, rearming := r.rearming + 1 }
        else { r with scanning := r.scanning - 1, ending := r.ending + 1 }
      else r
  | .rearm =>
      if 0 < r.rearming then
        { r with rearming := r.rearming - 1, ending := r.ending + 1 }.scheduleScan interval
      else r
  -- `on_done`
  | .finish => if 0 < r.ending then { r with ending := r.ending - 1, count := r.count - 1 } else r
  | .beginClose =>
      if r.shutdown = .idle then { r with closing := true, shutdown := .closing } else r
  | .readTimer =>
      if r.shutdown = .closing then { r with shutdown := .cancelling r.scanTimer } else r
  | .cancel =>
      match r.shutdown with
      | .cancelling id =>
          if id ∈ r.armed then { r with armed := r.armed.erase id, shutdown := .waiting }
          else if r.callbackRuns id then r
          else { r with shutdown := .waiting }
      | _ => r
  | .waitIdle => if r.shutdown = .waiting ∧ r.count = 0 then { r with shutdown := .returned } else r

/-- The timer that is armed, the callback that will spawn a pass, or the pass that will arm the
timer again. -/
def turns : Nat := r.armed.length + r.fired.length + r.spawning.length + r.scanning + r.rearming

attribute [local simp] turns

/-- There is at most one of them, the count is that of the coroutines, and shutting down leaves none
behind. -/
structure Sound : Prop where
  one : r.turns ≤ if r.started then 1 else 0
  counted : r.count = r.spawning.length + r.scanning + r.rearming + r.ending
  current : ∀ id ∈ r.armed ++ r.fired, id = r.scanTimer
  closed : r.shutdown ≠ .idle → r.closing = true
  cancelling : ∀ id, r.shutdown = .cancelling id → id = r.scanTimer
  cancelled : r.shutdown = .waiting ∨ r.shutdown = .returned → r.armed = [] ∧ r.fired = []
  returned : r.shutdown = .returned → r.count = 0

variable {interval r}

theorem Sound.initial : ({} : BackgroundRunner).Sound := by
  constructor <;> simp

/-- The section that arms the timer, entered when nothing else of the runner leads to a pass. -/
theorem Sound.schedule (h : r.Sound) (hnone : r.turns = 0) (hstarted : r.started = true) :
    (r.scheduleScan interval).Sound := by
  unfold scheduleScan
  split
  · exact h
  next hopen =>
    have hidle : r.shutdown = .idle := by
      by_contra hshutdown
      exact hopen (.inr (h.closed hshutdown))
    unfold turns at hnone
    have harmed : r.armed = [] := List.length_eq_zero_iff.mp (by omega)
    have hfired : r.fired = [] := List.length_eq_zero_iff.mp (by omega)
    exact { h with
      one := by
        simp only [turns, hstarted, List.length_cons, if_true]
        omega
      current := by simp [harmed, hfired]
      cancelling := by simp [hidle]
      cancelled := by simp [hidle] }

theorem Sound.spawn (h : r.Sound) {id : Nat} (hid : id ∈ r.fired) : (r.spawnSection id).Sound := by
  have hlen := List.length_erase_of_mem hid
  have hpos := List.length_pos_of_mem hid
  have hone := h.one
  have hcounted := h.counted
  have hcurrent : ∀ x ∈ r.armed ++ r.fired.erase id, x = r.scanTimer := fun x hx =>
    h.current x ((List.erase_sublist.append_left _).subset hx)
  have hnot : ¬ (r.shutdown = .waiting ∨ r.shutdown = .returned) := fun hdone => by
    rw [(h.cancelled hdone).2] at hid
    cases hid
  unfold turns at hone
  unfold spawnSection
  split
  · exact { h with
      one := by
        simp only [turns, hlen]
        omega
      current := hcurrent
      cancelled := fun hdone => absurd hdone hnot }
  · exact { h with
      one := by
        simp only [turns, hlen, List.length_cons]
        omega
      counted := by
        simp only [List.length_cons]
        push_cast
        omega
      current := hcurrent
      cancelled := fun hdone => absurd hdone hnot
      returned := fun hdone => absurd (.inr hdone) hnot }

theorem Sound.launch (h : r.Sound) {id : Nat} (hid : id ∈ r.spawning) (ok : Bool) :
    (r.launchPass id ok).Sound := by
  have hlen := List.length_erase_of_mem hid
  have hpos := List.length_pos_of_mem hid
  have hone := h.one
  have hcounted := h.counted
  have hnot : r.shutdown ≠ .returned := fun hdone => by
    have := h.returned hdone
    omega
  unfold turns at hone
  unfold launchPass
  dsimp only
  split
  · exact { h with
      one := by
        simp only [turns, hlen]
        omega
      counted := by
        simp only [hlen]
        omega }
  · exact { h with
      one := by
        simp only [turns, hlen]
        omega
      counted := by
        simp only [hlen]
        omega
      returned := fun hdone => absurd hdone hnot }

theorem Sound.step (h : r.Sound) (e : BackgroundEvent) : (r.step interval e).Sound := by
  have hone := h.one
  have hcounted := h.counted
  unfold turns at hone
  cases e with
  | start =>
      simp only [BackgroundRunner.step]
      split
      · exact h
      next hstarted =>
        rw [if_neg hstarted] at hone
        exact Sound.schedule { h with one := by simp only [turns, if_true]; omega }
          (by simp only [turns]; omega) rfl
  | fire id =>
      simp only [BackgroundRunner.step]
      split
      next hid =>
        have hlen := List.length_erase_of_mem hid
        have hpos := List.length_pos_of_mem hid
        exact { h with
          one := by
            simp only [turns, hlen, List.length_cons]
            omega
          current := fun x hx => by
            rcases List.mem_append.mp hx with hx | hx
            · exact h.current x (List.mem_append_left _ (List.mem_of_mem_erase hx))
            · rcases List.mem_cons.mp hx with rfl | hx
              · exact h.current x (List.mem_append_left _ hid)
              · exact h.current x (List.mem_append_right _ hx)
          cancelled := fun hdone => by
            rw [(h.cancelled hdone).1] at hid
            cases hid }
      · exact h
  | spawn id =>
      simp only [BackgroundRunner.step]
      split
      next hid => exact h.spawn hid
      · exact h
  | launch id ok =>
      simp only [BackgroundRunner.step]
      split
      next hid => exact h.launch hid ok
      · exact h
  | leave id => exact { h with }
  | scanned rearms =>
      simp only [BackgroundRunner.step]
      split_ifs
      · exact { h with one := by simp only [turns]; omega, counted := by dsimp only; omega }
      · exact { h with one := by simp only [turns]; omega, counted := by dsimp only; omega }
      · exact h
  | rearm =>
      simp only [BackgroundRunner.step]
      split
      next hpos =>
        have hstarted : r.started = true := by
          by_contra hnot
          rw [if_neg hnot] at hone
          omega
        rw [if_pos hstarted] at hone
        exact Sound.schedule { h with one := by simp only [turns, hstarted, if_true]; omega,
                                      counted := by dsimp only; omega }
          (by simp only [turns]; omega) hstarted
      · exact h
  | finish =>
      simp only [BackgroundRunner.step]
      split
      · exact { h with
          counted := by
            dsimp only
            omega
          returned := fun hdone => by
            have := h.returned hdone
            omega }
      · exact h
  | beginClose =>
      simp only [BackgroundRunner.step]
      split
      · exact { h with closed := by simp, cancelling := by simp, cancelled := by simp,
                       returned := by simp }
      · exact h
  | readTimer =>
      simp only [BackgroundRunner.step]
      split
      next hphase =>
        have hclosed := h.closed (by simp [hphase])
        exact { h with
          closed := fun _ => hclosed
          cancelling := fun id hid => (ShutdownPhase.cancelling.inj hid).symm
          cancelled := by simp
          returned := by simp }
      · exact h
  | cancel =>
      simp only [BackgroundRunner.step]
      split
      next id hphase =>
        have hid := h.cancelling id hphase
        have hclosed := h.closed (by simp [hphase])
        -- A timer or a callback of another id would be a second turn.
        have hgone : ∀ l : List Nat, (∀ x ∈ l, x = r.scanTimer) → id ∉ l → l = [] :=
          fun l hl hnot =>
          List.eq_nil_iff_forall_not_mem.mpr fun x hx => hnot (hid ▸ hl x hx ▸ hx)
        have harmed := fun x hx => h.current x (List.mem_append_left _ hx)
        have hfired := fun x hx => h.current x (List.mem_append_right _ hx)
        split
        next hin =>
          have hlen := List.length_erase_of_mem hin
          have hpos := List.length_pos_of_mem hin
          have htwo : r.armed.length + r.fired.length ≤ 1 := by split_ifs at hone <;> omega
          have hnil : r.armed.erase id = [] := List.length_eq_zero_iff.mp (by omega)
          have hnil' : r.fired = [] := List.length_eq_zero_iff.mp (by omega)
          exact { h with
            one := by
              simp only [turns, hlen]
              omega
            current := fun x hx => h.current x ((List.erase_sublist.append_right _).subset hx)
            closed := fun _ => hclosed
            cancelling := by simp
            cancelled := fun _ => ⟨hnil, hnil'⟩
            returned := by simp }
        next hout =>
          split
          · exact h
          next hquiet =>
            simp only [callbackRuns, Bool.or_eq_true, decide_eq_true_eq, not_or] at hquiet
            exact { h with
              closed := fun _ => hclosed
              cancelling := by simp
              cancelled := fun _ => ⟨hgone _ harmed hout, hgone _ hfired hquiet.1.1⟩
              returned := by simp }
      · exact h
  | waitIdle =>
      simp only [BackgroundRunner.step]
      split
      next hdone =>
        have hclosed := h.closed (by simp [hdone.1])
        exact { h with
          closed := fun _ => hclosed
          cancelling := by simp
          cancelled := fun _ => h.cancelled (.inl hdone.1)
          returned := fun _ => hdone.2 }
      · exact h

theorem run_sound (interval : Int) (es : List BackgroundEvent) :
    (es.foldl (step interval) ({} : BackgroundRunner)).Sound := by
  induction es using List.reverseRecOn with
  | nil => exact .initial
  | append_singleton es e ih =>
      rw [List.foldl_append]
      exact ih.step e

theorem shutdown_scheduleScan : (r.scheduleScan interval).shutdown = r.shutdown := by
  unfold scheduleScan
  split <;> rfl

/-- Shutting down is not undone. -/
theorem step_returned (h : r.shutdown = .returned) (e : BackgroundEvent) :
    (r.step interval e).shutdown = .returned := by
  cases e <;> simp only [step, spawnSection, launchPass, h]
  case start => split <;> simp [shutdown_scheduleScan, h]
  case rearm => split <;> simp [shutdown_scheduleScan, h]
  all_goals split_ifs <;> first | exact h | simp_all

theorem run_returned (h : r.shutdown = .returned) (es : List BackgroundEvent) :
    (es.foldl (step interval) r).shutdown = .returned := by
  induction es generalizing r with
  | nil => exact h
  | cons e es ih => exact ih (step_returned h e)

/-- At any time at most one pass is running. Once `shutdown_background` has returned, whatever
follows: no coroutine of a pass exists, no timer is armed, and no callback is left that could spawn
a pass. -/
theorem shutdown_quiescent (interval : Int) (es : List BackgroundEvent) :
    let r := es.foldl (step interval) ({} : BackgroundRunner)
    r.scanning + r.rearming ≤ 1 ∧
    (r.shutdown = .returned → ∀ fs : List BackgroundEvent, let t := fs.foldl (step interval) r
      t.scanning = 0 ∧ t.rearming = 0 ∧ t.ending = 0 ∧ t.armed = [] ∧ t.fired = [] ∧
      t.spawning = []) := by
  intro r
  constructor
  · have hr : r.Sound := run_sound interval es
    have hone := hr.one
    unfold turns at hone
    have hle : (if r.started then 1 else 0) ≤ 1 := by split_ifs <;> omega
    omega
  · intro hreturned fs t
    have ht : t.Sound := by
      have hrun := run_sound interval (es ++ fs)
      rwa [List.foldl_append] at hrun
    have hphase : t.shutdown = .returned := run_returned hreturned fs
    have hcount := ht.returned hphase
    have hcounted := ht.counted
    obtain ⟨harmed, hfired⟩ := ht.cancelled (.inr hphase)
    exact ⟨by omega, by omega, by omega, harmed, hfired, List.length_eq_zero_iff.mp (by omega)⟩

/-- A pass that is running when the runner is shut down; shutting down waits for it and for the
timer. -/
example : let es := [.start, .fire 1, .spawn 1, .launch 1 true, .beginClose, .scanned true,
  .rearm, .readTimer, .leave 1,
      .cancel, .waitIdle, .finish, .waitIdle]
    (es.foldl (step 60) ({} : BackgroundRunner)).shutdown = .returned ∧
      ((es.take 11).foldl (step 60) ({} : BackgroundRunner)).shutdown = .waiting := by decide

end BackgroundRunner
end Lights3
