import Lights3.Lib.Runs
import Mathlib.Tactic

/-!
# Cancel callbacks

`CancelState` of `core/cancel.h`. A step is a section under the mutex, the start or the end of a
callback, or the return of a deregistration that had to wait. The functions that are registered are
numbered in the order of the calls.
-/
namespace Lights3

/-- An entry of the callback map: the id and the number of the call that registered the function. -/
abbrev CancelCallback := Nat × Nat

structure CancelState where
  cancelled : Bool := false
  nextId : Nat := 0
  /-- In the order of the ids. -/
  callbacks : List CancelCallback := []
  firing : Bool := false
  /-- The rest of the batch that `request_cancel` has swapped out. -/
  batch : List CancelCallback := []
  /-- The callback that is running on the firing thread. -/
  current : Option CancelCallback := none
  /-- The ids of the deregistrations that wait for the batch. -/
  waiting : List Nat := []
  calls : Nat := 0
  registered : List CancelCallback := []
  /-- The calls that came after the cancellation. -/
  refused : List Nat := []
  /-- The ids whose deregistration was called, and those for which it has returned. -/
  erased : List Nat := []
  returned : List Nat := []
  started : List CancelCallback := []

inductive CancelEvent where
  | add (publish : Bool)
  | cancel
  /-- The firing thread starts the next callback of the batch, and a callback ends. -/
  | start
  | finish (throws : Bool)
  /-- `FiringGuard`. -/
  | release
  /-- `remove_callback` from another thread, the end of its wait, and from inside the running
  callback. -/
  | remove (id : Nat)
  | wake (id : Nat)
  | removeInside (id : Nat)

namespace CancelState

variable (s : CancelState)

/-- `add_callback`. -/
def addCallback : CancelState × Nat :=
  if s.cancelled then ({ s with calls := s.calls + 1, refused := s.calls :: s.refused }, 0)
  else
    let id := s.nextId + 1
    ({ s with
        nextId := id
        callbacks := s.callbacks ++ [(id, s.calls)]
        calls := s.calls + 1
        registered := (id, s.calls) :: s.registered }, id)

/-- `add_callback_publish`: the id also goes into the caller's storage, in the same section. -/
def addCallbackPublish : CancelState × Nat × Nat :=
  let (s, id) := s.addCallback
  (s, id, id)

/-- The section of `request_cancel` that takes the batch. -/
def requestCancel : CancelState :=
  if s.cancelled then s
  else { s with cancelled := true, batch := s.callbacks, callbacks := [], firing := true }

/-- `callbacks_.erase(id)`. -/
def eraseCallback (id : Nat) : CancelState :=
  { s with callbacks := s.callbacks.filter (·.1 ≠ id), erased := id :: s.erased }

def removeReturns (id : Nat) : CancelState := { s with returned := id :: s.returned }

/-- `remove_callback` up to its return or its wait. An id that was never handed out is not removed.
-/
def removeCallback (onFiringThread : Bool) (id : Nat) : CancelState :=
  if id = 0 ∨ s.nextId < id then s
  else if s.firing && !onFiringThread then { s.eraseCallback id with waiting := id :: s.waiting }
  else (s.eraseCallback id).removeReturns id

def step : CancelEvent → CancelState
  | .add publish => if publish then s.addCallbackPublish.1 else s.addCallback.1
  | .cancel => s.requestCancel
  | .start =>
      match s.current, s.batch with
      | none, c :: rest => { s with batch := rest, current := some c, started := c :: s.started }
      | _, _ => s
  | .finish throws =>
      if s.current.isSome then { s with current := none, batch := if throws then [] else s.batch }
        else s
  | .release => if s.current = none ∧ s.batch = [] then { s with firing := false } else s
  | .remove id => s.removeCallback false id
  | .wake id =>
      if id ∈ s.waiting ∧
        s.firing = false then { s with waiting := s.waiting.erase id }.removeReturns id else s
  | .removeInside id => if s.current.isSome then s.removeCallback true id else s

abbrev run (es : List CancelEvent) : CancelState := es.foldl step s

/-- No callback removes one that is still to come in the batch, and none throws before the end of
the batch. -/
def Clean : CancelEvent → Prop
  | .removeInside id => ∀ c ∈ s.batch, c.1 ≠ id
  | .finish throws => throws = true → s.batch = []
  | _ => True

instance (e : CancelEvent) : Decidable (s.Clean e) :=
  match e with
  | .removeInside id => inferInstanceAs (Decidable (∀ c ∈ s.batch, c.1 ≠ id))
  | .finish throws => inferInstanceAs (Decidable (throws = true → s.batch = []))
  | .add _ | .cancel | .start | .release | .remove _ | .wake _ => inferInstanceAs (Decidable True)

/-- The callbacks that can still be started. -/
def pending : List CancelCallback := s.callbacks ++ s.batch

/-- The callbacks that were started and those that can be: each one once, and all of them
registered. -/
structure Sound : Prop where
  unique : (s.started ++ s.pending).Nodup
  ids : ∀ c ∈ s.registered, ∀ c' ∈ s.registered, c.1 = c'.1 → c = c'
  known : ∀ c ∈ s.started ++ s.pending, c ∈ s.registered
  numbered : ∀ c ∈ s.registered, c.1 ≤ s.nextId ∧ c.2 < s.calls
  refused_calls : ∀ n ∈ s.refused, n < s.calls ∧ ∀ c ∈ s.registered, c.2 ≠ n
  taken : s.cancelled → s.callbacks = []
  quiet : s.firing = false → s.batch = [] ∧ s.current = none
  idle : s.cancelled = false → s.firing = false
  handed : ∀ id ∈ s.erased, id ≤ s.nextId
  waits : ∀ id ∈ s.waiting, id ∈ s.erased
  returns : ∀ id ∈ s.returned, id ∈ s.erased
  gone : ∀ id ∈ s.erased, ∀ c ∈ s.callbacks, c.1 ≠ id

variable {s}

/-! ## What the sections keep -/

theorem Sound.initial : ({} : CancelState).Sound := by
  constructor <;> simp [pending]

theorem Sound.add (h : s.Sound) : s.addCallback.1.Sound := by
  unfold addCallback
  split
  next hcancelled =>
    refine { h with numbered := fun c hc => ?_, refused_calls := ?_ }
    · exact ⟨(h.numbered c hc).1, Nat.lt_succ_of_lt (h.numbered c hc).2⟩
    · refine List.forall_mem_cons.mpr ⟨⟨Nat.lt_succ_self _, fun c hc => (h.numbered c hc).2.ne⟩,
        fun n hn => ?_⟩
      exact ⟨Nat.lt_succ_of_lt (h.refused_calls n hn).1, (h.refused_calls n hn).2⟩
  next hopen =>
    obtain ⟨hbatch, -⟩ := h.quiet (h.idle (by simpa using hopen))
    have hold : s.started ++ s.pending = s.started ++ s.callbacks := by
      rw [pending, hbatch, List.append_nil]
    have hnew : ∀ c ∈ s.registered, c.1 ≠ s.nextId + 1 ∧ c.2 ≠ s.calls := fun c hc => by
      have := h.numbered c hc
      omega
    have hall : ∀ c, c ∈ s.started ++ (s.callbacks ++ [(s.nextId + 1, s.calls)] ++ s.batch) ↔
        c ∈ s.started ++ s.pending ∨ c = (s.nextId + 1, s.calls) := by
      intro c
      simp only [pending, hbatch, List.append_nil, List.mem_append, List.mem_singleton, or_assoc]
    refine { h with unique := ?_, ids := ?_, known := ?_, numbered := ?_, refused_calls := ?_,
                    taken := ?_, handed := ?_,
                    gone := ?_ }
    · have huniq := h.unique
      rw [hold] at huniq
      simp only [pending, hbatch, List.append_nil, ← List.append_assoc]
      refine List.nodup_append.mpr ⟨huniq, List.nodup_singleton _, fun c hc c' hc' heq => ?_⟩
      obtain rfl := List.mem_singleton.mp hc'
      rw [← hold] at hc
      exact (hnew c (h.known c hc)).1 (congrArg Prod.fst heq)
    · intro c hc c' hc' heq
      rcases List.mem_cons.mp hc with rfl | hc <;> rcases List.mem_cons.mp hc' with rfl | hc'
      · rfl
      · exact absurd heq.symm (hnew c' hc').1
      · exact absurd heq (hnew c hc).1
      · exact h.ids c hc c' hc' heq
    · intro c hc
      rcases (hall c).mp hc with hc | rfl
      · exact List.mem_cons_of_mem _ (h.known c hc)
      · exact List.mem_cons_self
    · refine List.forall_mem_cons.mpr ⟨⟨le_rfl, Nat.lt_succ_self _⟩, fun c hc => ?_⟩
      have := h.numbered c hc
      dsimp only
      omega
    · intro n hn
      obtain ⟨hlt, hne⟩ := h.refused_calls n hn
      exact ⟨Nat.lt_succ_of_lt hlt, List.forall_mem_cons.mpr ⟨hlt.ne', hne⟩⟩
    · exact fun hcancelled => absurd hcancelled hopen
    · exact fun id hid => Nat.le_succ_of_le (h.handed id hid)
    · intro id hid c hc
      rcases List.mem_append.mp hc with hc | hc
      · exact h.gone id hid c hc
      · have := h.handed id hid
        rw [List.mem_singleton.mp hc]
        dsimp only
        omega

theorem Sound.cancel (h : s.Sound) : s.requestCancel.Sound := by
  unfold requestCancel
  split
  · exact h
  next hopen =>
    obtain ⟨hbatch, -⟩ := h.quiet (h.idle (by simpa using hopen))
    have hpending : s.pending = s.callbacks := by rw [pending, hbatch, List.append_nil]
    have hunique := h.unique
    have hknown := h.known
    rw [hpending] at hunique hknown
    exact { h with
      unique := hunique, known := hknown, taken := fun _ => rfl, quiet := by simp, idle := by simp
      gone := nofun }

theorem Sound.erase (h : s.Sound) (id : Nat) (hid : id ≤ s.nextId) :
    (s.eraseCallback id).Sound := by
  have hsub : (s.started ++ (s.eraseCallback id).pending).Sublist (s.started ++ s.pending) :=
    (List.filter_sublist.append_right s.batch).append_left s.started
  refine { h with unique := h.unique.sublist hsub, known := fun c hc => h.known c (hsub.subset hc),
                  taken := ?_,
                  handed := List.forall_mem_cons.mpr ⟨hid, h.handed⟩, waits := ?_, returns :=
                    ?_, gone := ?_ }
  · intro hcancelled
    rw [eraseCallback, h.taken hcancelled]
    rfl
  · exact fun x hx => List.mem_cons_of_mem _ (h.waits x hx)
  · exact fun x hx => List.mem_cons_of_mem _ (h.returns x hx)
  · refine List.forall_mem_cons.mpr ⟨fun c hc => ?_, fun x hx c hc =>
      h.gone x hx c (List.mem_of_mem_filter hc)⟩
    simpa using (List.mem_filter.mp hc).2

theorem Sound.remove (h : s.Sound) (inside : Bool) (id : Nat) :
    (s.removeCallback inside id).Sound := by
  unfold removeCallback
  split
  · exact h
  next hid =>
    have herase := h.erase id (by omega)
    split
    · exact { herase with waits := List.forall_mem_cons.mpr ⟨List.mem_cons_self, herase.waits⟩ }
    · exact { herase with returns := List.forall_mem_cons.mpr ⟨List.mem_cons_self, herase.returns⟩ }

theorem Sound.step (h : s.Sound) (e : CancelEvent) : (s.step e).Sound := by
  cases e with
  | add publish =>
      cases publish
      · exact h.add
      · exact h.add
  | cancel => exact h.cancel
  | start =>
      simp only [CancelState.step]
      split
      next c rest hcurrent hbatch =>
        have hperm : (c :: s.started ++ (s.callbacks ++ rest)).Perm (s.started ++ s.pending) := by
          rw [pending, hbatch]
          exact List.perm_middle.symm.trans (List.perm_middle.symm.append_left _)
        exact { h with
          unique := hperm.nodup_iff.mpr h.unique, known :=
            fun x hx => h.known x (hperm.mem_iff.mp hx)
          quiet := fun hfiring => by
            rw [(h.quiet hfiring).1] at hbatch
            cases hbatch }
      · exact h
  | finish throws =>
      simp only [CancelState.step]
      split
      · have hsub : (s.started ++ (s.callbacks ++ if throws then [] else s.batch)).Sublist
            (s.started ++ s.pending) := by
          refine (List.Sublist.append_left ?_ _).append_left _
          split
          · exact List.nil_sublist _
          · exact .refl _
        exact { h with
          unique := h.unique.sublist hsub, known := fun c hc => h.known c (hsub.subset hc)
          quiet := fun hfiring => by simp [(h.quiet hfiring).1] }
      · exact h
  | release =>
      simp only [CancelState.step]
      split
      next hdone => exact { h with quiet := fun _ => ⟨hdone.2, hdone.1⟩, idle := fun _ => rfl }
      · exact h
  | remove id => exact h.remove false id
  | wake id =>
      simp only [CancelState.step]
      split
      next hwait =>
        exact { h with
          waits := fun x hx => h.waits x (List.mem_of_mem_erase hx)
          returns := List.forall_mem_cons.mpr ⟨h.waits id hwait.1, h.returns⟩ }
      · exact h
  | removeInside id =>
      simp only [CancelState.step]
      split
      · exact h.remove true id
      · exact h

/-! ## What a step does to the callbacks -/

variable {c : CancelCallback} {e : CancelEvent}

/-- Only a callback of the batch is started. -/
theorem started_step (hc : c ∈ (s.step e).started) : c ∈ s.started ∨ c ∈ s.pending := by
  cases e with
  | start =>
      simp only [step] at hc
      split at hc
      next c' rest _ hbatch =>
        rcases List.mem_cons.mp hc with rfl | hc
        · exact .inr (List.mem_append_right _ (hbatch ▸ List.mem_cons_self))
        · exact .inl hc
      · exact .inl hc
  | _ =>
      left
      simp only [step, addCallbackPublish, addCallback, requestCancel, removeCallback,
        eraseCallback, removeReturns] at hc
      split_ifs at hc <;> exact hc

/-- Nothing becomes pending but a new registration. -/
theorem pending_step (hc : c ∈ (s.step e).pending) : c ∈ s.pending ∨ s.nextId < c.1 := by
  have herase : ∀ id, c ∈ s.callbacks.filter (·.1 ≠ id) ++ s.batch → c ∈ s.pending := fun id hin =>
    (List.filter_sublist.append_right _).subset hin
  cases e with
  | add publish =>
      have hadd : c ∈ s.addCallback.1.pending := by
        cases publish
        · exact hc
        · exact hc
      unfold addCallback at hadd
      split at hadd
      · exact .inl hadd
      · rw [pending, List.append_assoc, List.mem_append, List.mem_append, List.mem_singleton]
          at hadd
        rcases hadd with hin | rfl | hin
        · exact .inl (List.mem_append_left _ hin)
        · exact .inr (Nat.lt_succ_self _)
        · exact .inl (List.mem_append_right _ hin)
  | cancel =>
      simp only [step, requestCancel] at hc
      split at hc
      · exact .inl hc
      · exact .inl (List.mem_append_left _ (by simpa [pending] using hc))
  | start =>
      simp only [step] at hc
      split at hc
      next c' rest _ hbatch =>
        refine .inl ?_
        rw [pending, hbatch]
        exact ((List.sublist_cons_self c' rest).append_left _).subset hc
      · exact .inl hc
  | finish throws =>
      simp only [step] at hc
      split at hc
      · rcases List.mem_append.mp hc with hin | hin
        · exact .inl (List.mem_append_left _ hin)
        · refine .inl (List.mem_append_right _ ?_)
          cases throws
          · exact hin
          · cases hin
      · exact .inl hc
  | release =>
      simp only [step] at hc
      split at hc <;> exact .inl hc
  | remove id =>
      simp only [step, removeCallback] at hc
      split_ifs at hc
      exacts [.inl hc, .inl (herase id hc), .inl (herase id hc)]
  | wake id =>
      simp only [step] at hc
      split at hc <;> exact .inl hc
  | removeInside id =>
      simp only [step, removeCallback] at hc
      split_ifs at hc
      exacts [.inl hc, .inl (herase id hc), .inl (herase id hc), .inl hc]

theorem nextId_step (e : CancelEvent) : s.nextId ≤ (s.step e).nextId := by
  cases e with
  | start =>
      simp only [step]
      split <;> exact le_rfl
  | _ =>
      simp only [step, addCallbackPublish, addCallback, requestCancel, removeCallback,
        eraseCallback, removeReturns]
      split_ifs <;> simp

/-- A callback that was handed out and is not pending is not started any more. -/
theorem started_of_not_pending {id : Nat} (hid : id ≤ s.nextId) (hgone : ∀ c ∈ s.pending, c.1 ≠ id)
    (es : List CancelEvent) (hc : c ∈ (s.run es).started) (hkey : c.1 = id) : c ∈ s.started := by
  induction es generalizing s with
  | nil => exact hc
  | cons e es ih =>
      have hnext : c ∈ (s.step e).started := by
        refine ih (hid.trans (nextId_step e)) (fun x hx => ?_) hc
        rcases pending_step hx with hx | hx
        · exact hgone x hx
        · exact (hid.trans_lt hx).ne'
      rcases started_step hnext with hold | hin
      · exact hold
      · exact absurd hkey (hgone c hin)

/-! ## Clean runs -/

/-- Deregistered callbacks are not pending, and no other one is lost. -/
structure Settled (s : CancelState) : Prop extends s.Sound where
  final : ∀ id ∈ s.returned, ∀ c ∈ s.pending, c.1 ≠ id
  kept : ∀ c ∈ s.registered, c.1 ∉ s.erased → c ∈ s.started ++ s.pending

theorem returned_step (h : s.Settled) (hclean : s.Clean e) {id : Nat}
    (hid : id ∈ (s.step e).returned) :
    id ∈ s.returned ∨ (id ≤ s.nextId ∧ ∀ c ∈ (s.step e).pending, c.1 ≠ id) := by
  have hfilter : ∀ {i : Nat} {c : CancelCallback}, c ∈ s.callbacks.filter (·.1 ≠ i) → c.1 ≠ i :=
    fun hc => by
    simpa using (List.mem_filter.mp hc).2
  cases e with
  | remove i =>
      simp only [step, removeCallback, Bool.not_false, Bool.and_true] at hid ⊢
      split_ifs at hid ⊢ with hrange hfiring
      · exact .inl hid
      · exact .inl hid
      · rcases List.mem_cons.mp hid with rfl | hid
        · refine .inr ⟨by omega, fun c hc => ?_⟩
          rcases List.mem_append.mp hc with hc | hc
          · exact hfilter hc
          · rw [removeReturns, eraseCallback, (h.quiet (by simpa using hfiring)).1] at hc
            cases hc
        · exact .inl hid
  | wake i =>
      simp only [step] at hid ⊢
      split_ifs at hid ⊢ with hwait
      · rcases List.mem_cons.mp hid with rfl | hid
        · have herased := h.waits id hwait.1
          refine .inr ⟨h.handed id herased, fun c hc => ?_⟩
          rcases List.mem_append.mp hc with hc | hc
          · exact h.gone id herased c hc
          · rw [removeReturns, (h.quiet hwait.2).1] at hc
            cases hc
        · exact .inl hid
      · exact .inl hid
  | removeInside i =>
      simp only [step, removeCallback, Bool.not_true, Bool.and_false, Bool.false_eq_true, if_false]
        at hid ⊢
      split_ifs at hid ⊢ with hcurrent hrange
      · exact .inl hid
      · rcases List.mem_cons.mp hid with rfl | hid
        · refine .inr ⟨by omega, fun c hc => ?_⟩
          rcases List.mem_append.mp hc with hc | hc
          · exact hfilter hc
          · exact hclean c hc
        · exact .inl hid
      · exact .inl hid
  | start =>
      left
      simp only [step] at hid
      split at hid <;> exact hid
  | _ =>
      left
      simp only [step, addCallbackPublish, addCallback, requestCancel] at hid
      split_ifs at hid <;> exact hid

/-- What is registered and not removed is not lost. -/
theorem kept_step (h : s.Settled) (hclean : s.Clean e) (hc : c ∈ (s.step e).registered)
    (herased : c.1 ∉ (s.step e).erased) : c ∈ (s.step e).started ++ (s.step e).pending := by
  have hfilter : ∀ {i : Nat}, c ∈ s.registered → c.1 ∉ i :: s.erased →
      c ∈ s.started ++ (s.callbacks.filter (·.1 ≠ i) ++ s.batch) := by
    intro i hreg hnot
    obtain ⟨hne, hnot⟩ := not_or.mp (List.mem_cons.not.mp hnot)
    have hold := h.kept c hreg hnot
    simp only [pending, List.mem_append, List.mem_filter, decide_eq_true_eq] at hold ⊢
    tauto
  cases e with
  | add publish =>
      have hadd : c ∈ s.addCallback.1.registered → c.1 ∉ s.addCallback.1.erased →
          c ∈ s.addCallback.1.started ++ s.addCallback.1.pending := by
        unfold addCallback
        split_ifs
        · exact h.kept c
        · intro hc hnot
          rcases List.mem_cons.mp hc with rfl | hc
          · simp [pending]
          · have hold := h.kept c hc hnot
            simp only [pending, List.mem_append] at hold ⊢
            tauto
      cases publish
      · exact hadd hc herased
      · exact hadd hc herased
  | cancel =>
      simp only [step, requestCancel] at hc herased ⊢
      split_ifs at hc herased ⊢ with hcancelled
      · exact h.kept c hc herased
      · have hbatch := (h.quiet (h.idle (by simpa using hcancelled))).1
        have hold := h.kept c hc herased
        rw [pending, hbatch, List.append_nil] at hold
        exact hold
  | start =>
      simp only [step] at hc herased ⊢
      split at hc
      next c' rest hcurrent hbatch =>
        simp only [hcurrent, hbatch] at herased ⊢
        have hold := h.kept c hc herased
        simp only [pending, hbatch, List.mem_append, List.mem_cons] at hold ⊢
        tauto
      next hother =>
        split at herased
        next hcurrent hbatch => exact absurd hbatch (hother _ _ hcurrent)
        · exact h.kept c hc herased
  | finish throws =>
      have hbatch : (if throws then [] else s.batch) = s.batch := by
        cases throws
        · rfl
        · exact (hclean rfl).symm
      simp only [step, hbatch] at hc herased ⊢
      split_ifs at hc herased ⊢ <;> exact h.kept c hc herased
  | release =>
      simp only [step] at hc herased ⊢
      split_ifs at hc herased ⊢ <;> exact h.kept c hc herased
  | remove id =>
      simp only [step, removeCallback] at hc herased ⊢
      split_ifs at hc herased ⊢
      exacts [h.kept c hc herased, hfilter hc herased, hfilter hc herased]
  | wake id =>
      simp only [step] at hc herased ⊢
      split_ifs at hc herased ⊢ <;> exact h.kept c hc herased
  | removeInside id =>
      simp only [step, removeCallback] at hc herased ⊢
      split_ifs at hc herased ⊢
      exacts [h.kept c hc herased, hfilter hc herased, hfilter hc herased, h.kept c hc herased]

theorem Settled.step (h : s.Settled) (hclean : s.Clean e) : (s.step e).Settled where
  toSound := h.toSound.step e
  kept := fun _ hc herased => kept_step h hclean hc herased
  final := by
    intro id hid c hc
    rcases returned_step h hclean hid with hold | ⟨-, hgone⟩
    · rcases pending_step hc with hin | hnew
      · exact h.final id hold c hin
      · exact ((h.handed id (h.returns id hold)).trans_lt hnew).ne'
    · exact hgone c hc

theorem run_settled {es : List CancelEvent} (h : Along step Clean {} es) :
    (({} : CancelState).run es).Settled :=
  h.invariant ⟨.initial, by simp, by simp⟩ fun _ _ hclean hs => hs.step hclean

/-- The steps that the firing thread has still to take. -/
def drain (s : CancelState) : List CancelEvent :=
  (if s.current.isSome then [.finish false] else []) ++
    s.batch.flatMap (fun _ => [.start, .finish false]) ++ [.release]

/-- The firing thread waits for nobody. -/
theorem firing_drain (s : CancelState) : (s.run s.drain).firing = false := by
  have hbatch : ∀ (l : List CancelCallback) (s : CancelState), s.current = none → s.batch = l →
      (s.run (l.flatMap (fun _ => [.start, .finish false]) ++ [.release])).firing = false := by
    intro l
    induction l with
    | nil =>
        intro s hcurrent hl
        simp [run, CancelState.step, hcurrent, hl]
    | cons c l ih =>
        intro s hcurrent hl
        refine ih ((s.step .start).step (.finish false)) ?_ ?_ <;>
          simp [CancelState.step, hcurrent, hl]
  rw [drain, List.append_assoc]
  split_ifs with hcurrent
  · refine hbatch s.batch (s.step (.finish false)) ?_ ?_ <;> simp [CancelState.step, hcurrent]
  · exact hbatch s.batch s (by simpa using hcurrent) rfl

/-- In a clean run: a callback whose deregistration has returned is not started afterwards, whatever
follows; once the batch is done, each callback that was not removed has been started once, and the
batch does come to its end; and a function whose registration came after the cancellation is never
called. -/
theorem removal_is_final (es : List CancelEvent) (h : Along step Clean {} es) :
    let s : CancelState := ({} : CancelState).run es
    (∀ id ∈ s.returned, ∀ fs, ∀ c ∈ (s.run fs).started, c.1 = id → c ∈ s.started) ∧
      s.started.Nodup ∧
    (s.cancelled → s.firing = false → ∀ c ∈ s.registered, c.1 ∉ s.erased → s.started.count c = 1) ∧
    (s.run s.drain).firing = false ∧
    ∀ n ∈ s.refused, ∀ c ∈ s.started, c.2 ≠ n := by
  intro s
  have hs : s.Settled := run_settled h
  have hnodup : s.started.Nodup := (List.nodup_append.mp hs.unique).1
  refine ⟨fun id hid fs c hc hkey => ?_, hnodup, fun hcancelled hfiring c hc herased => ?_,
    s.firing_drain, fun n hn c hc => ?_⟩
  · exact started_of_not_pending (hs.handed id (hs.returns id hid)) (hs.final id hid) fs hc hkey
  · have hin := hs.kept c hc herased
    rw [pending, hs.taken hcancelled, (hs.quiet hfiring).1, List.append_nil, List.append_nil] at hin
    exact List.count_eq_one_of_mem hnodup hin
  · exact (hs.refused_calls n hn).2 c (hs.known c (List.mem_append_left _ hc))

/-- Two callbacks, one of them removed before the cancellation; the other one runs and removes
itself. -/
theorem removal_is_final_twice :
    let es := [.add false, .add true, .remove 1, .cancel, .start, .removeInside 2,
      .finish false, .release]
    let s : CancelState := ({} : CancelState).run es
    s.started = [(2, 1)] ∧ ∀ fs, ∀ c ∈ (s.run fs).started, c.1 = 1 → c ∈ s.started :=
  ⟨by decide, (removal_is_final _ (by decide)).1 1 (by decide)⟩

/-- The first callback of the batch removes the second one, which runs all the same. -/
theorem removed_callback_runs :
    let s : CancelState :=
      ({} : CancelState).run [.add false, .add false, .cancel, .start, .removeInside 2]
    2 ∈ s.returned ∧ (2, 1) ∉ s.started ∧ (2, 1) ∈ (s.run [.finish false, .start]).started := by
  decide

/-- In every run, also when callbacks throw or remove each other: none is started twice or
unregistered, a refused function is not called, and nothing is left to start when the batch is over.
-/
theorem callback_starts_at_most_once (es : List CancelEvent) :
    let s := ({} : CancelState).run es
    s.started.Nodup ∧ (∀ c ∈ s.started, c ∈ s.registered ∧ c.2 ∉ s.refused) ∧
      (s.cancelled → s.firing = false → s.pending = []) := by
  intro s
  have hs : s.Sound := List.foldlRecOn es step .initial fun _ h e _ => h.step e
  refine ⟨(List.nodup_append.mp hs.unique).1, fun c hc => ?_, fun hcancelled hfiring => ?_⟩
  · have hknown := hs.known c (List.mem_append_left _ hc)
    exact ⟨hknown, fun hrefused => (hs.refused_calls c.2 hrefused).2 c hknown rfl⟩
  · simp [pending, hs.taken hcancelled, (hs.quiet hfiring).1]

end CancelState
end Lights3
