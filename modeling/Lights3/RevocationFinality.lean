import Lights3.CredentialStore

/-!
# Revoked credentials stay away

`remove` deletes the object and then the entry. What can bring the credential back are an update or
a `generate` that still has to write it, and a round of `sync_now` that holds a fetched copy to add.
If there is none of these while the entry is still to be erased, there is none afterwards: without
an entry no update starts, and without an object nothing is fetched.
-/
namespace Lights3
open Interleaving

/-! ## One move -/

namespace CredentialTask

/-- The next move may bring the credential back. -/
def writes : CredentialTask → Bool
  | .updatePut _ | .generatePut _ | .generateInsert _ | .syncMerge _ false => true
  | _ => false

/-- The next move draws the key. -/
def draws : CredentialTask → Bool
  | .generateCheck _ => true
  | _ => false

variable {ttl : Nat} {s : CredentialCell} {x : CredentialInput} {t : CredentialTask}

attribute [local simp] move writes draws

theorem object_delete (h : s.object = none) : (s.delete x).object = none := by
  unfold CredentialCell.delete
  split <;> simp [h]

/-- Only writers put the object. -/
theorem move_object (hw : t.writes = false) (h : s.object = none) :
    (t.move ttl s x).1.object = none := by
  cases t with
  | removeDelete | updateUndo => exact object_delete h
  | updatePut | generatePut => simp [writes] at hw
  | _ =>
      simp only [move]
      repeat' split
      all_goals exact h

@[simp] theorem entry_delete : (s.delete x).entry = s.entry := by
  unfold CredentialCell.delete
  split <;> rfl

/-- Without an entry, only writers make one. -/
theorem move_entry (hw : t.writes = false) (h : s.entry = none) :
    (t.move ttl s x).1.entry = none := by
  cases t with
  | removeDelete | updateUndo => simp [move, h]
  | updatePut | generatePut | generateInsert => simp [writes] at hw
  | updateCommit => simp [move, h, isDynamic]
  | syncMerge c changed =>
      cases changed with
      | false => simp [writes] at hw
      | true => simp [move, h]
  | _ =>
      simp only [move]
      repeat' split
      all_goals first | exact h | rfl

/-- Without an entry and an object, a task becomes a writer only by drawing the key. -/
theorem move_writes (hw : t.writes = false) (hd : t.draws = false) (he : s.entry = none)
    (ho : s.object = none) : (t.move ttl s x).2.writes = false := by
  cases t with
  | updatePut | generatePut | generateInsert => simp [writes] at hw
  | generateCheck => simp [draws] at hd
  | updateRead | syncGet => simp [move, he, ho, writes]
  | _ =>
      simp only [move]
      repeat' split
      all_goals rfl

theorem move_eq_removeErase (h : (t.move ttl s x).2 = .removeErase) :
    (t.move ttl s x).1.object = none := by
  cases t with
  | removeDelete =>
      have hok : x.ok := by
        by_contra hok
        simp [move, hok] at h
      simp [move, CredentialCell.delete, hok]
  | _ =>
      simp only [move] at h
      repeat' split at h
      all_goals simp at h

theorem move_eq_removed (h : (t.move ttl s x).2 = .removed) : t = .removed ∨ t = .removeErase := by
  cases t with
  | removed => exact .inl rfl
  | removeErase => exact .inr rfl
  | _ =>
      simp only [move] at h
      repeat' split at h
      all_goals simp at h

end CredentialTask

theorem CredentialRequest.start_quiet (r : CredentialRequest) :
    r.start.writes = false ∧ r.start ≠ .removeErase ∧ r.start ≠ .removed := by
  cases r <;> simp [CredentialRequest.start, CredentialTask.writes]

/-! ## Every run -/

abbrev CredentialConfig := Config CredentialCell CredentialTask

abbrev CredentialEvent := Event CredentialRequest CredentialInput Nat

/-- The event draws the key. -/
def drawsKey (s : CredentialConfig) : CredentialEvent → Bool
  | .advance i _ => s.tasks[i]?.any CredentialTask.draws
  | _ => false

/-- While a `remove` has still to erase the entry nothing is about to write the credential, and the
key of a revoked credential is not drawn again. -/
def Settled (s : CredentialConfig) (e : CredentialEvent) : Prop :=
  (.removeErase ∈ s.tasks → ∀ u ∈ s.tasks, u.writes = false) ∧ (drawsKey s e → .removed ∉ s.tasks)

instance (s : CredentialConfig) (e : CredentialEvent) : Decidable (Settled s e) :=
  inferInstanceAs (Decidable (_ ∧ _))

/-- A `remove` that has deleted the object finds it deleted, and one that has returned finds
nothing. -/
structure Revoked (s : CredentialConfig) : Prop where
  deleted : .removeErase ∈ s.tasks → s.shared.object = none
  gone : .removed ∈ s.tasks → s.shared.entry = none ∧ s.shared.object = none ∧ ∀ u ∈ s.tasks,
    u.writes = false

variable {s : CredentialConfig} {e : CredentialEvent}

theorem Revoked.move {ttl : Nat} (h : Revoked s) {i : Nat} {x : CredentialInput}
    {t : CredentialTask} (hs : Settled s (.advance i x)) (ht : s.tasks[i]? = some t) :
    Revoked ⟨(t.move ttl s.shared x).1, s.tasks.set i (t.move ttl s.shared x).2⟩ := by
  have hmem := List.mem_of_getElem? ht
  constructor
  · intro herase
    rcases List.mem_or_eq_of_mem_set herase with hold | hnew
    · exact CredentialTask.move_object (hs.1 hold t hmem) (h.deleted hold)
    · exact CredentialTask.move_eq_removeErase hnew.symm
  · intro hremoved
    by_cases hold : .removed ∈ s.tasks
    · obtain ⟨hentry, hobject, hquiet⟩ := h.gone hold
      have hdraws : t.draws = false := by
        by_contra hd
        exact hs.2 (by simpa [drawsKey, ht] using hd) hold
      refine ⟨CredentialTask.move_entry (hquiet t hmem) hentry,
        CredentialTask.move_object (hquiet t hmem) hobject, fun u hu => ?_⟩
      rcases List.mem_or_eq_of_mem_set hu with hu | rfl
      · exact hquiet u hu
      · exact CredentialTask.move_writes (hquiet t hmem) hdraws hentry hobject
    · -- This move is the erase of a `remove`, which has seen to it that nothing is about to write.
      have hnew := (List.mem_or_eq_of_mem_set hremoved).resolve_left hold
      obtain rfl : t = .removeErase :=
        (CredentialTask.move_eq_removed hnew.symm).resolve_left fun heq => hold (heq ▸ hmem)
      refine ⟨rfl, h.deleted hmem, fun u hu => ?_⟩
      rcases List.mem_or_eq_of_mem_set hu with hu | rfl
      · exact hs.1 hmem u hu
      · rfl

theorem Revoked.step {interval : Nat} (h : Revoked s) (hs : Settled s e) :
    Revoked ((credentialMachine interval).step s e) := by
  refine Machine.step_cases e h (fun r _ => ?_) (fun i x t he ht => ?_)
    (fun seconds _ => ⟨h.deleted, h.gone⟩)
  · obtain ⟨hquiet, herase, hremoved⟩ := r.start_quiet
    refine ⟨fun hmem => h.deleted (by simpa [credentialMachine, herase.symm] using hmem),
      fun hmem => ?_⟩
    obtain ⟨hentry, hobject, hold⟩ :=
      h.gone (by simpa [credentialMachine, hremoved.symm] using hmem)
    refine ⟨hentry, hobject, fun u hu => ?_⟩
    rcases List.mem_append.mp hu with hu | hu
    · exact hold u hu
    · exact List.mem_singleton.mp hu ▸ hquiet
  · subst he
    exact h.move hs ht

/-- Once `remove` has returned, the key is not found and there is no object of it. -/
theorem revocation_final (interval : Nat) (s : CredentialCell) (es₁ es₂ : List CredentialEvent)
    (h : Along (credentialMachine interval).step Settled ⟨s, []⟩ (es₁ ++ es₂))
    (hremoved : .removed ∈ ((credentialMachine interval).run ⟨s, []⟩ es₁).tasks) :
    let s' := ((credentialMachine interval).run ⟨s, []⟩ (es₁ ++ es₂)).shared
    s'.lookup = none ∧ s'.object = none := by
  have hinv : Revoked ((credentialMachine interval).run ⟨s, []⟩ (es₁ ++ es₂)) :=
    h.invariant (by constructor <;> simp) fun s e hs hr => hr.step hs
  have hstill : .removed ∈ ((credentialMachine interval).run ⟨s, []⟩ (es₁ ++ es₂)).tasks := by
    rw [Machine.run, List.foldl_append]
    exact Machine.mem_run_of_final (fun _ _ => rfl) hremoved es₂
  obtain ⟨hentry, hobject, -⟩ := hinv.gone hstill
  exact ⟨by simp [CredentialCell.lookup, hentry], hobject⟩

/-- A credential that was generated and stored. -/
def storedCredential : CredentialCell where
  entry := some { storageEtag := [1] }
  object := some ⟨some {}, [1]⟩

/-- An update and a round of `sync_now` around a `remove`; the tombstone expires before the next
round. -/
def quietRemove : List CredentialEvent :=
  [.spawn (.update {}), .spawn .remove, .spawn .sync, .advance 0 {}, .advance 1 {},
    .advance 0 { etag := [2] },
    .advance 2 {}, .advance 1 {}, .advance 2 {}, .advance 1 {}, .advance 0 {}, .advance 1 {}]

def nextRound : List CredentialEvent :=
  .env 121 :: .spawn .sync :: (List.replicate 6 (.advance 2 {}) ++ List.replicate 6 (.advance 3 {}))

theorem revocation_final_after_sync :
    let s' := ((credentialMachine 60).run ⟨storedCredential, []⟩ (quietRemove ++ nextRound)).shared
    s'.lookup = none ∧ s'.object = none :=
  revocation_final 60 storedCredential quietRemove nextRound (by decide) (by decide)

/-- An update has read the entry. `remove` deletes the object, the update stores it again and finds
the entry in place, and `remove` erases the entry and returns. When the tombstone has expired, a
round of `sync_now` brings the credential back. -/
def updateUnderRemove : List CredentialEvent :=
  [.spawn (.update {}), .spawn .remove, .advance 0 {}, .advance 1 {}, .advance 1 {}, .advance 1 {},
    .advance 0 { etag := [2] }, .advance 0 {}, .advance 1 {}]

theorem updateUnderRemove_revives :
    let s := (credentialMachine 60).run ⟨storedCredential, []⟩ updateUnderRemove
    let s' := (credentialMachine 60).run s
      (.env 121 :: .spawn .sync :: List.replicate 6 (.advance 2 {}))
    s.tasks = [.done, .removed] ∧ s.shared.lookup = none ∧ s.shared.object.isSome ∧
      s'.tasks = [.done, .removed, .done] ∧ s'.shared.lookup.isSome := by
  decide

end Lights3
