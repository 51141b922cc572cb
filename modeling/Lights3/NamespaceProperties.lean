import Lights3.TableNames
import Lights3.Lib.Results
import Lights3.Lib.Runs

/-!
# Properties of a namespace

`Catalog::update_namespace_properties` reads the entry of a namespace, changes it and
writes it back without a condition, while other calls do the same and one may drop the
namespace. The steps are the operations on the store; the calls on one namespace are
numbered.
-/
namespace Lights3
open ByteString

/-- `NamespaceEntry`, without the times and the flag that no operation reads. -/
structure NamespaceEntry where
  levels : Levels
  properties : SortedMap Bytes Bytes := SortedMap.empty

/-- The arguments of `update_namespace_properties`. -/
structure PropsRequest where
  removals : List Bytes := []
  updates : SortedMap Bytes Bytes := SortedMap.empty

/-- `NamespacePropsResult`. -/
structure NamespacePropsResult where
  removed : List Bytes := []
  missing : List Bytes := []
  updated : List Bytes := []

namespace PropsRequest

/-- The loop over the removals that were seen already and those to come. -/
def checkRemovals (updates : SortedMap Bytes Bytes) : List Bytes → List Bytes →
    Except RestError Unit
  | _, [] => .ok ()
  | seen, k :: ks =>
      if k ∈ seen then
        .error (badRequest (ascii "property '" ++ k ++ ascii "' is listed twice in removals"))
      else if (updates.get? k).isSome then
        .error ⟨.UnprocessableEntityException,
          ascii "property '" ++ k ++ ascii "' appears in both removals and updates"⟩
      else checkRemovals updates (k :: seen) ks

def check (r : PropsRequest) : Except RestError Unit := checkRemovals r.updates [] r.removals

/-- One removal. -/
def removeKey (acc : NamespacePropsResult × SortedMap Bytes Bytes) (k : Bytes) :
    NamespacePropsResult × SortedMap Bytes Bytes :=
  if (acc.2.get? k).isSome then ({ acc.1 with removed := acc.1.removed ++ [k] }, acc.2.erase k)
  else ({ acc.1 with missing := acc.1.missing ++ [k] }, acc.2)

/-- The entry that is written back, and what the caller is told. -/
def apply (r : PropsRequest) (e : NamespaceEntry) :
    NamespacePropsResult × NamespaceEntry :=
  let (res, properties) := r.removals.foldl removeKey ({}, e.properties)
  ({ res with updated := r.updates.entries.map Prod.fst },
    { e with properties := properties.insertAll r.updates.entries })

/-- The keys that a request is about. -/
def Touches (r : PropsRequest) (k : Bytes) : Prop := k ∈ r.removals ∨ (r.updates.get? k).isSome

end PropsRequest

/-- Where an update is, between two operations on the store. -/
inductive UpdatePhase where
  | start
  /-- `get_namespace` found no entry. -/
  | unlisted
  | loaded (e : NamespaceEntry)
  | failed (err : RestError)
  | acknowledged (res : NamespacePropsResult)

inductive DropPhase where
  | start | childless | found | dropped
  | failed (err : RestError)

structure NamespaceState where
  entry : Option NamespaceEntry
  updates : Nat → UpdatePhase := fun _ => .start
  drop : DropPhase := .start

/-- The next operation of an update, or of the drop. -/
inductive NamespaceEvent where
  | update (i : Nat)
  | drop

/-- The namespace, whether it has children, and the requests of the updates. -/
structure NamespaceCalls where
  levels : Levels
  hasChildren : Bool
  requests : Nat → PropsRequest

namespace NamespaceCalls

variable (c : NamespaceCalls)

def notFound : RestError :=
  notFoundNs (ascii "namespace " ++ nsDisplay c.levels ++ ascii " does not exist")

def setPhase (s : NamespaceState) (i : Nat) (phase : UpdatePhase) : NamespaceState :=
  { s with updates := Function.update s.updates i phase }

/-- `update_namespace_properties`, with `load_namespace` at its start. -/
def updateStep (s : NamespaceState) (i : Nat) : NamespaceState :=
  match s.updates i with
  | .start =>
      match s.entry with
      | some e => setPhase s i (.loaded e)
      | none => setPhase s i .unlisted
  | .unlisted =>
      if c.hasChildren then setPhase s i (.loaded { levels := c.levels })
      else setPhase s i (.failed c.notFound)
  | .loaded e =>
      match (c.requests i).check with
      | .error err => setPhase s i (.failed err)
      | .ok () =>
          let (res, e) := (c.requests i).apply e
          setPhase { s with entry := some e } i (.acknowledged res)
  | _ => s

/-- `drop_namespace`; the tombstones it removes afterwards are entries of their own. -/
def dropStep (s : NamespaceState) : NamespaceState :=
  match s.drop with
  | .start =>
      if c.hasChildren then
        { s with
          drop := .failed ⟨.NamespaceNotEmptyException,
            ascii "namespace " ++ nsDisplay c.levels ++ ascii " is not empty"⟩ }
      else { s with drop := .childless }
  | .childless => { s with drop := if s.entry.isSome then .found else .failed c.notFound }
  | .found => { s with entry := none, drop := .dropped }
  | _ => s

def step (s : NamespaceState) : NamespaceEvent → NamespaceState
  | .update i => c.updateStep s i
  | .drop => c.dropStep s

/-- An update that is about to write finds the entry that it has read. -/
def Unraced (s : NamespaceState) : NamespaceEvent → Prop
  | .update i => ∀ e, s.updates i = .loaded e → (c.requests i).check = .ok () → s.entry = some e
  | .drop => True

end NamespaceCalls

/-- The entry holds the initial properties with every acknowledged request applied. -/
structure Reflects (c : NamespaceCalls) (initial : NamespaceEntry) (s : NamespaceState)
    (e : NamespaceEntry) : Prop where
  updated : ∀ i res, s.updates i = .acknowledged res → ∀ k v,
    (c.requests i).updates.get? k = some v → e.properties.get? k = some v
  removed : ∀ i res, s.updates i = .acknowledged res → ∀ k ∈ (c.requests i).removals,
    e.properties.get? k = none
  untouched : ∀ k, (∀ i res, s.updates i = .acknowledged res → ¬ (c.requests i).Touches k) →
    e.properties.get? k = initial.properties.get? k

/-! ## One request -/

namespace PropsRequest

theorem get?_removals (ks : List Bytes) (acc : NamespacePropsResult × SortedMap Bytes Bytes)
    (j : Bytes) : (ks.foldl removeKey acc).2.get? j = if j ∈ ks then none else acc.2.get? j := by
  induction ks generalizing acc with
  | nil => simp
  | cons k ks ih =>
      have hone : (removeKey acc k).2.get? j = if j = k then none else acc.2.get? j := by
        unfold removeKey
        split_ifs with hk hj hj
        · simp [hj]
        · simp [hj]
        · rw [hj]
          simpa using hk
        · rfl
      rw [List.foldl_cons, ih, hone]
      by_cases hj : j = k
      · simp [hj]
      · simp [hj]

theorem get?_apply (r : PropsRequest) (e : NamespaceEntry) (k : Bytes) :
    (r.apply e).2.properties.get? k =
      (r.updates.get? k).or (if k ∈ r.removals then none else e.properties.get? k) := by
  unfold apply
  dsimp only
  rw [SortedMap.get?_insertAll _ r.updates.sorted, get?_removals]
  rfl

/-- A request that passes the check removes nothing that it updates. -/
theorem checkRemovals_ok {updates : SortedMap Bytes Bytes} {seen ks : List Bytes}
    (h : checkRemovals updates seen ks = .ok ()) : ∀ k ∈ ks, updates.get? k = none := by
  induction ks generalizing seen with
  | nil => exact nofun
  | cons j ks ih =>
      unfold checkRemovals at h
      split_ifs at h with h1 h2
      refine List.forall_mem_cons.mpr ⟨?_, ih h⟩
      simpa using h2

end PropsRequest

/-! ## Runs -/

namespace NamespaceCalls

variable {c : NamespaceCalls} {initial : NamespaceEntry} {s : NamespaceState}

/-- The calls are about different keys. -/
def KeysDisjoint (c : NamespaceCalls) : Prop :=
  ∀ i j, i ≠ j → ∀ k, (c.requests i).Touches k → ¬ (c.requests j).Touches k

structure Inv (c : NamespaceCalls) (initial : NamespaceEntry) (s : NamespaceState) : Prop where
  kept : s.drop ≠ .dropped → ∃ e, s.entry = some e ∧ Reflects c initial s e
  gone : s.drop = .dropped → s.entry = none

/-- A step that acknowledges nothing. -/
theorem Inv.setPhase (h : c.Inv initial s) {i : Nat} {phase : UpdatePhase}
    (hold : ∀ res, s.updates i ≠ .acknowledged res) (hnew : ∀ res, phase ≠ .acknowledged res) :
    c.Inv initial (setPhase s i phase) := by
  have hsame (j : Nat) (res : NamespacePropsResult) :
      (NamespaceCalls.setPhase s i phase).updates j = .acknowledged res ↔
        s.updates j = .acknowledged res := by
    show Function.update s.updates i phase j = _ ↔ _
    by_cases hj : j = i
    · rw [hj, Function.update_self]
      exact iff_of_false (hnew res) (hold res)
    · rw [Function.update_of_ne hj]
  refine ⟨fun hd => ?_, h.gone⟩
  obtain ⟨e, he, hr⟩ := h.kept hd
  refine ⟨e, he, fun j res hj => hr.updated j res ((hsame j res).mp hj),
    fun j res hj => hr.removed j res ((hsame j res).mp hj), fun k hk => hr.untouched k ?_⟩
  exact fun j res hj => hk j res ((hsame j res).mpr hj)

/-- The write of a request whose entry nobody has changed. -/
theorem Reflects.apply (hdisjoint : c.KeysDisjoint) {e : NamespaceEntry} {i : Nat}
    (h : Reflects c initial s e) (hi : ∀ res, s.updates i ≠ .acknowledged res)
    (hcheck : (c.requests i).check = .ok ()) :
    Reflects c initial
      (setPhase { s with entry := some ((c.requests i).apply e).2 } i
        (.acknowledged ((c.requests i).apply e).1)) ((c.requests i).apply e).2 := by
  have hcases (j : Nat) (res : NamespacePropsResult)
      (hj : Function.update s.updates i (.acknowledged ((c.requests i).apply e).1) j =
        .acknowledged res) : j = i ∨ (j ≠ i ∧ s.updates j = .acknowledged res) := by
    by_cases hji : j = i
    · exact Or.inl hji
    · rw [Function.update_of_ne hji] at hj
      exact Or.inr ⟨hji, hj⟩
  have hother (k : Bytes) (hk : ¬ (c.requests i).Touches k) :
      ((c.requests i).apply e).2.properties.get? k = e.properties.get? k := by
    unfold PropsRequest.Touches at hk
    rw [not_or, Bool.not_eq_true, Option.isSome_eq_false_iff, Option.isNone_iff_eq_none] at hk
    rw [PropsRequest.get?_apply, hk.2, if_neg hk.1]
    rfl
  refine ⟨fun j res hj k v hv => ?_, fun j res hj k hk => ?_, fun k hk => ?_⟩
  · rcases hcases j res hj with rfl | ⟨hji, hj⟩
    · rw [PropsRequest.get?_apply, hv]
      rfl
    · rw [hother k (hdisjoint j i hji k (Or.inr (by rw [hv]; rfl)))]
      exact h.updated j res hj k v hv
  · rcases hcases j res hj with rfl | ⟨hji, hj⟩
    · rw [PropsRequest.get?_apply, PropsRequest.checkRemovals_ok hcheck k hk, if_pos hk]
      rfl
    · rw [hother k (hdisjoint j i hji k (Or.inl hk))]
      exact h.removed j res hj k hk
  · have hki : ¬ (c.requests i).Touches k := hk i _ (Function.update_self ..)
    rw [hother k hki]
    refine h.untouched k fun j res hj => ?_
    have hji : j ≠ i := fun hji => hi res (hji ▸ hj)
    exact hk j res ((Function.update_of_ne hji ..).trans hj)

theorem Inv.updateStep (hdisjoint : c.KeysDisjoint) (h : c.Inv initial s) {i : Nat}
    (hraced : c.Unraced s (.update i)) : c.Inv initial (c.updateStep s i) := by
  unfold NamespaceCalls.updateStep
  cases hphase : s.updates i with
  | start =>
      have hold res : s.updates i ≠ .acknowledged res := by simp [hphase]
      dsimp only
      split
      · exact h.setPhase hold nofun
      · exact h.setPhase hold nofun
  | unlisted =>
      have hold res : s.updates i ≠ .acknowledged res := by simp [hphase]
      dsimp only
      split_ifs
      · exact h.setPhase hold nofun
      · exact h.setPhase hold nofun
  | loaded e =>
      have hold res : s.updates i ≠ .acknowledged res := by simp [hphase]
      dsimp only
      split
      · exact h.setPhase hold nofun
      · rename_i hcheck
        have hentry := hraced e hphase hcheck
        have hkept : s.drop ≠ .dropped := by
          intro hdropped
          rw [h.gone hdropped] at hentry
          exact absurd hentry nofun
        obtain ⟨e', he', hr⟩ := h.kept hkept
        obtain rfl := Option.some.inj (hentry.symm.trans he')
        exact ⟨fun _ => ⟨_, rfl, Reflects.apply hdisjoint hr hold hcheck⟩,
          fun hdropped => absurd hdropped hkept⟩
  | failed err => exact h
  | acknowledged res => exact h

/-- The drop changes no phase of an update. -/
theorem Inv.dropStep (h : c.Inv initial s) : c.Inv initial (c.dropStep s) := by
  have hset (phase : DropPhase) (hold : s.drop ≠ .dropped) (hnew : phase ≠ .dropped) :
      c.Inv initial { s with drop := phase } := by
    obtain ⟨e, he, hr⟩ := h.kept hold
    exact ⟨fun _ => ⟨e, he, hr.updated, hr.removed, hr.untouched⟩, fun hd => absurd hd hnew⟩
  unfold NamespaceCalls.dropStep
  cases hdrop : s.drop with
  | start =>
      have hold : s.drop ≠ .dropped := by rw [hdrop]; nofun
      dsimp only
      split_ifs
      · exact hset _ hold nofun
      · exact hset _ hold nofun
  | childless =>
      refine hset _ (by rw [hdrop]; nofun) ?_
      split_ifs <;> nofun
  | found => exact ⟨fun hd => absurd rfl hd, fun _ => rfl⟩
  | dropped => exact h
  | failed err => exact h

end NamespaceCalls

/-- No update is lost and no dropped namespace comes back, as long as nothing is written
to or deleted from the entry between the read of an update and its write. -/
theorem namespace_updates_kept (c : NamespaceCalls) (hdisjoint : c.KeysDisjoint)
    (initial : NamespaceEntry) (events : List NamespaceEvent)
    (hrun : Along c.step c.Unraced { entry := some initial } events) :
    ((events.foldl c.step { entry := some initial }).drop ≠ .dropped →
      ∃ e, (events.foldl c.step { entry := some initial }).entry = some e ∧
        Reflects c initial (events.foldl c.step { entry := some initial }) e) ∧
    ((events.foldl c.step { entry := some initial }).drop = .dropped →
      (events.foldl c.step { entry := some initial }).entry = none) := by
  have hinit : c.Inv initial { entry := some initial } := by
    refine ⟨fun _ => ⟨initial, rfl, ?_, ?_, fun _ _ => rfl⟩, nofun⟩
    · exact fun i res hi => absurd hi nofun
    · exact fun i res hi => absurd hi nofun
  have hinv : c.Inv initial (events.foldl c.step { entry := some initial }) := by
    refine hrun.invariant hinit fun s ev hR hs => ?_
    cases ev with
    | update i => exact NamespaceCalls.Inv.updateStep hdisjoint hs hR
    | drop => exact hs.dropStep
  exact ⟨hinv.kept, hinv.gone⟩

/-- Two updates of one property each, on a namespace without children. -/
def twoUpdates : NamespaceCalls where
  levels := [ascii "sales"]
  hasChildren := false
  requests i :=
    if i = 0 then { updates := SortedMap.empty.insert (ascii "owner") (ascii "ops") }
    else if i = 1 then { updates := SortedMap.empty.insert (ascii "team") (ascii "etl") }
    else {}

def salesEntry : NamespaceEntry := { levels := [ascii "sales"] }

theorem twoUpdates_touches {i : Nat} {k : Bytes} (h : (twoUpdates.requests i).Touches k) :
    (i = 0 ∧ k = ascii "owner") ∨ (i = 1 ∧ k = ascii "team") := by
  unfold PropsRequest.Touches twoUpdates at h
  dsimp only at h
  split_ifs at h with h0 h1
  · refine Or.inl ⟨h0, ?_⟩
    simpa using h
  · refine Or.inr ⟨h1, ?_⟩
    simpa using h
  · simp at h

theorem twoUpdates_disjoint : twoUpdates.KeysDisjoint := by
  intro i j hij k hi hj
  rcases twoUpdates_touches hi with ⟨rfl, hk⟩ | ⟨rfl, hk⟩ <;>
    rcases twoUpdates_touches hj with ⟨rfl, hk'⟩ | ⟨rfl, hk'⟩
  · exact hij rfl
  · exact absurd (hk.symm.trans hk') (by decide)
  · exact absurd (hk.symm.trans hk') (by decide)
  · exact hij rfl

/-- One update after the other. -/
theorem namespace_updates_kept_two :
    ∃ e, ([.update 0, .update 0, .update 1, .update 1].foldl twoUpdates.step
        { entry := some salesEntry }).entry = some e ∧
      e.properties.get? (ascii "owner") = some (ascii "ops") ∧
      e.properties.get? (ascii "team") = some (ascii "etl") := by
  have hrun : Along twoUpdates.step twoUpdates.Unraced { entry := some salesEntry }
      [.update 0, .update 0, .update 1, .update 1] := by
    refine ⟨?_, ?_, ?_, ?_, trivial⟩
    · exact fun e he => absurd he nofun
    · rintro e ⟨⟩ -
      rfl
    · exact fun e he => absurd he nofun
    · rintro e ⟨⟩ -
      rfl
  obtain ⟨e, he, hr⟩ := (namespace_updates_kept twoUpdates twoUpdates_disjoint salesEntry _ hrun).1
    nofun
  exact ⟨e, he, hr.updated 0 _ rfl _ _ (by decide +kernel),
    hr.updated 1 _ rfl _ _ (by decide +kernel)⟩

/-- Two updates that both read first: the property of the first one is lost. And an update
that reads before a drop and writes after it: the dropped namespace is back. -/
theorem namespace_updates_race :
    ((∃ res, ([.update 0, .update 1, .update 0, .update 1].foldl twoUpdates.step
        { entry := some salesEntry }).updates 0 = .acknowledged res) ∧
      ([.update 0, .update 1, .update 0, .update 1].foldl twoUpdates.step
        { entry := some salesEntry }).entry.bind (·.properties.get? (ascii "owner")) = none) ∧
    ([.update 0, .drop, .drop, .drop, .update 0].foldl twoUpdates.step
      { entry := some salesEntry }).drop = .dropped ∧
    ([.update 0, .drop, .drop, .drop, .update 0].foldl twoUpdates.step
      { entry := some salesEntry }).entry.isSome = true :=
  ⟨⟨⟨_, rfl⟩, by decide +kernel⟩, rfl, rfl⟩

end Lights3
