import Lights3.Lib.ByteString
import Lights3.Lib.Interleaving

/-!
# The configuration of one bucket

`put`, `remove` and `sync_now` of the template `SysConfigStore` (`s3/sys_config_store.h`), for the
entry of one bucket: its object in storage, its value in memory, the snapshot that requests read,
and its tombstone. A move is one critical section or one call of the backend. A call may fail,
before or after it has taken effect.

Memory follows storage if writers do not overtake each other between the two, and if what a round of
`sync_now` merges is what storage holds at that moment. A round that comes late is also harmless
when it finds a tombstone.
-/
namespace Lights3
open ByteString Interleaving

/-- The traits of an instantiation; what is stored can be read back. -/
structure SysConfigTraits (Entry : Type) where
  serialize : Entry → Bytes
  deserialize : Bytes → Option Entry
  differs : Entry → Entry → Bool
  deserialize_serialize : ∀ e, deserialize (serialize e) = some e

structure ConfigCell (Entry : Type) where
  entry : Option Entry
  snapshot : Option Entry
  object : Option Bytes
  tombstone : Option Nat := none
  /-- The steady clock, in seconds. -/
  now : Nat := 0

inductive ConfigTask (Entry : Type) where
  | putStore (e : Entry)
  | putCommit (e : Entry)
  | removeTombstone
  | removeDelete
  /-- The delete failed with an `S3Error`: the tombstone is taken back. -/
  | removeFailed
  | removeErase
  | syncKnown
  | syncList (known : Bool)
  | syncFetch (known : Bool)
  | syncMerge (known : Bool) (fetched : Option Entry)
  /-- Returned, or failed. -/
  | done

/-- Whether a call succeeds, and whether a failed call took effect and throws an `S3Error`. -/
structure ConfigInput where
  ok : Bool := true
  did : Bool := false
  s3Error : Bool := true

/-- `kTombstoneTtl`, in seconds. -/
def kTombstoneTtl : Nat := 5 * 60

/-- The limit of `read_all`. -/
def kMaxConfigSize : Nat := 256 * 1024

namespace ConfigCell

variable {Entry : Type} (T : SysConfigTraits Entry) (s : ConfigCell Entry)

def rebuildSnapshot : ConfigCell Entry := { s with snapshot := s.entry }

/-- What the object says. -/
def content : Option Entry := s.object.bind T.deserialize

/-- What a fetch gives; an object that is too large cannot be read. -/
def fetch : Option Entry := if s.object.all (·.length ≤ kMaxConfigSize) then s.content T else none

def dropExpired : ConfigCell Entry :=
  { s with tombstone := s.tombstone.filter fun recorded => s.now - recorded ≤ kTombstoneTtl }

/-- The part of a round of `sync_now` under the lock. -/
def merge (known : Bool) (fetched : Option Entry) : ConfigCell Entry :=
  let s := s.dropExpired
  match fetched with
  | none => if known ∧ s.entry.isSome then { s with entry := none }.rebuildSnapshot else s
  | some e =>
      if s.tombstone.isSome then s
      else
        match s.entry with
        | none => { s with entry := some e }.rebuildSnapshot
        | some old => if T.differs old e then { s with entry := some e }.rebuildSnapshot else s

end ConfigCell

namespace ConfigTask

variable {Entry : Type} (T : SysConfigTraits Entry)

def move (s : ConfigCell Entry) (x : ConfigInput) :
    ConfigTask Entry → ConfigCell Entry × ConfigTask Entry
  | .putStore e =>
      (if x.ok || x.did then { s with object := some (T.serialize e) } else s,
        if x.ok then .putCommit e else .done)
  | .putCommit e => ({ s with tombstone := none, entry := some e }.rebuildSnapshot, .done)
  | .removeTombstone => ({ s with tombstone := some s.now }, .removeDelete)
  | .removeDelete =>
      (if x.ok || x.did then { s with object := none } else s,
        if x.ok then .removeErase else if x.s3Error then .removeFailed else .done)
  | .removeFailed => ({ s with tombstone := none }, .done)
  | .removeErase => (if s.entry.isSome then { s with entry := none }.rebuildSnapshot else s, .done)
  | .syncKnown => (s, .syncList s.entry.isSome)
  -- A round also ends here if the system bucket does not exist.
  | .syncList known =>
      (s, if x.ok then (if s.object.isSome then .syncFetch known else .syncMerge known none) else
        .done)
  | .syncFetch known => (s, .syncMerge known (if x.ok then s.fetch T else none))
  | .syncMerge known fetched => (s.merge T known fetched, .done)
  | .done => (s, .done)

end ConfigTask

inductive ConfigRequest (Entry : Type) where
  | put (e : Entry)
  | remove
  | sync

def ConfigRequest.start {Entry : Type} : ConfigRequest Entry → ConfigTask Entry
  | .put e => .putStore e
  | .remove => .removeTombstone
  | .sync => .syncKnown

variable {Entry : Type} (T : SysConfigTraits Entry)

abbrev ConfigState (Entry : Type) := Config (ConfigCell Entry) (ConfigTask Entry)

abbrev ConfigEvent (Entry : Type) := Event (ConfigRequest Entry) ConfigInput Nat

/-- The operations on the entry of one bucket. Time passes between their moves. -/
def configMachine :
    Machine (ConfigCell Entry) (ConfigTask Entry) (ConfigRequest Entry) ConfigInput Nat where
  start := ConfigRequest.start
  move := ConfigTask.move T
  env s seconds := { s with now := s.now + seconds }

/-! ## One move -/

namespace ConfigCell

variable {T} {s : ConfigCell Entry} {known : Bool} {fetched : Option Entry}

/-- What a merge can do: nothing, drop a known entry that was not fetched, or take over what was
fetched. -/
theorem merge_cases {R : ConfigCell Entry → Prop} (same : R s.dropExpired)
    (drop : known → fetched = none → R { s.dropExpired with entry := none }.rebuildSnapshot)
    (take : ∀ e, fetched = some e → s.dropExpired.tombstone = none →
      R { s.dropExpired with entry := some e }.rebuildSnapshot) : R (s.merge T known fetched) := by
  cases fetched with
  | none =>
      simp only [merge]
      split
      next h => exact drop h.1 rfl
      · exact same
  | some e =>
      simp only [merge]
      split
      · exact same
      next hlive =>
        have htake := take e rfl (by simpa using hlive)
        split
        · exact htake
        · split
          · exact htake
          · exact same

end ConfigCell

namespace ConfigTask

/-- A move of `put`. -/
def puts : ConfigTask Entry → Bool
  | .putStore _ | .putCommit _ => true
  | _ => false

/-- A move of `remove`. -/
def removes : ConfigTask Entry → Bool
  | .removeTombstone | .removeDelete | .removeFailed | .removeErase => true
  | _ => false

/-- The object is written and memory is not. -/
def pending : ConfigTask Entry → Bool
  | .putCommit _ | .removeErase => true
  | _ => false

/-- The next move writes the object. -/
def stores : ConfigTask Entry → Bool
  | .putStore _ | .removeDelete => true
  | _ => false

/-- What a writer relies on when it gets to memory. -/
def Relies (s : ConfigCell Entry) : ConfigTask Entry → Prop
  | .putCommit e => s.object = some (T.serialize e)
  | .removeErase => s.object = none
  | _ => True

variable {T} {s : ConfigCell Entry} {x : ConfigInput} {t u : ConfigTask Entry}

theorem move_snapshot (h : s.snapshot = s.entry) :
    (t.move T s x).1.snapshot = (t.move T s x).1.entry := by
  cases t with
  | syncMerge known fetched =>
      exact ConfigCell.merge_cases (R := fun s => s.snapshot = s.entry) h (fun _ _ => rfl)
        (fun _ _ _ => rfl)
  | _ =>
      simp only [move]
      repeat' split
      all_goals first | exact h | rfl

theorem move_object (hs : t.stores = false) : (t.move T s x).1.object = s.object := by
  cases t with
  | putStore | removeDelete => simp [stores] at hs
  | syncMerge known fetched =>
      exact ConfigCell.merge_cases (R := fun s' => s'.object = s.object) rfl (fun _ _ => rfl)
        (fun _ _ _ => rfl)
  | _ =>
      simp only [move]
      repeat' split
      all_goals rfl

/-- A writer gets to memory with what it has stored. -/
theorem move_relies (h : t.Relies T s) : (t.move T s x).2.Relies T (t.move T s x).1 := by
  cases t with
  | putStore e | removeDelete =>
      simp only [move]
      by_cases hok : x.ok <;> by_cases hs3 : x.s3Error <;> simp [hok, hs3, Relies]
  | _ =>
      simp only [move]
      repeat' split
      all_goals trivial

theorem Relies.congr {s' : ConfigCell Entry} (h : u.Relies T s) (heq : s'.object = s.object) :
    u.Relies T s' := by
  cases u with
  | putCommit | removeErase => exact heq.trans h
  | _ => trivial

theorem relies_of_not_pending (h : u.pending = false) : u.Relies T s := by
  cases u with
  | putCommit | removeErase => simp [pending] at h
  | _ => trivial

end ConfigTask

/-! ## Every run -/

/-- A merge is harmless if it does nothing, merges what the object says, or finds a tombstone that
is not expired. -/
def ConfigCell.Harmless (s : ConfigCell Entry) (known : Bool) (fetched : Option Entry) : Prop :=
  (known = false ∧ fetched = none) ∨ fetched = s.content T ∨ s.dropExpired.tombstone.isSome

/-- No object is written between another writer's object and its entry, and merges are harmless. -/
def InOrder (s : ConfigState Entry) : ConfigTask Entry → Prop
  | .putStore _ => ∀ u ∈ s.tasks, u.pending = false
  | .removeDelete => ∀ u ∈ s.tasks, u.pending → u.removes
  | .syncMerge known fetched => s.shared.Harmless T known fetched
  | _ => True

instance [DecidableEq Entry] (s : ConfigCell Entry) (known : Bool) (fetched : Option Entry) :
    Decidable (s.Harmless T known fetched) :=
  inferInstanceAs (Decidable (_ ∨ _))

instance [DecidableEq Entry] (s : ConfigState Entry) (t : ConfigTask Entry) :
    Decidable (InOrder T s t) :=
  match t with
  | .putStore _ => inferInstanceAs (Decidable (∀ u ∈ s.tasks, u.pending = false))
  | .removeDelete => inferInstanceAs (Decidable (∀ u ∈ s.tasks, u.pending → u.removes))
  | .syncMerge known fetched => inferInstanceAs (Decidable (s.shared.Harmless T known fetched))
  | .putCommit _ | .removeTombstone | .removeFailed | .removeErase | .syncKnown |
    .syncList _ | .syncFetch _
  | .done => inferInstanceAs (Decidable True)

variable {T} {s : ConfigState Entry}

/-- The snapshot shows the entry, and every writer finds its object. -/
abbrev ConfigSound (T : SysConfigTraits Entry) : ConfigState Entry → Prop :=
  Holds (fun s => s.snapshot = s.entry) (ConfigTask.Relies T)

theorem ConfigSound.step {e : ConfigEvent Entry} (h : ConfigSound T s)
    (he : OnMoves (InOrder T) s e) : ConfigSound T ((configMachine T).step s e) := by
  refine Holds.step h e (fun r _ => by cases r <;> trivial) (fun i x t hadv ht => ?_)
    (fun seconds _ => ⟨h.shared, fun u _ hu => hu.congr rfl⟩)
  subst hadv
  have hin : InOrder T s t := he t ht
  refine ⟨ConfigTask.move_snapshot h.shared,
    ConfigTask.move_relies (h.task t (List.mem_of_getElem? ht)), fun j u _ hj hrel => ?_⟩
  have hu := List.mem_of_getElem? hj
  cases t with
  | putStore e => exact ConfigTask.relies_of_not_pending (hin u hu)
  | removeDelete =>
      cases u with
      | removeErase =>
          simp only [configMachine, ConfigTask.move, ConfigTask.Relies] at hrel ⊢
          split <;> simp [hrel]
      | putCommit e => simpa [ConfigTask.pending, ConfigTask.removes] using hin _ hu
      | _ => trivial
  | _ => exact hrel.congr (ConfigTask.move_object rfl)

/-- The entry and its object after a `put` that was not followed by another writer. -/
def ConfigCell.Shows (T : SysConfigTraits Entry) (e : Entry) (s : ConfigCell Entry) : Prop :=
  s.entry = some e ∧ s.object = some (T.serialize e) ∧ s.tombstone = none

theorem ConfigCell.Shows.merge {e : Entry} {s : ConfigCell Entry} {known : Bool}
    {fetched : Option Entry}
    (h : s.Shows T e) (hm : s.Harmless T known fetched) : (s.merge T known fetched).Shows T e := by
  obtain ⟨hentry, hobject, htomb⟩ := h
  have hsame : s.dropExpired.Shows T e := ⟨hentry, hobject, by simp [dropExpired, htomb]⟩
  have hfetched : known → fetched = some e := by
    intro hk
    simpa [Harmless, hk, content, hobject, T.deserialize_serialize, dropExpired, htomb] using hm
  refine merge_cases hsame (fun hk hnone => ?_) (fun e' he' _ => ?_)
  · rw [hfetched hk] at hnone
    cases hnone
  · have heq : e' = e := by
      simpa [Harmless, he', content, hobject, T.deserialize_serialize, dropExpired, htomb] using hm
    subst heq
    exact ⟨rfl, hobject, hsame.2.2⟩

theorem ConfigCell.Shows.step {e : Entry} {ev : ConfigEvent Entry} (h : s.shared.Shows T e)
    (hin : OnMoves (InOrder T) s ev) (hquiet : OnMoves (fun _ t => ¬ t.puts ∧ ¬ t.removes) s ev) :
    ((configMachine T).step s ev).shared.Shows T e := by
  refine Machine.step_cases (R := fun s : ConfigState Entry => s.shared.Shows T e) ev h
    (fun _ _ => h) (fun i x t hadv ht => ?_) (fun _ _ => h)
  subst hadv
  have hin : InOrder T s t := hin t ht
  have hquiet := hquiet t ht
  cases t with
  | putStore | putCommit => simp [ConfigTask.puts] at hquiet
  | removeTombstone | removeDelete | removeFailed | removeErase =>
      simp [ConfigTask.removes] at hquiet
  | syncMerge known fetched => exact h.merge hin
  | _ => exact h

/-- The entry and its object after a `remove` that was not followed by a `put`. -/
def ConfigCell.Absent (s : ConfigCell Entry) : Prop := s.entry = none ∧ s.object = none

theorem ConfigCell.Absent.merge {s : ConfigCell Entry} {known : Bool} {fetched : Option Entry}
    (h : s.Absent) (hm : s.Harmless T known fetched) : (s.merge T known fetched).Absent := by
  refine merge_cases (R := Absent) h (fun _ _ => ⟨rfl, h.2⟩) (fun e he htomb => ?_)
  simp [Harmless, he, content, h.2, htomb] at hm

theorem ConfigCell.Absent.step {ev : ConfigEvent Entry} (h : s.shared.Absent)
    (hin : OnMoves (InOrder T) s ev) (hquiet : OnMoves (fun _ t => ¬ t.puts) s ev) :
    ((configMachine T).step s ev).shared.Absent := by
  refine Machine.step_cases (R := fun s : ConfigState Entry => s.shared.Absent) ev h
    (fun _ _ => h) (fun i x t hadv ht => ?_) (fun _ _ => h)
  subst hadv
  have hin : InOrder T s t := hin t ht
  have hquiet := hquiet t ht
  cases t with
  | putStore | putCommit => simp [ConfigTask.puts] at hquiet
  | syncMerge known fetched => exact h.merge hin
  | removeDelete | removeErase =>
      simp only [configMachine, ConfigTask.move]
      split <;> simp [Absent, h.1, h.2, rebuildSnapshot]
  | _ => exact h

/-- After a `put` the snapshot has its entry until the next `put` or `remove`, and after a `remove`
it has none until the next `put`. -/
theorem config_survives_sync (T : SysConfigTraits Entry) (s : ConfigCell Entry)
    (es₁ es₂ : List (ConfigEvent Entry)) (i : Nat) (x : ConfigInput)
    (h : Along (configMachine T).step (OnMoves (InOrder T)) ⟨s.rebuildSnapshot, []⟩
      (es₁ ++ .advance i x :: es₂)) :
    let before := (configMachine T).run ⟨s.rebuildSnapshot, []⟩ es₁
    let returned := (configMachine T).step before (.advance i x)
    let after := (configMachine T).run returned es₂
    (∀ e, before.tasks[i]? = some (.putCommit e) →
      Along (configMachine T).step (OnMoves fun _ t => ¬ t.puts ∧ ¬ t.removes) returned es₂ →
        after.shared.snapshot = some e) ∧
    (before.tasks[i]? = some .removeErase →
      Along (configMachine T).step (OnMoves fun _ t => ¬ t.puts) returned es₂ →
      after.shared.snapshot = none) := by
  intro before returned after
  obtain ⟨h₁, hnow, h₂⟩ := Along.append.mp h
  have hbefore : ConfigSound T before := h₁.invariant ⟨rfl, by simp⟩ fun s e hs hr => hr.step hs
  have hafter : ConfigSound T after := h₂.invariant (hbefore.step hnow) fun s e hs hr => hr.step hs
  constructor
  · intro e hi hquiet
    have hobject : before.shared.object = some (T.serialize e) :=
      hbefore.task _ (List.mem_of_getElem? hi)
    have hshows : returned.shared.Shows T e := by
      rw [show returned = _ from Machine.step_advance hi]
      exact ⟨rfl, hobject, rfl⟩
    have hend : after.shared.Shows T e :=
      (h₂.and hquiet).invariant (I := fun s : ConfigState Entry => s.shared.Shows T e) hshows
        fun s ev hs hr => hr.step hs.1 hs.2
    exact hafter.shared.trans hend.1
  · intro hi hquiet
    have hobject : before.shared.object = none := hbefore.task _ (List.mem_of_getElem? hi)
    have habsent : returned.shared.Absent := by
      rw [show returned = _ from Machine.step_advance hi]
      simp only [configMachine, ConfigTask.move]
      split <;> simp_all [ConfigCell.Absent, ConfigCell.rebuildSnapshot]
    have hend : after.shared.Absent :=
      (h₂.and hquiet).invariant (I := fun s : ConfigState Entry => s.shared.Absent) habsent
        fun s ev hs hr => hr.step hs.1 hs.2
    exact hafter.shared.trans hend.1

/-- Entries that are stored as they are. -/
def plainConfig : SysConfigTraits Bytes where
  serialize := id
  deserialize := some
  differs a b := a ≠ b
  deserialize_serialize _ := rfl

def configured (e : Bytes) : ConfigCell Bytes :=
  { entry := some e, snapshot := some e, object := some e }

/-- A round fetches between the object and the entry of a `put`, and merges when it has returned. -/
theorem config_survives_sync_put :
    let es : List (ConfigEvent Bytes) :=
      [.spawn (.put [2]), .spawn .sync, .advance 1 {}, .advance 0 {}, .advance 1 {}, .advance 1 {}]
    let s := (configMachine plainConfig).run ⟨(configured [1]).rebuildSnapshot, []⟩ es
    let s' := (configMachine plainConfig).run ((configMachine plainConfig).step s (.advance 0 {}))
      [.advance 1 {}]
    s'.shared.snapshot = some [2] :=
  (config_survives_sync plainConfig (configured [1]) _ _ 0 {} (by decide)).1 [2] rfl (by decide)

/-- A round that has read the old object merges it over the entry of a `put` that has returned. -/
def staleMerge : List (ConfigEvent Bytes) :=
  [.spawn .sync, .advance 0 {}, .advance 0 {}, .advance 0 {}, .spawn (.put [2]),
    .advance 1 {}, .advance 1 {}]

/-- A round whose fetch fails. -/
def failedFetch : List (ConfigEvent Bytes) :=
  [.spawn .sync, .advance 0 {}, .advance 0 {}, .advance 0 { ok := false }, .advance 0 {}]

/-- A `put` runs between the two halves of a `remove`. -/
def putUnderRemove : List (ConfigEvent Bytes) :=
  [.spawn .remove, .advance 0 {}, .advance 0 {}, .spawn (.put [2]), .advance 1 {},
    .advance 1 {}, .advance 0 {}]

theorem config_overwritten_by_sync :
    let run := (configMachine plainConfig).run
    let s : ConfigState Bytes := ⟨configured [1], []⟩
    (run s staleMerge).shared.snapshot = some [2] ∧
      (run s (staleMerge ++ [.advance 0 {}])).shared.snapshot = some [1] ∧
      (run s failedFetch).shared.object = some [1] ∧ (run s failedFetch).shared.snapshot = none ∧
      (run s putUnderRemove).shared.snapshot = none ∧
      (run s (putUnderRemove ++ .spawn .sync :: List.replicate 4 (.advance 2 {}))).shared.snapshot =
        some [2] := by
  decide

end Lights3
