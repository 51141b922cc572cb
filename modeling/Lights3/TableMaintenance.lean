import Lights3.TableCatalog

/-!
# Planning, running and purging

`plan_table`, `run_table` and `purge_table` as steps on the catalog and the bucket, with
what each of them can delete. The selection of snapshots to expire is an input of the run.
-/
namespace Lights3
open ByteString

namespace CatalogState

variable {s : CatalogState} {ch : Choice}

theorem requireActive_ok {path : TablePath} {cur : TableEntry}
    (h : s.requireActive path = .ok cur) : s.tables.get? path = some cur ∧ cur.state = .Active := by
  unfold requireActive at h
  split at h
  · cases h
  · rename_i e he
    split at h
    · cases h
    · cases h
    · rename_i hstate
      cases h
      exact ⟨he, hstate⟩

/-- A plan holds metadata files of its table, and orphans of its location. -/
structure Planned (b : TableBucket) (cur : TableEntry) (plan : MaintenancePlan) : Prop where
  metadata : ∀ k ∈ plan.metadataCandidates, metadataDir b.reserved plan.path <+: k
  orphans : plan.orphanCandidates = [] ∨
    ∃ locKey, locationToKey b.bucket b.reserved cur.location = .ok locKey ∧
      OrphansIn locKey plan.orphanCandidates

end CatalogState

/-! ## The orphan scan -/

section Scan
variable (b : TableBucket) (objects : Objects)

/-- The files that one snapshot reaches; nothing if a codec is missing. -/
def reachableOf (snap : Snapshot) : Except RestError (Option (List Bytes)) := do
  let listKeys ← snap.manifestList.toList.mapM (checkedKey b)
  match ← manifestsOf b objects snap with
  | none => return none
  | some manifests => do
      let manifestKeys ← manifests.mapM (checkedKey b)
      match ← entriesOf b objects manifests with
      | none => return none
      | some files => do
          let fileKeys ← files.mapM (fun f => checkedKey b f.2)
          return some (listKeys ++ manifestKeys ++ fileKeys)

/-- `reachable_files`. -/
def reachableFiles : List Snapshot → Except RestError (Option (List Bytes))
  | [] => .ok (some [])
  | snap :: rest => do
      match ← reachableOf b objects snap with
      | none => return none
      | some keys =>
          match ← reachableFiles rest with
          | none => return none
          | some keys' => return some (keys ++ keys')

/-- What the retained metadata files reach; nothing if the scan needs manual review. A
file that is gone has nothing to reach. -/
def reachOf : List Bytes → Option (List Bytes)
  | [] => some []
  | key :: rest =>
      match objects.get? key with
      | none => reachOf rest
      | some o =>
          match o.content with
          | .metadata md => do
              let keys ← (reachableFiles b objects md.snapshots).toOption.join
              let keys' ← reachOf rest
              return keys ++ keys'
          | _ => none

/-- The files of the data directories that nothing reaches and that are old enough. -/
def orphansOf (locKey : Bytes) (reach : List Bytes) (windowLimit : Int) : List Bytes :=
  ((objects.listPrefix (locKey ++ ascii "/data/") ++
      objects.listPrefix (locKey ++ ascii "/delete/")).filter
    (fun x => x.1 ∉ reach && x.2.mtimeUnix ≤ windowLimit)).map Prod.fst

theorem orphansIn_orphansOf (locKey : Bytes) (reach : List Bytes) (windowLimit : Int) :
    CatalogState.OrphansIn locKey (orphansOf objects locKey reach windowLimit) := by
  intro k hk
  obtain ⟨x, hx, rfl⟩ := List.mem_map.mp hk
  rcases List.mem_append.mp (List.mem_filter.mp hx).1 with hdata | hdelete
  · exact Or.inl (Objects.mem_listPrefix.mp hdata).2
  · exact Or.inr (Objects.mem_listPrefix.mp hdelete).2

end Scan

namespace Lake

/-! ## `plan_table` -/

/-- The most recent metadata files, which are retained. -/
def recentFiles (opt : PlannerOptions) (listed : List (Bytes × StoredObject)) : List Bytes :=
  ((metadataFiles listed).reverse.take opt.retainRecent).map Prod.fst

/-- `plan_table`, with whether the plan needs manual review. -/
def planTable (b : TableBucket) (s : Lake) (path : TablePath) (opt : PlannerOptions) :
    Except RestError (MaintenancePlan × Bool) := do
  let cur ← s.requireActive path
  let md ← s.currentMetadata cur
  let retained := retainedBy b cur.metadataLocation md (s.listCommits cur.tableId)
  let listed := s.objects.listPrefix (metadataDir b.reserved path)
  let plan : MaintenancePlan :=
    { path := path
      versionToken := cur.versionToken
      metadataCandidates := metadataCandidates retained opt s.clockUnix listed }
  if opt.orphanCleanup then
    let locKey ← locationToKey b.bucket b.reserved cur.location
    match reachOf b s.objects (retained ++ recentFiles opt listed) with
    | none => return (plan, true)
    | some reach =>
        return ({ plan with
          orphanCandidates :=
            orphansOf s.objects locKey reach (s.clockUnix - opt.safetyWindowSec) }, false)
  else return (plan, false)

/-! ## `run_table` -/

/-- The removal of one candidate. -/
def removeCandidate (path : TablePath) (windowLimit : Int) (s : CatalogState) (x : Bytes × Bool) :
    CatalogState :=
  if x.2 && (s.tablePointer path).any (fun e => e.metadataLocation = x.1) then s
  else
    match s.objects.get? x.1 with
    | none => s
    | some o => if o.mtimeUnix > windowLimit then s else s.apply (.deleteObject x.1)

/-- The expiry commit of a plan that expires snapshots. -/
structure Expiry where
  call : CommitCall
  req : CommitRequest
  ids : NewIds

def stalePlan (why : Bytes) : RestError := badRequest (ascii "StalePlan: " ++ why)

/-- The expiry goes through the standard commit; a conflict makes the plan stale. -/
def expire (b : TableBucket) (s : Lake) : Option Expiry → Except RestError Lake
  | none => .ok s
  | some x =>
      match s.commitTable b x.call x.req x.ids with
      | .ok s' => .ok s'
      | .error e =>
          if e.type.status = 409 then
            .error (stalePlan (ascii "expiry commit was refused: " ++ e.message))
          else .error e

/-- The deletes of a run, in order. -/
def removeAll (s : Lake) (plan : MaintenancePlan) (safetyWindowSec : Int) : Lake :=
  { s with
    toCatalogState :=
      (CatalogState.todoOf plan).foldl
        (removeCandidate plan.path (s.clockUnix - safetyWindowSec)) s.toCatalogState }

/-- `run_table`. -/
def runTable (b : TableBucket) (s : Lake) (plan : MaintenancePlan) (expiry : Option Expiry)
    (deleteEnabled : Bool) (safetyWindowSec : Int) : Except RestError Lake :=
  match s.tablePointer plan.path with
  | none => .error (stalePlan (ascii "table " ++ plan.path.display ++ ascii " no longer exists"))
  | some e =>
      if e.versionToken ≠ plan.versionToken then
        .error (stalePlan (ascii "table changed since planning"))
      else do
        let expired ← s.expire b expiry
        return if deleteEnabled then expired.removeAll plan safetyWindowSec else expired

/-! ## `purge_table` -/

/-- All objects under a prefix go. -/
def wipe (s : CatalogState) (keyPrefix : Bytes) : CatalogState :=
  { s with objects := s.objects.keep (fun k => !decide (keyPrefix <+: k)) }

/-- The records of a table and its tombstone go. -/
def forget (s : CatalogState) (path : TablePath) (tableId : Bytes) : CatalogState :=
  { s with
    commits := s.commits.keep (fun k => k.head? ≠ some tableId)
    tables := s.tables.erase path }

/-- A location that is no location of this bucket is passed over. -/
def wipeLocation (b : TableBucket) (s : CatalogState) (location : Bytes) : CatalogState :=
  match locationToKey b.bucket b.reserved location with
  | .error _ => s
  | .ok locKey => wipe s (locKey ++ [slash])

def purgeTable (b : TableBucket) (s : Lake) (path : TablePath) : Except RestError Lake :=
  match s.tables.get? path with
  | none => .error (notFoundTable (ascii "table " ++ path.display ++ ascii " does not exist"))
  | some cur =>
      if cur.state ≠ .Deleted then
        .error (badRequest (ascii "table " ++ path.display ++
          ascii " is not dropped; purge follows a drop"))
      else
        .ok { s with
          toCatalogState :=
            forget (wipeLocation b (wipe s.toCatalogState (tableDir b.reserved path)) cur.location)
              path cur.tableId }

/-! ## What they delete -/

/-- The key had an object and has none any more. -/
def Deletes (s s' : Lake) (k : Bytes) : Prop :=
  (s.objects.get? k).isSome = true ∧ s'.objects.get? k = none

theorem get?_wipe (s : CatalogState) (keyPrefix k : Bytes) :
    (wipe s keyPrefix).objects.get? k = if keyPrefix <+: k then none else s.objects.get? k := by
  simp only [wipe, SortedMap.get?_keep]
  split_ifs <;> simp_all

variable {expiry : Option Expiry} {plan : MaintenancePlan} {b : TableBucket} {safetyWindowSec : Int}
  {path : TablePath} {deleteEnabled : Bool} {k : Bytes} {s : Lake}

/-- A purge deletes what is under the reserved directory of the table or its location. -/
theorem purgeTable_deletes {s' : Lake} (h : s.purgeTable b path = .ok s') (hk : s.Deletes s' k) :
    ∃ cur, s.tables.get? path = some cur ∧ cur.state = .Deleted ∧
      (tableDir b.reserved path <+: k ∨
        ∃ locKey, locationToKey b.bucket b.reserved cur.location = .ok locKey ∧
          locKey ++ [slash] <+: k) := by
  unfold purgeTable at h
  split at h
  · cases h
  · rename_i cur hcur
    split_ifs at h with hstate
    cases h
    refine ⟨cur, hcur, not_not.mp hstate, ?_⟩
    have hgone : (wipeLocation b (wipe s.toCatalogState (tableDir b.reserved path))
        cur.location).objects.get? k = none := hk.2
    unfold wipeLocation at hgone
    split at hgone
    · rw [get?_wipe] at hgone
      split_ifs at hgone with hdir
      · exact Or.inl hdir
      · simp [Deletes, hgone] at hk
    · rename_i locKey hloc
      rw [get?_wipe, get?_wipe] at hgone
      split_ifs at hgone with hin hdir
      · exact Or.inr ⟨locKey, hloc, hin⟩
      · exact Or.inl hdir
      · simp [Deletes, hgone] at hk

theorem foldl_removeCandidate {windowLimit : Int} {todo : List (Bytes × Bool)} {s : CatalogState}
    (hk : ∀ x ∈ todo, x.1 ≠ k) :
    (todo.foldl (removeCandidate path windowLimit) s).objects.get? k = s.objects.get? k := by
  induction todo generalizing s with
  | nil => rfl
  | cons x todo ih =>
      rw [List.foldl_cons, ih (fun y hy => hk y (List.mem_cons_of_mem _ hy))]
      unfold removeCandidate
      split_ifs
      · rfl
      · split
        · rfl
        · split_ifs
          · rfl
          · have hne : k ≠ x.1 := (hk x List.mem_cons_self).symm
            simp [CatalogState.apply, SortedMap.get?_erase, hne]

/-- A plan holds what the steps of a planner may put into it. -/
theorem planTable_ok {opt : PlannerOptions} {review : Bool}
    (h : s.planTable b path opt = .ok (plan, review)) :
    plan.path = path ∧ ∃ cur, s.tables.get? path = some cur ∧ CatalogState.Planned b cur plan := by
  unfold planTable at h
  obtain ⟨cur, hcur, h⟩ := of_bind_ok h
  obtain ⟨md, -, h⟩ := of_bind_ok h
  have hmetadata (retained : List Bytes) (k : Bytes)
      (hk : k ∈ metadataCandidates retained opt s.clockUnix
        (s.objects.listPrefix (metadataDir b.reserved path))) :
      metadataDir b.reserved path <+: k := by
    obtain ⟨⟨o, ho⟩, -⟩ := mem_metadataCandidates hk
    exact (Objects.mem_listPrefix.mp ho).2
  have hentry := (CatalogState.requireActive_ok hcur).1
  simp only at h
  split_ifs at h
  · obtain ⟨locKey, hloc, h⟩ := of_bind_ok h
    split at h
    · cases h
      exact ⟨rfl, cur, hentry, hmetadata _, Or.inl rfl⟩
    · rename_i reach _
      cases h
      exact ⟨rfl, cur, hentry, hmetadata _,
        Or.inr ⟨locKey, hloc, orphansIn_orphansOf s.objects locKey reach _⟩⟩
  · cases h
    exact ⟨rfl, cur, hentry, hmetadata _, Or.inl rfl⟩

/-- Objects stay. -/
def KeepsObjects (s : Lake) (c : CatalogState) : Prop :=
  ∀ k, (s.objects.get? k).isSome = true → (c.objects.get? k).isSome = true

theorem writeNext_objects {key : Bytes} {next md : Metadata} {isStaged : Bool} {c : CatalogState}
    (h : s.writeNext key next isStaged = .ok (c, md)) : s.KeepsObjects c := by
  unfold writeNext at h
  split at h
  · cases h
    intro k hk
    change ((s.objects.insert key _).get? k).isSome = true
    rw [SortedMap.get?_insert]
    split_ifs
    · rfl
    · exact hk
  · obtain ⟨prev, -, hrest⟩ := of_bind_ok h
    split_ifs at hrest <;> cases hrest <;> exact fun k hk => hk

/-- A commit deletes nothing. -/
theorem commitTable_objects {s' : Lake} {call : CommitCall} {req : CommitRequest} {ids : NewIds}
    (h : s.commitTable b call req ids = .ok s') : s.KeepsObjects s'.toCatalogState := by
  unfold commitTable at h
  obtain ⟨cur, -, h⟩ := of_bind_ok h
  obtain ⟨replay, -, h⟩ := of_bind_ok h
  cases replay with
  | done r =>
      obtain ⟨-, -, h⟩ := of_bind_ok h
      split_ifs at h <;> cases h <;> exact fun k hk => hk
  | staged r =>
      obtain ⟨current, -, h⟩ := of_bind_ok h
      obtain ⟨next, -, h⟩ := of_bind_ok h
      obtain ⟨⟨c, md⟩, hwrite, h⟩ := of_bind_ok h
      cases h
      exact fun k hk => writeNext_objects hwrite k hk
  | fresh =>
      obtain ⟨current, -, h⟩ := of_bind_ok h
      obtain ⟨next, -, h⟩ := of_bind_ok h
      obtain ⟨⟨c, md⟩, hwrite, h⟩ := of_bind_ok h
      cases h
      exact fun k hk => writeNext_objects hwrite k hk

/-- The expiry of a run is a commit, if there is one. -/
theorem expire_ok {s' : Lake} (h : s.expire b expiry = .ok s') :
    s' = s ∨ ∃ x ∈ expiry, s.commitTable b x.call x.req x.ids = .ok s' := by
  unfold expire at h
  split at h
  · cases h
    exact Or.inl rfl
  · rename_i x
    split at h
    · rename_i hcommit
      cases h
      exact Or.inr ⟨x, rfl, hcommit⟩
    · split_ifs at h

theorem runTable_ok {s' : Lake}
    (h : s.runTable b plan expiry deleteEnabled safetyWindowSec = .ok s') :
    ∃ expired, s.expire b expiry = .ok expired ∧
      s' = if deleteEnabled then expired.removeAll plan safetyWindowSec else expired := by
  unfold runTable at h
  split at h
  · cases h
  · rename_i e _
    by_cases hstale : e.versionToken ≠ plan.versionToken
    · rw [if_pos hstale] at h
      cases h
    rw [if_neg hstale] at h
    obtain ⟨expired, hexpire, h⟩ := of_bind_ok h
    exact ⟨expired, hexpire, (Except.ok.inj h).symm⟩

/-- A key that is no candidate of the plan keeps its object. -/
theorem get?_removeAll (hmetadata : k ∉ plan.metadataCandidates)
    (horphans : k ∉ plan.orphanCandidates) :
    (s.removeAll plan safetyWindowSec).objects.get? k = s.objects.get? k := by
  refine foldl_removeCandidate fun x hx heq => ?_
  subst heq
  rcases List.mem_append.mp hx with hx | hx
  · obtain ⟨k, hk, rfl⟩ := List.mem_map.mp hx
    exact hmetadata hk
  · obtain ⟨k, hk, rfl⟩ := List.mem_map.mp hx
    exact horphans hk

/-- A run deletes candidates of its plan. -/
theorem runTable_deletes {s' : Lake}
    (h : s.runTable b plan expiry deleteEnabled safetyWindowSec = .ok s') (hk : s.Deletes s' k) :
    k ∈ plan.metadataCandidates ∨ k ∈ plan.orphanCandidates := by
  obtain ⟨expired, hexpire, rfl⟩ := runTable_ok h
  have hthere : (expired.objects.get? k).isSome = true := by
    rcases expire_ok hexpire with rfl | ⟨x, -, hcommit⟩
    · exact hk.1
    · exact commitTable_objects hcommit k hk.1
  by_contra hnot
  rw [not_or] at hnot
  have hgone := hk.2
  split_ifs at hgone
  · rw [get?_removeAll hnot.1 hnot.2] at hgone
    simp [hgone] at hthere
  · simp [hgone] at hthere

end Lake

end Lights3
