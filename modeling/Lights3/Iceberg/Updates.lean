import Lights3.Iceberg.TableMetadata
import Lights3.TableEntities

/-!
# Metadata updates

The requirements and the update actions of a commit, the check of the transition that they
make, and the commit as a whole. The uuid and the format version are handled ahead of the
other actions of a request. Ids that the service counts up by itself are taken as unbounded;
partition field ids may come from a client and wrap like 64-bit integers.
-/
namespace Lights3.Iceberg
open ByteString

inductive Update where
  | assignUuid (uuid : Bytes)
  | upgradeFormatVersion (version : Int)
  | addSchema (schema : SchemaBody) (lastColumnId : Option Int)
  | setCurrentSchema (schemaId : Int)
  | addSpec (fields : List ClientPartitionField) (rest : Bytes)
  | setDefaultSpec (specId : Int)
  | addSortOrder (fields : List ClientSortField) (rest : Bytes)
  | setDefaultSortOrder (orderId : Int)
  | addSnapshot (snapshot : Snapshot)
  | setSnapshotRef (name : Bytes) (ref : SnapshotRef)
  | removeSnapshots (ids : List Int)
  | removeSnapshotRef (name : Bytes)
  | setLocation (location : Bytes)
  | setProperties (updates : List (Bytes × Bytes))
  | removeProperties (removals : List Bytes)
  | setStatistics (file : StatisticsFile)
  | removeStatistics (snapshotId : Int)
  | setPartitionStatistics (file : StatisticsFile)
  | removePartitionStatistics (snapshotId : Int)
  | removePartitionSpecs (ids : List Int)
  | removeSchemas (ids : List Int)

/-- The actions of the first pass. -/
def Update.first : Update → Bool
  | assignUuid _ | upgradeFormatVersion _ => true
  | _ => false

/-- The snapshot that an action adds. -/
def Update.snapshot? : Update → Option Snapshot
  | addSnapshot s => some s
  | _ => none

/-- The evolution from the current schema, if there is one. -/
def evolvesFrom (fail : Bytes → RestError) (current : Option Schema) (next : SchemaBody) :
    Except RestError Unit :=
  match current with
  | none => .ok ()
  | some c => checkSchemaEvolution fail c.body next

/-- `Applier`: the document and the ids that `-1` stands for. -/
structure Applier where
  md : TableMetadata
  lastAddedSchema : Int := -1
  lastAddedSpec : Int := -1
  lastAddedOrder : Int := -1

namespace Applier

variable (a : Applier)

/-- `current_field_ids`. -/
def currentFieldIds : List Int :=
  match a.md.findSchema a.md.currentSchemaId with
  | none => []
  | some s => s.body.fieldIds

def assignUuid (uuid : Bytes) : Except RestError Applier := do
  require (a.md.tableUuid = uuid)
    (commitFailed (ascii "assign-uuid: table uuid " ++ a.md.tableUuid ++ ascii " cannot change"))
  return a

/-- `upgrade_format_version`: snapshots without a sequence number get zero. -/
def upgradeFormatVersion (v : Int) : Except RestError Applier :=
  if v = a.md.formatVersion then .ok a
  else do
    require (a.md.formatVersion < v) (badRequest (ascii "cannot downgrade format-version"))
    require (v = 2) (unsupported
      (ascii "Iceberg format-version " ++ showInt v ++ ascii " is not supported"))
    return { a with
      md := { a.md with
        formatVersion := 2
        lastSequenceNumber := some (a.md.lastSequenceNumber.getD 0)
        snapshots := a.md.snapshots.map (fun s =>
          { s with sequenceNumber := some (s.sequenceNumber.getD 0) }) } }

/-! ## Schemas, specs and sort orders -/

/-- The id after all ids, at least the first one. -/
def nextId (first : Int) (ids : List Int) : Int := ids.foldl (fun n id => max n (id + 1)) first

/-- A field id that is not in the current schema must be above the watermark. -/
def checkNewFieldIds (lastColumnId : Int) (known : List Int) (current : SortedMap Int FieldInfo)
    (fields : SortedMap Int FieldInfo) : Except RestError Unit :=
  fields.entries.forM (fun x =>
    require ((current.get? x.1).isSome || !(x.1 ∈ known || x.1 ≤ lastColumnId))
      (badRequest (ascii "add-schema: field id " ++ showInt x.1 ++
        ascii " was already assigned; new columns need ids above last-column-id")))

/-- `add_schema`. -/
def addSchema (schema : SchemaBody) (lastColumnId : Option Int) : Except RestError Applier :=
  match a.md.schemas.find? (fun s => s.body = schema) with
  | some s => .ok { a with lastAddedSchema := s.schemaId }
  | none => do
      schema.walk
      let current := a.md.findSchema a.md.currentSchemaId
      evolvesFrom badRequest current schema
      checkNewFieldIds a.md.lastColumnId a.md.allFieldIds
        ((current.map (·.body.fieldMap)).getD .empty) schema.fieldMap
      let id := nextId 0 a.md.schemaIds
      let maxId := schema.fieldIds.foldl max a.md.lastColumnId
      return { a with
        md := { a.md with
          schemas := a.md.schemas ++ [⟨id, schema⟩]
          lastColumnId := max (max a.md.lastColumnId maxId) (lastColumnId.getD (-1)) }
        lastAddedSchema := id }

/-- An id that a request gives, where `-1` stands for the one added last. -/
def resolveId (id lastAdded : Int) (missing : Bytes) : Except RestError Int :=
  if id = -1 then do
    require (0 ≤ lastAdded) (badRequest missing)
    return lastAdded
  else .ok id

/-- `set_current_schema`. -/
def setCurrentSchema (id : Int) : Except RestError Applier := do
  let id ← resolveId id a.lastAddedSchema
    (ascii "set-current-schema -1 without a preceding add-schema")
  require (a.md.findSchema id).isSome
    (badRequest (ascii "set-current-schema: schema " ++ showInt id ++ ascii " not found"))
  return { a with md := { a.md with currentSchemaId := id } }

/-- `++` on a 64-bit integer. -/
def succ64 (n : Int) : Int := if n < 2 ^ 63 - 1 then n + 1 else -2 ^ 63

/-- The fields of a new spec: ids from 1000 on are kept, others are counted up from the last
one. -/
def specFields (sources : List Int) : Int → List Int → List ClientPartitionField →
    Except RestError (List PartitionField × Int)
  | last, _, [] => .ok ([], last)
  | last, seen, f :: fs => do
      require (f.sourceId ∈ sources) (badRequest (ascii "add-spec: source-id " ++
        showInt f.sourceId ++ ascii " is not in the current schema"))
      let given := f.fieldId.filter (fun id => 1000 ≤ id)
      let id := given.getD (succ64 last)
      let last := if given.isSome then max last id else id
      require (id ∉ seen) (badRequest (ascii "add-spec: duplicate field-id"))
      let (rest, last) ← specFields sources last (id :: seen) fs
      return (⟨f.sourceId, id, f.name, f.transform, f.rest⟩ :: rest, last)

/-- `add_spec`. -/
def addSpec (fields : List ClientPartitionField) (rest : Bytes) : Except RestError Applier := do
  let (fields, last) ← specFields a.currentFieldIds a.md.lastPartitionId [] fields
  let body : SpecBody := { fields, rest }
  match a.md.partitionSpecs.find? (fun s => s.body = body) with
  | some s => return { a with lastAddedSpec := s.specId }
  | none =>
      let id := nextId 0 a.md.specIds
      return { a with
        md := { a.md with
          partitionSpecs := a.md.partitionSpecs ++ [⟨id, body⟩]
          lastPartitionId := max a.md.lastPartitionId last }
        lastAddedSpec := id }

/-- `set_default_spec`. -/
def setDefaultSpec (id : Int) : Except RestError Applier := do
  let id ← resolveId id a.lastAddedSpec (ascii "set-default-spec -1 without a preceding add-spec")
  require (id ∈ a.md.specIds)
    (badRequest (ascii "set-default-spec: spec " ++ showInt id ++ ascii " not found"))
  return { a with md := { a.md with defaultSpecId := id } }

/-- `add_sort_order`: an order without fields has the id zero. -/
def addSortOrder (fields : List ClientSortField) (rest : Bytes) : Except RestError Applier := do
  fields.forM (fun f => require (f.sourceId ∈ a.currentFieldIds)
    (badRequest (ascii "add-sort-order: source-id is not in the current schema")))
  let fields := fields.map (·.withDefaults)
  match a.md.sortOrders.find? (fun s => s.body.fields = fields) with
  | some s => return { a with lastAddedOrder := s.orderId }
  | none =>
      let id := if fields.isEmpty then 0 else nextId 1 a.md.orderIds
      return { a with
        md := { a.md with sortOrders := a.md.sortOrders ++ [⟨id, { fields, rest }⟩] }
        lastAddedOrder := id }

/-- `set_default_sort_order`. -/
def setDefaultSortOrder (id : Int) : Except RestError Applier := do
  let id ← resolveId id a.lastAddedOrder
    (ascii "set-default-sort-order -1 without a preceding add-sort-order")
  require (id ∈ a.md.orderIds)
    (badRequest (ascii "set-default-sort-order: order " ++ showInt id ++ ascii " not found"))
  return { a with md := { a.md with defaultSortOrderId := id } }

/-! ## Snapshots -/

/-- The sequence number of a new snapshot of version 2, and the last one after it. -/
def checkSequence (s : Snapshot) : Except RestError Int := do
  require s.manifests.isNone
    (badRequest (ascii "v2 snapshots must use 'manifest-list', not 'manifests'"))
  require s.manifestList.isSome (badRequest (ascii "add-snapshot needs 'manifest-list'"))
  match s.sequenceNumber with
  | none => throw (badRequest (ascii "v2 snapshots need an integer 'sequence-number'"))
  | some seq =>
      let last := a.md.lastSequenceNumber.getD 0
      require (last < seq || a.md.snapshots.isEmpty) (commitFailed
        (ascii "add-snapshot: sequence-number " ++ showInt seq ++
          ascii " must be greater than last-sequence-number " ++ showInt last))
      return max last seq

/-- The last sequence number after a snapshot was added. -/
def sequenceAfter (s : Snapshot) : Except RestError (Option Int) :=
  if a.md.formatVersion = 2 then do return some (← a.checkSequence s)
  else do
    require (s.manifestList.isSome || s.manifests.isSome)
      (badRequest (ascii "add-snapshot needs 'manifest-list' or 'manifests'"))
    return a.md.lastSequenceNumber

/-- `add_snapshot`. -/
def addSnapshot (opt : TableBucket) (s : Snapshot) : Except RestError Applier := do
  require (a.md.findSnapshot s.snapshotId).isNone (commitFailed (ascii "add-snapshot: snapshot " ++
    showInt s.snapshotId ++ ascii " already exists"))
  let last ← a.sequenceAfter s
  require (s.parentSnapshotId.all (fun p => (a.md.findSnapshot p).isSome)) (commitFailed
    (ascii "add-snapshot: parent snapshot " ++ showInt (s.parentSnapshotId.getD 0) ++
      ascii " does not exist"))
  require (s.operation.all (fun op => op ∈
      [ascii "append", ascii "overwrite", ascii "delete", ascii "replace"]))
    (badRequest (ascii "snapshot summary operation must be append|overwrite|delete|replace"))
  let _ ← s.manifestList.toList.mapM (pathToKey opt.bucket)
  return { a with
    md := { a.md with snapshots := a.md.snapshots ++ [s], lastSequenceNumber := last } }

def mainRef : Bytes := ascii "main"

/-- `set_snapshot_ref`. -/
def setSnapshotRef (name : Bytes) (ref : SnapshotRef) : Except RestError Applier :=
  match a.md.findSnapshot ref.snapshotId with
  | none => .error (commitFailed (ascii "set-snapshot-ref: snapshot " ++ showInt ref.snapshotId ++
      ascii " does not exist"))
  | some s =>
      let refs := a.md.refs.insert name ref
      if name = mainRef then
        .ok { a with
          md := { a.md with
            refs := refs
            currentSnapshotId := ref.snapshotId
            snapshotLog := a.md.snapshotLog ++ [⟨ref.snapshotId, s.timestampMs⟩] } }
      else .ok { a with md := { a.md with refs := refs } }

/-- `remove_snapshots`: the references to removed snapshots go with them. -/
def removeSnapshots (ids : List Int) : Applier :=
  { a with
    md := { a.md with
      snapshots := a.md.snapshots.filter (fun s => s.snapshotId ∉ ids)
      refs := a.md.refs.keep (fun k => (a.md.refs.get? k).any (fun r => r.snapshotId ∉ ids))
      currentSnapshotId := if a.md.currentSnapshotId ∈ ids then -1 else a.md.currentSnapshotId
      statistics := a.md.statistics.filter (fun f => f.snapshotId ∉ ids)
      partitionStatistics := a.md.partitionStatistics.filter (fun f => f.snapshotId ∉ ids) } }

/-- `remove_snapshot_ref`. -/
def removeSnapshotRef (name : Bytes) : Applier :=
  { a with
    md := { a.md with
      refs := a.md.refs.erase name
      currentSnapshotId := if name = mainRef then -1 else a.md.currentSnapshotId } }

/-! ## The other actions -/

/-- `set_location`. -/
def setLocation (opt : TableBucket) (location : Bytes) : Except RestError Applier := do
  let key ← locationToKey opt.bucket opt.reserved location
  return { a with md := { a.md with location := keyToLocation opt.bucket key } }

/-- `set_properties`. -/
def setProperties (updates : List (Bytes × Bytes)) : Except RestError Applier := do
  require (updates.all (fun x => x.1 ≠ ascii "format-version"))
    (badRequest (ascii "use upgrade-format-version to change the format version"))
  return { a with
    md := { a.md with
      properties := updates.foldl (fun m x => m.insert x.1 x.2) a.md.properties } }

/-- `remove_properties`. -/
def removeProperties (removals : List Bytes) : Applier :=
  { a with
    md := { a.md with
      properties := removals.foldl (fun m k => m.erase k) a.md.properties } }

/-- `set_stats` on one of the two lists. -/
def setStats (files : List StatisticsFile) (file : StatisticsFile) :
    Except RestError (List StatisticsFile) := do
  require (a.md.findSnapshot file.snapshotId).isSome (commitFailed
    (ascii "statistics reference unknown snapshot " ++ showInt file.snapshotId))
  return files.filter (fun f => f.snapshotId ≠ file.snapshotId) ++ [file]

/-- `remove_stats` on one of the two lists. -/
def removeStats (files : List StatisticsFile) (snapshotId : Int) : List StatisticsFile :=
  files.filter (fun f => f.snapshotId ≠ snapshotId)

/-- `remove_partition_specs`. -/
def removePartitionSpecs (ids : List Int) : Except RestError Applier := do
  require (a.md.defaultSpecId ∉ ids) (badRequest (ascii "cannot remove the default partition spec"))
  return { a with
    md := { a.md with
      partitionSpecs := a.md.partitionSpecs.filter (fun s => s.specId ∉ ids) } }

/-- `remove_schemas`. -/
def removeSchemas (ids : List Int) : Except RestError Applier := do
  require (a.md.currentSchemaId ∉ ids) (badRequest (ascii "cannot remove the current schema"))
  return { a with md := { a.md with schemas := a.md.schemas.filter (fun s => s.schemaId ∉ ids) } }

/-- `Applier::apply`. -/
def apply (opt : TableBucket) : Update → Except RestError Applier
  | .assignUuid uuid => a.assignUuid uuid
  | .upgradeFormatVersion v => a.upgradeFormatVersion v
  | .addSchema schema lastColumnId => a.addSchema schema lastColumnId
  | .setCurrentSchema id => a.setCurrentSchema id
  | .addSpec fields rest => a.addSpec fields rest
  | .setDefaultSpec id => a.setDefaultSpec id
  | .addSortOrder fields rest => a.addSortOrder fields rest
  | .setDefaultSortOrder id => a.setDefaultSortOrder id
  | .addSnapshot s => a.addSnapshot opt s
  | .setSnapshotRef name ref => a.setSnapshotRef name ref
  | .removeSnapshots ids => .ok (a.removeSnapshots ids)
  | .removeSnapshotRef name => .ok (a.removeSnapshotRef name)
  | .setLocation location => a.setLocation opt location
  | .setProperties updates => a.setProperties updates
  | .removeProperties removals => .ok (a.removeProperties removals)
  | .setStatistics file => do
      return { a with md := { a.md with statistics := ← a.setStats a.md.statistics file } }
  | .removeStatistics id =>
      .ok { a with md := { a.md with statistics := removeStats a.md.statistics id } }
  | .setPartitionStatistics file => do
      return { a with
        md := { a.md with partitionStatistics := ← a.setStats a.md.partitionStatistics file } }
  | .removePartitionStatistics id =>
      .ok { a with
        md := { a.md with partitionStatistics := removeStats a.md.partitionStatistics id } }
  | .removePartitionSpecs ids => a.removePartitionSpecs ids
  | .removeSchemas ids => a.removeSchemas ids

end Applier

/-- The actions in the order in which they are applied. -/
def inOrder (updates : List Update) : List Update :=
  updates.filter (·.first) ++ updates.filter (fun u => !u.first)

/-- `apply_updates`. -/
def applyUpdates (opt : TableBucket) (current : TableMetadata) (updates : List Update) :
    Except RestError TableMetadata := do
  let a ← (inOrder updates).foldlM (fun a u => Applier.apply a opt u) { md := current }
  let md := synchronizeVersionFields a.md
  validateMetadata md
  return md

/-! ## Transitions -/

/-- `same_existing`: an id of both versions has the same body in both. -/
def sameExisting {β : Type} [DecidableEq β] (what : Bytes) (current next : List (Int × β)) :
    Except RestError Unit :=
  next.forM (fun x =>
    require ((current.find? (fun y => y.1 = x.1)).all (fun y => y.2 = x.2))
      (commitFailed (ascii "existing " ++ what ++ ascii " " ++ showInt x.1 ++
        ascii " was modified")))

namespace TableMetadata

variable (md : TableMetadata)

def schemaBodies : List (Int × SchemaBody) := md.schemas.map (fun s => (s.schemaId, s.body))
def specBodies : List (Int × SpecBody) := md.partitionSpecs.map (fun s => (s.specId, s.body))
def orderBodies : List (Int × OrderBody) := md.sortOrders.map (fun s => (s.orderId, s.body))

/-- Snapshots without their sequence number. -/
def snapshotBodies : List (Int × Snapshot) :=
  md.snapshots.map (fun s => (s.snapshotId, { s with sequenceNumber := none }))

end TableMetadata

/-- The check of the schemas that are new. -/
def checkNewSchemas (current next : TableMetadata) : Except RestError Unit :=
  next.schemas.forM (fun s =>
    if s.schemaId ∈ current.schemaIds then .ok ()
    else do
      s.body.fieldIds.forM (fun id =>
        require (id ∈ current.allFieldIds || current.lastColumnId < id)
          (commitFailed (ascii "new schema reuses retired field id " ++ showInt id)))
      evolvesFrom commitFailed (current.findSchema current.currentSchemaId) s.body)

/-- `check_transition`. -/
def checkTransition (current next : TableMetadata) : Except RestError Unit := do
  require (current.tableUuid = next.tableUuid) (commitFailed (ascii "table uuid cannot change"))
  require (current.formatVersion ≤ next.formatVersion)
    (commitFailed (ascii "format-version cannot decrease"))
  require (current.lastColumnId ≤ next.lastColumnId)
    (commitFailed (ascii "last-column-id cannot decrease"))
  require (current.lastPartitionId ≤ next.lastPartitionId)
    (commitFailed (ascii "last-partition-id cannot decrease"))
  require (current.lastSequenceNumber.getD 0 ≤ next.lastSequenceNumber.getD 0)
    (commitFailed (ascii "last-sequence-number cannot decrease"))
  sameExisting (ascii "schema") current.schemaBodies next.schemaBodies
  sameExisting (ascii "partition spec") current.specBodies next.specBodies
  sameExisting (ascii "sort order") current.orderBodies next.orderBodies
  sameExisting (ascii "snapshot") current.snapshotBodies next.snapshotBodies
  checkNewSchemas current next

inductive Requirement where
  | assertCreate
  | assertTableUuid (uuid : Bytes)
  | assertRefSnapshotId (ref : Bytes) (snapshotId : Option Int)
  | assertLastAssignedFieldId (id : Int)
  | assertCurrentSchemaId (id : Int)
  | assertLastAssignedPartitionId (id : Int)
  | assertDefaultSpecId (id : Int)
  | assertDefaultSortOrderId (id : Int)

/-- `check_requirements` on a table that exists. -/
def checkRequirement (current : TableMetadata) : Requirement → Except RestError Unit
  | .assertCreate => .error (commitFailed (ascii "requirement failed: table already exists"))
  | .assertTableUuid uuid => require (current.tableUuid = uuid)
      (commitFailed (ascii "requirement failed: table uuid does not match"))
  | .assertRefSnapshotId ref none => require (current.refs.get? ref).isNone
      (commitFailed (ascii "requirement failed: branch or tag " ++ ref ++ ascii " already exists"))
  | .assertRefSnapshotId ref (some id) =>
      match current.refs.get? ref with
      | none => .error (commitFailed (ascii "requirement failed: branch or tag " ++ ref ++
          ascii " is missing"))
      | some r => require (r.snapshotId = id) (commitFailed
          (ascii "requirement failed: branch or tag " ++ ref ++ ascii " has changed"))
  | .assertLastAssignedFieldId id => require (current.lastColumnId = id)
      (commitFailed (ascii "requirement failed: last assigned field id changed"))
  | .assertCurrentSchemaId id => require (current.currentSchemaId = id)
      (commitFailed (ascii "requirement failed: current schema changed"))
  | .assertLastAssignedPartitionId id => require (current.lastPartitionId = id)
      (commitFailed (ascii "requirement failed: last assigned partition id changed"))
  | .assertDefaultSpecId id => require (current.defaultSpecId = id)
      (commitFailed (ascii "requirement failed: default partition spec changed"))
  | .assertDefaultSortOrderId id => require (current.defaultSortOrderId = id)
      (commitFailed (ascii "requirement failed: default sort order changed"))

/-- A request with what the commit adds to it. -/
structure CommitStep where
  requirements : List Requirement := []
  updates : List Update := []
  prevMetadataLocation : Bytes := []
  nowMs : Int := 0
  metadataLogKeep : Nat := 100

/-- The metadata that a commit installs, up to the checks of the files of new snapshots. -/
def commit (opt : TableBucket) (current : TableMetadata) (c : CommitStep) :
    Except RestError TableMetadata := do
  c.requirements.forM (checkRequirement current)
  let next ← applyUpdates opt current c.updates
  checkTransition current next
  return finishTransition next c.prevMetadataLocation c.nowMs c.metadataLogKeep

/-- The versions of a table, the newest one first, when every commit meets a condition. -/
inductive History (opt : TableBucket) (cond : TableMetadata → CommitStep → Prop) :
    List TableMetadata → Prop where
  | initial {i : CreateTableInput} {md : TableMetadata} (h : initialMetadata i = .ok md) :
      History opt cond [md]
  | commit {md md' : TableMetadata} {older : List TableMetadata} {c : CommitStep}
      (hist : History opt cond (md :: older)) (hcond : cond md c) (h : commit opt md c = .ok md') :
      History opt cond (md' :: md :: older)

theorem History.imp {opt : TableBucket} {cond cond' : TableMetadata → CommitStep → Prop}
    (himp : ∀ md c, cond md c → cond' md c) {vs : List TableMetadata} (h : History opt cond vs) :
    History opt cond' vs := by
  induction h with
  | initial h => exact .initial h
  | commit _ hcond h ih => exact ih.commit (himp _ _ hcond) h

section Versions

variable (opt : TableBucket) (cond : TableMetadata → CommitStep → Prop)
  [∀ md c, Decidable (cond md c)]

/-- One more version, if the condition holds and the commit succeeds. -/
def nextVersion (versions : List TableMetadata) (c : CommitStep) : Option (List TableMetadata) :=
  match versions with
  | [] => none
  | md :: older =>
      if cond md c then (commit opt md c).toOption.map (fun md' => md' :: md :: older) else none

/-- The versions that a table has after some commits. -/
def versions (i : CreateTableInput) (commits : List CommitStep) : Option (List TableMetadata) := do
  let md ← (initialMetadata i).toOption
  commits.foldlM (nextVersion opt cond) [md]

variable {opt cond}

theorem nextVersion_history {vs vs' : List TableMetadata} {c : CommitStep}
    (hist : History opt cond vs) (h : nextVersion opt cond vs c = some vs') :
    History opt cond vs' := by
  cases vs with
  | nil => cases h
  | cons md older =>
      simp only [nextVersion] at h
      split_ifs at h with hcond
      obtain ⟨md', hcommit, rfl⟩ := Option.map_eq_some_iff.mp h
      exact hist.commit hcond (toOption_eq_some.mp hcommit)

theorem versions_history {i : CreateTableInput} {commits : List CommitStep}
    {vs : List TableMetadata} (h : versions opt cond i commits = some vs) :
    History opt cond vs := by
  obtain ⟨md, hmd, h⟩ := Option.bind_eq_some_iff.mp h
  exact foldlM_some_invariant (fun _ _ _ hist => nextVersion_history hist)
    (.initial (toOption_eq_some.mp hmd)) h

end Versions

end Lights3.Iceberg
