import Lights3.Iceberg.Types

/-!
# Iceberg table metadata

The metadata document as far as the catalog reads it, its validation, the metadata of a new
table, and what every transition does at its end. Members that the source fills in when they
are absent are there; ids and counters are integers.
-/
namespace Lights3.Iceberg
open ByteString

/-! ## The document -/

structure PartitionField where
  sourceId : Int
  fieldId : Int
  name : Bytes
  transform : Bytes
  rest : Bytes := []
  deriving DecidableEq

structure SpecBody where
  fields : List PartitionField := []
  rest : Bytes := []
  deriving DecidableEq

structure PartitionSpec where
  specId : Int
  body : SpecBody
  deriving DecidableEq

structure SortField where
  sourceId : Int
  transform : Bytes
  direction : Bytes := ascii "asc"
  nullOrder : Bytes := ascii "nulls-first"
  rest : Bytes := []
  deriving DecidableEq

structure OrderBody where
  fields : List SortField := []
  rest : Bytes := []
  deriving DecidableEq

structure SortOrder where
  orderId : Int
  body : OrderBody
  deriving DecidableEq

structure Snapshot where
  snapshotId : Int
  timestampMs : Int
  sequenceNumber : Option Int := none
  parentSnapshotId : Option Int := none
  manifestList : Option Bytes := none
  manifests : Option (List Bytes) := none
  /-- The operation of the summary, if there is a summary. -/
  operation : Option Bytes := none
  rest : Bytes := []
  deriving DecidableEq

inductive RefType where
  | branch | tag
  deriving DecidableEq

structure SnapshotRef where
  snapshotId : Int
  type : RefType := .branch
  minSnapshotsToKeep : Option Int := none
  maxSnapshotAgeMs : Option Int := none
  maxRefAgeMs : Option Int := none
  deriving DecidableEq

structure SnapshotLogEntry where
  snapshotId : Int
  timestampMs : Int
  deriving DecidableEq

structure MetadataLogEntry where
  metadataFile : Bytes
  timestampMs : Int
  deriving DecidableEq

structure StatisticsFile where
  snapshotId : Int
  rest : Bytes := []
  deriving DecidableEq

structure TableMetadata where
  formatVersion : Nat := 2
  tableUuid : Bytes
  location : Bytes
  lastUpdatedMs : Int := 0
  lastColumnId : Int
  schemas : List Schema
  currentSchemaId : Int := 0
  partitionSpecs : List PartitionSpec
  defaultSpecId : Int := 0
  lastPartitionId : Int := 999
  sortOrders : List SortOrder
  defaultSortOrderId : Int := 0
  properties : SortedMap Bytes Bytes := .empty
  /-- `-1` when there is none. -/
  currentSnapshotId : Int := -1
  snapshots : List Snapshot := []
  snapshotLog : List SnapshotLogEntry := []
  metadataLog : List MetadataLogEntry := []
  refs : SortedMap Bytes SnapshotRef := .empty
  statistics : List StatisticsFile := []
  partitionStatistics : List StatisticsFile := []
  lastSequenceNumber : Option Int := none
  /-- The mirror of the current schema in version 1. -/
  schema : Option Schema := none
  /-- The mirror of the default spec in version 1. -/
  partitionSpec : Option (List PartitionField) := none
  rest : Bytes := []
  deriving DecidableEq

namespace TableMetadata

variable (md : TableMetadata)

def schemaIds : List Int := md.schemas.map (·.schemaId)
def specIds : List Int := md.partitionSpecs.map (·.specId)
def orderIds : List Int := md.sortOrders.map (·.orderId)
def snapshotIds : List Int := md.snapshots.map (·.snapshotId)

/-- `find_schema`. -/
def findSchema (id : Int) : Option Schema := md.schemas.find? (fun s => s.schemaId = id)

/-- `find_snapshot`. -/
def findSnapshot (id : Int) : Option Snapshot := md.snapshots.find? (fun s => s.snapshotId = id)

/-- `all_field_ids`. -/
def allFieldIds : List Int := md.schemas.flatMap (fun s => s.body.fieldIds)

/-- The field ids of all partition specs. -/
def partitionFieldIds : List Int :=
  md.partitionSpecs.flatMap (fun s => s.body.fields.map (·.fieldId))

variable {md}

theorem mem_snapshotIds_of_findSnapshot {id : Int} {s : Snapshot}
    (h : md.findSnapshot id = some s) : id ∈ md.snapshotIds := by
  obtain ⟨hid, hmem⟩ : s.snapshotId = id ∧ s ∈ md.snapshots := by
    have := List.find?_some h
    exact ⟨by simpa using this, List.mem_of_find?_eq_some h⟩
  exact List.mem_map.mpr ⟨s, hmem, hid⟩

end TableMetadata

/-! ## Validation -/

def kTransforms : List Bytes :=
  [ascii "identity", ascii "year", ascii "month", ascii "day", ascii "hour", ascii "void"]

/-- A transform with a number in brackets. -/
def bracketed (name t : Bytes) : Bool :=
  name <+: t && ascii "]" <:+ t &&
    let n := (t.drop name.length).dropLast
    !n.isEmpty && n.all (fun c => 48 ≤ c && c ≤ 57)

/-- `valid_transform`. -/
def validTransform (t : Bytes) : Bool :=
  t ∈ kTransforms || bracketed (ascii "bucket[") t || bracketed (ascii "truncate[") t

/-- `validate_spec`. -/
def validateSpec (spec : PartitionSpec) (fieldIds : List Int) : Except RestError Unit :=
  forUnique
    (fun f => do
      require (f.sourceId ∈ fieldIds) (badRequest (ascii "partition field source-id " ++
        showInt f.sourceId ++ ascii " is not in the schema"))
      require (validTransform f.transform) (badRequest (ascii "unknown partition transform '" ++
        f.transform ++ ascii "'")))
    (fun _ => .ok ()) (·.fieldId)
    (fun _ => badRequest (ascii "partition field-id is not unique")) [] spec.body.fields

/-- `validate_sort_order`. -/
def validateSortOrder (order : SortOrder) (fieldIds : List Int) : Except RestError Unit :=
  order.body.fields.forM (fun f => do
    require (f.sourceId ∈ fieldIds) (badRequest (ascii "sort field source-id is not in the schema"))
    require (validTransform f.transform) (badRequest (ascii "unknown sort transform"))
    require (f.direction = ascii "asc" || f.direction = ascii "desc")
      (badRequest (ascii "sort direction must be asc|desc"))
    require (f.nullOrder = ascii "nulls-first" || f.nullOrder = ascii "nulls-last")
      (badRequest (ascii "null-order must be nulls-first|nulls-last")))

/-- The checks on one snapshot. -/
def validateSnapshot (formatVersion : Nat) (s : Snapshot) : Except RestError Unit :=
  if formatVersion = 2 then do
    require s.manifestList.isSome (badRequest (ascii "v2 snapshots require 'manifest-list'"))
    require s.sequenceNumber.isSome (badRequest (ascii "v2 snapshots require 'sequence-number'"))
  else
    require (s.manifestList.isSome || s.manifests.isSome)
      (badRequest (ascii "v1 snapshots require 'manifest-list' or 'manifests'"))

/-- `validate_metadata`. -/
def validateMetadata (md : TableMetadata) : Except RestError Unit := do
  require (md.formatVersion = 1 || md.formatVersion = 2) (unsupported
    (ascii "Iceberg format-version " ++ showInt md.formatVersion ++ ascii " is not supported"))
  require (!md.schemas.isEmpty) (badRequest (ascii "metadata requires a non-empty 'schemas' list"))
  forUnique (fun s => validateSchema s.body) (fun _ => .ok ()) (·.schemaId)
    (fun _ => badRequest (ascii "schema-id is not unique")) [] md.schemas
  require (md.currentSchemaId ∈ md.schemaIds)
    (badRequest (ascii "current-schema-id does not reference a schema"))
  require (!md.partitionSpecs.isEmpty)
    (badRequest (ascii "metadata requires a non-empty 'partition-specs' list"))
  forUnique (fun s => validateSpec s md.allFieldIds) (fun _ => .ok ()) (·.specId)
    (fun _ => badRequest (ascii "spec-id is not unique")) [] md.partitionSpecs
  require (md.defaultSpecId ∈ md.specIds)
    (badRequest (ascii "default-spec-id does not reference a partition spec"))
  forUnique (fun s => validateSortOrder s md.allFieldIds) (fun _ => .ok ()) (·.orderId)
    (fun _ => badRequest (ascii "order-id is not unique")) [] md.sortOrders
  require (md.defaultSortOrderId ∈ md.orderIds)
    (badRequest (ascii "default-sort-order-id does not reference a sort order"))
  forUnique (fun _ => .ok ()) (validateSnapshot md.formatVersion) (·.snapshotId)
    (fun _ => badRequest (ascii "snapshot-id is not unique")) [] md.snapshots
  require (md.currentSnapshotId = -1 || md.currentSnapshotId ∈ md.snapshotIds)
    (badRequest (ascii "current-snapshot-id does not reference a snapshot"))
  md.refs.entries.forM (fun r =>
    require (r.2.snapshotId ∈ md.snapshotIds)
      (badRequest (ascii "ref '" ++ r.1 ++ ascii "' points to an unknown snapshot")))

/-! ## Transitions -/

/-- `synchronize_version_fields`. -/
def synchronizeVersionFields (md : TableMetadata) : TableMetadata :=
  if md.formatVersion = 1 then
    { md with
      schema := (md.findSchema md.currentSchemaId).or md.schema
      partitionSpec := md.partitionSpecs.foldl
        (fun mirror s => if s.specId = md.defaultSpecId then some s.body.fields else mirror)
        md.partitionSpec }
  else { md with schema := none, partitionSpec := none }

/-- `finish_transition`. -/
def finishTransition (md : TableMetadata) (prevMetadataLocation : Bytes) (nowMs : Int)
    (metadataLogKeep : Nat) : TableMetadata :=
  let log := md.metadataLog ++ [⟨prevMetadataLocation, md.lastUpdatedMs⟩]
  synchronizeVersionFields
    { md with
      snapshotLog := md.snapshotLog.filter (fun e => e.snapshotId ∈ md.snapshotIds)
      metadataLog := log.drop (log.length - metadataLogKeep)
      lastUpdatedMs := nowMs }

/-! ## New tables -/

structure ClientSchema where
  fields : StructFields (Option Int)
  identifierFieldIds : Option (List Int) := none
  rest : Bytes := []

structure ClientPartitionField where
  sourceId : Int
  fieldId : Option Int := none
  name : Bytes
  transform : Bytes
  rest : Bytes := []

structure ClientSortField where
  sourceId : Int
  transform : Bytes
  direction : Option Bytes := none
  nullOrder : Option Bytes := none
  rest : Bytes := []

/-- A sort field with its defaults. -/
def ClientSortField.withDefaults (f : ClientSortField) : SortField :=
  ⟨f.sourceId, f.transform, f.direction.getD (ascii "asc"), f.nullOrder.getD (ascii "nulls-first"),
    f.rest⟩

structure CreateTableInput where
  schema : ClientSchema
  partitionSpec : Option (List ClientPartitionField) := none
  writeOrder : Option (List ClientSortField) := none
  properties : SortedMap Bytes Bytes := .empty
  formatVersion : Nat := 2
  location : Bytes
  tableUuid : Bytes
  nowMs : Int := 0

/-- `id_mapping`, if the client gave ids. -/
def remapOf (client : ClientSchema) (fresh : SchemaBody) : Except RestError (SortedMap Int Int) :=
  if client.fields.hasIds then do
    let fields ← client.fields.withIds
    fields.check 0
    return ((fields.infos.map Prod.fst).zip fresh.fieldIds).foldl
      (fun m x => m.insert x.1 x.2) .empty
  else .ok .empty

/-- `remap_source`. -/
def remapSource (remap : SortedMap Int Int) (fieldIds : List Int) (src : Int) :
    Except RestError Int := do
  let out := (remap.get? src).getD src
  require (out ∈ fieldIds)
    (badRequest (ascii "source-id " ++ showInt src ++ ascii " is not in the schema"))
  return out

/-- The fields of the first spec, with ids counted up from the last one. -/
def initialSpecFields (remap : SortedMap Int Int) (fieldIds : List Int) :
    Int → List ClientPartitionField → Except RestError (List PartitionField)
  | _, [] => .ok []
  | last, f :: fs => do
      let src ← remapSource remap fieldIds f.sourceId
      require (validTransform f.transform)
        (badRequest (ascii "unknown partition transform '" ++ f.transform ++ ascii "'"))
      let rest ← initialSpecFields remap fieldIds (last + 1) fs
      return ⟨src, last + 1, f.name, f.transform, []⟩ :: rest

/-- `initial_metadata`. -/
def initialMetadata (i : CreateTableInput) : Except RestError TableMetadata := do
  require (i.formatVersion = 1 || i.formatVersion = 2) (unsupported
    (ascii "Iceberg format-version " ++ showInt i.formatVersion ++ ascii " is not supported"))
  let (fields, next) ← i.schema.fields.assign 1
  let fresh : SchemaBody := { fields, rest := i.schema.rest }
  let remap ← remapOf i.schema fresh
  let body : SchemaBody := { fresh with
    identifierFieldIds :=
      i.schema.identifierFieldIds.map (·.map (fun id => (remap.get? id).getD id)) }
  let specFields ← initialSpecFields remap body.fieldIds 999 (i.partitionSpec.getD [])
  let orderFields ← (i.writeOrder.getD []).mapM (fun f => do
    let src ← remapSource remap body.fieldIds f.sourceId
    return { f.withDefaults with sourceId := src })
  let orderId : Int := if orderFields.isEmpty then 0 else 1
  let md := synchronizeVersionFields
    { formatVersion := i.formatVersion
      tableUuid := i.tableUuid
      location := i.location
      lastUpdatedMs := i.nowMs
      lastColumnId := next - 1
      schemas := [⟨0, body⟩]
      partitionSpecs := [⟨0, { fields := specFields }⟩]
      lastPartitionId := 999 + (i.partitionSpec.getD []).length
      sortOrders := [⟨orderId, { fields := orderFields }⟩]
      defaultSortOrderId := orderId
      properties := i.properties
      lastSequenceNumber := if i.formatVersion = 2 then some 0 else none }
  validateMetadata md
  return md

end Lights3.Iceberg
