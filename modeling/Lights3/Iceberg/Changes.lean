import Lights3.Iceberg.Updates

/-!
# What an update changes

Each action changes few parts of the document. For every part there is one relation that
says how an action can change it, and one theorem says that every action is in all of them.
Invariants of a part then have a handful of cases instead of one for every action.
-/
namespace Lights3.Iceberg
open ByteString

inductive SchemasChange (u : Update) (md md' : TableMetadata) : Prop where
  | same (hs : md'.schemas = md.schemas) (hl : md'.lastColumnId = md.lastColumnId)
  | added (body : SchemaBody)
      (hs : md'.schemas = md.schemas ++ [⟨Applier.nextId 0 md.schemaIds, body⟩])
      (hl : md.lastColumnId ≤ md'.lastColumnId)
      (hids : ∀ id ∈ body.fieldIds, id ≤ md'.lastColumnId)
  | removed (ids : List Int) (hu : u = .removeSchemas ids)
      (hs : md'.schemas = md.schemas.filter (fun s => s.schemaId ∉ ids))
      (hl : md'.lastColumnId = md.lastColumnId)

inductive SpecsChange (u : Update) (md md' : TableMetadata) : Prop where
  | same (hs : md'.partitionSpecs = md.partitionSpecs)
      (hl : md'.lastPartitionId = md.lastPartitionId)
  | added (sources : List Int) (given : List ClientPartitionField) (body : SpecBody) (last : Int)
      (hu : u = .addSpec given body.rest)
      (hfields : Applier.specFields sources md.lastPartitionId [] given = .ok (body.fields, last))
      (hs : md'.partitionSpecs = md.partitionSpecs ++ [⟨Applier.nextId 0 md.specIds, body⟩])
      (hl : md'.lastPartitionId = max md.lastPartitionId last)
  | removed (ids : List Int) (hu : u = .removePartitionSpecs ids)
      (hs : md'.partitionSpecs = md.partitionSpecs.filter (fun s => s.specId ∉ ids))
      (hl : md'.lastPartitionId = md.lastPartitionId)

inductive OrdersChange (md md' : TableMetadata) : Prop where
  | same (hs : md'.sortOrders = md.sortOrders)
  | added (body : OrderBody) (hnew : ∀ s ∈ md.sortOrders, s.body.fields ≠ body.fields)
      (hs : md'.sortOrders = md.sortOrders ++
        [⟨if body.fields.isEmpty then 0 else Applier.nextId 1 md.orderIds, body⟩])

inductive SnapshotsChange (u : Update) (md md' : TableMetadata) : Prop where
  | same (hu : u.snapshot? = none) (hs : md'.snapshots = md.snapshots)
      (hv : md'.formatVersion = md.formatVersion)
      (hq : md'.lastSequenceNumber = md.lastSequenceNumber)
  | upgraded (version : Int) (hu : u = .upgradeFormatVersion version)
      (hold : md.formatVersion < 2)
      (hs : md'.snapshots = md.snapshots.map (fun s =>
        { s with sequenceNumber := some (s.sequenceNumber.getD 0) }))
      (hv : md'.formatVersion = 2)
      (hq : md'.lastSequenceNumber = some (md.lastSequenceNumber.getD 0))
  | addedV1 (s : Snapshot) (hu : u = .addSnapshot s) (hnew : s.snapshotId ∉ md.snapshotIds)
      (hs : md'.snapshots = md.snapshots ++ [s]) (hold : md.formatVersion ≠ 2)
      (hv : md'.formatVersion = md.formatVersion)
      (hq : md'.lastSequenceNumber = md.lastSequenceNumber)
  | addedV2 (s : Snapshot) (seq : Int) (hu : u = .addSnapshot s)
      (hnew : s.snapshotId ∉ md.snapshotIds)
      (hs : md'.snapshots = md.snapshots ++ [s]) (hold : md.formatVersion = 2)
      (hv : md'.formatVersion = md.formatVersion) (hseq : s.sequenceNumber = some seq)
      (hlast : md.lastSequenceNumber.getD 0 < seq ∨ md.snapshots = [])
      (hq : md'.lastSequenceNumber = some (max (md.lastSequenceNumber.getD 0) seq))
  | removed (ids : List Int) (hu : u = .removeSnapshots ids)
      (hs : md'.snapshots = md.snapshots.filter (fun s => s.snapshotId ∉ ids))
      (hv : md'.formatVersion = md.formatVersion)
      (hq : md'.lastSequenceNumber = md.lastSequenceNumber)

inductive RefsChange (md md' : TableMetadata) : Prop where
  | same (hr : md'.refs = md.refs) (hc : md'.currentSnapshotId = md.currentSnapshotId)
  | set (name : Bytes) (ref : SnapshotRef) (hid : ref.snapshotId ∈ md.snapshotIds)
      (hr : md'.refs = md.refs.insert name ref)
      (hc : md'.currentSnapshotId =
        if name = Applier.mainRef then ref.snapshotId else md.currentSnapshotId)
  | removed (ids : List Int)
      (hr : md'.refs = md.refs.keep (fun k => (md.refs.get? k).any (fun r => r.snapshotId ∉ ids)))
      (hc : md'.currentSnapshotId =
        if md.currentSnapshotId ∈ ids then -1 else md.currentSnapshotId)
  | erased (name : Bytes) (hr : md'.refs = md.refs.erase name)
      (hc : md'.currentSnapshotId =
        if name = Applier.mainRef then -1 else md.currentSnapshotId)

/-- Every statistics file belongs to a snapshot. -/
def StatsOk (md : TableMetadata) : Prop :=
  ∀ f ∈ md.statistics ++ md.partitionStatistics, f.snapshotId ∈ md.snapshotIds

/-- A new location was checked and brought into its usual form. -/
inductive LocationChange (opt : TableBucket) (md md' : TableMetadata) : Prop where
  | same (hl : md'.location = md.location)
  | set (location key : Bytes) (hkey : locationToKey opt.bucket opt.reserved location = .ok key)
      (hl : md'.location = keyToLocation opt.bucket key)

structure Changes (opt : TableBucket) (u : Update) (md md' : TableMetadata) : Prop where
  schemas : SchemasChange u md md'
  specs : SpecsChange u md md'
  orders : OrdersChange md md'
  snapshots : SnapshotsChange u md md'
  refs : RefsChange md md'
  stats : StatsOk md → StatsOk md'
  location : LocationChange opt md md'

namespace Applier

variable {a a' : Applier} {opt : TableBucket}

/-- The parts that most actions leave alone. -/
def core (md : TableMetadata) :=
  (md.location, md.schemas, md.lastColumnId, md.partitionSpecs, md.lastPartitionId, md.sortOrders)

theorem changes_same {u : Update} {md md' : TableMetadata} (hcore : core md' = core md)
    (hsnapshots : SnapshotsChange u md md') (hrefs : RefsChange md md')
    (hstats : StatsOk md → StatsOk md') : Changes opt u md md' := by
  simp only [core, Prod.mk.injEq] at hcore
  obtain ⟨hlocation, hschemas, hcolumn, hspecs, hpartition, horders⟩ := hcore
  exact ⟨.same hschemas hcolumn, .same hspecs hpartition, .same horders, hsnapshots, hrefs, hstats,
    .same hlocation⟩

theorem le_foldl_max (ids : List Int) (n : Int) :
    n ≤ ids.foldl max n ∧ ∀ id ∈ ids, id ≤ ids.foldl max n := by
  induction ids generalizing n with
  | nil => simp
  | cons x ids ih =>
      obtain ⟨hle, hall⟩ := ih (max n x)
      refine ⟨le_trans (le_max_left n x) hle, fun id hid => ?_⟩
      rcases List.mem_cons.mp hid with rfl | hid
      · exact le_trans (le_max_right n id) hle
      · exact hall id hid

theorem addSchema_changes {schema : SchemaBody} {lastColumnId : Option Int}
    (h : a.addSchema schema lastColumnId = .ok a') :
    Changes opt (.addSchema schema lastColumnId) a.md a'.md := by
  unfold addSchema at h
  split at h
  · cases h
    exact changes_same rfl (.same rfl rfl rfl rfl) (.same rfl rfl) id
  · obtain ⟨-, -, h⟩ := of_bind_ok h
    obtain ⟨-, -, h⟩ := of_bind_ok h
    obtain ⟨-, -, h⟩ := of_bind_ok h
    cases h
    obtain ⟨hle, hall⟩ := le_foldl_max schema.fieldIds a.md.lastColumnId
    exact ⟨.added schema rfl (le_trans (le_max_left _ _) (le_max_left _ _)) (fun id hid =>
        le_trans (le_trans (hall id hid) (le_max_right _ _)) (le_max_left _ _)),
      .same rfl rfl, .same rfl, .same rfl rfl rfl rfl, .same rfl rfl, id, .same rfl⟩

theorem addSpec_changes {fields : List ClientPartitionField} {rest : Bytes}
    (h : a.addSpec fields rest = .ok a') : Changes opt (.addSpec fields rest) a.md a'.md := by
  unfold addSpec at h
  obtain ⟨⟨fields', last⟩, hfields, h⟩ := of_bind_ok h
  simp only at h
  split at h
  · cases h
    exact changes_same rfl (.same rfl rfl rfl rfl) (.same rfl rfl) id
  · cases h
    exact ⟨.same rfl rfl, .added _ fields { fields := fields', rest } last rfl hfields rfl rfl,
      .same rfl, .same rfl rfl rfl rfl, .same rfl rfl, id, .same rfl⟩

theorem addSortOrder_changes {fields : List ClientSortField} {rest : Bytes}
    (h : a.addSortOrder fields rest = .ok a') :
    Changes opt (.addSortOrder fields rest) a.md a'.md := by
  unfold addSortOrder at h
  obtain ⟨-, -, h⟩ := of_bind_ok h
  simp only at h
  split at h
  · cases h
    exact changes_same rfl (.same rfl rfl rfl rfl) (.same rfl rfl) id
  · rename_i hnone
    cases h
    refine ⟨.same rfl rfl, .same rfl rfl, .added { fields := fields.map (·.withDefaults), rest }
      (fun s hs => ?_) rfl, .same rfl rfl rfl rfl, .same rfl rfl, id, .same rfl⟩
    simpa using List.find?_eq_none.mp hnone s hs

theorem upgradeFormatVersion_changes {v : Int} (h : a.upgradeFormatVersion v = .ok a') :
    Changes opt (.upgradeFormatVersion v) a.md a'.md := by
  unfold upgradeFormatVersion at h
  split_ifs at h
  · cases h
    exact changes_same rfl (.same rfl rfl rfl rfl) (.same rfl rfl) id
  · obtain ⟨⟨⟩, hlt, h⟩ := of_bind_ok h
    obtain ⟨⟨⟩, htwo, h⟩ := of_bind_ok h
    cases h
    have hlt := of_decide_eq_true (require_eq_ok.mp hlt)
    have htwo := of_decide_eq_true (require_eq_ok.mp htwo)
    refine changes_same rfl (.upgraded v rfl (by omega) rfl rfl rfl) (.same rfl rfl)
      (fun hs f hf => ?_)
    have hmem := hs f hf
    simpa [TableMetadata.snapshotIds, List.map_map, Function.comp_def] using hmem

theorem addSnapshot_changes {s : Snapshot} (h : a.addSnapshot opt s = .ok a') :
    Changes opt (.addSnapshot s) a.md a'.md := by
  unfold addSnapshot at h
  obtain ⟨⟨⟩, hnew, h⟩ := of_bind_ok h
  obtain ⟨last, hlast, h⟩ := of_bind_ok h
  obtain ⟨-, -, h⟩ := of_bind_ok h
  obtain ⟨-, -, h⟩ := of_bind_ok h
  obtain ⟨-, -, h⟩ := of_bind_ok h
  cases h
  have hid : s.snapshotId ∉ a.md.snapshotIds := by
    have hnone := require_eq_ok.mp hnew
    rw [Option.isNone_iff_eq_none, TableMetadata.findSnapshot, List.find?_eq_none] at hnone
    intro hmem
    obtain ⟨t, ht, heq⟩ := List.mem_map.mp hmem
    exact hnone t ht (by simp [heq])
  have hstats (hs : StatsOk a.md) : StatsOk { a.md with
      snapshots := a.md.snapshots ++ [s], lastSequenceNumber := last } := by
    intro f hf
    have := hs f hf
    simp only [TableMetadata.snapshotIds, List.map_append, List.mem_append] at this ⊢
    exact Or.inl this
  refine changes_same rfl ?_ (.same rfl rfl) hstats
  unfold sequenceAfter at hlast
  split_ifs at hlast with hv
  · obtain ⟨m, hm, hlast⟩ := of_bind_ok hlast
    cases hlast
    unfold checkSequence at hm
    obtain ⟨-, -, hm⟩ := of_bind_ok hm
    obtain ⟨-, -, hm⟩ := of_bind_ok hm
    split at hm
    · cases hm
    · rename_i seq hseq
      obtain ⟨⟨⟩, hgt, hm⟩ := of_bind_ok hm
      cases hm
      refine .addedV2 s seq rfl hid rfl hv rfl hseq ?_ rfl
      simpa using require_eq_ok.mp hgt
  · obtain ⟨-, -, hlast⟩ := of_bind_ok hlast
    cases hlast
    exact .addedV1 s rfl hid rfl hv rfl rfl

theorem setSnapshotRef_changes {name : Bytes} {ref : SnapshotRef}
    (h : a.setSnapshotRef name ref = .ok a') :
    Changes opt (.setSnapshotRef name ref) a.md a'.md := by
  unfold setSnapshotRef at h
  split at h
  · cases h
  · rename_i s hs
    have hid := TableMetadata.mem_snapshotIds_of_findSnapshot hs
    simp only at h
    split_ifs at h with hname
    · cases h
      exact changes_same rfl (.same rfl rfl rfl rfl)
        (.set name ref hid rfl (by simp [hname])) id
    · cases h
      exact changes_same rfl (.same rfl rfl rfl rfl)
        (.set name ref hid rfl (by simp [hname])) id

theorem removeSnapshots_changes (opt : TableBucket) (a : Applier) (ids : List Int) :
    Changes opt (.removeSnapshots ids) a.md (a.removeSnapshots ids).md := by
  refine changes_same rfl (.removed ids rfl rfl rfl rfl) (.removed ids rfl rfl)
    (fun hs f hf => ?_)
  -- A file is kept only if its snapshot is.
  have hold : f ∈ a.md.statistics ++ a.md.partitionStatistics ∧ f.snapshotId ∉ ids := by
    simp only [removeSnapshots, List.mem_append, List.mem_filter, decide_eq_true_eq] at hf ⊢
    rcases hf with ⟨hf, hid⟩ | ⟨hf, hid⟩
    · exact ⟨Or.inl hf, hid⟩
    · exact ⟨Or.inr hf, hid⟩
  obtain ⟨t, ht, heq⟩ := List.mem_map.mp (hs f hold.1)
  exact List.mem_map.mpr ⟨t, List.mem_filter.mpr ⟨ht, by simp [heq, hold.2]⟩, heq⟩

/-- A list of statistics files after `set_stats`. -/
theorem setStats_ok {files files' : List StatisticsFile} {file : StatisticsFile}
    (h : a.setStats files file = .ok files') :
    file.snapshotId ∈ a.md.snapshotIds ∧ ∀ f ∈ files', f ∈ files ∨ f = file := by
  obtain ⟨⟨⟩, hsome, h⟩ := of_bind_ok h
  cases h
  obtain ⟨s, hs⟩ := Option.isSome_iff_exists.mp (require_eq_ok.mp hsome)
  refine ⟨TableMetadata.mem_snapshotIds_of_findSnapshot hs, fun f hf => ?_⟩
  rcases List.mem_append.mp hf with hf | hf
  · exact Or.inl (List.mem_filter.mp hf).1
  · exact Or.inr (List.mem_singleton.mp hf)

/-- Every action is in all the relations. -/
theorem apply_changes {u : Update} (h : a.apply opt u = .ok a') : Changes opt u a.md a'.md := by
  -- A list of statistics files that has only old files and files of snapshots that exist.
  have hfiles {files files' other : List StatisticsFile}
      (hsub : ∀ f ∈ files', f ∈ files ∨ f.snapshotId ∈ a.md.snapshotIds)
      (hs : ∀ f ∈ files ++ other, f.snapshotId ∈ a.md.snapshotIds) :
      ∀ f ∈ files' ++ other, f.snapshotId ∈ a.md.snapshotIds := by
    intro f hf
    rcases List.mem_append.mp hf with hf | hf
    · rcases hsub f hf with hold | hid
      · exact hs f (List.mem_append_left _ hold)
      · exact hid
    · exact hs f (List.mem_append_right _ hf)
  cases u with
  | assignUuid uuid =>
      obtain ⟨-, -, h⟩ := of_bind_ok h
      cases h
      exact changes_same rfl (.same rfl rfl rfl rfl) (.same rfl rfl) id
  | upgradeFormatVersion v => exact upgradeFormatVersion_changes h
  | addSchema schema lastColumnId => exact addSchema_changes h
  | setCurrentSchema id =>
      obtain ⟨id', -, h⟩ := of_bind_ok h
      obtain ⟨-, -, h⟩ := of_bind_ok h
      cases h
      exact changes_same rfl (.same rfl rfl rfl rfl) (.same rfl rfl) (fun hs => hs)
  | addSpec fields rest => exact addSpec_changes h
  | setDefaultSpec id =>
      obtain ⟨id', -, h⟩ := of_bind_ok h
      obtain ⟨-, -, h⟩ := of_bind_ok h
      cases h
      exact changes_same rfl (.same rfl rfl rfl rfl) (.same rfl rfl) (fun hs => hs)
  | addSortOrder fields rest => exact addSortOrder_changes h
  | setDefaultSortOrder id =>
      obtain ⟨id', -, h⟩ := of_bind_ok h
      obtain ⟨-, -, h⟩ := of_bind_ok h
      cases h
      exact changes_same rfl (.same rfl rfl rfl rfl) (.same rfl rfl) (fun hs => hs)
  | addSnapshot s => exact addSnapshot_changes h
  | setSnapshotRef name ref => exact setSnapshotRef_changes h
  | removeSnapshots ids =>
      cases h
      exact removeSnapshots_changes opt a ids
  | removeSnapshotRef name =>
      cases h
      exact changes_same rfl (.same rfl rfl rfl rfl) (.erased name rfl rfl) (fun hs => hs)
  | setLocation location =>
      obtain ⟨key, hkey, h⟩ := of_bind_ok h
      cases h
      exact ⟨.same rfl rfl, .same rfl rfl, .same rfl, .same rfl rfl rfl rfl, .same rfl rfl,
        fun hs => hs, .set location key hkey rfl⟩
  | setProperties updates =>
      obtain ⟨-, -, h⟩ := of_bind_ok h
      cases h
      exact changes_same rfl (.same rfl rfl rfl rfl) (.same rfl rfl) id
  | removeProperties removals =>
      cases h
      exact changes_same rfl (.same rfl rfl rfl rfl) (.same rfl rfl) id
  | setStatistics file =>
      obtain ⟨files, hset, h⟩ := of_bind_ok h
      cases h
      obtain ⟨hid, hsub⟩ := setStats_ok hset
      exact changes_same rfl (.same rfl rfl rfl rfl) (.same rfl rfl)
        (hfiles (fun f hf => (hsub f hf).imp_right (fun (heq : f = file) => heq ▸ hid)))
  | removeStatistics id =>
      cases h
      exact changes_same rfl (.same rfl rfl rfl rfl) (.same rfl rfl)
        (hfiles (fun f hf => Or.inl (List.mem_filter.mp hf).1))
  | setPartitionStatistics file =>
      obtain ⟨files, hset, h⟩ := of_bind_ok h
      cases h
      obtain ⟨hid, hsub⟩ := setStats_ok hset
      refine changes_same rfl (.same rfl rfl rfl rfl) (.same rfl rfl) (fun hs f hf => ?_)
      rcases List.mem_append.mp hf with hf | hf
      · exact hs f (List.mem_append_left _ hf)
      · rcases hsub f hf with hold | rfl
        · exact hs f (List.mem_append_right _ hold)
        · exact hid
  | removePartitionStatistics id =>
      cases h
      refine changes_same rfl (.same rfl rfl rfl rfl) (.same rfl rfl) (fun hs f hf => ?_)
      rcases List.mem_append.mp hf with hf | hf
      · exact hs f (List.mem_append_left _ hf)
      · exact hs f (List.mem_append_right _ (List.mem_filter.mp hf).1)
  | removePartitionSpecs ids =>
      obtain ⟨-, -, h⟩ := of_bind_ok h
      cases h
      exact ⟨.same rfl rfl, .removed ids rfl rfl rfl, .same rfl, .same rfl rfl rfl rfl,
        .same rfl rfl, fun hs => hs, .same rfl⟩
  | removeSchemas ids =>
      obtain ⟨-, -, h⟩ := of_bind_ok h
      cases h
      exact ⟨.removed ids rfl rfl rfl, .same rfl rfl, .same rfl, .same rfl rfl rfl rfl,
        .same rfl rfl, fun hs => hs, .same rfl⟩

end Applier

end Lights3.Iceberg
