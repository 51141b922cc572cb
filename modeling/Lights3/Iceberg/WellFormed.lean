import Lights3.Iceberg.Changes

/-!
# Well-formed metadata

What a table is created with and what a commit keeps, over the ids as the source converts them.
Some of it is checked again after every request, the rest is an invariant of the actions: the
current snapshot and the branch `main`, the statistics files, and the watermarks of column and
partition field ids.
-/
namespace Lights3.Iceberg
open ByteString

/-! ## What is checked -/

structure Valid (md : TableMetadata) : Prop where
  schemaIds : md.schemaIds.Nodup
  currentSchema : md.currentSchemaId ∈ md.schemaIds
  specIds : md.specIds.Nodup
  defaultSpec : md.defaultSpecId ∈ md.specIds
  orderIds : md.orderIds.Nodup
  defaultOrder : md.defaultSortOrderId ∈ md.orderIds
  snapshotIds : md.snapshotIds.Nodup
  snapshots : ∀ s ∈ md.snapshots, validateSnapshot md.formatVersion s = .ok ()
  refs : ∀ name r, md.refs.get? name = some r → r.snapshotId ∈ md.snapshotIds

variable {md : TableMetadata}

theorem valid_of_validateMetadata {u : Unit} (h : validateMetadata md = .ok u) : Valid md := by
  unfold validateMetadata at h
  obtain ⟨⟨⟩, -, h⟩ := of_bind_ok h
  obtain ⟨⟨⟩, -, h⟩ := of_bind_ok h
  obtain ⟨⟨⟩, hschemas, h⟩ := of_bind_ok h
  obtain ⟨⟨⟩, hcurrent, h⟩ := of_bind_ok h
  obtain ⟨⟨⟩, -, h⟩ := of_bind_ok h
  obtain ⟨⟨⟩, hspecs, h⟩ := of_bind_ok h
  obtain ⟨⟨⟩, hdefault, h⟩ := of_bind_ok h
  obtain ⟨⟨⟩, horders, h⟩ := of_bind_ok h
  obtain ⟨⟨⟩, horder, h⟩ := of_bind_ok h
  obtain ⟨⟨⟩, hsnapshots, h⟩ := of_bind_ok h
  obtain ⟨⟨⟩, -, hrefs⟩ := of_bind_ok h
  exact
    { schemaIds := (forUnique_ok hschemas).1
      currentSchema := of_decide_eq_true (require_eq_ok.mp hcurrent)
      specIds := (forUnique_ok hspecs).1
      defaultSpec := of_decide_eq_true (require_eq_ok.mp hdefault)
      orderIds := (forUnique_ok horders).1
      defaultOrder := of_decide_eq_true (require_eq_ok.mp horder)
      snapshotIds := (forUnique_ok hsnapshots).1
      snapshots := fun s hs => ((forUnique_ok hsnapshots).2.2 s hs).2
      refs := fun name r hr => of_decide_eq_true (require_eq_ok.mp
        (forM_eq_ok.mp hrefs (name, r) (SortedMap.mem_entries.mpr hr))) }

/-! ## Mirrors -/

/-- In version 1 the mirrors equal the current schema and the fields of the default spec. -/
def Mirrored (md : TableMetadata) : Prop :=
  md.formatVersion = 1 → md.schema = md.findSchema md.currentSchemaId ∧
    ∀ s ∈ md.partitionSpecs, s.specId = md.defaultSpecId → md.partitionSpec = some s.body.fields

theorem synchronize_eq (md : TableMetadata) : ∃ schema partitionSpec,
    synchronizeVersionFields md = { md with schema, partitionSpec } := by
  unfold synchronizeVersionFields
  split_ifs
  · exact ⟨_, _, rfl⟩
  · exact ⟨_, _, rfl⟩

variable {specs : List PartitionSpec} {given : List ClientPartitionField} {md' : TableMetadata}
  {opt : TableBucket}

theorem foldl_mirror_unchanged {id : Int} (h : id ∉ specs.map (·.specId))
    (mirror : Option (List PartitionField)) :
    specs.foldl (fun mirror t => if t.specId = id then some t.body.fields else mirror) mirror =
      mirror := by
  induction specs with
  | nil => rfl
  | cons t specs ih =>
      rw [List.map_cons, List.mem_cons, not_or] at h
      rw [List.foldl_cons, if_neg (Ne.symm h.1)]
      exact ih h.2

theorem foldl_mirror (hnodup : (specs.map (·.specId)).Nodup) {s : PartitionSpec} (hs : s ∈ specs)
    (mirror : Option (List PartitionField)) :
    specs.foldl (fun mirror t => if t.specId = s.specId then some t.body.fields else mirror)
      mirror = some s.body.fields := by
  induction specs generalizing mirror with
  | nil => cases hs
  | cons t specs ih =>
      obtain ⟨hnot, hnodup⟩ := List.nodup_cons.mp hnodup
      rw [List.foldl_cons]
      rcases List.mem_cons.mp hs with rfl | hs
      · rw [if_pos rfl]
        exact foldl_mirror_unchanged hnot _
      · exact ih hnodup hs _

theorem mirrored_synchronize (hspecs : md.specIds.Nodup)
    (hcurrent : md.currentSchemaId ∈ md.schemaIds) : Mirrored (synchronizeVersionFields md) := by
  intro hv
  have hv : md.formatVersion = 1 := by
    obtain ⟨_, _, heq⟩ := synchronize_eq md
    rw [heq] at hv
    exact hv
  unfold synchronizeVersionFields
  rw [if_pos hv]
  constructor
  · obtain ⟨s, hs, hid⟩ := List.mem_map.mp hcurrent
    have hsome : (md.findSchema md.currentSchemaId).isSome := by
      rw [TableMetadata.findSchema, List.find?_isSome]
      exact ⟨s, hs, by simp [hid]⟩
    obtain ⟨c, hc⟩ := Option.isSome_iff_exists.mp hsome
    change (md.findSchema md.currentSchemaId).or md.schema = md.findSchema md.currentSchemaId
    rw [hc]
    rfl
  · intro s hs hid
    have hfold := foldl_mirror hspecs hs md.partitionSpec
    rw [hid] at hfold
    exact hfold

/-! ## What the actions keep -/

/-- The current snapshot is the one of the branch `main`. -/
def MainOk (md : TableMetadata) : Prop :=
  md.currentSnapshotId = ((md.refs.get? Applier.mainRef).map (·.snapshotId)).getD (-1)

theorem MainOk.change (h : MainOk md) (hc : RefsChange md md') : MainOk md' := by
  unfold MainOk at h ⊢
  cases hc with
  | same hr hc => rw [hr, hc, h]
  | set name ref hid hr hc =>
      rw [hr, hc, SortedMap.get?_insert]
      split_ifs with h₁ h₂ h₂
      · rfl
      · exact absurd h₁.symm h₂
      · exact absurd h₂.symm h₁
      · exact h
  | removed ids hr hc =>
      rw [hr, hc, SortedMap.get?_keep, h]
      cases hmain : md.refs.get? Applier.mainRef with
      | none => simp
      | some r =>
          by_cases hr : r.snapshotId ∈ ids
          · simp [hr]
          · simp [hr]
  | erased name hr hc =>
      rw [hr, hc, SortedMap.get?_erase]
      split_ifs with h₁ h₂ h₂
      · rfl
      · exact absurd h₁.symm h₂
      · exact absurd h₂.symm h₁
      · exact h

/-- No column id is above the watermark. -/
def ColumnsOk (md : TableMetadata) : Prop := ∀ id ∈ md.allFieldIds, id ≤ md.lastColumnId

theorem ColumnsOk.change {u : Update} (h : ColumnsOk md) (hc : SchemasChange u md md') :
    ColumnsOk md' := by
  intro id hid
  obtain ⟨s, hs, hid⟩ := List.mem_flatMap.mp hid
  have hold (hs : s ∈ md.schemas) : id ≤ md.lastColumnId :=
    h id (List.mem_flatMap.mpr ⟨s, hs, hid⟩)
  cases hc with
  | same heq hl => exact hl ▸ hold (heq ▸ hs)
  | added body heq hl hids =>
      rw [heq] at hs
      rcases List.mem_append.mp hs with hs | hs
      · exact le_trans (hold hs) hl
      · rw [List.mem_singleton.mp hs] at hid
        exact hids id hid
  | removed ids hu heq hl => exact hl ▸ hold (List.mem_filter.mp (heq ▸ hs)).1

/-- The counter of partition field ids does not reach its end while it is counted up. -/
def NoWrap : Int → List ClientPartitionField → Prop
  | _, [] => True
  | last, f :: fs =>
      match f.fieldId.filter (fun id => 1000 ≤ id) with
      | some id => NoWrap (max last id) fs
      | none => last < 2 ^ 63 - 1 ∧ NoWrap (last + 1) fs

instance decidableNoWrap : (last : Int) → (fs : List ClientPartitionField) →
    Decidable (NoWrap last fs)
  | _, [] => inferInstanceAs (Decidable True)
  | last, f :: fs =>
      have given (id : Int) : Decidable (NoWrap (max last id) fs) := decidableNoWrap _ fs
      have counted : Decidable (NoWrap (last + 1) fs) := decidableNoWrap _ fs
      match h : f.fieldId.filter (fun id => 1000 ≤ id) with
      | some id => decidable_of_iff (NoWrap (max last id) fs) (by simp only [NoWrap, h])
      | none => decidable_of_iff (last < 2 ^ 63 - 1 ∧ NoWrap (last + 1) fs)
        (by simp only [NoWrap, h])

theorem specFields_le {sources : List Int} {last last' : Int} {seen : List Int}
    {fields : List PartitionField} (hwrap : NoWrap last given)
    (h : Applier.specFields sources last seen given = .ok (fields, last')) :
    last ≤ last' ∧ ∀ f ∈ fields, f.fieldId ≤ last' := by
  induction given generalizing last seen fields with
  | nil =>
      cases h
      simp
  | cons g given ih =>
      obtain ⟨⟨⟩, -, h⟩ := of_bind_ok h
      obtain ⟨⟨⟩, -, h⟩ := of_bind_ok h
      obtain ⟨⟨rest, l⟩, hrest, h⟩ := of_bind_ok h
      cases h
      -- The id of the field is at most the counter after it.
      have hcount (n : Int) (hn : NoWrap n given) (id : Int) (hle : last ≤ n) (hid : id ≤ n)
          (hr : Applier.specFields sources n (id :: seen) given = .ok (rest, last')) :
          last ≤ last' ∧
            ∀ f ∈ (⟨g.sourceId, id, g.name, g.transform, g.rest⟩ : PartitionField) :: rest,
            f.fieldId ≤ last' := by
        obtain ⟨hle', hall⟩ := ih hn hr
        refine ⟨le_trans hle hle', fun f hf => ?_⟩
        rcases List.mem_cons.mp hf with rfl | hf
        · exact le_trans hid hle'
        · exact hall f hf
      unfold NoWrap at hwrap
      cases hgiven : g.fieldId.filter (fun id => 1000 ≤ id) with
      | some id =>
          simp only [hgiven, Option.getD_some, Option.isSome_some, if_true] at hwrap hrest ⊢
          exact hcount (max last id) hwrap id (le_max_left _ _) (le_max_right _ _) hrest
      | none =>
          simp only [hgiven] at hwrap
          simp only [hgiven, Option.getD_none, Option.isSome_none, Applier.succ64, if_pos hwrap.1,
            Bool.false_eq_true, if_false] at hrest ⊢
          exact hcount (last + 1) hwrap.2 (last + 1) (by omega) le_rfl hrest

/-- No partition field id is above the watermark. -/
def PartitionsOk (md : TableMetadata) : Prop := ∀ id ∈ md.partitionFieldIds, id ≤ md.lastPartitionId

/-! ## Commits -/

structure WellFormed (md : TableMetadata) : Prop extends Valid md where
  mirrored : Mirrored md
  main : MainOk md
  snapshotLog : ∀ e ∈ md.snapshotLog, e.snapshotId ∈ md.snapshotIds
  stats : StatsOk md
  columns : ColumnsOk md

/-- The parts of a commit that succeeds. -/
theorem commit_ok {c : CommitStep} (h : commit opt md c = .ok md') : ∃ a : Applier,
      (inOrder c.updates).foldlM (fun a u => Applier.apply a opt u) { md } = .ok a ∧
      Valid (synchronizeVersionFields a.md) ∧
      checkTransition md (synchronizeVersionFields a.md) = .ok () ∧
      md' = finishTransition (synchronizeVersionFields a.md) c.prevMetadataLocation c.nowMs
        c.metadataLogKeep := by
  obtain ⟨-, -, h⟩ := of_bind_ok h
  obtain ⟨next, hnext, h⟩ := of_bind_ok h
  obtain ⟨⟨⟩, hcheck, h⟩ := of_bind_ok h
  cases h
  obtain ⟨a, ha, hnext⟩ := of_bind_ok hnext
  obtain ⟨⟨⟩, hvalid, hnext⟩ := of_bind_ok hnext
  cases hnext
  exact ⟨a, ha, valid_of_validateMetadata hvalid, hcheck, rfl⟩

/-- The end of a transition changes the mirrors, the two logs and the time. -/
theorem finish_eq (md : TableMetadata) (prev : Bytes) (now : Int) (keep : Nat) :
    ∃ schema partitionSpec metadataLog,
      finishTransition (synchronizeVersionFields md) prev now keep = { md with
        schema, partitionSpec, metadataLog, lastUpdatedMs := now
        snapshotLog := md.snapshotLog.filter (fun e => e.snapshotId ∈ md.snapshotIds) } := by
  obtain ⟨_, _, heq⟩ := synchronize_eq md
  rw [heq]
  unfold finishTransition
  obtain ⟨_, _, heq⟩ := synchronize_eq _
  rw [heq]
  exact ⟨_, _, _, rfl⟩

/-- What a transition leaves as the actions made it. -/
structure SameParts (md md' : TableMetadata) : Prop where
  formatVersion : md'.formatVersion = md.formatVersion
  schemas : md'.schemas = md.schemas
  lastColumnId : md'.lastColumnId = md.lastColumnId
  partitionSpecs : md'.partitionSpecs = md.partitionSpecs
  lastPartitionId : md'.lastPartitionId = md.lastPartitionId
  sortOrders : md'.sortOrders = md.sortOrders
  snapshots : md'.snapshots = md.snapshots
  lastSequenceNumber : md'.lastSequenceNumber = md.lastSequenceNumber
  refs : md'.refs = md.refs

theorem finish_same (md : TableMetadata) (prev : Bytes) (now : Int) (keep : Nat) :
    SameParts md (finishTransition (synchronizeVersionFields md) prev now keep) := by
  obtain ⟨_, _, _, heq⟩ := finish_eq md prev now keep
  rw [heq]
  exact ⟨rfl, rfl, rfl, rfl, rfl, rfl, rfl, rfl, rfl⟩

theorem Valid.synchronize (h : Valid (synchronizeVersionFields md)) : Valid md := by
  obtain ⟨_, _, heq⟩ := synchronize_eq md
  rw [heq] at h
  exact { h with }

theorem wellFormed_finish {prev : Bytes} {now : Int} {keep : Nat} (hvalid : Valid md)
    (hmain : MainOk md) (hstats : StatsOk md) (hcolumns : ColumnsOk md) :
    WellFormed (finishTransition (synchronizeVersionFields md) prev now keep) := by
  have hmirrored : Mirrored (finishTransition (synchronizeVersionFields md) prev now keep) := by
    obtain ⟨_, _, heq⟩ := synchronize_eq md
    rw [heq]
    exact mirrored_synchronize hvalid.specIds hvalid.currentSchema
  obtain ⟨_, _, _, heq⟩ := finish_eq md prev now keep
  rw [heq] at hmirrored ⊢
  exact
    { hvalid with
      mirrored := hmirrored
      main := hmain
      snapshotLog := fun e he => of_decide_eq_true (List.mem_filter.mp he).2
      stats := hstats
      columns := hcolumns }

theorem WellFormed.commit {c : CommitStep} (h : WellFormed md)
    (hc : Iceberg.commit opt md c = .ok md') : WellFormed md' := by
  obtain ⟨a, ha, hvalid, -, rfl⟩ := commit_ok hc
  have hkept : MainOk a.md ∧ StatsOk a.md ∧ ColumnsOk a.md := by
    refine foldlM_ok_invariant (P := fun a => MainOk a.md ∧ StatsOk a.md ∧ ColumnsOk a.md) ?_
      ⟨h.main, h.stats, h.columns⟩ ha
    intro a u _ a' hk hstep
    have hch := Applier.apply_changes hstep
    exact ⟨hk.1.change hch.refs, hch.stats hk.2.1, hk.2.2.change hch.schemas⟩
  exact wellFormed_finish hvalid.synchronize hkept.1 hkept.2.1 hkept.2.2

/-! ## New tables -/

theorem initialSpecFields_le {remap : SortedMap Int Int} {fieldIds : List Int} {last : Int}
    {fields : List PartitionField} (h : initialSpecFields remap fieldIds last given = .ok fields) :
    ∀ f ∈ fields, f.fieldId ≤ last + given.length := by
  induction given generalizing last fields with
  | nil =>
      cases h
      simp
  | cons g given ih =>
      obtain ⟨src, -, h⟩ := of_bind_ok h
      obtain ⟨-, -, h⟩ := of_bind_ok h
      obtain ⟨rest, hrest, h⟩ := of_bind_ok h
      cases h
      intro f hf
      rw [List.length_cons]
      rcases List.mem_cons.mp hf with rfl | hf
      · simp only
        omega
      · have := ih hrest f hf
        omega

theorem wellFormed_initial {i : CreateTableInput} (h : initialMetadata i = .ok md) :
    WellFormed md ∧ PartitionsOk md ∧ md.snapshots = [] := by
  unfold initialMetadata at h
  obtain ⟨-, -, h⟩ := of_bind_ok h
  obtain ⟨⟨fields, next⟩, hassign, h⟩ := of_bind_ok h
  obtain ⟨remap, -, h⟩ := of_bind_ok h
  obtain ⟨specFields, hspec, h⟩ := of_bind_ok h
  obtain ⟨orderFields, -, h⟩ := of_bind_ok h
  obtain ⟨⟨⟩, hvalid, h⟩ := of_bind_ok h
  cases h
  have hvalid := valid_of_validateMetadata hvalid
  have hmirrored := mirrored_synchronize hvalid.synchronize.specIds
    hvalid.synchronize.currentSchema
  obtain ⟨_, _, heq⟩ := synchronize_eq _
  rw [heq] at hvalid hmirrored ⊢
  refine ⟨⟨hvalid, hmirrored, rfl, by simp, by simp [StatsOk], ?_⟩, ?_, rfl⟩
  · intro id hid
    simp only [TableMetadata.allFieldIds, List.flatMap_cons, List.flatMap_nil, List.append_nil,
      SchemaBody.fieldIds, List.mem_map] at hid
    obtain ⟨x, hx, rfl⟩ := hid
    have := ((StructFields.assign_ids hassign).2 x hx).2
    simp only
    omega
  · intro id hid
    simp only [TableMetadata.partitionFieldIds, List.flatMap_cons, List.flatMap_nil,
      List.append_nil, List.mem_map] at hid
    obtain ⟨f, hf, rfl⟩ := hid
    exact initialSpecFields_le hspec f hf

/-! ## A table of orders -/

def lake : TableBucket := ⟨ascii "lake", ascii ".lights3-table/"⟩

/-- A table with two columns and no partitions. -/
def orders : CreateTableInput where
  schema := {
    fields := .cons none (ascii "id") (.primitive (ascii "long")) (some true) []
      (.cons none (ascii "day") (.primitive (ascii "date")) none [] .nil) }
  location := ascii "s3://lake/warehouse/orders"
  tableUuid := ascii "0d8e31cf-0000-4000-8000-000000000001"

/-- A snapshot with its id as timestamp. -/
def snapshotOf (id : Int) (seq : Option Int) : Snapshot where
  snapshotId := id
  timestampMs := id
  sequenceNumber := seq
  manifestList := some (ascii "s3://lake/warehouse/orders/metadata/snap.avro")

def byDay (fieldId : Option Int) : ClientPartitionField where
  sourceId := 2
  fieldId := fieldId
  name := ascii "day"
  transform := ascii "identity"

/-- A request with one add-spec. -/
def addSpecStep (fields : List ClientPartitionField) : CommitStep where
  updates := [.addSpec fields [], .setDefaultSpec (-1)]

end Lights3.Iceberg
