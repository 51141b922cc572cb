import Lights3.Iceberg.Updates

/-!
# Updates of view metadata

`apply_view_updates` of `tables/iceberg/view_metadata.cc`. A schema or a version may come with an
id of the client, and `-1` stands for the one that was added last: for a version by a variable of
the loop, for a schema by the greatest id. An id is the value that `get<int64_t>` converts the
number to, which wraps and truncates; a member of another JSON type is refused by the source and is
not represented.
-/
namespace Lights3.Iceberg
open ByteString

/-- One of the `representations` of a version. -/
structure Representation where
  type : Bytes
  sql : Option Bytes
  dialect : Option Bytes

/-- A version without its ids; `rest` holds the members that nothing reads. -/
structure ViewVersionBody where
  representations : List Representation
  defaultNamespace : Option (List Bytes) := none
  summary : Option (List (Bytes × Bytes)) := none
  timestampMs : Option Int := none
  rest : Bytes := []

structure ViewVersion where
  versionId : Int
  schemaId : Int
  body : ViewVersionBody

/-- A version as a client sends it. -/
structure ClientViewVersion where
  versionId : Option Int := none
  schemaId : Option Int := none
  body : ViewVersionBody

structure ViewMetadata where
  formatVersion : Int := 1
  viewUuid : Bytes
  location : Bytes
  schemas : List Schema
  versions : List ViewVersion
  currentVersionId : Int
  /-- Times and version ids. -/
  versionLog : List (Int × Int) := []
  properties : SortedMap Bytes Bytes := .empty

inductive ViewUpdate where
  | assignUuid (uuid : Bytes)
  | upgradeFormatVersion (version : Int)
  | addSchema (schemaId : Option Int) (schema : SchemaBody)
  | addViewVersion (version : ClientViewVersion)
  | setCurrentViewVersion (versionId : Int)
  | setLocation (location : Bytes)
  | setProperties (updates : List (Bytes × Bytes))
  | removeProperties (removals : List Bytes)

/-- `validate_version`. -/
def validateVersion (what : String) (v : ViewVersionBody) : Except RestError Unit := do
  require (!v.representations.isEmpty)
    (badRequest (ascii what ++ ascii " needs at least one representation"))
  require (v.representations.all fun r => r.type = ascii "sql" && r.sql.isSome && r.dialect.isSome)
    (badRequest (ascii what ++
      ascii ": every representation is \x7b\"type\":\"sql\",\"sql\",\"dialect\"\x7d"))

namespace ViewMetadata

variable (md : ViewMetadata)

def schemaIds : List Int := md.schemas.map (·.schemaId)

def versionIds : List Int := md.versions.map (·.versionId)

/-- `last_schema_id`. -/
def lastSchemaId : Int := md.schemaIds.foldl max (-1)

/-- `last_version_id`. -/
def lastVersionId : Int := md.versionIds.foldl max 0

/-- `validate_view_metadata`. -/
def validate : Except RestError Unit := do
  require (md.formatVersion = 1)
    (unsupported (ascii "view format-version " ++ showInt md.formatVersion ++
      ascii " is not supported"))
  require (looksLikeUuid md.viewUuid) (badRequest (ascii "view metadata needs a 'view-uuid'"))
  require (!md.schemas.isEmpty) (badRequest (ascii "view metadata needs 'schemas'"))
  forUnique (fun _ => .ok ()) (fun s => s.body.walk) (·.schemaId)
    (fun _ => badRequest (ascii "duplicate view schema-id")) [] md.schemas
  require (!md.versions.isEmpty) (badRequest (ascii "view metadata needs 'versions'"))
  forUnique (fun v => validateVersion "view version" v.body)
    (fun v => require (v.schemaId ∈ md.schemaIds)
      (badRequest (ascii "view version " ++ showInt v.versionId ++
      ascii " references an unknown schema-id"))) (·.versionId)
    (fun _ => badRequest (ascii "duplicate view version-id")) [] md.versions
  require (md.currentVersionId ∈ md.versionIds)
    (badRequest (ascii "'current-version-id' must name one of the versions"))

end ViewMetadata

/-- The document and `last_added_version`. -/
structure ViewApplier where
  md : ViewMetadata
  lastAddedVersion : Int := -1

namespace ViewApplier

variable (a : ViewApplier)

/-- The id of a new element: the one that the client asks for, unless it is taken, or one above the
last. -/
def chooseId (least : Int) (asked : Option Int) (last : Int) (ids : List Int)
    (taken : Int → Bytes) :
    Except RestError Int :=
  match asked with
  | some id =>
      if least ≤ id then do
        require (id ∉ ids) (commitFailed (taken id))
        return id
      else .ok (Applier.succ64 last)
  | none => .ok (Applier.succ64 last)

def addSchema (asked : Option Int) (schema : SchemaBody) : Except RestError ViewApplier := do
  schema.walk
  let id ← chooseId 0 asked a.md.lastSchemaId a.md.schemaIds fun id =>
    ascii "add-schema: schema-id " ++ showInt id ++ ascii " already exists"
  return { a with md := { a.md with schemas := a.md.schemas ++ [⟨id, schema⟩] } }

/-- The schema that a new version refers to. -/
def resolveSchemaId (v : ClientViewVersion) : Int :=
  if v.schemaId.getD (-1) < 0 then a.md.lastSchemaId else v.schemaId.getD (-1)

def addViewVersion (now : Int) (v : ClientViewVersion) : Except RestError ViewApplier := do
  validateVersion "add-view-version.view-version" v.body
  let id ← chooseId 1 v.versionId a.md.lastVersionId a.md.versionIds fun id =>
    ascii "add-view-version: version-id " ++ showInt id ++ ascii " already exists"
  let schemaId := a.resolveSchemaId v
  require (schemaId ∈ a.md.schemaIds)
    (badRequest (ascii "add-view-version: unknown schema-id " ++ showInt schemaId))
  let body : ViewVersionBody :=
    { v.body with
      timestampMs := some (v.body.timestampMs.getD now)
      summary := some (v.body.summary.getD [])
      defaultNamespace := some (v.body.defaultNamespace.getD []) }
  return { md := { a.md with versions := a.md.versions ++ [⟨id, schemaId, body⟩] },
           lastAddedVersion := id }

/-- The version that is to become the current one. -/
def resolveVersionId (id : Int) : Except RestError Int :=
  if id = -1 then do
    require (0 ≤ a.lastAddedVersion)
      (badRequest (ascii "set-current-view-version: no version was added"))
    return a.lastAddedVersion
  else .ok id

def setCurrentViewVersion (id : Int) : Except RestError ViewApplier := do
  let id ← a.resolveVersionId id
  require (id ∈ a.md.versionIds)
    (badRequest (ascii "set-current-view-version: unknown version-id " ++ showInt id))
  return { a with md := { a.md with currentVersionId := id } }

/-- One update. -/
def apply (now : Int) : ViewUpdate → Except RestError ViewApplier
  | .assignUuid uuid => do
      require (looksLikeUuid uuid) (badRequest (ascii "assign-uuid: not a uuid"))
      require (a.md.viewUuid = uuid) (commitFailed (ascii "assign-uuid: the view uuid is fixed"))
      return a
  | .upgradeFormatVersion version => do
      require (version = 1)
        (unsupported (ascii "view format-version " ++ showInt version ++ ascii " is not supported"))
      return a
  | .addSchema asked schema => a.addSchema asked schema
  | .addViewVersion v => a.addViewVersion now v
  | .setCurrentViewVersion id => a.setCurrentViewVersion id
  | .setLocation location => .ok { a with md := { a.md with location } }
  | .setProperties updates =>
      .ok { a with md := { a.md with properties := a.md.properties.insertAll updates } }
  | .removeProperties removals =>
      .ok { a with
        md := { a.md with properties := removals.foldl SortedMap.erase a.md.properties } }

end ViewApplier

/-- The loop of `apply_view_updates`. -/
def runViewUpdates (now : Int) (current : ViewMetadata) (updates : List ViewUpdate) :
    Except RestError ViewApplier :=
  updates.foldlM (fun a u => a.apply now u) { md := current }

/-- `apply_view_updates`. -/
def applyViewUpdates (now : Int) (current : ViewMetadata) (updates : List ViewUpdate) :
    Except RestError ViewMetadata := do
  let a ← runViewUpdates now current updates
  let md :=
    if a.md.currentVersionId ≠ current.currentVersionId then
      { a.md with versionLog := a.md.versionLog ++ [(now, a.md.currentVersionId)] }
    else a.md
  md.validate
  return md

/-! ## What the updates add -/

/-- How many schemas and versions an update adds. -/
def ViewUpdate.addsSchema : ViewUpdate → Bool
  | .addSchema .. => true
  | _ => false

def ViewUpdate.addsVersion : ViewUpdate → Bool
  | .addViewVersion _ => true
  | _ => false

/-- The state `b` comes after `a` with so many new schemas and versions. -/
structure ViewApplier.Grows (schemas versions : Nat) (a b : ViewApplier) : Prop where
  schemas : ∃ xs, b.md.schemas = a.md.schemas ++ xs ∧ xs.length = schemas
  versions : ∃ ys, b.md.versions = a.md.versions ++ ys ∧ ys.length = versions ∧
    b.lastAddedVersion = (ys.getLast?.map (·.versionId)).getD a.lastAddedVersion
  log : b.md.versionLog = a.md.versionLog

namespace ViewApplier

variable {a b c : ViewApplier} {now : Int}

theorem Grows.of_eq (hs : b.md.schemas = a.md.schemas) (hv : b.md.versions = a.md.versions)
    (hlast : b.lastAddedVersion = a.lastAddedVersion) (hlog : b.md.versionLog = a.md.versionLog) :
    Grows 0 0 a b :=
  ⟨⟨[], by simp [hs]⟩, ⟨[], by simp [hv, hlast]⟩, hlog⟩

theorem Grows.refl (a : ViewApplier) : Grows 0 0 a a := .of_eq rfl rfl rfl rfl

theorem Grows.trans {i j k l : Nat} (h : Grows i j a b) (h' : Grows k l b c) :
    Grows (i + k) (j + l) a c := by
  obtain ⟨⟨xs, hxs, hi⟩, ⟨ys, hys, hj, hlast⟩, hlog⟩ := h
  obtain ⟨⟨xs', hxs', hk⟩, ⟨ys', hys', hl, hlast'⟩, hlog'⟩ := h'
  refine ⟨⟨xs ++ xs', by rw [hxs', hxs, List.append_assoc], by simp [hi, hk]⟩,
    ⟨ys ++ ys', by rw [hys', hys, List.append_assoc], by simp [hj, hl], ?_⟩, hlog'.trans hlog⟩
  rw [hlast', hlast, List.getLast?_append]
  cases ys'.getLast? <;> rfl

theorem addSchema_grows {asked : Option Int} {schema : SchemaBody}
    (h : a.addSchema asked schema = .ok b) :
    Grows 1 0 a b := by
  obtain ⟨⟨⟩, -, h⟩ := of_bind_ok h
  obtain ⟨id, -, h⟩ := of_bind_ok h
  obtain rfl := pure_eq_ok.mp h
  exact ⟨⟨[_], rfl, rfl⟩, ⟨[], by simp⟩, rfl⟩

theorem addViewVersion_ok {v : ClientViewVersion} (h : a.addViewVersion now v = .ok b) :
    ∃ id body, b =
      ⟨{ a.md with versions := a.md.versions ++ [⟨id, a.resolveSchemaId v, body⟩] }, id⟩ := by
  obtain ⟨⟨⟩, -, h⟩ := of_bind_ok h
  obtain ⟨id, -, h⟩ := of_bind_ok h
  obtain ⟨⟨⟩, -, h⟩ := of_bind_ok h
  exact ⟨id, _, pure_eq_ok.mp h⟩

theorem setCurrentViewVersion_ok {id : Int} (h : a.setCurrentViewVersion id = .ok b) :
    ∃ i, a.resolveVersionId id = .ok i ∧
    b = { a with md := { a.md with currentVersionId := i } } := by
  obtain ⟨i, hi, h⟩ := of_bind_ok h
  obtain ⟨⟨⟩, -, h⟩ := of_bind_ok h
  exact ⟨i, hi, pure_eq_ok.mp h⟩

/-- One update. -/
theorem apply_grows {u : ViewUpdate} (h : a.apply now u = .ok b) :
    Grows u.addsSchema.toNat u.addsVersion.toNat a b := by
  cases u with
  | assignUuid uuid =>
      obtain ⟨⟨⟩, -, h⟩ := of_bind_ok h
      obtain ⟨⟨⟩, -, h⟩ := of_bind_ok h
      obtain rfl := pure_eq_ok.mp h
      exact .refl b
  | upgradeFormatVersion version =>
      obtain ⟨⟨⟩, -, h⟩ := of_bind_ok h
      obtain rfl := pure_eq_ok.mp h
      exact .refl b
  | addSchema asked schema => exact addSchema_grows h
  | addViewVersion v =>
      obtain ⟨id, body, rfl⟩ := addViewVersion_ok h
      exact ⟨⟨[], (List.append_nil _).symm, rfl⟩, ⟨[_], rfl, rfl, rfl⟩, rfl⟩
  | setCurrentViewVersion id =>
      obtain ⟨i, -, rfl⟩ := setCurrentViewVersion_ok h
      exact .of_eq rfl rfl rfl rfl
  | setLocation location | setProperties updates | removeProperties removals =>
      cases h
      exact .of_eq rfl rfl rfl rfl

/-- A list of updates. -/
theorem run_grows {us : List ViewUpdate} (h : us.foldlM (fun a u => a.apply now u) a = .ok b) :
    Grows (us.countP ViewUpdate.addsSchema) (us.countP ViewUpdate.addsVersion) a b := by
  induction us generalizing a with
  | nil =>
      obtain rfl := pure_eq_ok.mp h
      exact .refl b
  | cons u us ih =>
      rw [List.foldlM_cons] at h
      obtain ⟨c, hu, h⟩ := of_bind_ok h
      have hboth := (apply_grows hu).trans (ih h)
      rw [List.countP_cons, List.countP_cons]
      cases hs : u.addsSchema <;> cases hv : u.addsVersion <;> simpa [hs, hv, add_comm] using hboth

/-- A run comes apart at any of its updates. -/
theorem run_split {pre post : List ViewUpdate} {u : ViewUpdate}
    (h : (pre ++ u :: post).foldlM (fun a u => a.apply now u) a = .ok b) :
    ∃ s t, pre.foldlM (fun a u => a.apply now u) a = .ok s ∧ s.apply now u = .ok t ∧
      post.foldlM (fun a u => a.apply now u) t = .ok b := by
  rw [List.foldlM_append] at h
  obtain ⟨s, hs, h⟩ := of_bind_ok h
  rw [List.foldlM_cons] at h
  obtain ⟨t, ht, h⟩ := of_bind_ok h
  exact ⟨s, t, hs, ht, h⟩

end ViewApplier

/-! ## What `-1` stands for -/

section Denotes

variable (now : Int) (current next : ViewMetadata) (updates : List ViewUpdate)

/-- The schema that the last `add-schema` of `pre` has added. -/
def lastAddedSchema (pre : List ViewUpdate) : Option Schema :=
  if pre.any ViewUpdate.addsSchema then
    next.schemas[current.schemas.length + pre.countP ViewUpdate.addsSchema - 1]?
  else none

/-- The version that the last `add-view-version` of `pre` has added. -/
def lastAddedVersion (pre : List ViewUpdate) : Option ViewVersion :=
  if pre.any ViewUpdate.addsVersion then
    next.versions[current.versions.length + pre.countP ViewUpdate.addsVersion - 1]?
  else none

/-- Everything but what `-1` stands for as a schema: schemas and versions are kept, `-1` as a
version is the one that was added last, the current version exists, and the log tells when it
changes. -/
structure UpdatedRight : Prop where
  schemas : current.schemas <+: next.schemas
  versions : current.versions <+: next.versions
  lastVersion : ∀ pre post, updates = pre ++ .setCurrentViewVersion (-1) :: post →
    ∃ a v, runViewUpdates now current (pre ++ [.setCurrentViewVersion (-1)]) = .ok a ∧
      lastAddedVersion current next pre = some v ∧ a.md.currentVersionId = v.versionId
  currentVersion : next.currentVersionId ∈ next.versionIds
  log : next.versionLog =
    if next.currentVersionId ≠ current.currentVersionId then current.versionLog ++
      [(now, next.currentVersionId)]
    else current.versionLog

/-- A version that asks for the last schema has the schema that was added last. -/
def LastSchemaDenoted : Prop :=
  ∀ pre v post, updates = pre ++ .addViewVersion v :: post → v.schemaId.getD (-1) = -1 →
    ∃ added sch, next.versions[current.versions.length + pre.countP ViewUpdate.addsVersion]? =
      some added ∧ lastAddedSchema current next pre = some sch ∧ added.schemaId = sch.schemaId

/-- Where a version asks for the last schema, one was added, and the last one has the greatest id.
-/
def LastSchemaGreatest : Prop :=
  ∀ pre v post, updates = pre ++ .addViewVersion v :: post → v.schemaId.getD (-1) = -1 →
    ∃ sch, lastAddedSchema current next pre = some sch ∧ -1 ≤ sch.schemaId ∧
      ∀ s ∈ next.schemas.take (current.schemas.length + pre.countP ViewUpdate.addsSchema),
      s.schemaId ≤ sch.schemaId

end Denotes

section Applied

variable {now : Int} {current : ViewMetadata} {a : ViewApplier} {pre post updates : List ViewUpdate}

theorem foldl_max_le_iff {ids : List Int} {n m : Int} :
    ids.foldl max n ≤ m ↔ n ≤ m ∧ ∀ i ∈ ids, i ≤ m := by
  induction ids generalizing n with
  | nil => simp
  | cons i ids ih => rw [List.foldl_cons, ih, max_le_iff, List.forall_mem_cons, and_assoc]

theorem lastSchemaId_eq_iff {md : ViewMetadata} {sch : Schema} (h : sch ∈ md.schemas) :
    md.lastSchemaId = sch.schemaId ↔ -1 ≤ sch.schemaId ∧ ∀ s ∈ md.schemas,
    s.schemaId ≤ sch.schemaId := by
  have hge : sch.schemaId ≤ md.lastSchemaId :=
    (foldl_max_le_iff.mp (le_refl md.lastSchemaId)).2 _ (List.mem_map_of_mem h)
  rw [Int.le_antisymm_iff.trans (and_iff_left hge), ViewMetadata.lastSchemaId, foldl_max_le_iff]
  simp [ViewMetadata.schemaIds]

variable {s t : ViewApplier} {k k' l : Nat}

/-- At an update, the schemas are a front of those at the end. -/
theorem ViewApplier.Grows.schemas_take (h : s.Grows k l t) :
    t.md.schemas.take s.md.schemas.length = s.md.schemas := by
  obtain ⟨xs, hxs, -⟩ := h.schemas
  rw [hxs, List.take_left]

theorem ViewApplier.Grows.versions_prefix (h : s.Grows k l t) :
    s.md.versions <+: t.md.versions := by
  obtain ⟨ys, hys, -⟩ := h.versions
  exact ⟨ys, hys.symm⟩

theorem getElem?_last {α : Type} {as xs zs : List α} (h : 0 < xs.length) :
    (as ++ xs ++ zs)[as.length + xs.length - 1]? = xs.getLast? := by
  rw [List.append_assoc, List.getElem?_append_right (by omega),
    List.getElem?_append_left (by omega), List.getLast?_eq_getElem?]
  congr 1
  omega

theorem any_iff_countP_pos {q : ViewUpdate → Bool} : pre.any q = true ↔ 0 < pre.countP q := by
  rw [List.any_eq_true, List.countP_pos_iff]

/-- What was added last before an update is the last one there is at that point. -/
theorem lastAddedSchema_eq
    (hpre : ViewApplier.Grows (pre.countP ViewUpdate.addsSchema) k { md := current } s)
    (hpost : s.Grows l k' t) {sch : Schema} :
    lastAddedSchema current t.md pre = some sch ↔
      pre.any ViewUpdate.addsSchema = true ∧ s.md.schemas.getLast? = some sch := by
  obtain ⟨xs, hxs, hlen⟩ := hpre.schemas
  obtain ⟨zs, hzs, -⟩ := hpost.schemas
  unfold lastAddedSchema
  split_ifs with hany
  · have hpos := hlen ▸ any_iff_countP_pos.mp hany
    rw [hzs, hxs, ← hlen, getElem?_last hpos,
      List.getLast?_append_of_ne_nil _ (List.ne_nil_of_length_pos hpos)]
    simp [hany]
  · simp [hany]

theorem lastAddedVersion_eq
    (hpre : ViewApplier.Grows k (pre.countP ViewUpdate.addsVersion) { md := current } s)
    (hpost : s.Grows l k' t) (hlast : 0 ≤ s.lastAddedVersion) :
    ∃ v, lastAddedVersion current t.md pre = some v ∧ s.lastAddedVersion = v.versionId := by
  obtain ⟨ys, hys, hlen, hadded⟩ := hpre.versions
  obtain ⟨zs, hzs, -⟩ := hpost.versions
  obtain ⟨v, hv⟩ : ∃ v, ys.getLast? = some v := by
    refine Option.ne_none_iff_exists'.mp fun h => ?_
    rw [h] at hadded
    simp [hadded] at hlast
  have hpos : 0 < ys.length := List.length_pos_of_mem (List.mem_of_getLast? hv)
  refine ⟨v, ?_, by rw [hadded, hv]; rfl⟩
  rw [lastAddedVersion, if_pos (any_iff_countP_pos.mpr (hlen ▸ hpos)), hzs, hys, ← hlen,
    getElem?_last hpos, hv]

/-- The version that an update adds, at the end. -/
theorem added_version {v : ClientViewVersion}
    (hpre : ViewApplier.Grows k (pre.countP ViewUpdate.addsVersion) { md := current } s)
    (hadd : s.addViewVersion now v = .ok t) (hpost : t.Grows l k' a) :
    ∃ added, a.md.versions[current.versions.length + pre.countP ViewUpdate.addsVersion]? =
      some added ∧ added.schemaId = s.resolveSchemaId v := by
  obtain ⟨ys, hys, hlen, -⟩ := hpre.versions
  obtain ⟨zs, hzs, -⟩ := hpost.versions
  obtain ⟨id, body, rfl⟩ := ViewApplier.addViewVersion_ok hadd
  refine ⟨⟨id, s.resolveSchemaId v, body⟩, ?_, rfl⟩
  rw [hzs, hys, ← hlen]
  simp

theorem applyViewUpdates_ok {next : ViewMetadata}
    (h : applyViewUpdates now current updates = .ok next) :
    ∃ a, runViewUpdates now current updates = .ok a ∧ next.validate = .ok () ∧
      next = { a.md with versionLog := next.versionLog } ∧
      next.versionLog =
        if a.md.currentVersionId ≠ current.currentVersionId then a.md.versionLog ++
          [(now, a.md.currentVersionId)]
        else a.md.versionLog := by
  obtain ⟨a, hrun, h⟩ := of_bind_ok h
  obtain ⟨⟨⟩, hvalid, h⟩ := of_bind_ok h
  obtain rfl := pure_eq_ok.mp h
  refine ⟨a, hrun, hvalid, ?_, ?_⟩ <;> split_ifs <;> rfl

theorem mem_versionIds_of_validate {md : ViewMetadata} (h : md.validate = .ok ()) :
    md.currentVersionId ∈ md.versionIds := by
  unfold ViewMetadata.validate at h
  simp only [bind_eq_ok, exists_unit, require_eq_ok] at h
  simpa using h.2.2.2.2.2.2

/-- Everything but the schemas is right whenever the updates succeed. -/
theorem updatedRight {next : ViewMetadata} (h : applyViewUpdates now current updates = .ok next) :
    UpdatedRight now current next updates := by
  obtain ⟨a, hrun, hvalid, hnext, hlog⟩ := applyViewUpdates_ok h
  have hgrows := ViewApplier.run_grows hrun
  obtain ⟨xs, hxs, -⟩ := hgrows.schemas
  refine ⟨⟨xs, by rw [hnext, hxs]⟩, ?_, fun pre post hupdates => ?_,
    mem_versionIds_of_validate hvalid, ?_⟩
  · rw [hnext]
    exact hgrows.versions_prefix
  · obtain ⟨s, t, hpre, hset, hpost⟩ := ViewApplier.run_split (hupdates ▸ hrun)
    obtain ⟨i, hi, rfl⟩ := ViewApplier.setCurrentViewVersion_ok hset
    obtain ⟨⟨⟩, hadded, hi⟩ := of_bind_ok hi
    obtain rfl := pure_eq_ok.mp hi
    have hafter := (ViewApplier.apply_grows hset).trans (ViewApplier.run_grows hpost)
    obtain ⟨v, hv, hid⟩ := lastAddedVersion_eq (ViewApplier.run_grows hpre) hafter
      (by simpa using require_eq_ok.mp hadded)
    refine ⟨{ s with md := { s.md with currentVersionId := s.lastAddedVersion } }, v,
      ?_, by rw [hnext]; exact hv, hid⟩
    rw [runViewUpdates, List.foldlM_append, bind_eq_ok]
    refine ⟨s, hpre, ?_⟩
    rw [List.foldlM_cons, bind_eq_ok]
    exact ⟨_, hset, rfl⟩
  · rw [hlog, hnext, hgrows.log]

end Applied

/-- If the updates succeed, they do what is expected exactly if each version that asks for the last
schema does so when the schema that was added last has the greatest id. -/
theorem view_updates_resolve (now : Int) (current next : ViewMetadata) (updates : List ViewUpdate)
    (h : applyViewUpdates now current updates = .ok next) :
    UpdatedRight now current next updates ∧ LastSchemaDenoted current next updates ↔
      LastSchemaGreatest current next updates := by
  rw [and_iff_right (updatedRight h)]
  obtain ⟨a, hrun, -, hnext, -⟩ := applyViewUpdates_ok h
  refine forall_congr' fun pre => forall_congr' fun v => forall_congr' fun post =>
    imp_congr_right fun hupdates => imp_congr_right fun hlast => ?_
  obtain ⟨s, t, hpre, hadd, hpost⟩ := ViewApplier.run_split (hupdates ▸ hrun)
  have hbefore := ViewApplier.run_grows hpre
  have hafter := (ViewApplier.apply_grows hadd).trans (ViewApplier.run_grows hpost)
  obtain ⟨added, hadded, hid⟩ := added_version hbefore hadd (ViewApplier.run_grows hpost)
  have hresolve : s.resolveSchemaId v = s.md.lastSchemaId := by
    simp [ViewApplier.resolveSchemaId, hlast]
  have htake : next.schemas.take (current.schemas.length + pre.countP ViewUpdate.addsSchema) =
      s.md.schemas := by
    obtain ⟨xs, hxs, hlen⟩ := hbefore.schemas
    have hlength : s.md.schemas.length =
        current.schemas.length + pre.countP ViewUpdate.addsSchema := by
      rw [hxs, List.length_append, hlen]
    rw [hnext, ← hlength]
    exact hafter.schemas_take
  rw [htake]
  have hschema {sch : Schema} (hsch : lastAddedSchema current next pre = some sch) :
      sch ∈ s.md.schemas := by
    rw [hnext] at hsch
    exact List.mem_of_getLast? ((lastAddedSchema_eq hbefore hafter).mp hsch).2
  have hget : next.versions[current.versions.length + pre.countP ViewUpdate.addsVersion]? =
      some added := by
    rw [hnext]
    exact hadded
  constructor
  · rintro ⟨added', sch, hadded', hsch, heq⟩
    obtain rfl := Option.some.inj (hget.symm.trans hadded')
    exact ⟨sch, hsch,
      (lastSchemaId_eq_iff (hschema hsch)).mp (hresolve.symm.trans (hid.symm.trans heq))⟩
  · rintro ⟨sch, hsch, hgreatest⟩
    refine ⟨added, sch, hget, hsch, ?_⟩
    rw [hid, hresolve, (lastSchemaId_eq_iff (hschema hsch)).mpr hgreatest]

/-- A view with one version of one schema, of the given ids. -/
def oneVersionView (versionId schemaId : Int) : ViewMetadata where
  viewUuid := ascii "00000000-0000-0000-0000-000000000000"
  location := ascii "s3://b/v"
  schemas := [⟨schemaId, { fields := .nil }⟩]
  versions := [⟨versionId, schemaId,
    { representations := [⟨ascii "sql", some (ascii "q"), some (ascii "d")⟩] }⟩]
  currentVersionId := versionId

/-- A new version with a new schema becomes the current one. -/
def replaceView (schemaId : Option Int) : List ViewUpdate :=
  [.addSchema schemaId { fields := .cons 1 (ascii "x") (.primitive (ascii "int")) none [] .nil },
   .addViewVersion
   { body := { representations := [⟨ascii "sql", some (ascii "r"), some (ascii "d")⟩] } },
   .setCurrentViewVersion (-1)]

theorem view_updates_resolve_new :
    ∃ next, applyViewUpdates 7 (oneVersionView 1 0) (replaceView none) = .ok next ∧
      next.currentVersionId = 2 ∧ UpdatedRight 7 (oneVersionView 1 0) next (replaceView none) ∧
      LastSchemaDenoted (oneVersionView 1 0) next (replaceView none) := by
  refine ⟨_, rfl, rfl,
    (view_updates_resolve 7 (oneVersionView 1 0) _ (replaceView none) rfl).mpr ?_⟩
  intro pre v post hsplit _
  rcases pre with _ | ⟨x, _ | ⟨y, _ | ⟨z, pre⟩⟩⟩ <;> simp [replaceView] at hsplit
  obtain ⟨rfl, rfl, rfl⟩ := hsplit
  exact ⟨_, rfl, by decide, by decide⟩

/-- The last schema has the id 3, but the version gets the schema 5. -/
theorem view_updates_greatest_schema :
    (applyViewUpdates 7 (oneVersionView 1 5) (replaceView (some 3))).toOption.map
      (fun next => (next.schemaIds, next.versions.map (·.schemaId), next.currentVersionId)) =
        some ([5, 3], [5, 5], 2) ∧ (oneVersionView 1 5).validate = .ok () := by
  exact ⟨by rfl, by rfl⟩

end Lights3.Iceberg
