import Lights3.TableState
import Lights3.Lib.Results

/-!
# The operations of the table catalog

Each catalog operation as one step on the catalog and the bucket: what it checks, in the
order of the source, and what it leaves. The checks that read only the request (schemas,
requirements, sequence numbers) are an input: any outcome is possible. Views, quotas and
time stamps of entries are left out.
-/
namespace Lights3
open ByteString

/-- The catalog, the bucket and the namespaces that were created. -/
structure Lake extends CatalogState where
  namespaces : List Levels := []
  metadataLogKeep : Nat := 100

/-- The ids that an operation draws. -/
structure NewIds where
  uuid : Bytes := []
  tableUuid : Bytes := []
  token : Bytes := []

inductive TableUpdate where
  | addSnapshot (snapshot : Snapshot)
  | removeSnapshots (ids : List Int)
  | setLocation (location : Bytes)
  /-- An update of the fields that nothing here reads. -/
  | setRest (rest : Bytes)

structure CommitRequest where
  updates : List TableUpdate := []
  /-- The failure of a requirement or of a check on the other fields. -/
  refused : Option RestError := none

/-! ## Files that metadata names -/

/-- `checked_key`. -/
def checkedKey (b : TableBucket) (path : Bytes) : Except RestError Bytes := do
  let key ← pathToKey b.bucket path
  if b.reserved <+: key then
    throw (commitFailed (ascii "referenced file '" ++ path ++
      ascii "' lies under the reserved catalog prefix"))
  else return key

/-- A path that passes the checks names a key outside the reserved prefix. -/
theorem checkedKey_ok {b : TableBucket} {path key : Bytes} (h : checkedKey b path = .ok key) :
    pathToKey b.bucket path = .ok key ∧ ¬ b.reserved <+: key := by
  obtain ⟨key', hkey, h⟩ := of_bind_ok h
  split_ifs at h with hreserved
  cases h
  exact ⟨hkey, hreserved⟩

section Files
variable (b : TableBucket) (objects : Objects)

def malformed : RestError := commitFailed (ascii "invalid avro: bad magic")

/-- `manifests_of`: nothing if the manifest list is in a codec the reader lacks. -/
def manifestsOf (snap : Snapshot) : Except RestError (Option (List Bytes)) :=
  match snap.manifestList with
  | none => .ok (some snap.manifests)
  | some path => do
      let key ← checkedKey b path
      match objects.get? key with
      | none => throw (commitFailed (ascii "manifest list '" ++ path ++ ascii "' does not exist"))
      | some o =>
          match o.content with
          | .manifestList manifests => return some manifests
          | .unreadable => return none
          | _ => throw malformed

/-- `read_manifest`. -/
def readManifest (path : Bytes) : Except RestError (Option (List (EntryStatus × Bytes))) := do
  let key ← checkedKey b path
  match objects.get? key with
  | none => throw (commitFailed (ascii "manifest '" ++ path ++ ascii "' does not exist"))
  | some o =>
      match o.content with
      | .manifest files => return some files
      | .unreadable => return none
      | _ => throw malformed

/-- `entries_of`. -/
def entriesOf (manifests : List Bytes) :
    Except RestError (Option (List (EntryStatus × Bytes))) := do
  let reads ← manifests.mapM (readManifest b objects)
  return (reads.mapM id).map List.flatten

/-- `check_data_file`. -/
def checkDataFile (path : Bytes) : Except RestError Unit := do
  let key ← checkedKey b path
  if (objects.get? key).isNone then
    throw (commitFailed (ascii "data file '" ++ path ++ ascii "' does not exist"))

/-- `check_new_snapshots_deep`, up to the comparison with the parent snapshot. -/
def checkNewSnapshots (current next : List Snapshot) : Except RestError Unit :=
  next.forM (fun snap => do
    if snap.snapshotId ∈ current.map (·.snapshotId) then return
    let some manifests ← manifestsOf b objects snap | return
    let some files ← entriesOf b objects manifests | return
    (files.filter (fun f => f.1 ≠ .deleted)).forM (fun f => checkDataFile b objects f.2))

end Files

/-! ## `create_table` and `register_table` -/

namespace Lake

/-- `namespace_has_children`: a namespace below, a table below in any state, or an own table
that is not dropped. -/
def namespaceHasChildren (s : Lake) (levels : Levels) : Bool :=
  s.namespaces.any (fun l => levels <+: l && l ≠ levels) ||
    s.tables.entries.any (fun x =>
      (levels <+: x.1.levels && x.1.levels ≠ levels) ||
        (x.1.levels = levels && x.2.state ≠ .Deleted))

/-- `namespace_exists`. -/
def namespaceExists (s : Lake) (levels : Levels) : Bool :=
  levels ∈ s.namespaces || s.namespaceHasChildren levels

/-- `create_namespace`. -/
def createNamespace (s : Lake) (levels : Levels) : Except RestError Lake := do
  requireNamespace levels
  if levels ∈ s.namespaces then
    throw (alreadyExists (ascii "namespace " ++ nsDisplay levels ++ ascii " already exists"))
  else return { s with namespaces := levels :: s.namespaces }

def requireNamespaceExists (s : Lake) (levels : Levels) : Except RestError Unit :=
  if s.namespaceExists levels then .ok ()
  else .error (notFoundNs (ascii "namespace " ++ nsDisplay levels ++ ascii " does not exist"))

/-- One directory is in the other. -/
def Nested (k l : Bytes) : Prop := k ++ [slash] <+: l ++ [slash] ∨ l ++ [slash] <+: k ++ [slash]

instance (k l : Bytes) : Decidable (Nested k l) := inferInstanceAs (Decidable (_ ∨ _))

/-- The location of a new table. A given one must not nest with a table of the namespace. -/
def chooseLocation (b : TableBucket) (s : Lake) (path : TablePath) (location : Option Bytes) :
    Except RestError Bytes :=
  match location with
  | none => .ok (nsPath path.levels ++ [slash] ++ path.name)
  | some l => do
      let locKey ← locationToKey b.bucket b.reserved l
      s.tables.entries.forM (fun x => do
        if x.1.levels = path.levels && x.2.state ≠ .Deleted then
          let other ← locationToKey b.bucket b.reserved x.2.location
          if Nested other locKey then
            throw (alreadyExists (ascii "location overlaps table " ++ x.1.display)))
      return locKey

/-- The name is free, or a tombstone has it. -/
def requireFree (s : Lake) (path : TablePath) : Except RestError Unit :=
  match s.tables.get? path with
  | none => .ok ()
  | some old =>
      match old.state with
      | .Renaming =>
          .error (unavailable (ascii "table " ++ path.name ++ ascii " is being renamed; retry"))
      | .Active =>
          .error (alreadyExists (ascii "table " ++ path.display ++ ascii " already exists"))
      | .Deleted => .ok ()

/-- `finish_create`. -/
def finishCreate (s : Lake) (path : TablePath) (e : TableEntry) (md : Metadata) :
    Except RestError Lake := do
  s.requireFree path
  if (s.objects.get? e.metadataLocation).isSome then
    throw (alreadyExists (ascii "table " ++ path.display ++ ascii " is being created"))
  else
    let written := s.apply (.writeObject e.metadataLocation ⟨.metadata md, s.clockUnix⟩)
    return { s with toCatalogState := written.apply (.putTable path e) }

/-- The entry of a table that is made for some metadata. -/
def entryFor (b : TableBucket) (path : TablePath) (ids : NewIds) (md : Metadata) : TableEntry :=
  CatalogState.newEntry b path { uuid := ids.uuid, token := ids.token } md

/-- The state once the ids of a new table are drawn. -/
def draw (s : Lake) (ids : NewIds) : Lake :=
  { s with toCatalogState := s.apply (.mintTable ids.uuid ids.token) }

/-- `create_table`. -/
def createTable (b : TableBucket) (s : Lake) (path : TablePath) (location : Option Bytes)
    (ids : NewIds) : Except RestError Lake := do
  s.requireNamespaceExists path.levels
  let locKey ← chooseLocation b s path location
  let md : Metadata := { tableUuid := ids.tableUuid, location := keyToLocation b.bucket locKey }
  (s.draw ids).finishCreate path (entryFor b path ids md) md

/-- `register_table`: the location comes from the metadata as it is written there. -/
def registerTable (b : TableBucket) (s : Lake) (path : TablePath) (metadataLocation : Bytes)
    (ids : NewIds) : Except RestError Lake := do
  s.requireNamespaceExists path.levels
  match pathToKey b.bucket metadataLocation with
  | .error _ =>
      throw (badRequest (ascii "metadata-location must be s3://" ++ b.bucket ++ ascii "/<key>"))
  | .ok key =>
      match s.readMetadata key with
      | .error e =>
          if e.type.status = 500 then
            throw (notFoundTable (ascii "metadata file " ++ metadataLocation ++
              ascii " does not exist"))
          else throw e
      | .ok md => do
          let _ ← locationToKey b.bucket b.reserved md.location
          checkNewSnapshots b s.objects [] md.snapshots
          (s.draw ids).finishCreate path (entryFor b path ids md) md

/-! ## `commit_table` -/

/-- `Applier::apply`. An empty list of inline manifests stands for none. -/
def applyUpdate (b : TableBucket) (md : Metadata) : TableUpdate → Except RestError Metadata
  | .addSnapshot snap => do
      if snap.snapshotId ∈ md.snapshots.map (·.snapshotId) then
        throw (commitFailed (ascii "add-snapshot: snapshot " ++ ascii (toString snap.snapshotId) ++
          ascii " already exists"))
      if md.formatVersion = 2 && snap.manifests ≠ [] then
        throw (badRequest (ascii "v2 snapshots must use 'manifest-list', not 'manifests'"))
      if md.formatVersion = 2 && snap.manifestList.isNone then
        throw (badRequest (ascii "add-snapshot needs 'manifest-list'"))
      if md.formatVersion ≠ 2 && snap.manifestList.isNone && snap.manifests = [] then
        throw (badRequest (ascii "add-snapshot needs 'manifest-list' or 'manifests'"))
      let _ ← snap.manifestList.toList.mapM (pathToKey b.bucket)
      return { md with snapshots := md.snapshots ++ [snap] }
  | .removeSnapshots ids =>
      .ok { md with snapshots := md.snapshots.filter (fun snap => snap.snapshotId ∉ ids) }
  | .setLocation location => do
      let key ← locationToKey b.bucket b.reserved location
      return { md with location := keyToLocation b.bucket key }
  | .setRest rest => .ok { md with rest := rest }

/-- `finish_transition`: the metadata log. -/
def finishTransition (keep : Nat) (previous : Bytes) (md : Metadata) : Metadata :=
  let log := md.metadataLog ++ [previous]
  { md with metadataLog := log.drop (log.length - keep) }

/-- The metadata that a request leads to. -/
def nextMetadata (b : TableBucket) (s : Lake) (cur : TableEntry) (current : Metadata)
    (req : CommitRequest) : Except RestError Metadata := do
  let next ← req.updates.foldlM (applyUpdate b) current
  match req.refused with
  | some e => throw e
  | none => pure ()
  checkNewSnapshots b s.objects current.snapshots next.snapshots
  return finishTransition s.metadataLogKeep (keyToLocation b.bucket cur.metadataLocation) next

/-- What the record of a commit id says. -/
inductive Replay where
  | fresh
  | staged (r : CommitRecord)
  | done (r : CommitRecord)

/-- The idempotent replay. -/
def replayOf (s : Lake) (call : CommitCall) (cur : TableEntry) : Except RestError Replay :=
  if call.commitId = [] then .ok .fresh
  else
    match s.commits.get? (commitKey cur.tableId call.commitId) with
    | none => .ok .fresh
    | some r =>
        if r.requestDigest ≠ call.digest then
          .error (commitFailed (ascii "commit-id " ++ call.commitId ++
            ascii " was already used with a different payload"))
        else if r.status = .COMMITTED || cur.versionToken = r.newToken then .ok (.done r)
        else if cur.versionToken = r.expectedToken then .ok (.staged r)
        else
          .error (commitFailed (ascii "commit-id " ++ call.commitId ++
            ascii " was staged against an older table version"))

/-- The commit id of a call. -/
def commitIdOf (call : CommitCall) (ids : NewIds) : Bytes :=
  if call.commitId = [] then ids.uuid else call.commitId

/-- The key of the new metadata file. -/
def newKey (b : TableBucket) (call : CommitCall) (ids : NewIds) (cur : TableEntry) : Bytes :=
  metadataKey b.reserved call.path (cur.generation + 1)
    (if looksLikeUuid (commitIdOf call ids) then commitIdOf call ids else ids.uuid)

/-- The file is written, or the one that is there is compared or taken over. -/
def writeNext (s : Lake) (key : Bytes) (next : Metadata) (isStaged : Bool) :
    Except RestError (CatalogState × Metadata) :=
  match s.objects.get? key with
  | none => .ok (s.apply (.writeObject key ⟨.metadata next, s.clockUnix⟩), next)
  | some _ => do
      let prev ← s.readMetadata key
      if isStaged then return (s.toCatalogState, prev)
      else if prev ≠ next then
        throw (commitFailed (ascii "generated metadata location " ++ key ++
          ascii " already holds a different commit"))
      else return (s.toCatalogState, next)

/-- The pointer moves and the record is finalized. -/
def publish (s : Lake) (c : CatalogState) (path : TablePath) (cur : TableEntry) (r : CommitRecord)
    (next : Metadata) : Lake :=
  { s with
    toCatalogState :=
      (c.apply (.swap path (CatalogState.nextEntry cur r next) r)).apply
        (.putCommit r.committed) }

/-- The metadata of the table, checked against its entry. -/
def currentMetadata (s : Lake) (cur : TableEntry) : Except RestError Metadata := do
  let md ← s.readMetadata cur.metadataLocation
  if md.tableUuid ≠ cur.tableUuid then
    throw (restInternal (ascii "persisted table metadata does not match the catalog entry"))
  else return md

/-- `commit_table`. -/
def commitTable (b : TableBucket) (s : Lake) (call : CommitCall) (req : CommitRequest)
    (ids : NewIds) : Except RestError Lake := do
  let cur ← s.requireActive call.path
  match ← s.replayOf call cur with
  | .done r => do
      let _ ← s.readMetadata r.newMetadataLocation
      if r.status = .COMMITTED then return s
      else return { s with toCatalogState := s.apply (.putCommit r.committed) }
  | .staged r => do
      let current ← s.currentMetadata cur
      let next ← nextMetadata b s cur current req
      let (c, next) ← s.writeNext r.newMetadataLocation next true
      return s.publish c call.path cur r next
  | .fresh => do
      let current ← s.currentMetadata cur
      let next ← nextMetadata b s cur current req
      let key := newKey b call ids cur
      let (c, next) ← s.writeNext key next false
      let r := CatalogState.newRecord call { token := ids.token } cur (commitIdOf call ids) key
      return s.publish ((c.apply (.mint ids.uuid)).apply (.stage r)) call.path cur r next

/-! ## `rename_table` and `drop_table` -/

/-- A rename that `drive_rename` completes: the destination keeps the location and the
metadata file, the source becomes a tombstone with the same fields. -/
def renameTable (s : Lake) (src dst : TablePath) : Except RestError Lake :=
  if src = dst then .ok s
  else do
    let cur ← s.requireActive src
    s.requireNamespaceExists dst.levels
    s.requireFree dst
    let moved := s.apply (.putTable dst { cur with state := .Active, renameId := [] })
    return { s with
      toCatalogState := moved.apply (.putTable src { cur with state := .Deleted, renameId := [] }) }

def dropTable (s : Lake) (path : TablePath) : Except RestError Lake := do
  let cur ← s.requireActive path
  return { s with toCatalogState := s.apply (.putTable path { cur with state := .Deleted }) }

end Lake

inductive LakeOp where
  | tick (sec : Nat)
  /-- An S3 client writes an object; keys under the reserved prefix are refused. -/
  | upload (key : Bytes) (content : Content)
  | createNamespace (levels : Levels)
  | createTable (path : TablePath) (location : Option Bytes) (ids : NewIds)
  | registerTable (path : TablePath) (metadataLocation : Bytes) (ids : NewIds)
  | commitTable (call : CommitCall) (req : CommitRequest) (ids : NewIds)
  | renameTable (src dst : TablePath)
  | dropTable (path : TablePath)

namespace Lake

def upload (b : TableBucket) (s : Lake) (key : Bytes) (content : Content) : Except RestError Lake :=
  if b.reserved <+: key then
    .error (badRequest (ascii "the key lies under the reserved catalog prefix"))
  else .ok { s with toCatalogState := s.apply (.writeObject key ⟨content, s.clockUnix⟩) }

/-- The ids were never drawn before. -/
def Fresh (s : Lake) (ids : NewIds) : Prop :=
  s.FreshUuid ids.uuid ∧ ids.token ∉ s.used ∧ ids.token ≠ ids.uuid

instance (s : Lake) (ids : NewIds) : Decidable (s.Fresh ids) :=
  inferInstanceAs (Decidable (_ ∧ _ ∧ _))

def exec (b : TableBucket) (s : Lake) : LakeOp → Except RestError Lake
  | .tick sec => .ok { s with toCatalogState := s.apply (.tick sec) }
  | .upload key content => s.upload b key content
  | .createNamespace levels => s.createNamespace levels
  | .createTable path location ids => s.createTable b path location ids
  | .registerTable path metadataLocation ids => s.registerTable b path metadataLocation ids
  | .commitTable call req ids => s.commitTable b call req ids
  | .renameTable src dst => s.renameTable src dst
  | .dropTable path => s.dropTable path

/-- Whether the ids that the operation draws are new. -/
def Enabled (s : Lake) : LakeOp → Prop
  | .createTable _ _ ids | .registerTable _ _ ids | .commitTable _ _ ids => s.Fresh ids
  | _ => True

instance (s : Lake) (op : LakeOp) : Decidable (s.Enabled op) := by
  unfold Enabled
  split <;> infer_instance

/-- An operation that is refused changes nothing. -/
def step (b : TableBucket) (s : Lake) (op : LakeOp) : Lake :=
  if s.Enabled op then
    match s.exec b op with
    | .ok s' => s'
    | .error _ => s
  else s

def run (b : TableBucket) (s : Lake) (ops : List LakeOp) : Lake := ops.foldl (step b) s

end Lake

end Lights3
