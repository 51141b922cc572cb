import Lights3.Iceberg.WellFormed
import Lights3.TableCatalog

/-!
# The catalog over full metadata documents

The operations that write a catalog entry, one after the other, with the metadata documents
that the entries point to: creating and registering a table, committing, moving the pointer to
another metadata file and renaming. What the checks of data files say is an input. The
documents are kept by key; the reserved prefix is closed to clients.
-/
namespace Lights3.Iceberg
open ByteString

/-- The catalog and the metadata documents of a bucket. -/
structure Warehouse extends Lake where
  files : SortedMap Bytes TableMetadata := .empty

namespace Warehouse

variable (b : TableBucket) (s : Warehouse)

/-- `read_metadata`. -/
def readFile (key : Bytes) : Except RestError TableMetadata :=
  match s.files.get? key with
  | none => .error (restInternal (ascii "table metadata file " ++ key ++ ascii " is missing"))
  | some md => do
      validateMetadata md
      return md

theorem readFile_ok {s : Warehouse} {key : Bytes} {md : TableMetadata}
    (h : s.readFile key = .ok md) : s.files.get? key = some md := by
  unfold readFile at h
  split at h
  · cases h
  · rename_i md' hmd'
    obtain ⟨-, -, h⟩ := of_bind_ok h
    cases h
    exact hmd'

/-- What the check of the data files says. -/
def checkFiles : Option RestError → Except RestError Unit
  | none => .ok ()
  | some e => .error e

/-- A client writes a document; keys under the reserved prefix are refused. -/
def upload (key : Bytes) (md : TableMetadata) : Except RestError Warehouse :=
  if b.reserved <+: key then
    .error (badRequest (ascii "Object key is reserved for the table catalog."))
  else .ok { s with files := s.files.insert key md }

/-! ## New tables -/

/-- `finish_create`. -/
def finishCreate (path : TablePath) (e : TableEntry) (md : TableMetadata) :
    Except RestError Warehouse := do
  s.requireFree path
  if (s.files.get? e.metadataLocation).isSome then
    throw (alreadyExists (ascii "table " ++ path.display ++ ascii " is being created"))
  else
    return { s with
      files := s.files.insert e.metadataLocation md
      tables := s.tables.insert path e }

/-- `create_table`; the location and the uuid of the input are filled in here. -/
def createTable (path : TablePath) (location : Option Bytes) (input : CreateTableInput)
    (ids : NewIds) : Except RestError Warehouse := do
  s.requireNamespaceExists path.levels
  let locKey ← Lake.chooseLocation b s.toLake path location
  let input := { input with
    location := keyToLocation b.bucket locKey
    tableUuid := ids.tableUuid }
  let md ← initialMetadata input
  s.finishCreate path
    { tableId := ids.uuid
      tableUuid := input.tableUuid
      location := input.location
      metadataLocation := metadataKey b.reserved path 1 ids.uuid
      versionToken := ids.token
      formatVersion := input.formatVersion } md

/-- `read_metadata` of a file that a client names. -/
def readNamed (key : Bytes) (missing : RestError) : Except RestError TableMetadata :=
  match s.readFile key with
  | .ok md => .ok md
  | .error e => .error (if e.type.status = 500 then missing else e)

/-- `path_to_key` with the error of the operation. -/
def keyOf (path : Bytes) (invalid : RestError) : Except RestError Bytes :=
  match pathToKey b.bucket path with
  | .ok key => .ok key
  | .error _ => .error invalid

/-- `register_table`. -/
def registerTable (path : TablePath) (metadataLocation : Bytes) (ids : NewIds)
    (refused : Option RestError) : Except RestError Warehouse := do
  s.requireNamespaceExists path.levels
  let key ← keyOf b metadataLocation
    (badRequest (ascii "metadata-location must be s3://" ++ b.bucket ++ ascii "/<key>"))
  let md ← s.readNamed key
    (notFoundTable (ascii "metadata file " ++ metadataLocation ++ ascii " does not exist"))
  let _ ← locationToKey b.bucket b.reserved md.location
  checkFiles refused
  s.finishCreate path
    { tableId := ids.uuid
      tableUuid := md.tableUuid
      location := md.location
      metadataLocation := metadataKey b.reserved path 1 ids.uuid
      versionToken := ids.token
      formatVersion := md.formatVersion } md

/-! ## Commits -/

/-- The new file, or the one that a staged commit has written before. -/
def writeNext (key : Bytes) (next : TableMetadata) (isStaged : Bool) :
    Except RestError (Warehouse × TableMetadata) :=
  match s.files.get? key with
  | none => .ok ({ s with files := s.files.insert key next }, next)
  | some _ => do
      let prev ← s.readFile key
      if isStaged then return (s, prev)
      else if prev ≠ next then
        throw (commitFailed (ascii "generated metadata location " ++ key ++
          ascii " already holds a different commit"))
      else return (s, next)

/-- The entry after a commit. -/
def nextEntry (cur : TableEntry) (r : CommitRecord) (next : TableMetadata) : TableEntry :=
  { cur with
    metadataLocation := r.newMetadataLocation
    versionToken := r.newToken
    generation := cur.generation + 1
    formatVersion := next.formatVersion
    location := next.location }

/-- The pointer moves and the record is finalized. -/
def publish (path : TablePath) (e : TableEntry) (r : CommitRecord) : Warehouse :=
  { s with
    tables := s.tables.insert path e
    commits := s.commits.insert (commitKey r.tableId r.commitId) r.committed }

/-- `current`, checked against the entry. -/
def currentFile (cur : TableEntry) : Except RestError TableMetadata := do
  let md ← s.readFile cur.metadataLocation
  require (md.tableUuid = cur.tableUuid)
    (restInternal (ascii "persisted table metadata does not match the catalog entry"))
  return md

/-- The metadata that a request leads to. -/
def nextFile (cur : TableEntry) (c : CommitStep) (refused : Option RestError) :
    Except RestError TableMetadata := do
  let current ← s.currentFile cur
  let next ← commit b current
    { c with prevMetadataLocation := keyToLocation b.bucket cur.metadataLocation }
  checkFiles refused
  return next

/-- `commit_table`. -/
def commitTable (call : CommitCall) (c : CommitStep) (ids : NewIds) (refused : Option RestError) :
    Except RestError Warehouse := do
  let cur ← s.requireActive call.path
  match ← s.replayOf call cur with
  | .done r => do
      let _ ← s.readFile r.newMetadataLocation
      return { s with commits := s.commits.insert (commitKey r.tableId r.commitId) r.committed }
  | .staged r => do
      let next ← nextFile b s cur c refused
      let (s, next) ← s.writeNext r.newMetadataLocation next true
      return s.publish call.path (nextEntry cur r next) r
  | .fresh => do
      let next ← nextFile b s cur c refused
      let key := Lake.newKey b call ids cur
      let r := CatalogState.newRecord call { token := ids.token } cur (Lake.commitIdOf call ids) key
      let (s, next) ← s.writeNext key next false
      return s.publish call.path (nextEntry cur r next) r

/-- `update_metadata_location`: the entry keeps its location. -/
def updateMetadataLocation (path : TablePath) (newLocation expectedToken : Bytes) (ids : NewIds)
    (refused : Option RestError) : Except RestError Warehouse := do
  let cur ← s.requireActive path
  require (cur.versionToken = expectedToken)
    (commitFailed (ascii "versionToken does not match the current table version"))
  let key ← keyOf b newLocation
    (badRequest (ascii "metadataLocation must be s3://" ++ b.bucket ++ ascii "/<key>"))
  require (metadataDir b.reserved path <+: key)
    (badRequest (ascii "metadataLocation must lie under " ++
    keyToLocation b.bucket (metadataDir b.reserved path)))
  if key = cur.metadataLocation then return s
  else
    let current ← s.readFile cur.metadataLocation
    let next ← s.readNamed key
      (badRequest (ascii "metadataLocation " ++ newLocation ++ ascii " does not exist"))
    checkTransition current next
    checkFiles refused
    let r : CommitRecord :=
      { commitId := ascii "ptr-" ++ ids.uuid
        tableId := cur.tableId
        expectedToken := cur.versionToken
        newToken := ids.token
        prevMetadataLocation := cur.metadataLocation
        newMetadataLocation := key
        status := .STAGED
        requestDigest := [] }
    return s.publish path
      { cur with
        metadataLocation := key
        versionToken := r.newToken
        generation := cur.generation + 1
        formatVersion := next.formatVersion } r

end Warehouse

/-! ## Runs -/

inductive WarehouseOp where
  | upload (key : Bytes) (md : TableMetadata)
  | createNamespace (levels : Levels)
  | createTable (path : TablePath) (location : Option Bytes) (input : CreateTableInput)
      (ids : NewIds)
  | registerTable (path : TablePath) (metadataLocation : Bytes) (ids : NewIds)
      (refused : Option RestError)
  | commitTable (call : CommitCall) (c : CommitStep) (ids : NewIds) (refused : Option RestError)
  | updateMetadataLocation (path : TablePath) (newLocation expectedToken : Bytes) (ids : NewIds)
      (refused : Option RestError)
  | renameTable (src dst : TablePath)
  | dropTable (path : TablePath)

namespace Warehouse

def exec (b : TableBucket) (s : Warehouse) : WarehouseOp → Except RestError Warehouse
  | .upload key md => s.upload b key md
  | .createNamespace levels => do return { s with toLake := ← s.createNamespace levels }
  | .createTable path location input ids => s.createTable b path location input ids
  | .registerTable path metadataLocation ids refused =>
      s.registerTable b path metadataLocation ids refused
  | .commitTable call c ids refused => s.commitTable b call c ids refused
  | .updateMetadataLocation path newLocation expectedToken ids refused =>
      s.updateMetadataLocation b path newLocation expectedToken ids refused
  | .renameTable src dst => do return { s with toLake := ← s.renameTable src dst }
  | .dropTable path => do return { s with toLake := ← s.dropTable path }

/-- An operation that is refused changes nothing. -/
def step (b : TableBucket) (s : Warehouse) (op : WarehouseOp) : Warehouse :=
  match s.exec b op with
  | .ok s' => s'
  | .error _ => s

def run (b : TableBucket) (s : Warehouse) (ops : List WarehouseOp) : Warehouse :=
  ops.foldl (step b) s

end Warehouse

end Lights3.Iceberg
