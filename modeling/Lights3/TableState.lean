import Lights3.TableEntities

/-!
# The state of the table catalog

The catalog store and the bucket, with the effects that the steps of the catalog operations have on
them, and the entries and records that the operations write.

The entity tag of an entry is a digest of the entry and is modelled as the entry itself. Which ids
and tokens were handed out is read by no operation.
-/
namespace Lights3
open ByteString

/-! ## Inputs -/

/-- What a step gets from outside the shared state. -/
structure Choice where
  /-- The next `new_uuid`. -/
  uuid : Bytes := []
  /-- The next `new_token`. -/
  token : Bytes := []

structure CommitCall where
  path : TablePath
  /-- Empty when the client gave none. -/
  commitId : Bytes := []
  digest : Bytes := []

/-! ## The shared state -/

/-- The catalog store and the bucket. -/
structure CatalogState where
  clockUnix : Int := 0
  /-- Whether the store has `commit_atomic`. -/
  atomic : Bool := false
  tables : SortedMap TablePath TableEntry := SortedMap.empty
  commits : SortedMap (List Bytes) CommitRecord := SortedMap.empty
  objects : Objects := SortedMap.empty
  /-- The ids and tokens that were handed out. -/
  used : List Bytes := []

/-- What one step does to the shared state. -/
inductive Effect where
  | tick (sec : Nat)
  | mint (id : Bytes)
  | mintTable (tableId token : Bytes)
  | writeObject (key : Bytes) (o : StoredObject)
  | deleteObject (key : Bytes)
  | putCommit (r : CommitRecord)
  /-- A new record, with its new token; it is stored unless the store is atomic. -/
  | stage (r : CommitRecord)
  /-- The pointer moves; on an atomic store the record is written with it. -/
  | swap (path : TablePath) (next : TableEntry) (r : CommitRecord)
  | putTable (path : TablePath) (e : TableEntry)

def CommitRecord.committed (r : CommitRecord) : CommitRecord := { r with status := .COMMITTED }

namespace CatalogState

def apply (s : CatalogState) : Effect → CatalogState
  | .tick sec => { s with clockUnix := s.clockUnix + sec }
  | .mint id => { s with used := id :: s.used }
  | .mintTable tableId token => { s with used := tableId :: token :: s.used }
  | .writeObject key o => { s with objects := s.objects.insert key o }
  | .deleteObject key => { s with objects := s.objects.erase key }
  | .putCommit r => { s with commits := s.commits.insert (commitKey r.tableId r.commitId) r }
  | .stage r =>
      { s with
        commits :=
          if s.atomic then s.commits else s.commits.insert (commitKey r.tableId r.commitId) r
        used := r.newToken :: s.used }
  | .swap path next r =>
      { s with
        tables := s.tables.insert path next
        commits :=
          if s.atomic then s.commits.insert (commitKey r.tableId r.commitId) r.committed
          else s.commits }
  | .putTable path e => { s with tables := s.tables.insert path e }

/-- A uuid that no call has used. -/
def FreshUuid (s : CatalogState) (id : Bytes) : Prop := looksLikeUuid id = true ∧ id ∉ s.used

instance (s : CatalogState) (id : Bytes) : Decidable (s.FreshUuid id) :=
  inferInstanceAs (Decidable (_ ∧ _))

/-- `require_active`, after a pending rename was driven. -/
def requireActive (s : CatalogState) (path : TablePath) : Except RestError TableEntry :=
  match s.tables.get? path with
  | none => .error (notFoundTable (ascii "table " ++ path.display ++ ascii " does not exist"))
  | some e =>
      match e.state with
      | .Deleted =>
          .error (notFoundTable (ascii "table " ++ path.display ++ ascii " does not exist"))
      | .Renaming =>
          .error (unavailable (ascii "table " ++ path.display ++ ascii " is being renamed; retry"))
      | .Active => .ok e

/-- `read_metadata`. -/
def readMetadata (s : CatalogState) (key : Bytes) : Except RestError Metadata :=
  match s.objects.get? key with
  | none => .error (restInternal (ascii "table metadata file " ++ key ++ ascii " is missing"))
  | some o =>
      match o.content with
      | .metadata md => .ok md
      | _ => .error (badRequest (ascii "table metadata is not valid JSON"))

/-! ## `commit_table` -/

/-- The record of a first attempt. -/
def newRecord (call : CommitCall) (ch : Choice) (cur : TableEntry) (id key : Bytes) :
    CommitRecord :=
  { commitId := id
    tableId := cur.tableId
    expectedToken := cur.versionToken
    newToken := ch.token
    prevMetadataLocation := cur.metadataLocation
    newMetadataLocation := key
    status := .STAGED
    requestDigest := call.digest }

def nextEntry (cur : TableEntry) (r : CommitRecord) (next : Metadata) : TableEntry :=
  { cur with
    metadataLocation := r.newMetadataLocation
    versionToken := r.newToken
    generation := cur.generation + 1
    formatVersion := next.formatVersion
    location := next.location }

/-! ## `create_table` -/

/-- The entry of a new table. -/
def newEntry (b : TableBucket) (path : TablePath) (ch : Choice) (md : Metadata) : TableEntry :=
  { tableId := ch.uuid
    tableUuid := md.tableUuid
    location := md.location
    metadataLocation := metadataKey b.reserved path 1 ch.uuid
    versionToken := ch.token
    formatVersion := md.formatVersion }

/-! ## `plan_table` and `run_table` -/

/-- `list_commits`. -/
def listCommits (s : CatalogState) (tableId : Bytes) : List CommitRecord :=
  (s.commits.entries.filter (fun x => x.1.head? = some tableId)).map Prod.snd

/-- The orphans that the scan found lie in the data directories of the location. -/
def OrphansIn (locKey : Bytes) (orphans : List Bytes) : Prop :=
  ∀ k ∈ orphans, locKey ++ ascii "/data/" <+: k ∨ locKey ++ ascii "/delete/" <+: k

/-- `table_pointer`. -/
def tablePointer (s : CatalogState) (path : TablePath) : Option TableEntry :=
  (s.tables.get? path).filter (fun e => e.state ≠ .Deleted)

/-- The candidates in the order of the run. -/
def todoOf (plan : MaintenancePlan) : List (Bytes × Bool) :=
  plan.metadataCandidates.map (fun k => (k, true)) ++
    plan.orphanCandidates.map (fun k => (k, false))

end CatalogState

end Lights3
