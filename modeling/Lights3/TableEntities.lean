import Lights3.TableNames

/-!
# Entities of the table catalog

Catalog entries and commit records, the parts of Iceberg metadata that the catalog and
its maintenance read, and the selection of the metadata files that a plan may delete.
Time stamps of entries are left out: an entry is rewritten with a new token, another state
or another identity each time.
-/
namespace Lights3
open ByteString

/-- What names a table bucket: the bucket and its reserved prefix. -/
structure TableBucket where
  bucket : Bytes
  reserved : Bytes

inductive TableState where
  | Active | Renaming | Deleted
  deriving DecidableEq

/-- `TableEntry`, stored under the path of the table. -/
structure TableEntry where
  tableId : Bytes
  tableUuid : Bytes
  location : Bytes
  metadataLocation : Bytes
  versionToken : Bytes
  generation : Nat := 1
  formatVersion : Nat := 2
  state : TableState := .Active
  renameId : Bytes := []

inductive CommitStatus where
  | STAGED | COMMITTED
  deriving DecidableEq

structure CommitRecord where
  commitId : Bytes
  tableId : Bytes
  expectedToken : Bytes
  newToken : Bytes
  prevMetadataLocation : Bytes
  newMetadataLocation : Bytes
  status : CommitStatus
  requestDigest : Bytes

/-- `commit_key`: records are kept per table and commit id. -/
def commitKey (tableId commitId : Bytes) : List Bytes := [tableId, commitId]

/-! ## Metadata -/

/-- A snapshot names its manifests by a list file or, in version 1, inline. -/
structure Snapshot where
  snapshotId : Int
  manifestList : Option Bytes := none
  manifests : List Bytes := []
  deriving DecidableEq

/-- Table metadata. `rest` stands for the fields that nothing here reads. -/
structure Metadata where
  tableUuid : Bytes
  location : Bytes
  /-- The `metadata-file` entries of the metadata log. -/
  metadataLog : List Bytes := []
  snapshots : List Snapshot := []
  formatVersion : Nat := 2
  rest : Bytes := []
  deriving DecidableEq

inductive EntryStatus where
  | existing | added | deleted
  deriving DecidableEq

/-- What an object of the bucket holds. -/
inductive Content where
  | metadata (m : Metadata)
  | manifestList (manifests : List Bytes)
  | manifest (files : List (EntryStatus × Bytes))
  /-- A manifest or manifest list in a codec the reader lacks. -/
  | unreadable
  | data
  deriving DecidableEq

structure StoredObject where
  content : Content
  mtimeUnix : Int := 0
  deriving DecidableEq

abbrev Objects := SortedMap Bytes StoredObject

/-- `list_prefix`: the keys come in order. -/
def Objects.listPrefix (objects : Objects) (keyPrefix : Bytes) : List (Bytes × StoredObject) :=
  objects.entries.filter (fun x => keyPrefix <+: x.1)

theorem Objects.mem_listPrefix {objects : Objects} {keyPrefix : Bytes} {x : Bytes × StoredObject} :
    x ∈ objects.listPrefix keyPrefix ↔ objects.get? x.1 = some x.2 ∧ keyPrefix <+: x.1 := by
  unfold Objects.listPrefix
  rw [List.mem_filter, decide_eq_true_iff, ← SortedMap.mem_entries]

/-! ## Maintenance plans -/

structure PlannerOptions where
  retainRecent : Nat := 10
  safetyWindowSec : Int := 900
  orphanCleanup : Bool := true

/-- `MaintenancePlan`, as far as running it reads it. -/
structure MaintenancePlan where
  path : TablePath
  versionToken : Bytes
  metadataCandidates : List Bytes := []
  orphanCandidates : List Bytes := []

/-- The locations that the metadata retains: the pointer, the log and the records of
applied commits. An entry of the log that is no path of this bucket is passed over. -/
def retainedBy (b : TableBucket) (pointer : Bytes) (md : Metadata) (records : List CommitRecord) :
    List Bytes :=
  pointer :: (md.metadataLog.filterMap (fun path => (pathToKey b.bucket path).toOption) ++
    (records.filter (fun r => r.status = .COMMITTED)).map (·.newMetadataLocation))

/-- The files of the listing that are metadata files by their name. -/
def metadataFiles (listed : List (Bytes × StoredObject)) : List (Bytes × StoredObject) :=
  listed.filter (fun x => x.1.length > 14 && metadataSuffix <:+ x.1)

/-- The metadata candidates of a plan: files that are not retained, not among the most
recent ones and older than the safety window. -/
def metadataCandidates (retained : List Bytes) (opt : PlannerOptions) (nowUnix : Int)
    (listed : List (Bytes × StoredObject)) : List Bytes :=
  let files := metadataFiles listed
  let recent := (files.reverse.take opt.retainRecent).map Prod.fst
  (files.filter (fun x =>
    x.1 ∉ retained ++ recent && x.2.mtimeUnix ≤ nowUnix - opt.safetyWindowSec)).map Prod.fst

theorem mem_metadataCandidates {retained : List Bytes} {opt : PlannerOptions} {nowUnix : Int}
    {listed : List (Bytes × StoredObject)} {k : Bytes}
    (h : k ∈ metadataCandidates retained opt nowUnix listed) :
    (∃ o, (k, o) ∈ listed) ∧ k ∉ retained := by
  obtain ⟨x, hx, rfl⟩ := List.mem_map.mp h
  obtain ⟨hfile, hkeep⟩ := List.mem_filter.mp hx
  refine ⟨⟨x.2, (List.mem_filter.mp hfile).1⟩, fun hr => ?_⟩
  simp [hr] at hkeep

end Lights3
