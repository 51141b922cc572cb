import Lights3.Records

/-!
# The files of an object

An object of the local file system is a data file, which may carry its metadata in an extended
attribute, and a sidecar with metadata; a reader prefers the attribute
(`storage/localfs/fs_util.cc`). The commit primitives are sequences of durable steps, and a crash
leaves the files as they are after some first part of the sequence.

Metadata is held as the record that is read back from its text.
-/
namespace Lights3
open ByteString

/-- `TierInfo`. -/
structure TierInfo where
  tier : Tier := .kLocal
  remoteEtag : Bytes := []
  remoteAt : Bytes := []
  deriving DecidableEq

/-- What `parse_meta_tsv` finds in a text of `meta_kv`. -/
structure MetaRecord where
  objMeta : ObjectMeta := {}
  tier : TierInfo := {}
  deriving DecidableEq

/-- `meta_kv`: the size and the tier are written for objects that are not local only. -/
def metaKv (m : ObjectMeta) (t : TierInfo) : MetaRecord :=
  let checksum := resolvedChecksumValue m
  let kept :=
    { m with
      key := []
      size := if t.tier = .kLocal then 0 else m.size
      lastModified := 0
      checksumAlgorithm := if checksum = [] then [] else m.checksumAlgorithm
      checksumValue := checksum
      checksumType := if checksum = [] then [] else m.checksumType
      checksumPending := none }
  ⟨kept, if t.tier = .kLocal then {} else t⟩

structure DataFile where
  bytes : Bytes := []
  xattr : Option MetaRecord := none
  mtime : Int64 := 0
  deriving DecidableEq

structure ObjectFiles where
  data : Option DataFile := none
  sidecar : Option MetaRecord := none
  deriving DecidableEq

/-- `load_object_meta_stat` for the data file `d`. -/
def ObjectFiles.loadStat (f : ObjectFiles) (key : Bytes) (d : DataFile) : ObjectMeta × TierInfo :=
  let r := (d.xattr.or f.sidecar).getD {}
  ({ r.objMeta with
      key
      size := if r.tier.tier = .kLocal then UInt64.ofNat d.bytes.length else r.objMeta.size
      lastModified := d.mtime }, r.tier)

/-! ## Durable steps -/

inductive SidecarMode where
  | kSync
  | kAsync
  | kLazy
  deriving DecidableEq

inductive DurableStep where
  /-- `setxattr` on the staged file. -/
  | setXattr (r : MetaRecord)
  /-- The staged file is renamed over the data file. -/
  | renameData
  | renameSidecar (r : MetaRecord)
  | unlinkSidecar

/-- The files of the object and the staged file. -/
structure Staging where
  files : ObjectFiles
  staged : DataFile

def Staging.step (s : Staging) : DurableStep → Staging
  | .setXattr r => { s with staged.xattr := some r }
  | .renameData => { s with files.data := some s.staged }
  | .renameSidecar r => { s with files.sidecar := some r }
  | .unlinkSidecar => { s with files.sidecar := none }

/-- `finish_object_sidecar` when the attribute was written. In the mode `kAsync` the caller writes
the sidecar later. -/
def finishObjectSidecar (m : ObjectMeta) : SidecarMode → List DurableStep
  | .kSync => [.renameSidecar (metaKv m {})]
  | .kAsync => []
  | .kLazy => [.unlinkSidecar]

/-- `commit_object_file`, where attributes are supported. -/
def commitObjectFile (m : ObjectMeta) (mode : SidecarMode) : List DurableStep :=
  .setXattr (metaKv m {}) :: .renameData :: finishObjectSidecar m mode

/-- `commit_stub`; its staged file is empty. -/
def commitStub (m : ObjectMeta) (t : TierInfo) : List DurableStep :=
  [.renameSidecar (metaKv m t), .renameData]

/-- `commit_cached`. -/
def commitCached (m : ObjectMeta) (t : TierInfo) : List DurableStep :=
  [.renameData, .renameSidecar (metaKv m t)]

/-! ## Crashes -/

/-- The commit primitives with their arguments, as they are called. -/
inductive CommitOp where
  | objectFile (bytes : Bytes) (m : ObjectMeta) (mode : SidecarMode)
  | stub (m : ObjectMeta) (remoteEtag remoteAt : Bytes)
  | cached (bytes : Bytes) (m : ObjectMeta) (remoteEtag remoteAt : Bytes)

namespace CommitOp

def staged : CommitOp → DataFile
  | .objectFile bytes _ _ | .cached bytes .. => { bytes }
  | .stub .. => {}

def steps : CommitOp → List DurableStep
  | .objectFile _ m mode => commitObjectFile m mode
  | .stub m remoteEtag remoteAt => commitStub m ⟨.kRemote, remoteEtag, remoteAt⟩
  | .cached _ m remoteEtag remoteAt => commitCached m ⟨.kCached, remoteEtag, remoteAt⟩

/-- The files after a crash that the first `n` steps have survived. -/
def crash (op : CommitOp) (f : ObjectFiles) (n : Nat) : ObjectFiles :=
  ((op.steps.take n).foldl Staging.step ⟨f, op.staged⟩).files

end CommitOp

/-- What there is to read of an object. The bytes of the data file count unless the tier is remote.
-/
structure StoredVersion where
  etag : Bytes
  size : UInt64
  tier : Tier
  bytes : Option Bytes
  deriving DecidableEq

/-- The version that a data file makes with the metadata that was found for it. -/
def versionOf (bytes : Bytes) (r : MetaRecord) : StoredVersion where
  etag := r.objMeta.etag
  size := if r.tier.tier = .kLocal then UInt64.ofNat bytes.length else r.objMeta.size
  tier := r.tier.tier
  bytes := if r.tier.tier = .kRemote then none else some bytes

namespace ObjectFiles

/-- The version that is read back. -/
def version (f : ObjectFiles) : Option StoredVersion :=
  f.data.map fun d =>
    let (m, t) := f.loadStat [] d
    ⟨m.etag, m.size, t.tier, if t.tier = .kRemote then none else some d.bytes⟩

variable {d : DataFile} {sidecar : Option MetaRecord} {bytes : Bytes} {r x : MetaRecord}
  {mtime : Int64}

@[simp] theorem version_xattr :
    version ⟨some ⟨bytes, some x, mtime⟩, sidecar⟩ = some (versionOf bytes x) := rfl

@[simp] theorem version_sidecar :
    version ⟨some ⟨bytes, none, mtime⟩, some r⟩ = some (versionOf bytes r) := rfl

/-- A sidecar is looked at only if the data file has no attribute. -/
theorem version_renameSidecar (f : ObjectFiles) (r : MetaRecord) :
    version ⟨f.data, some r⟩ = f.version ∨ ∃ bytes,
    version ⟨f.data, some r⟩ = some (versionOf bytes r) := by
  obtain ⟨_ | ⟨bytes, _ | x, mtime⟩, sidecar⟩ := f
  · exact .inl rfl
  · exact .inr ⟨bytes, rfl⟩
  · exact .inl rfl

end ObjectFiles

/-- A stub: the sidecar says that the object is remote, and so does the attribute if there is one.
-/
structure ObjectFiles.IsStub (f : ObjectFiles) (d : DataFile) (r : MetaRecord) : Prop where
  data : f.data = some d
  sidecar : f.sidecar = some r
  remote : r.tier.tier = .kRemote
  agrees : ∀ x ∈ d.xattr, versionOf d.bytes x = versionOf d.bytes r

theorem versionOf_remote {r : MetaRecord} (h : r.tier.tier = .kRemote) (bytes bytes' : Bytes) :
    versionOf bytes r = versionOf bytes' r := by
  simp [versionOf, h]

theorem ObjectFiles.IsStub.version_eq {f : ObjectFiles} {d : DataFile} {r : MetaRecord}
    (h : f.IsStub d r) (bytes : Bytes) : f.version = some (versionOf bytes r) := by
  obtain ⟨data, sidecar⟩ := f
  obtain rfl := h.data
  obtain rfl := h.sidecar
  obtain ⟨old, _ | x, mtime⟩ := d
  · rw [version_sidecar, versionOf_remote h.remote old bytes]
  · rw [version_xattr, h.agrees x rfl, versionOf_remote h.remote old bytes]

/-! ## The three primitives -/

namespace CommitOp

/-- The version that the commit is for. -/
def newVersion : CommitOp → StoredVersion
  | .objectFile bytes m _ => ⟨m.etag, UInt64.ofNat bytes.length, .kLocal, some bytes⟩
  | .stub m _ _ => ⟨m.etag, m.size, .kRemote, none⟩
  | .cached bytes m _ _ => ⟨m.etag, m.size, .kCached, some bytes⟩

theorem crash_of_length_le {op : CommitOp} {f : ObjectFiles} {n : Nat} (h : op.steps.length ≤ n) :
    op.crash f n = (op.steps.foldl Staging.step ⟨f, op.staged⟩).files := by
  rw [crash, List.take_of_length_le h]

theorem version_objectFile (bytes : Bytes) (m : ObjectMeta) (mtime : Int64)
    (sidecar : Option MetaRecord) :
    ObjectFiles.version ⟨some ⟨bytes, some (metaKv m {}), mtime⟩, sidecar⟩ =
      some ⟨m.etag, UInt64.ofNat bytes.length, .kLocal, some bytes⟩ := by
  simp [versionOf, metaKv]

theorem versionOf_stub (bytes : Bytes) (m : ObjectMeta) (remoteEtag remoteAt : Bytes) :
    versionOf bytes (metaKv m ⟨.kRemote, remoteEtag, remoteAt⟩) =
      ⟨m.etag, m.size, .kRemote, none⟩ := by
  simp [versionOf, metaKv]

theorem versionOf_cached (bytes : Bytes) (m : ObjectMeta) (remoteEtag remoteAt : Bytes) :
    versionOf bytes (metaKv m ⟨.kCached, remoteEtag, remoteAt⟩) =
      ⟨m.etag, m.size, .kCached, some bytes⟩ := by
  simp [versionOf, metaKv]

/-- A commit that was not interrupted. -/
theorem version_complete (op : CommitOp) (f : ObjectFiles) :
    (op.steps.foldl Staging.step ⟨f, op.staged⟩).files.version = some op.newVersion := by
  cases op with
  | objectFile bytes m mode => cases mode <;> exact version_objectFile bytes m _ _
  | stub m remoteEtag remoteAt => exact congrArg some (versionOf_stub _ m remoteEtag remoteAt)
  | cached bytes m remoteEtag remoteAt =>
      exact congrArg some (versionOf_cached bytes m remoteEtag remoteAt)

/-- `commit_object_file` takes effect with the rename of its data file. -/
theorem crash_objectFile (f : ObjectFiles) (bytes : Bytes) (m : ObjectMeta)
    (mode : SidecarMode) {n : Nat} (hn : n < (commitObjectFile m mode).length) :
    (crash (.objectFile bytes m mode) f n).version = f.version ∨
      (crash (.objectFile bytes m mode) f n).version =
        some (newVersion (.objectFile bytes m mode)) := by
  have hlen : (commitObjectFile m mode).length ≤ 3 := by cases mode <;>
    simp [commitObjectFile, finishObjectSidecar]
  match n with
  | 0 | 1 => exact .inl rfl
  | 2 => exact .inr (version_objectFile bytes m _ _)
  | n + 3 => omega

/-- `commit_stub` takes effect with its sidecar, or with its data file if the old one has an
attribute. -/
theorem crash_stub (f : ObjectFiles) (m : ObjectMeta) (remoteEtag remoteAt : Bytes)
    {n : Nat} (hn : n < 2) : (crash (.stub m remoteEtag remoteAt) f n).version = f.version ∨
      (crash (.stub m remoteEtag remoteAt) f n).version =
        some (newVersion (.stub m remoteEtag remoteAt)) := by
  match n with
  | 0 => exact .inl rfl
  | 1 =>
      refine (f.version_renameSidecar (metaKv m ⟨.kRemote, remoteEtag, remoteAt⟩)).imp_right ?_
      rintro ⟨bytes, h⟩
      rw [versionOf_stub] at h
      exact h

/-- `commit_cached` takes effect with its sidecar: until then the old sidecar says that the object
is remote. -/
theorem crash_cached {f : ObjectFiles} {d : DataFile} {r : MetaRecord} (h : f.IsStub d r)
    (bytes : Bytes) (m : ObjectMeta) (remoteEtag remoteAt : Bytes) {n : Nat} (hn : n < 2) :
    (crash (.cached bytes m remoteEtag remoteAt) f n).version = f.version := by
  match n with
  | 0 => rfl
  | 1 =>
      rw [h.version_eq bytes]
      simp only [crash, steps, commitCached, List.take, List.foldl, Staging.step, staged, h.sidecar]
      rfl

end CommitOp

/-- A crash during a commit leaves the old version or the new one, if `commit_cached` finds a stub;
and a commit that was not interrupted leaves the new one. -/
theorem commit_crash_atomic (op : CommitOp) (f : ObjectFiles)
    (hstub : ∀ bytes m remoteEtag remoteAt, op = .cached bytes m remoteEtag remoteAt → ∃ d r,
      f.IsStub d r) (n : Nat) :
    ((op.crash f n).version = f.version ∨ (op.crash f n).version = some op.newVersion) ∧
      (op.steps.length ≤ n → (op.crash f n).version = some op.newVersion) := by
  have hcomplete : op.steps.length ≤ n → (op.crash f n).version = some op.newVersion := by
    intro h
    rw [CommitOp.crash_of_length_le h, op.version_complete]
  refine ⟨?_, hcomplete⟩
  by_cases hn : op.steps.length ≤ n
  · exact .inr (hcomplete hn)
  · rw [Nat.not_le] at hn
    cases op with
    | objectFile bytes m mode => exact CommitOp.crash_objectFile f bytes m mode hn
    | stub m remoteEtag remoteAt => exact CommitOp.crash_stub f m remoteEtag remoteAt hn
    | cached bytes m remoteEtag remoteAt =>
        obtain ⟨d, r, h⟩ := hstub bytes m remoteEtag remoteAt rfl
        exact .inl (CommitOp.crash_cached h bytes m remoteEtag remoteAt hn)

/-- The files of a stub of three bytes. -/
def stubFiles : ObjectFiles := ⟨some {}, some ⟨{ etag := [1], size := 3 }, ⟨.kRemote, [2], []⟩⟩⟩

theorem stubFiles_isStub :
    stubFiles.IsStub {} ⟨{ etag := [1], size := 3 }, ⟨.kRemote, [2], []⟩⟩ where
  data := rfl
  sidecar := rfl
  remote := rfl
  agrees := by simp

/-- A crash in the middle of filling the stub. -/
theorem commit_crash_atomic_fill :
    let op : CommitOp := .cached [5, 6, 7] { etag := [1], size := 3 } [2] []
    ((op.crash stubFiles 1).version = stubFiles.version ∨
      (op.crash stubFiles 1).version = some op.newVersion) ∧
      (op.steps.length ≤ 1 → (op.crash stubFiles 1).version = some op.newVersion) :=
  commit_crash_atomic _ stubFiles (fun _ _ _ _ _ => ⟨_, _, stubFiles_isStub⟩) 1

/-- A local object whose attribute and sidecar agree. -/
def localFiles : ObjectFiles :=
  ⟨some ⟨[7], some ⟨{ etag := [1] }, {}⟩, 0⟩, some ⟨{ etag := [1] }, {}⟩⟩

/-- After the rename of the data file the old sidecar describes the new bytes. -/
theorem commit_cached_tears_local :
    let op : CommitOp := .cached [8, 9] { etag := [3], size := 2 } [4] []
    localFiles.version = some ⟨[1], 1, .kLocal, some [7]⟩ ∧
      op.newVersion = ⟨[3], 2, .kCached, some [8, 9]⟩ ∧
      (op.crash localFiles 1).version = some ⟨[1], 2, .kLocal, some [8, 9]⟩ := by
  decide

end Lights3
