import Lights3.Lib.Interleaving
import Lights3.ObjectFiles

/-!
# Commits, deletes and taggings on the local file system

The operations of `storage/localfs/localfs_backend.cc` that change the files of objects, one
file-system call at a time: the commit of `put_object` and `copy_object_fast`
(`commit_object_file`), with the reads of the source by the copy, `delete_object` with its removal
of empty directories, `set_object_tagging` and `reap_orphan_sidecar`. Commits, taggings and reaps of
a key hold its commit lock; keys that hash to the same stripe share it. Deletes and deferred
sidecars hold none. Of a commit lock, which is an `AsyncSemaphore(1)`, only whether it is taken is
kept.

A path is the list of its segments below the bucket's directory, which is always there. Sidecars are
found under the path of their data file. Besides the files, the state records the metadata of the
write that made each data file, with the tags of the taggings that took effect since.
-/
namespace Lights3
open ByteString Interleaving

abbrev FsPath := List Bytes

/-- The metadata that is found for the data file. -/
def ObjectFiles.effective (f : ObjectFiles) : Option MetaRecord :=
  f.data.bind fun d => d.xattr.or f.sidecar

/-- The metadata that `set_object_tagging` writes when it has read `r`. -/
def MetaRecord.retag (r : MetaRecord) (tagging : Bytes) : MetaRecord :=
  metaKv { r.objMeta with tagging } r.tier

structure FsTree where
  dirs : List FsPath := []
  files : SortedMap FsPath ObjectFiles := .empty
  /-- The stripes of the commit lock that are taken. -/
  taken : Nat → Bool := fun _ => false
  /-- The metadata of the write of the data file, with later tags. -/
  written : FsPath → Option MetaRecord

structure FsOptions where
  sidecar : SidecarMode := .kSync
  requireXattr : Bool := false
  stripe : FsPath → Nat := fun _ => 0

namespace FsTree

variable (s : FsTree) (p : FsPath)

def filesAt : ObjectFiles := (s.files.get? p).getD {}

def setFiles (f : ObjectFiles) : FsTree := { s with files := s.files.insert p f }

def setSidecar (r : Option MetaRecord) : FsTree := s.setFiles p { s.filesAt p with sidecar := r }

def setData (d : Option DataFile) : FsTree := s.setFiles p { s.filesAt p with data := d }

def setWritten (r : MetaRecord) : FsTree :=
  { s with written := Function.update s.written p (some r) }

/-- A tagging takes effect. -/
def retagWritten (tagging : Bytes) : FsTree :=
  s.setWritten p (((s.written p).getD {}).retag tagging)

def isDirectory : Bool := p = [] || p ∈ s.dirs

/-- The directory has no files and no directories in it. -/
def isEmpty : Bool :=
  s.files.entries.all (fun (q, f) => q.dropLast ≠ p || f = {}) && s.dirs.all fun q =>
    q = [] || q.dropLast ≠ p

def makeDir : FsTree := { s with dirs := p :: s.dirs }

def removeDir : FsTree := { s with dirs := s.dirs.filter (· ≠ p) }

def lock (stripe : Nat) : FsTree := { s with taken := Function.update s.taken stripe true }

def unlock (stripe : Nat) : FsTree := { s with taken := Function.update s.taken stripe false }

/-- The files of a backend that starts: what is found is what was written. -/
def start (dirs : List FsPath) (files : SortedMap FsPath ObjectFiles) : FsTree where
  dirs
  files
  written p := ((files.get? p).getD {}).effective

end FsTree

/-- What `put_object` and `copy_object_fast` commit. -/
structure ObjectWrite where
  path : FsPath
  bytes : Bytes := []
  objMeta : ObjectMeta := {}
  deriving DecidableEq

namespace ObjectWrite

variable (w : ObjectWrite)

def record : MetaRecord := metaKv w.objMeta {}

def dir : FsPath := w.path.dropLast

/-- The directories that `create_directories` makes sure of, from the top. -/
def parents : List FsPath := (List.range w.dir.length).map fun n => w.dir.take (n + 1)

end ObjectWrite

inductive FsTask where
  | copyStat (src : FsPath) (w : ObjectWrite)
  | copyGetXattr (src : FsPath) (w : ObjectWrite)
  | copyReadSidecar (src : FsPath) (w : ObjectWrite)
  | copyOpen (src : FsPath) (w : ObjectWrite) (r : MetaRecord)
  | commitLock (w : ObjectWrite)
  | commitCondition (w : ObjectWrite)
  | commitDirs (w : ObjectWrite) (todo : List FsPath)
  | commitCheck (w : ObjectWrite)
  | commitXattr (w : ObjectWrite)
  | commitRename (w : ObjectWrite) (xattrOk : Bool)
  | commitFinish (w : ObjectWrite) (xattrOk : Bool)
  /-- `defer_sidecar`. -/
  | commitDeferred (w : ObjectWrite)
  /-- The commit failed with an internal error because a directory is not there. -/
  | noEntry (w : ObjectWrite)
  | deleteData (p : FsPath)
  | deleteSidecar (p : FsPath)
  | pruneCheck (dir : FsPath)
  | pruneRemove (dir : FsPath)
  | tagLock (p : FsPath) (tagging : Bytes)
  | tagStat (p : FsPath) (tagging : Bytes)
  | tagGetXattr (p : FsPath) (tagging : Bytes)
  | tagReadSidecar (p : FsPath) (tagging : Bytes)
  | tagSetXattr (p : FsPath) (tagging : Bytes) (r : MetaRecord)
  | tagExists (p : FsPath) (tagging : Bytes) (r : MetaRecord)
  | tagSidecar (p : FsPath) (tagging : Bytes) (r : MetaRecord) (xattrOk : Bool)
  | reapLock (p : FsPath)
  | reapCheck (p : FsPath)
  | reapUnlink (p : FsPath)
  /-- Returned, or failed for another reason. -/
  | done
  deriving DecidableEq

namespace FsTask

variable (o : FsOptions)

/-- The task waits for the commit lock of `p`. -/
def acquire (s : FsTree) (p : FsPath) (waiting next : FsTask) : FsTree × FsTask :=
  if s.taken (o.stripe p) then (s, waiting) else (s.lock (o.stripe p), next)

/-- A call either succeeds or, where `ok` is false, does not: the condition of a `put_object` does
not hold, `copy_file_range` does not work, or an attribute cannot be set. -/
def move (s : FsTree) (ok : Bool) : FsTask → FsTree × FsTask
  | .copyStat src w => (s, if (s.filesAt src).data.isSome then .copyGetXattr src w else .done)
  | .copyGetXattr src w =>
      match (s.filesAt src).data.bind (·.xattr) with
      | some r => (s, .copyOpen src w r)
      | none => (s, .copyReadSidecar src w)
  | .copyReadSidecar src w => (s, .copyOpen src w ((s.filesAt src).sidecar.getD {}))
  -- An open file is copied as it was; an object that is not local is left to the streaming path.
  | .copyOpen src w r =>
      match (s.filesAt src).data with
      | some d =>
          (s, if ok ∧ r.tier.tier = .kLocal then
            .commitLock { w with bytes := d.bytes, objMeta.etag := r.objMeta.etag } else .done)
      | none => (s, .done)
  | .commitLock w => acquire o s w.path (.commitLock w) (.commitCondition w)
  | .commitCondition w =>
      if ok then (s, .commitDirs w w.parents) else (s.unlock (o.stripe w.path), .done)
  | .commitDirs w todo =>
      match todo with
      | [] => (s, .commitCheck w)
      | p :: todo =>
          if p ∈ s.dirs then (s, .commitDirs w todo)
          else if (s.filesAt p).data.isSome then (s.unlock (o.stripe w.path), .done)
          else if s.isDirectory p.dropLast then (s.makeDir p, .commitDirs w todo)
          else (s.unlock (o.stripe w.path), .noEntry w)
  | .commitCheck w =>
      if w.path ∈ s.dirs then (s.unlock (o.stripe w.path), .done) else (s, .commitXattr w)
  | .commitXattr w =>
      if !ok && o.requireXattr then (s.unlock (o.stripe w.path), .done) else (s, .commitRename w ok)
  | .commitRename w xattrOk =>
      if !s.isDirectory w.dir then (s.unlock (o.stripe w.path), .noEntry w)
      else if w.path ∈ s.dirs then (s.unlock (o.stripe w.path), .done)
      else
        let d : DataFile := { bytes := w.bytes, xattr := if xattrOk then some w.record else none }
        ((s.setData w.path (some d)).setWritten w.path w.record, .commitFinish w xattrOk)
  -- `finish_object_sidecar`
  | .commitFinish w xattrOk =>
      if xattrOk ∧ o.sidecar = .kLazy then
        ((s.setSidecar w.path none).unlock (o.stripe w.path), .done)
      else if xattrOk ∧ o.sidecar = .kAsync then (s.unlock (o.stripe w.path), .commitDeferred w)
      else if s.isDirectory w.dir then
        ((s.setSidecar w.path (some w.record)).unlock (o.stripe w.path), .done)
      else (s.unlock (o.stripe w.path), .noEntry w)
  | .commitDeferred w =>
      (if s.isDirectory w.dir then s.setSidecar w.path (some w.record) else s, .done)
  | .noEntry w => (s, .noEntry w)
  -- `remove` also removes a directory, if it is empty.
  | .deleteData p =>
      if p ∈ s.dirs then
        if s.isEmpty p then (s.removeDir p, .deleteSidecar p) else (s, .done)
      else (s.setData p none, .deleteSidecar p)
  | .deleteSidecar p => (s.setSidecar p none, .pruneCheck p.dropLast)
  | .pruneCheck dir =>
      (s, if dir ≠ [] ∧ dir ∈ s.dirs ∧ s.isEmpty dir then .pruneRemove dir else .done)
  | .pruneRemove dir =>
      if dir ∈ s.dirs then
        if s.isEmpty dir then (s.removeDir dir, .pruneCheck dir.dropLast) else (s, .done)
      else (s, .pruneCheck dir.dropLast)
  | .tagLock p tagging => acquire o s p (.tagLock p tagging) (.tagStat p tagging)
  | .tagStat p tagging =>
      if (s.filesAt p).data.isSome then (s, .tagGetXattr p tagging) else
        (s.unlock (o.stripe p), .done)
  | .tagGetXattr p tagging =>
      match (s.filesAt p).data.bind (·.xattr) with
      | some r => (s, .tagSetXattr p tagging (r.retag tagging))
      | none => (s, .tagReadSidecar p tagging)
  | .tagReadSidecar p tagging =>
      (s, .tagSetXattr p tagging (((s.filesAt p).sidecar.getD {}).retag tagging))
  | .tagSetXattr p tagging r =>
      match ok, (s.filesAt p).data with
      | true, some d =>
          ((s.setData p (some { d with xattr := some r })).retagWritten p tagging,
            .tagExists p tagging r)
      | _, _ =>
          if o.requireXattr then (s.unlock (o.stripe p), .done) else
            (s, .tagSidecar p tagging r false)
  | .tagExists p tagging r =>
      if o.sidecar = .kLazy ∧ (s.filesAt p).sidecar = none then (s.unlock (o.stripe p), .done)
      else (s, .tagSidecar p tagging r true)
  | .tagSidecar p tagging r _ =>
      if s.isDirectory p.dropLast then
        let s' := s.setSidecar p (some r)
        let s' := if (s.filesAt p).data.any (·.xattr.isNone) then s'.retagWritten p tagging else s'
        (s'.unlock (o.stripe p), .done)
      else (s.unlock (o.stripe p), .done)
  | .reapLock p => acquire o s p (.reapLock p) (.reapCheck p)
  | .reapCheck p =>
      if (s.filesAt p).data.isSome then (s.unlock (o.stripe p), .done) else (s, .reapUnlink p)
  | .reapUnlink p => ((s.setSidecar p none).unlock (o.stripe p), .done)
  | .done => (s, .done)

end FsTask

inductive FsRequest where
  | commit (w : ObjectWrite)
  | copy (src : FsPath) (w : ObjectWrite)
  | delete (p : FsPath)
  | tag (p : FsPath) (tagging : Bytes)
  | reap (p : FsPath)

def FsRequest.start : FsRequest → FsTask
  | .commit w => .commitLock w
  | .copy src w => .copyStat src w
  | .delete p => .deleteData p
  | .tag p tagging => .tagLock p tagging
  | .reap p => .reapLock p

/-- The operations on the files of one bucket. -/
def fsMachine (o : FsOptions) : Machine FsTree FsTask FsRequest Bool Unit where
  start := FsRequest.start
  move := FsTask.move o
  env s _ := s

end Lights3
