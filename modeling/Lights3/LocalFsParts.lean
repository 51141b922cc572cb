import Lights3.Lib.Interleaving
import Lights3.Multipart

/-!
# The files of an upload

`upload_part`, `complete_multipart` and `abort_multipart` of `storage/localfs/localfs_backend.cc` on
the directory of one upload, one file-system call at a time. A part is a data file and a file with
its digest, replaced one after the other. A file that was opened is read as it was, also if it is
replaced or removed meanwhile. The objects that completions commit are kept with the parts they were
asked for.

What a completion has validated stays true if it finds no part between its data and its digest, and
no part is replaced before it is read.
-/
namespace Lights3
open ByteString Interleaving

/-- The file with the digest of a part. -/
structure PartDigestFile where
  md5 : Bytes
  checksum : PartDigest := ⟨[], []⟩

/-- An object as it was committed. -/
structure CompletedObject where
  parts : List PartInfo
  /-- The bytes of each part. -/
  chunks : List Bytes
  objMeta : ObjectMeta

structure UploadFiles where
  key : Bytes
  /-- The directory is there. -/
  present : Bool := true
  manifest : Option ObjectMeta
  data : SortedMap Int Bytes := .empty
  digests : SortedMap Int PartDigestFile := .empty
  objects : List CompletedObject := []

/-- A file of the directory. -/
inductive UploadFile where
  | manifest
  | data (partNo : Int)
  | digest (partNo : Int)

/-- Whether a call succeeds that may fail for other reasons, and which file `remove_all` comes to
next. -/
structure UploadInput where
  ok : Bool := true
  file : Option UploadFile := none

/-- A part that was validated. -/
structure CheckedPart where
  info : PartInfo
  file : PartDigestFile

/-- A part that was read. -/
structure ReadPart extends CheckedPart where
  bytes : Bytes

inductive UploadTask where
  | partBegin (partNo : Int) (body : Bytes) (checksum : PartDigest)
  | partRename (partNo : Int) (body : Bytes) (checksum : PartDigest)
  | partDigest (partNo : Int) (body : Bytes) (checksum : PartDigest)
  | completeBegin (parts : List PartInfo)
  | completeDigests (m : ObjectMeta) (todo : List PartInfo) (seen : List CheckedPart)
  | completeExists (m : ObjectMeta) (next : CheckedPart) (todo : List PartInfo)
    (seen : List CheckedPart)
  | completeRead (m : ObjectMeta) (todo : List CheckedPart) (got : List ReadPart)
  | completeCommit (m : ObjectMeta) (got : List ReadPart)
  | abortBegin
  /-- `remove_all`. -/
  | removing
  | done

variable (D : Digests)

def partMd5 (body : Bytes) : Bytes := toHex (D.md5 body)

/-- The object of a completion. -/
def completedObject (key : Bytes) (m : ObjectMeta) (got : List ReadPart) : CompletedObject where
  parts := got.map (·.info)
  chunks := got.map (·.bytes)
  objMeta := applyCompositeChecksum D (got.map (·.file.checksum))
    { m with
      key
      size := UInt64.ofNat (got.map (·.bytes.length)).sum
      etag := combinedEtag D (got.map (·.file.md5))
      partSizes := got.map fun p => UInt64.ofNat p.bytes.length }

def UploadFiles.remove (s : UploadFiles) : UploadFile → UploadFiles
  | .manifest => { s with manifest := none }
  | .data n => { s with data := s.data.erase n }
  | .digest n => { s with digests := s.digests.erase n }

/-- The directory goes away if it is empty. -/
def UploadFiles.removeDir (s : UploadFiles) : UploadFiles :=
  if s.manifest.isNone ∧ s.data.entries = [] ∧
    s.digests.entries = [] then { s with present := false } else s

def UploadTask.move (s : UploadFiles) (x : UploadInput) : UploadTask → UploadFiles × UploadTask
  | .partBegin n body checksum =>
      match validatePartNumber n with
      | .error _ => (s, .done)
      | .ok () => (s, if s.manifest.isSome then .partRename n body checksum else .done)
  | .partRename n body checksum =>
      if s.present then ({ s with data := s.data.insert n body }, .partDigest n body checksum)
        else (s, .done)
  | .partDigest n body checksum =>
      if s.present then ({ s with digests := s.digests.insert n ⟨partMd5 D body, checksum⟩ }, .done)
        else (s, .done)
  | .completeBegin parts =>
      match validatePartOrder parts, s.manifest with
      | .ok (), some m => (s, if x.ok then .completeDigests m parts [] else .done)
      | _, _ => (s, .done)
  | .completeDigests m todo seen =>
      match todo with
      | [] => (s, .completeRead m seen [])
      | p :: todo =>
          match s.digests.get? p.partNo with
          | some file => (s, if file.md5 = [] then .done else .completeExists m ⟨p, file⟩ todo seen)
          | none => (s, .done)
  | .completeExists m next todo seen =>
      (s, if (s.data.get? next.info.partNo).isSome ∧
        next.file.md5 = stripEtagQuotes next.info.etag then
        .completeDigests m todo (seen ++ [next])
      else .done)
  | .completeRead m todo got =>
      match todo with
      | [] => (s, .completeCommit m got)
      | p :: todo =>
          match s.data.get? p.info.partNo with
          | some bytes => (s, .completeRead m todo (got ++ [⟨p, bytes⟩]))
          | none => (s, .done)
  | .completeCommit m got =>
      if x.ok then ({ s with objects := s.objects ++ [completedObject D s.key m got] }, .removing)
        else (s, .done)
  | .abortBegin => (s, if s.manifest.isSome then .removing else .done)
  | .removing =>
      match x.file with
      | some f => (s.remove f, .removing)
      | none => (s.removeDir, .done)
  | .done => (s, .done)

inductive UploadRequest where
  | uploadPart (partNo : Int) (body : Bytes) (checksum : PartDigest)
  | completeMultipart (parts : List PartInfo)
  | abortMultipart

def UploadRequest.start : UploadRequest → UploadTask
  | .uploadPart n body checksum => .partBegin n body checksum
  | .completeMultipart parts => .completeBegin parts
  | .abortMultipart => .abortBegin

/-- The operations on one upload. -/
def uploadMachine : Machine UploadFiles UploadTask UploadRequest UploadInput Unit where
  start := UploadRequest.start
  move := UploadTask.move D
  env s _ := s

/-- The directory that `create_multipart` leaves. -/
def newUpload (key : Bytes) (m : ObjectMeta) : UploadFiles := { key, manifest := some m }

/-! ## One move -/

namespace UploadFiles

variable (s : UploadFiles)

@[simp] theorem data_removeDir : s.removeDir.data = s.data := by
  unfold removeDir
  split <;> rfl

@[simp] theorem digests_removeDir : s.removeDir.digests = s.digests := by
  unfold removeDir
  split <;> rfl

@[simp] theorem objects_removeDir : s.removeDir.objects = s.objects := by
  unfold removeDir
  split <;> rfl

@[simp] theorem objects_remove (f : UploadFile) : (s.remove f).objects = s.objects := by
  cases f <;> rfl

@[simp] theorem present_remove (f : UploadFile) : (s.remove f).present = s.present := by
  cases f <;> rfl

end UploadFiles

namespace UploadTask

/-- The part has its new data and still its old digest. -/
def stores (n : Int) : UploadTask → Bool
  | .partDigest m _ _ => n = m
  | _ => false

/-- The part was validated and is still to be read. -/
def awaits (n : Int) : UploadTask → Bool
  | .completeDigests _ _ seen => seen.any (·.info.partNo = n)
  | .completeExists _ next _ seen => next.info.partNo = n || seen.any (·.info.partNo = n)
  | .completeRead _ todo _ => todo.any (·.info.partNo = n)
  | _ => false

/-- If the part is still there, it has the digest that was found. -/
def Found (s : UploadFiles) (p : CheckedPart) : Prop :=
  ∀ bytes ∈ s.data.get? p.info.partNo, p.file.md5 = partMd5 D bytes

/-- The digest that was found is the one that was asked for. -/
def Asked (p : CheckedPart) : Prop := p.file.md5 = stripEtagQuotes p.info.etag

/-- The parts that a running completion was asked for. -/
def parts? : UploadTask → Option (List PartInfo)
  | .completeBegin parts => some parts
  | .completeDigests _ todo seen => some (seen.map (·.info) ++ todo)
  | .completeExists _ next todo seen => some (seen.map (·.info) ++ next.info :: todo)
  | .completeRead _ todo got => some (got.map (·.info) ++ todo.map (·.info))
  | .completeCommit _ got => some (got.map (·.info))
  | _ => none

/-- What a task knows about the parts. -/
def Knows (s : UploadFiles) : UploadTask → Prop
  | .partDigest n body _ => ∀ bytes ∈ s.data.get? n, bytes = body
  | .completeDigests _ _ seen => ∀ p ∈ seen, Found D s p ∧ Asked p
  | .completeExists _ next _ seen => Found D s next ∧ ∀ p ∈ seen, Found D s p ∧ Asked p
  | .completeRead _ todo got =>
      (∀ p ∈ todo, Found D s p ∧ Asked p) ∧ ∀ p ∈ got, Asked p.toCheckedPart ∧
        p.file.md5 = partMd5 D p.bytes
  | .completeCommit _ got => ∀ p ∈ got, Asked p.toCheckedPart ∧ p.file.md5 = partMd5 D p.bytes
  | _ => True

variable {D} {s : UploadFiles} {x : UploadInput} {t : UploadTask}

/-- What a move can do to the files. -/
inductive Touches (D : Digests) (s : UploadFiles) : UploadTask → UploadFiles → Prop where
  | nothing (t : UploadTask) : Touches D s t s
  | data (n : Int) (body : Bytes) (checksum : PartDigest) (present : s.present = true) :
      Touches D s (.partRename n body checksum) { s with data := s.data.insert n body }
  | digest (n : Int) (body : Bytes) (checksum : PartDigest) (present : s.present = true) :
      Touches D s (.partDigest n body checksum)
        { s with digests := s.digests.insert n ⟨partMd5 D body, checksum⟩ }
  | commit (m : ObjectMeta) (got : List ReadPart) :
      Touches D s (.completeCommit m got)
        { s with objects := s.objects ++ [completedObject D s.key m got] }
  | remove (f : UploadFile) : Touches D s .removing (s.remove f)
  | removeDir : Touches D s .removing s.removeDir

theorem touches_move (D : Digests) (s : UploadFiles) (x : UploadInput) (t : UploadTask) :
    Touches D s t (t.move D s x).1 := by
  cases t with
  | partBegin n body checksum =>
      dsimp only [move]
      split <;> exact .nothing _
  | partRename n body checksum =>
      dsimp only [move]
      split
      · next hp => exact .data n body checksum hp
      · exact .nothing _
  | partDigest n body checksum =>
      dsimp only [move]
      split
      · next hp => exact .digest n body checksum hp
      · exact .nothing _
  | completeBegin parts =>
      dsimp only [move]
      split <;> exact .nothing _
  | completeDigests m todo seen =>
      dsimp only [move]
      split
      · exact .nothing _
      · split <;> exact .nothing _
  | completeExists m next todo seen => exact .nothing _
  | completeRead m todo got =>
      dsimp only [move]
      split
      · exact .nothing _
      · split <;> exact .nothing _
  | completeCommit m got =>
      dsimp only [move]
      split
      · exact .commit m got
      · exact .nothing _
  | abortBegin => exact .nothing _
  | removing =>
      dsimp only [move]
      split
      · next f _ => exact .remove f
      · exact .removeDir
  | done => exact .nothing _

variable {s' : UploadFiles}

/-- Part data is replaced by the rename of an upload, and otherwise only removed. -/
theorem Touches.data_cases (h : Touches D s t s') (n : Int) :
    s'.data.get? n = s.data.get? n ∨ s'.data.get? n = none ∨
      ∃ body checksum, t = .partRename n body checksum := by
  cases h with
  | data m body checksum _ =>
      by_cases hn : n = m
      · exact .inr (.inr ⟨body, checksum, by rw [hn]⟩)
      · exact .inl (by simp [hn])
  | remove f =>
      cases f with
      | data m =>
          by_cases hn : n = m
          · exact .inr (.inl (by simp [UploadFiles.remove, hn]))
          · exact .inl (by simp [UploadFiles.remove, hn])
      | _ => exact .inl rfl
  | removeDir => exact .inl (by rw [UploadFiles.data_removeDir])
  | _ => exact .inl rfl

/-- Digests are replaced by uploads, and otherwise only removed. -/
theorem Touches.digests_cases (h : Touches D s t s') (n : Int) :
    s'.digests.get? n = s.digests.get? n ∨ s'.digests.get? n = none ∨
      ∃ body checksum, t = .partDigest n body checksum := by
  cases h with
  | digest m body checksum _ =>
      by_cases hn : n = m
      · exact .inr (.inr ⟨body, checksum, by rw [hn]⟩)
      · exact .inl (by simp [hn])
  | remove f =>
      cases f with
      | digest m =>
          by_cases hn : n = m
          · exact .inr (.inl (by simp [UploadFiles.remove, hn]))
          · exact .inl (by simp [UploadFiles.remove, hn])
      | _ => exact .inl rfl
  | removeDir => exact .inl (by rw [UploadFiles.digests_removeDir])
  | _ => exact .inl rfl

/-- A completion goes on with the parts it was asked for. -/
theorem parts?_move {parts : List PartInfo} (h : (t.move D s x).2.parts? = some parts) :
    t.parts? = some parts := by
  cases t with
  | completeExists m next todo seen =>
      simp only [move] at h
      split at h
      · simpa [parts?] using h
      · cases h
  | _ =>
      simp only [move] at h
      repeat' split at h
      all_goals simp_all [parts?]

theorem Found.frame {p : CheckedPart} (h : Found D s p)
    (hdata : s'.data.get? p.info.partNo = s.data.get? p.info.partNo ∨
      s'.data.get? p.info.partNo = none) :
    Found D s' p := by
  rcases hdata with hsame | hnone
  · simpa only [Found, hsame] using h
  · simp [Found, hnone]

/-- What a task knows stays true if the parts that matter to it are not replaced. -/
theorem Knows.frame (h : t.Knows D s)
    (hdata : ∀ n, t.stores n ∨ t.awaits n → s'.data.get? n = s.data.get? n ∨
      s'.data.get? n = none) :
    t.Knows D s' := by
  have hseen : ∀ seen : List CheckedPart, (∀ p ∈ seen, t.awaits p.info.partNo) →
      (∀ p ∈ seen, Found D s p ∧ Asked p) → ∀ p ∈ seen, Found D s' p ∧ Asked p :=
    fun seen hawaits hknown p hp =>
      ⟨(hknown p hp).1.frame (hdata _ (.inr (hawaits p hp))), (hknown p hp).2⟩
  cases t with
  | partDigest n body checksum =>
      rcases hdata n (.inl (by simp [stores])) with hsame | hnone
      · simpa only [Knows, hsame] using h
      · simp [Knows, hnone]
  | completeDigests m todo seen =>
      exact hseen seen
        (fun p hp => by simp only [awaits, List.any_eq_true]; exact ⟨p, hp, by simp⟩) h
  | completeExists m next todo seen =>
      refine ⟨h.1.frame (hdata _ (.inr (by simp [awaits]))), hseen seen (fun p hp => ?_) h.2⟩
      simp only [awaits, Bool.or_eq_true, List.any_eq_true]
      exact .inr ⟨p, hp, by simp⟩
  | completeRead m todo got =>
      exact ⟨hseen todo
        (fun p hp => by simp only [awaits, List.any_eq_true]; exact ⟨p, hp, by simp⟩) h.1, h.2⟩
  | completeCommit m got => exact h
  | _ => trivial

end UploadTask

/-! ## Every run -/

abbrev UploadConfig := Config UploadFiles UploadTask

abbrev UploadEvent := Event UploadRequest UploadInput Unit

/-- No part is replaced while another upload of it has still to write its digest, or while a
completion that has validated it has still to read it; and a completion reads no digest that an
upload has still to write. -/
def PartsQuiet (s : UploadConfig) : UploadTask → Prop
  | .partRename n _ _ => ∀ u ∈ s.tasks, u.stores n = false ∧ u.awaits n = false
  | .completeDigests _ (p :: _) _ => ∀ u ∈ s.tasks, u.stores p.partNo = false
  | _ => True

/-- The digests and sizes of the object are those of its bytes, and the digests are the ones that
were asked for. -/
def CompletedObject.Describes (o : CompletedObject) : Prop :=
  o.chunks.map (partMd5 D) = o.parts.map (fun p => stripEtagQuotes p.etag) ∧
    o.objMeta.etag = combinedEtag D (o.chunks.map (partMd5 D)) ∧
    o.objMeta.partSizes = o.chunks.map (fun c => UInt64.ofNat c.length) ∧
    o.objMeta.size = UInt64.ofNat o.chunks.flatten.length

/-- The invariant of quiet runs whose requests include the completions of `asked`. -/
structure PartsSound (asked : List PartInfo → Prop) (s : UploadConfig) : Prop where
  gone : s.shared.present = false → s.shared.data.entries = []
  digests : ∀ n, ∀ bytes ∈ s.shared.data.get? n, ∀ file ∈ s.shared.digests.get? n,
    file.md5 = partMd5 D bytes ∨ ∃ u ∈ s.tasks, u.stores n
  knows : ∀ t ∈ s.tasks, t.Knows D s.shared
  asks : ∀ t ∈ s.tasks, ∀ parts, t.parts? = some parts → asked parts
  objects : ∀ o ∈ s.shared.objects, asked o.parts ∧ o.Describes D

variable {D}

theorem completedObject_describes {key : Bytes} {m : ObjectMeta} {got : List ReadPart}
    (h : ∀ p ∈ got, UploadTask.Asked p.toCheckedPart ∧ p.file.md5 = partMd5 D p.bytes) :
    (completedObject D key m got).Describes D := by
  obtain ⟨hsize, hsizes, hetag, -, -⟩ := applyCompositeChecksum_fields D (got.map (·.file.checksum))
    { m with
      key
      size := UInt64.ofNat (got.map (·.bytes.length)).sum
      etag := combinedEtag D (got.map (·.file.md5))
      partSizes := got.map fun p => UInt64.ofNat p.bytes.length }
  have hmd5 : got.map (·.file.md5) = got.map fun p => partMd5 D p.bytes :=
    List.map_congr_left fun p hp => (h p hp).2
  refine ⟨?_, ?_, ?_, ?_⟩
  · simp only [completedObject, List.map_map]
    exact List.map_congr_left fun p hp => (h p hp).2.symm.trans (h p hp).1
  · rw [completedObject, hetag, hmd5, List.map_map]
    rfl
  · simp only [completedObject, hsizes, List.map_map]
    rfl
  · simp only [completedObject, hsize, List.length_flatten, List.map_map]
    rfl

namespace PartsSound

variable {asked : List PartInfo → Prop} {s : UploadConfig} {i : Nat} {x : UploadInput}
  {t : UploadTask}

theorem gone_move (h : PartsSound D asked s) (hgone : (t.move D s.shared x).1.present = false) :
    (t.move D s.shared x).1.data.entries = [] := by
  generalize hfiles : (t.move D s.shared x).1 = files at hgone ⊢
  have htouch := UploadTask.touches_move D s.shared x t
  rw [hfiles] at htouch
  cases htouch with
  | data n body checksum hp => exact absurd (hp.symm.trans hgone) (by decide)
  | removeDir =>
      rw [UploadFiles.data_removeDir]
      unfold UploadFiles.removeDir at hgone
      split at hgone
      · next hempty => exact hempty.2.1
      · exact h.gone hgone
  | remove f =>
      have hnone := h.gone ((s.shared.present_remove f).symm.trans hgone)
      cases f <;> simp [UploadFiles.remove, SortedMap.erase, SortedMap.keep, hnone]
  | _ => exact h.gone hgone

theorem digests_move (h : PartsSound D asked s) (ht : s.tasks[i]? = some t) (n : Int) :
    ∀ bytes ∈ (t.move D s.shared x).1.data.get? n, ∀ file ∈ (t.move D s.shared x).1.digests.get? n,
      file.md5 = partMd5 D bytes ∨ ∃ u ∈ s.tasks.set i (t.move D s.shared x).2, u.stores n := by
  intro bytes hbytes file hfile
  obtain ⟨hlt, -⟩ := List.getElem?_eq_some_iff.mp ht
  have hmem := List.mem_of_getElem? ht
  by_cases hstores : t.stores n
  · -- The upload writes its digest, and the data is still its own.
    cases t with
    | partDigest m body checksum =>
        obtain rfl : n = m := by simpa [UploadTask.stores] using hstores
        simp only [UploadTask.move] at hbytes hfile
        split at hfile
        next hp =>
          simp only [hp, if_true] at hbytes
          obtain rfl : _ = file := by simpa using hfile
          exact .inl (by rw [h.knows _ hmem bytes hbytes])
        next hp =>
          have hnone := h.gone (by simpa using hp)
          simp [hp, SortedMap.get?, hnone, SortedMap.find] at hbytes
    | _ => simp [UploadTask.stores] at hstores
  · rcases (UploadTask.touches_move D s.shared x t).data_cases n
      with hsame | hnone | ⟨body, checksum, rfl⟩
    · rcases (UploadTask.touches_move D s.shared x t).digests_cases n with
        hsame' | hnone' | ⟨body, checksum, rfl⟩
      · rw [hsame] at hbytes
        rw [hsame'] at hfile
        refine (h.digests n bytes hbytes file hfile).imp_right ?_
        rintro ⟨u, hu, hun⟩
        obtain ⟨j, hj⟩ := List.mem_iff_getElem?.mp hu
        refine ⟨u, List.mem_iff_getElem?.mpr ⟨j, ?_⟩, hun⟩
        rw [List.getElem?_set_ne, hj]
        rintro rfl
        rw [ht, Option.some.injEq] at hj
        exact hstores (hj ▸ hun)
      · simp [hnone'] at hfile
      · simp [UploadTask.stores] at hstores
    · simp [hnone] at hbytes
    · -- The new data waits for its digest.
      simp only [UploadTask.move] at hbytes ⊢
      by_cases hp : s.shared.present
      · exact .inr ⟨_, List.mem_set hlt _, by simp [hp, UploadTask.stores]⟩
      · have hnone := h.gone (by simpa using hp)
        simp [hp, SortedMap.get?, hnone, SortedMap.find] at hbytes

theorem knows_next (h : PartsSound D asked s) (ht : s.tasks[i]? = some t)
    (hquiet : PartsQuiet s t) : (t.move D s.shared x).2.Knows D (t.move D s.shared x).1 := by
  have hmem := List.mem_of_getElem? ht
  have hknows := h.knows t hmem
  cases t with
  | partRename n body checksum =>
      simp only [UploadTask.move]
      split
      · simp [UploadTask.Knows]
      · trivial
  | completeBegin parts =>
      simp only [UploadTask.move]
      repeat' split
      all_goals simp [UploadTask.Knows]
  | completeDigests m todo seen =>
      cases todo with
      | nil => exact ⟨hknows, by simp⟩
      | cons p todo =>
          simp only [UploadTask.move]
          split
          next file hfile =>
            split
            · trivial
            · refine ⟨fun bytes hbytes => ?_, hknows⟩
              rcases h.digests p.partNo bytes hbytes file hfile with heq | ⟨u, hu, hun⟩
              · exact heq
              · simp [hquiet u hu] at hun
          · trivial
  | completeExists m next todo seen =>
      simp only [UploadTask.move]
      split
      next hcheck =>
        intro p hp
        rcases List.mem_append.mp hp with hold | hnew
        · exact hknows.2 p hold
        · obtain rfl := List.mem_singleton.mp hnew
          exact ⟨hknows.1, hcheck.2⟩
      · trivial
  | completeRead m todo got =>
      cases todo with
      | nil => exact hknows.2
      | cons p todo =>
          simp only [UploadTask.move]
          split
          next bytes hbytes =>
            obtain ⟨hfound, hasked⟩ := hknows.1 p List.mem_cons_self
            refine ⟨fun q hq => hknows.1 q (List.mem_cons_of_mem _ hq), fun q hq => ?_⟩
            rcases List.mem_append.mp hq with hold | hnew
            · exact hknows.2 q hold
            · obtain rfl := List.mem_singleton.mp hnew
              exact ⟨hasked, hfound bytes hbytes⟩
          · trivial
  | _ =>
      simp only [UploadTask.move]
      repeat' split
      all_goals trivial

theorem knows_move (h : PartsSound D asked s) (ht : s.tasks[i]? = some t)
    (hquiet : PartsQuiet s t) :
    ∀ u ∈ s.tasks.set i (t.move D s.shared x).2, u.Knows D (t.move D s.shared x).1 := by
  intro u hu
  rcases List.mem_or_eq_of_mem_set hu with hold | rfl
  · refine (h.knows u hold).frame fun n hn => ?_
    rcases (UploadTask.touches_move D s.shared x t).data_cases n
      with hsame | hnone | ⟨body, checksum, rfl⟩
    · exact .inl hsame
    · exact .inr hnone
    · simp [hquiet u hold] at hn
  · exact h.knows_next ht hquiet

theorem objects_move (h : PartsSound D asked s) (ht : s.tasks[i]? = some t) :
    ∀ o ∈ (t.move D s.shared x).1.objects, asked o.parts ∧ o.Describes D := by
  generalize hfiles : (t.move D s.shared x).1 = files
  have htouch := UploadTask.touches_move D s.shared x t
  rw [hfiles] at htouch
  cases htouch with
  | commit m got =>
      intro o ho
      rcases List.mem_append.mp ho with hold | hnew
      · exact h.objects o hold
      · obtain rfl := List.mem_singleton.mp hnew
        have hmem := List.mem_of_getElem? ht
        exact ⟨h.asks _ hmem _ rfl, completedObject_describes (h.knows _ hmem)⟩
  | removeDir => simpa using h.objects
  | remove f => simpa using h.objects
  | _ => exact h.objects

theorem step (h : PartsSound D asked s) {e : UploadEvent} (he : OnMoves PartsQuiet s e)
    (hasked : ∀ parts, e = .spawn (.completeMultipart parts) → asked parts) :
    PartsSound D asked ((uploadMachine D).step s e) := by
  refine Machine.step_cases e h (fun r hr => ?_) (fun i x t hadv ht => ?_) (fun _ _ => h)
  · refine ⟨h.gone, fun n bytes hbytes file hfile => ?_, fun t ht => ?_, fun t ht parts hp => ?_,
      h.objects⟩
    · exact (h.digests n bytes hbytes file hfile).imp_right fun ⟨u, hu, hun⟩ =>
        ⟨u, List.mem_append_left _ hu, hun⟩
    · rcases List.mem_append.mp ht with hold | hnew
      · exact h.knows t hold
      · obtain rfl := List.mem_singleton.mp hnew
        cases r <;> trivial
    · rcases List.mem_append.mp ht with hold | hnew
      · exact h.asks t hold parts hp
      · obtain rfl := List.mem_singleton.mp hnew
        cases r with
        | completeMultipart parts => exact Option.some.inj hp ▸ hasked parts hr
        | _ => cases hp
  · subst hadv
    have hquiet : PartsQuiet s t := he t ht
    refine ⟨h.gone_move, h.digests_move ht, h.knows_move ht hquiet, fun u hu parts hp => ?_,
      h.objects_move ht⟩
    rcases List.mem_or_eq_of_mem_set hu with hold | rfl
    · exact h.asks u hold parts hp
    · exact h.asks t (List.mem_of_getElem? ht) parts (UploadTask.parts?_move hp)

end PartsSound

/-- Every object that a completion commits belongs to a requested completion and has the parts that
were listed there. -/
theorem completion_publishes_listed (D : Digests) (key : Bytes) (m : ObjectMeta)
    (es : List UploadEvent)
    (h : Along (uploadMachine D).step (OnMoves PartsQuiet) ⟨newUpload key m, []⟩ es) :
    ∀ o ∈ ((uploadMachine D).run ⟨newUpload key m, []⟩ es).shared.objects,
      .spawn (.completeMultipart o.parts) ∈ es ∧ o.Describes D := by
  have hstart : PartsSound D (fun parts => .spawn (.completeMultipart parts) ∈ es)
      ⟨newUpload key m, []⟩ :=
    ⟨fun _ => rfl, fun n bytes hbytes => by simp [newUpload] at hbytes, by simp, by simp,
      by simp [newUpload]⟩
  have hrun := h.and (Along.of_mem (R := fun _ e => e ∈ es) (fun e he _ => he) _)
  exact (hrun.invariant hstart fun _ _ hs hr => hr.step hs.1 fun parts he => he ▸ hs.2).objects

instance (s : UploadConfig) (t : UploadTask) : Decidable (PartsQuiet s t) :=
  match t with
  | .partRename n _ _ =>
      inferInstanceAs (Decidable (∀ u ∈ s.tasks, u.stores n = false ∧ u.awaits n = false))
  | .completeDigests _ (p :: _) _ =>
      inferInstanceAs (Decidable (∀ u ∈ s.tasks, u.stores p.partNo = false))
  | .completeDigests _ [] _ | .partBegin .. | .partDigest .. | .completeBegin _ |
    .completeExists .. | .completeRead ..
  | .completeCommit .. | .abortBegin | .removing | .done => inferInstanceAs (Decidable True)

/-- Digests that tell short bodies apart. -/
def paddedDigests : Digests where
  md5 s := (s ++ List.replicate 16 0).take 16
  sha1 _ := List.replicate 20 0
  sha256 _ := List.replicate 32 0
  md5_length _ := by simp
  sha1_length _ := by simp
  sha256_length _ := by simp

def noChecksum : PartDigest := ⟨[], []⟩

/-- The part number 1 with the digest of `body`. -/
def partOne (body : Bytes) : PartInfo := { partNo := 1, etag := partMd5 paddedDigests body }

/-- Another part is uploaded while the first one is completed. -/
theorem completion_publishes_listed_one :
    let es : List UploadEvent :=
      .spawn (.uploadPart 1 [1] noChecksum) :: List.replicate 3 (.advance 0 {}) ++
      [.spawn (.completeMultipart [partOne [1]]), .spawn (.uploadPart 2 [2] noChecksum)] ++
      List.replicate 4 (.advance 1 {}) ++ List.replicate 3 (.advance 2 {}) ++
      List.replicate 3 (.advance 1 {})
    ∃ o ∈ ((uploadMachine paddedDigests).run ⟨newUpload [] {}, []⟩ es).shared.objects,
      .spawn (.completeMultipart o.parts) ∈ es ∧ o.Describes paddedDigests ∧ o.chunks = [[1]] := by
  intro es
  have h := completion_publishes_listed paddedDigests [] {} es (by decide)
  obtain ⟨o, ho, hchunks⟩ : ∃ o ∈ ((uploadMachine paddedDigests).run
      ⟨newUpload [] {}, []⟩ es).shared.objects, o.chunks = [[1]] := by decide
  exact ⟨o, ho, (h o ho).1, (h o ho).2, hchunks⟩

/-- The part is uploaded again between the validation and the reading of a completion. -/
def reuploadUnderCompletion : List UploadEvent :=
  .spawn (.uploadPart 1 [1] noChecksum) :: List.replicate 3 (.advance 0 {}) ++
    [.spawn (.completeMultipart [partOne [1]]), .spawn (.uploadPart 1 [2] noChecksum)] ++
    List.replicate 4 (.advance 1 {}) ++ List.replicate 2 (.advance 2 {}) ++
    List.replicate 3 (.advance 1 {})

/-- Two uploads of the part write their digests in the opposite order; the completion comes
afterwards. -/
def crossedUploads : List UploadEvent :=
  [.spawn (.uploadPart 1 [1] noChecksum), .spawn (.uploadPart 1 [2] noChecksum),
    .advance 0 {}, .advance 0 {},
    .advance 1 {}, .advance 1 {}, .advance 1 {}, .advance 0 {},
    .spawn (.completeMultipart [partOne [1]])] ++ List.replicate 7 (.advance 2 {})

theorem completion_publishes_other_bytes :
    let objects es := ((uploadMachine paddedDigests).run ⟨newUpload [] {}, []⟩ es).shared.objects
    partMd5 paddedDigests [1] ≠ partMd5 paddedDigests [2] ∧
      (objects reuploadUnderCompletion).map (fun o => (o.parts, o.chunks)) =
        [([partOne [1]], [[2]])] ∧
      (objects crossedUploads).map (fun o => (o.parts, o.chunks)) = [([partOne [1]], [[2]])] := by
  decide

end Lights3
