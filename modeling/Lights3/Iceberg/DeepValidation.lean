import Lights3.Iceberg.TableMetadata
import Lights3.TableCatalog

/-!
# The deep check of new snapshots

`check_new_snapshots_deep` reads the manifest lists and manifests of new snapshots, looks up
their files, and compares what a snapshot adds and deletes with the live files of its parent. The
live files of a parent are kept for later snapshots. The bucket does not change meanwhile, so
concurrent reads are reads one after the other. The Avro reader is an argument; it can fail or
meet a codec that it does not have.
-/
namespace Lights3.Iceberg
open ByteString

/-! ## Manifests -/

structure ManifestFile where
  path : Bytes
  length : Int := 0
  content : Int := 0
  sequenceNumber : Int := 0
  addedSnapshotId : Int := 0

/-- An entry of a manifest. The status is 0 for existing, 1 for added and 2 for deleted files. -/
structure DataFile where
  status : Int
  path : Bytes
  content : Int := 0
  sizeBytes : Int := 0
  snapshotId : Option Int := none

/-- One manifest entry with the manifest it came from. -/
structure Entry where
  file : DataFile
  manifestAddedSnapshot : Int := 0
  manifestContent : Int := 0

/-- What the Avro reader makes of a file. -/
inductive Parsed (α : Type) where
  | ok (records : α)
  | unsupportedCodec
  | malformed (e : RestError)

/-- `DeepCheckOptions`, without the number of concurrent reads. -/
structure DeepCheckOptions where
  maxAvro : Nat := 128 * 2 ^ 20
  maxManifests : Nat := 10000
  maxFiles : Nat := 1000000
  allowUnsupportedCodec : Bool := true

/-- The bucket with its objects, the options, and the reader. -/
structure CheckContext where
  bucket : TableBucket
  objects : SortedMap Bytes Bytes
  opt : DeepCheckOptions := {}
  parseManifestList : Bytes → Nat → Parsed (List ManifestFile)
  parseManifest : Bytes → Nat → Int → Parsed (List DataFile)
  /-- The member `statistics-path` of a statistics entry. -/
  statisticsPath : StatisticsFile → Option Bytes

namespace CheckContext

variable (ctx : CheckContext)

/-- `read_all`. -/
def readAll (path key what : Bytes) : Except RestError Bytes :=
  match ctx.objects.get? key with
  | none => .error (commitFailed (what ++ ascii " '" ++ path ++ ascii "' does not exist"))
  | some bytes => do
      require (bytes.length ≤ ctx.opt.maxAvro)
        (commitFailed (what ++ ascii " '" ++ path ++ ascii "' exceeds the size limit"))
      return bytes

/-- `read_manifest`; nothing for a codec that the reader lacks. -/
def readManifest (m : ManifestFile) : Except RestError (Option (List Entry)) := do
  let key ← checkedKey ctx.bucket m.path
  let bytes ← ctx.readAll m.path key (ascii "manifest")
  require (m.length ≤ 0 || bytes.length = m.length) (commitFailed (ascii "manifest '" ++ m.path ++
    ascii "' is " ++ showInt bytes.length ++ ascii " bytes but the manifest list records " ++
    showInt m.length))
  match ctx.parseManifest bytes ctx.opt.maxFiles m.sequenceNumber with
  | .ok files => return some (files.map (fun f => ⟨f, m.addedSnapshotId, m.content⟩))
  | .unsupportedCodec => return none
  | .malformed e => throw e

/-- `read_manifest_list`. -/
def readManifestList (path : Bytes) : Except RestError (Option (List ManifestFile)) := do
  let key ← checkedKey ctx.bucket path
  let bytes ← ctx.readAll path key (ascii "manifest list")
  match ctx.parseManifestList bytes ctx.opt.maxManifests with
  | .ok manifests => return some manifests
  | .unsupportedCodec => return none
  | .malformed e => throw e

/-- The manifests that a snapshot names, by its list or inline. -/
def namedManifests (s : Snapshot) : Except RestError (Option (List ManifestFile)) :=
  match s.manifestList with
  | some path => ctx.readManifestList path
  | none => .ok (some ((s.manifests.getD []).map
      (fun path => { path, addedSnapshotId := s.snapshotId })))

/-- `manifests_of`. -/
def manifestsOf (s : Snapshot) : Except RestError (Option (List ManifestFile)) := do
  let manifests ← ctx.namedManifests s
  require (manifests.all (fun ms => ms.length ≤ ctx.opt.maxManifests))
    (commitFailed (ascii "snapshot references more than " ++ showInt ctx.opt.maxManifests ++
      ascii " manifests"))
  return manifests

/-- The entries of the manifests that were read, and the number of files counted on. -/
def countEntries : Nat → List (Option (List Entry)) → Except RestError (Option (List Entry) × Nat)
  | total, [] => .ok (some [], total)
  | total, none :: _ => .ok (none, total)
  | total, some es :: reads => do
      let total := total + es.countP (fun e => e.file.status ≠ 2)
      require (total ≤ ctx.opt.maxFiles) (commitFailed (ascii "snapshot references more than " ++
        showInt ctx.opt.maxFiles ++ ascii " files"))
      let (rest, total) ← countEntries total reads
      return (rest.map (es ++ ·), total)

/-- `entries_of`. -/
def entriesOf (manifests : List ManifestFile) (total : Nat) :
    Except RestError (Option (List Entry) × Nat) := do
  ctx.countEntries total (← manifests.mapM ctx.readManifest)

/-! ## The checks -/

/-- `check_data_file`. -/
def checkDataFile (f : DataFile) : Except RestError Unit := do
  let key ← checkedKey ctx.bucket f.path
  match ctx.objects.get? key with
  | none => throw (commitFailed (ascii "data file '" ++ f.path ++ ascii "' does not exist"))
  | some bytes =>
      require (f.sizeBytes ≤ 0 || bytes.length = f.sizeBytes) (commitFailed
        (ascii "data file size mismatch: '" ++ f.path ++ ascii "' is " ++ showInt bytes.length ++
          ascii " bytes but the manifest records " ++ showInt f.sizeBytes))

/-- `check_magic`. -/
def checkMagic (path magic what : Bytes) : Except RestError Unit := do
  let key ← checkedKey ctx.bucket path
  match ctx.objects.get? key with
  | none => throw (commitFailed (what ++ ascii " '" ++ path ++ ascii "' does not exist"))
  | some bytes =>
      require (bytes.take 4 = magic) (commitFailed (what ++ ascii " '" ++ path ++
        ascii "' is not a " ++ magic ++ ascii " file"))

end CheckContext

/-- `attributed_to`. -/
def Entry.attributedTo (e : Entry) (snapshotId : Int) : Bool :=
  (e.file.snapshotId.getD e.manifestAddedSnapshot) = snapshotId

/-- The snapshot that the entry counts for; an entry without one inherits that of its manifest. -/
def Entry.Counts (e : Entry) (sid : Int) : Prop :=
  e.file.snapshotId = some sid ∨ e.file.snapshotId = none ∧ e.manifestAddedSnapshot = sid

/-- An entry of an append. -/
def checkAppend (sid : Int) (e : Entry) : Except RestError Unit :=
  if e.attributedTo sid then do
    require (e.file.status ≠ 2) (commitFailed (ascii "snapshot " ++ showInt sid ++
      ascii " is an append but deletes '" ++ e.file.path ++ ascii "'"))
    require (e.file.content = 0 && e.manifestContent = 0) (commitFailed (ascii "snapshot " ++
      showInt sid ++ ascii " is an append but adds delete file '" ++ e.file.path ++ ascii "'"))
  else .ok ()

/-- An entry against the live files of the parent. -/
def checkAgainst (live : List Bytes) (sid : Int) (e : Entry) : Except RestError Unit :=
  if e.attributedTo sid then do
    require (!(e.file.status = 1 && e.file.path ∈ live)) (commitFailed (ascii "snapshot " ++
      showInt sid ++ ascii " re-adds live file '" ++ e.file.path ++ ascii "'"))
    require (!(e.file.status = 2 && e.file.path ∉ live)) (commitFailed (ascii "snapshot " ++
      showInt sid ++ ascii " deletes non-live file '" ++ e.file.path ++ ascii "'"))
  else .ok ()

/-- The report and what is kept between snapshots. -/
structure DeepState where
  manifests : Nat := 0
  files : Nat := 0
  skippedCodec : Bool := false
  totalFiles : Nat := 0
  liveCache : SortedMap Int (Option (List Bytes)) := .empty
  deriving DecidableEq

namespace CheckContext

variable (ctx : CheckContext) (next : TableMetadata)

/-- The live files of a parent, and whether they could not be read. -/
def parentLive (parent : Int) : Except RestError (Option (List Bytes) × Bool) :=
  match next.findSnapshot parent with
  | none => .ok (none, false)
  | some p => do
      let some manifests ← ctx.manifestsOf p | return (none, true)
      let (some entries, _) ← ctx.entriesOf manifests 0 | return (none, true)
      return (some ((entries.filter (fun e => e.file.status ≠ 2)).map (·.file.path)), false)

/-- The live files of a parent from the memo, or into it. -/
def cachedLive (st : DeepState) (parent : Int) :
    Except RestError (Option (List Bytes) × DeepState) :=
  match st.liveCache.get? parent with
  | some live => .ok (live, st)
  | none => do
      let (live, skipped) ← ctx.parentLive next parent
      return (live, { st with
        skippedCodec := st.skippedCodec || skipped, liveCache := st.liveCache.insert parent live })

/-- A snapshot with a codec that the reader lacks. -/
def skipSnapshot (st : DeepState) (sid : Int) : Except RestError DeepState := do
  require ctx.opt.allowUnsupportedCodec (commitFailed (ascii "snapshot " ++ showInt sid ++
    ascii " uses an Avro codec this build cannot read"))
  return { st with skippedCodec := true }

/-- The comparison with the parent. -/
def checkParent (st : DeepState) (s : Snapshot) (entries : List Entry) :
    Except RestError DeepState :=
  match s.parentSnapshotId with
  | none => .ok st
  | some parent => do
      let (live, st) ← ctx.cachedLive next st parent
      (live.toList).forM (fun live => entries.forM (checkAgainst live s.snapshotId))
      return st

/-- The entries of a snapshot. -/
def checkEntries (st : DeepState) (s : Snapshot) (entries : List Entry) :
    Except RestError DeepState := do
  let heads := entries.filter (fun e => e.file.status ≠ 2)
  heads.forM (fun e => ctx.checkDataFile e.file)
  (if s.operation = some (ascii "append") then entries else []).forM (checkAppend s.snapshotId)
  ctx.checkParent next { st with files := st.files + heads.length } s entries

/-- One snapshot of the loop. -/
def checkSnapshot (known : List Int) (st : DeepState) (s : Snapshot) : Except RestError DeepState :=
  if s.snapshotId ∈ known then .ok st
  else do
    match ← ctx.manifestsOf s with
    | none => ctx.skipSnapshot st s.snapshotId
    | some manifests =>
        let st := { st with manifests := st.manifests + manifests.length }
        let (entries, totalFiles) ← ctx.entriesOf manifests st.totalFiles
        let st := { st with totalFiles }
        match entries with
        | none => ctx.skipSnapshot st s.snapshotId
        | some entries => ctx.checkEntries next st s entries

/-- The statistics files of one list that belong to new snapshots. -/
def checkStatistics (fresh : List Int) (files : List StatisticsFile) (magic what : Bytes) :
    Except RestError Unit :=
  (files.filter (fun f => f.snapshotId ∈ fresh)).forM (fun f =>
    (ctx.statisticsPath f).toList.forM (fun path => ctx.checkMagic path magic what))

/-- `check_new_snapshots_deep`. -/
def checkNewSnapshotsDeep (current : TableMetadata) : Except RestError DeepState := do
  let st ← next.snapshots.foldlM (ctx.checkSnapshot next current.snapshotIds) {}
  let fresh := next.snapshotIds.filter (fun id => id ∉ current.snapshotIds)
  ctx.checkStatistics fresh next.statistics (ascii "PFA1") (ascii "statistics file")
  ctx.checkStatistics fresh next.partitionStatistics (ascii "PAR1")
    (ascii "partition statistics file")
  return st

/-! ## What a snapshot has -/

/-- The path names an object of the bucket outside the reserved prefix. -/
def Stored (path : Bytes) (bytes : Bytes) : Prop :=
  ∃ key, pathToKey ctx.bucket.bucket path = .ok key ∧ ¬ ctx.bucket.reserved <+: key ∧
    ctx.objects.get? key = some bytes

/-- A manifest that a snapshot names: in the bytes of its manifest list, or itself. -/
inductive HasManifest (s : Snapshot) : ManifestFile → Prop where
  | listed {path bytes : Bytes} {manifests : List ManifestFile} {m : ManifestFile}
      (list : s.manifestList = some path) (stored : ctx.Stored path bytes)
      (parsed : ctx.parseManifestList bytes ctx.opt.maxManifests = .ok manifests)
      (mem : m ∈ manifests) : HasManifest s m
  | inline {paths : List Bytes} {path : Bytes} (list : s.manifestList = none)
      (manifests : s.manifests = some paths) (mem : path ∈ paths) :
      HasManifest s { path, addedSnapshotId := s.snapshotId }

/-- The bytes of a manifest can be read, and these are its files. -/
def HoldsFiles (m : ManifestFile) (files : List DataFile) : Prop :=
  ∃ bytes, ctx.Stored m.path bytes ∧
    ctx.parseManifest bytes ctx.opt.maxFiles m.sequenceNumber = .ok files

/-- An entry of a manifest of the snapshot. -/
def HasEntry (s : Snapshot) (e : Entry) : Prop :=
  ∃ m files, ctx.HasManifest s m ∧ ctx.HoldsFiles m files ∧ ∃ f ∈ files,
    e = ⟨f, m.addedSnapshotId, m.content⟩

/-- A file that a snapshot holds. -/
def LiveIn (s : Snapshot) (path : Bytes) : Prop :=
  ∃ e, ctx.HasEntry s e ∧ e.file.status ≠ 2 ∧ e.file.path = path

/-- The first snapshot of the metadata with this id. -/
def Named (id : Int) (p : Snapshot) : Prop :=
  ∃ front rest, next.snapshots = front ++ p :: rest ∧ p.snapshotId = id ∧
    ∀ q ∈ front, q.snapshotId ≠ id

/-- What the deep check is to guarantee for a new snapshot. -/
structure SoundSnapshot (s : Snapshot) : Prop where
  list : ∀ path ∈ s.manifestList, ∃ bytes manifests, ctx.Stored path bytes ∧
    ctx.parseManifestList bytes ctx.opt.maxManifests = .ok manifests
  manifests : ∀ m, ctx.HasManifest s m → ∃ files, ctx.HoldsFiles m files
  files : ∀ e, ctx.HasEntry s e → e.file.status ≠ 2 → ∃ bytes, ctx.Stored e.file.path bytes ∧
    (0 < e.file.sizeBytes → (bytes.length : Int) = e.file.sizeBytes)
  append : s.operation = some (ascii "append") → ∀ e, ctx.HasEntry s e → e.Counts s.snapshotId →
    e.file.status ≠ 2 ∧ e.file.content = 0 ∧ e.manifestContent = 0
  parent : ∀ id ∈ s.parentSnapshotId, ∀ p, Named next id p → ∀ e,
    ctx.HasEntry s e → e.Counts s.snapshotId →
      (e.file.status = 1 → ¬ ctx.LiveIn p e.file.path) ∧
      (e.file.status = 2 → ctx.LiveIn p e.file.path)

/-! ## What the readers return -/

section Readers

variable {ctx : CheckContext} {s : Snapshot} {manifests : List ManifestFile}

/-- A checked path with an object behind its key. -/
theorem stored_of_checkedKey {path key bytes : Bytes} (hkey : checkedKey ctx.bucket path = .ok key)
    (hget : ctx.objects.get? key = some bytes) : ctx.Stored path bytes :=
  have ⟨hpath, hreserved⟩ := checkedKey_ok hkey
  ⟨key, hpath, hreserved, hget⟩

theorem get?_of_readAll {path key what bytes : Bytes}
    (h : ctx.readAll path key what = .ok bytes) : ctx.objects.get? key = some bytes := by
  unfold readAll at h
  split at h
  · cases h
  · next found hget =>
      obtain ⟨_, _, h⟩ := of_bind_ok h
      cases h
      exact hget

theorem Stored.unique {path bytes bytes' : Bytes} (h : ctx.Stored path bytes)
    (h' : ctx.Stored path bytes') : bytes = bytes' := by
  obtain ⟨key, hkey, -, hget⟩ := h
  obtain ⟨key', hkey', -, hget'⟩ := h'
  cases hkey.symm.trans hkey'
  exact Option.some.inj (hget.symm.trans hget')

variable {entries : List Entry}

/-- A manifest that was read gives the entries of its files. -/
theorem readManifest_ok {m : ManifestFile} (h : ctx.readManifest m = .ok (some entries)) :
    ∃ files, ctx.HoldsFiles m files ∧
      entries = files.map (fun f => ⟨f, m.addedSnapshotId, m.content⟩) := by
  obtain ⟨key, hkey, h⟩ := of_bind_ok h
  obtain ⟨bytes, hread, h⟩ := of_bind_ok h
  obtain ⟨_, -, h⟩ := of_bind_ok h
  have hstored := stored_of_checkedKey hkey (get?_of_readAll hread)
  split at h
  · next files hparse =>
      cases h
      exact ⟨files, ⟨bytes, hstored, hparse⟩, rfl⟩
  · cases h
  · cases h

/-- The manifests that the check works with are those that the snapshot names. -/
theorem manifestsOf_ok (h : ctx.manifestsOf s = .ok (some manifests)) :
    (∀ m, ctx.HasManifest s m ↔ m ∈ manifests) ∧
      ∀ path ∈ s.manifestList, ∃ bytes ms, ctx.Stored path bytes ∧
        ctx.parseManifestList bytes ctx.opt.maxManifests = .ok ms := by
  obtain ⟨r, hnamed, h⟩ := of_bind_ok h
  obtain ⟨_, -, h⟩ := of_bind_ok h
  cases h
  unfold namedManifests at hnamed
  split at hnamed
  · next path hlist =>
      obtain ⟨key, hkey, h⟩ := of_bind_ok hnamed
      obtain ⟨bytes, hread, h⟩ := of_bind_ok h
      have hstored := stored_of_checkedKey hkey (get?_of_readAll hread)
      split at h
      · next ms hparse =>
          cases h
          refine ⟨fun m => ⟨fun hm => ?_, .listed hlist hstored hparse⟩, fun p hp => ?_⟩
          · cases hm with
            | listed hlist' hstored' hparse' hmem =>
                cases hlist.symm.trans hlist'
                cases hstored.unique hstored'
                cases hparse.symm.trans hparse'
                exact hmem
            | inline hnone => cases hlist.symm.trans hnone
          · cases hlist.symm.trans hp
            exact ⟨bytes, manifests, hstored, hparse⟩
      · cases h
      · cases h
  · next hlist =>
      cases hnamed
      refine ⟨fun m => ⟨fun hm => ?_, fun hm => ?_⟩, fun path hpath => by simp [hlist] at hpath⟩
      · cases hm with
        | listed hlist' => cases hlist.symm.trans hlist'
        | inline _ hmanifests hmem =>
            rw [hmanifests]
            exact List.mem_map_of_mem hmem
      · obtain ⟨path, hmem, rfl⟩ := List.mem_map.mp hm
        cases hmanifests : s.manifests with
        | none => simp [hmanifests] at hmem
        | some paths => exact .inline hlist hmanifests (by simpa [hmanifests] using hmem)

/-- A complete count has the entries of every read. -/
theorem countEntries_ok {total total' : Nat} {reads : List (Option (List Entry))}
    (h : ctx.countEntries total reads = .ok (some entries, total')) :
    ∃ parts : List (List Entry), reads = parts.map some ∧ entries = parts.flatten := by
  induction reads generalizing total entries with
  | nil =>
      cases h
      exact ⟨[], rfl, rfl⟩
  | cons read reads ih =>
      cases read with
      | none => cases h
      | some es =>
          obtain ⟨_, _, h⟩ := of_bind_ok h
          obtain ⟨⟨rest, total''⟩, hrest, h⟩ := of_bind_ok h
          cases rest with
          | none => cases h
          | some rest =>
              cases h
              obtain ⟨parts, rfl, rfl⟩ := ih hrest
              exact ⟨es :: parts, rfl, rfl⟩

/-- Complete entries are those of the manifests, all of which were read. -/
theorem entriesOf_ok {total total' : Nat}
    (h : ctx.entriesOf manifests total = .ok (some entries, total')) :
    (∀ m ∈ manifests, ∃ es, ctx.readManifest m = .ok (some es)) ∧
    ∀ e, e ∈ entries ↔ ∃ m ∈ manifests, ∃ es, ctx.readManifest m = .ok (some es) ∧ e ∈ es := by
  rw [entriesOf, bind_eq_ok] at h
  obtain ⟨reads, hreads, h⟩ := h
  obtain ⟨parts, rfl, rfl⟩ := countEntries_ok h
  rw [mapM_eq_ok, List.forall₂_map_right_iff] at hreads
  clear h
  induction hreads with
  | nil => simp
  | cons hm _ ih =>
      obtain ⟨ihRead, ihMem⟩ := ih
      refine ⟨List.forall_mem_cons.mpr ⟨⟨_, hm⟩, ihRead⟩, fun e => ?_⟩
      rw [List.flatten_cons, List.mem_append, ihMem, List.exists_mem_cons_iff, hm]
      simp

/-- The entries that the check works with are the entries of the snapshot. -/
theorem hasEntry_iff (hms : ctx.manifestsOf s = .ok (some manifests)) {total total' : Nat}
    (h : ctx.entriesOf manifests total = .ok (some entries, total')) (e : Entry) :
    ctx.HasEntry s e ↔ e ∈ entries := by
  obtain ⟨hread, hmem⟩ := entriesOf_ok h
  rw [hmem e]
  constructor
  · rintro ⟨m, files, hm, ⟨bytes, hstored, hparse⟩, f, hf, rfl⟩
    have hm := ((manifestsOf_ok hms).1 m).mp hm
    obtain ⟨es, hes⟩ := hread m hm
    obtain ⟨files', ⟨bytes', hstored', hparse'⟩, rfl⟩ := readManifest_ok hes
    cases hstored.unique hstored'
    cases hparse.symm.trans hparse'
    exact ⟨m, hm, _, hes, List.mem_map_of_mem hf⟩
  · rintro ⟨m, hm, es, hes, he⟩
    obtain ⟨files, hfiles, rfl⟩ := readManifest_ok hes
    obtain ⟨f, hf, rfl⟩ := List.mem_map.mp he
    exact ⟨m, files, ((manifestsOf_ok hms).1 m).mpr hm, hfiles, f, hf, rfl⟩

theorem stored_of_checkDataFile {f : DataFile} (h : ctx.checkDataFile f = .ok ()) :
    ∃ bytes, ctx.Stored f.path bytes ∧
      (0 < f.sizeBytes → (bytes.length : Int) = f.sizeBytes) := by
  obtain ⟨key, hkey, h⟩ := of_bind_ok h
  split at h
  · cases h
  · next bytes hget =>
      have hsize := require_eq_ok.mp h
      simp only [Bool.or_eq_true, decide_eq_true_eq] at hsize
      exact ⟨bytes, stored_of_checkedKey hkey hget, fun hpos => hsize.resolve_left (by omega)⟩

end Readers

variable {e : Entry} {sid : Int}

theorem attributedTo_of_counts (h : e.Counts sid) : e.attributedTo sid = true := by
  rcases h with h | ⟨hnone, h⟩ <;> simp [Entry.attributedTo, *]

theorem checkAppend_ok (h : checkAppend sid e = .ok ()) (hown : e.Counts sid) :
    e.file.status ≠ 2 ∧ e.file.content = 0 ∧ e.manifestContent = 0 := by
  rw [checkAppend, if_pos (attributedTo_of_counts hown)] at h
  obtain ⟨_, hstatus, h⟩ := of_bind_ok h
  have hstatus := require_eq_ok.mp hstatus
  have hcontent := require_eq_ok.mp h
  simp only [decide_eq_true_eq, Bool.and_eq_true] at hstatus hcontent
  exact ⟨hstatus, hcontent⟩

theorem checkAgainst_ok {live : List Bytes} (h : checkAgainst live sid e = .ok ())
    (hown : e.Counts sid) :
    (e.file.status = 1 → e.file.path ∉ live) ∧ (e.file.status = 2 → e.file.path ∈ live) := by
  rw [checkAgainst, if_pos (attributedTo_of_counts hown)] at h
  obtain ⟨_, hadd, h⟩ := of_bind_ok h
  have hadd := require_eq_ok.mp hadd
  have hdelete := require_eq_ok.mp h
  simp only [Bool.not_eq_true', Bool.and_eq_false_imp, decide_eq_true_eq, decide_eq_false_iff_not,
    not_not] at hadd hdelete
  exact ⟨hadd, hdelete⟩

/-! ## The memo of live files -/

theorem findSnapshot_of_named {next : TableMetadata} {id : Int} {p : Snapshot}
    (h : Named next id p) : next.findSnapshot id = some p := by
  obtain ⟨front, rest, hsplit, rfl, hfront⟩ := h
  rw [TableMetadata.findSnapshot, hsplit, List.find?_eq_some_iff_append]
  exact ⟨by simp, front, rest, rfl, fun q hq => by simpa using hfront q hq⟩

/-- The memo has the live files of the parent, if there is such a snapshot. -/
def Knows (id : Int) (live : Option (List Bytes)) : Prop :=
  ∀ p, next.findSnapshot id = some p → ∃ paths, live = some paths ∧
    ∀ path, path ∈ paths ↔ ctx.LiveIn p path

/-- As long as no codec was skipped, the memo is right. -/
def Faithful (st : DeepState) : Prop :=
  st.skippedCodec = false → ∀ id live, st.liveCache.get? id = some live → ctx.Knows next id live

section Memo

variable {ctx : CheckContext} {next : TableMetadata} {st st' : DeepState} {id : Int}

theorem knows_of_parentLive {live : Option (List Bytes)}
    (h : ctx.parentLive next id = .ok (live, false)) : ctx.Knows next id live := by
  intro p hp
  rw [parentLive, hp] at h
  obtain ⟨manifests, hms, h⟩ := of_bind_ok h
  cases manifests with
  | none => cases h
  | some manifests =>
      obtain ⟨⟨entries, total⟩, hentries, h⟩ := of_bind_ok h
      cases entries with
      | none => cases h
      | some entries =>
          cases h
          refine ⟨_, rfl, fun path => ?_⟩
          simp only [LiveIn, hasEntry_iff hms hentries, List.mem_map, List.mem_filter,
            decide_eq_true_eq, and_assoc]

/-- A look-up keeps the memo right and returns what the parent holds. -/
theorem cachedLive_ok (hst : ctx.Faithful next st) {live : Option (List Bytes)}
    (h : ctx.cachedLive next st id = .ok (live, st')) :
    ctx.Faithful next st' ∧
      (st'.skippedCodec = false → st.skippedCodec = false ∧ ctx.Knows next id live) := by
  unfold cachedLive at h
  split at h
  · next cached hget =>
      cases h
      exact ⟨hst, fun hskip => ⟨hskip, hst hskip id _ hget⟩⟩
  · obtain ⟨⟨read, skipped⟩, hread, h⟩ := of_bind_ok h
    cases h
    have hknows : (st.skippedCodec || skipped) = false →
        st.skippedCodec = false ∧ ctx.Knows next id live := by
      intro hskip
      obtain ⟨hold, rfl⟩ := Bool.or_eq_false_iff.mp hskip
      exact ⟨hold, knows_of_parentLive hread⟩
    refine ⟨fun hskip j found hj => ?_, hknows⟩
    rcases SortedMap.get?_insert_cases hj with ⟨rfl, rfl⟩ | ⟨-, hj⟩
    · exact (hknows hskip).2
    · exact hst (hknows hskip).1 j found hj

end Memo

/-! ## Soundness -/

/-- What one stage of the check is to achieve: the memo stays right, and if nothing was skipped
by its end, then nothing was before and `P` holds. -/
def Establishes (st st' : DeepState) (P : Prop) : Prop :=
  ctx.Faithful next st → ctx.Faithful next st' ∧
    (st'.skippedCodec = false → st.skippedCodec = false ∧ P)

section Soundness

variable {ctx : CheckContext} {next : TableMetadata} {st st' : DeepState} {s : Snapshot}
  {entries : List Entry}

theorem skippedCodec_of_skipSnapshot {sid : Int} (h : ctx.skipSnapshot st sid = .ok st') :
    st'.skippedCodec = true := by
  obtain ⟨_, _, h⟩ := of_bind_ok h
  cases h
  rfl

/-- A skipped snapshot leaves nothing to show. -/
theorem establishes_of_skippedCodec {P : Prop} (h : st'.skippedCodec = true) :
    ctx.Establishes next st st' P := by
  have hnot : st'.skippedCodec ≠ false := by simp [h]
  exact fun _ => ⟨fun hskip => absurd hskip hnot, fun hskip => absurd hskip hnot⟩

theorem checkParent_establishes (h : ctx.checkParent next st s entries = .ok st') :
    ctx.Establishes next st st' (∀ id ∈ s.parentSnapshotId, ∀ p, Named next id p →
      ∀ e ∈ entries, e.Counts s.snapshotId →
        (e.file.status = 1 → ¬ ctx.LiveIn p e.file.path) ∧
        (e.file.status = 2 → ctx.LiveIn p e.file.path)) := by
  intro hst
  unfold checkParent at h
  split at h
  · next hparent =>
      cases h
      exact ⟨hst, fun hskip => ⟨hskip, by simp [hparent]⟩⟩
  · next parent hparent =>
      obtain ⟨⟨live, st₁⟩, hcached, h⟩ := of_bind_ok h
      obtain ⟨_, hchecks, h⟩ := of_bind_ok h
      cases h
      obtain ⟨hst', hlive⟩ := cachedLive_ok hst hcached
      refine ⟨hst', fun hskip => ⟨(hlive hskip).1, fun id hid p hp e he hown => ?_⟩⟩
      cases hparent.symm.trans hid
      obtain ⟨paths, rfl, hpaths⟩ := (hlive hskip).2 p (findSnapshot_of_named hp)
      have hcheck := forM_eq_ok.mp (forM_eq_ok.mp hchecks paths (by simp)) e he
      rw [← hpaths]
      exact checkAgainst_ok hcheck hown

/-- The checks over the entries of a snapshot give all that is to be shown for it. -/
theorem checkEntries_establishes {manifests : List ManifestFile} {total total' : Nat}
    (hms : ctx.manifestsOf s = .ok (some manifests))
    (hentries : ctx.entriesOf manifests total = .ok (some entries, total'))
    (h : ctx.checkEntries next st s entries = .ok st') :
    ctx.Establishes next st st' (ctx.SoundSnapshot next s) := by
  intro hst
  obtain ⟨_, hfiles, h⟩ := of_bind_ok h
  obtain ⟨_, happend, h⟩ := of_bind_ok h
  obtain ⟨hst', hparent⟩ := checkParent_establishes h hst
  refine ⟨hst', fun hskip => ⟨(hparent hskip).1, ?_⟩⟩
  have hmem := hasEntry_iff hms hentries
  exact {
    list := (manifestsOf_ok hms).2
    manifests := fun m hm =>
      have ⟨es, hread⟩ := (entriesOf_ok hentries).1 m (((manifestsOf_ok hms).1 m).mp hm)
      have ⟨files, hfiles, _⟩ := readManifest_ok hread
      ⟨files, hfiles⟩
    files := fun e he hlive => stored_of_checkDataFile (forM_eq_ok.mp hfiles e
      (List.mem_filter.mpr ⟨(hmem e).mp he, decide_eq_true hlive⟩))
    append := fun hop e he =>
      checkAppend_ok (forM_eq_ok.mp happend e (by rw [if_pos hop]; exact (hmem e).mp he))
    parent := fun id hid p hp e he => (hparent hskip).2 id hid p hp e ((hmem e).mp he) }

/-- One turn of the loop. -/
theorem checkSnapshot_establishes {known : List Int}
    (h : ctx.checkSnapshot next known st s = .ok st') :
    ctx.Establishes next st st' (s.snapshotId ∉ known → ctx.SoundSnapshot next s) := by
  intro hst
  unfold checkSnapshot at h
  split_ifs at h with hknown
  · cases h
    exact ⟨hst, fun hskip => ⟨hskip, absurd hknown⟩⟩
  · obtain ⟨manifests, hms, h⟩ := of_bind_ok h
    cases manifests with
    | none => exact establishes_of_skippedCodec (skippedCodec_of_skipSnapshot h) hst
    | some manifests =>
        obtain ⟨⟨entries, total⟩, hentries, h⟩ := of_bind_ok h
        cases entries with
        | none => exact establishes_of_skippedCodec (skippedCodec_of_skipSnapshot h) hst
        | some entries =>
            obtain ⟨hst', hsound⟩ := checkEntries_establishes hms hentries h hst
            exact ⟨hst', fun hskip => ⟨(hsound hskip).1, fun _ => (hsound hskip).2⟩⟩

/-- The whole loop. -/
theorem checkSnapshots_establish {known : List Int} {snapshots : List Snapshot}
    (h : snapshots.foldlM (ctx.checkSnapshot next known) st = .ok st') :
    ctx.Establishes next st st'
      (∀ s ∈ snapshots, s.snapshotId ∉ known → ctx.SoundSnapshot next s) := by
  intro hst
  induction snapshots generalizing st with
  | nil =>
      cases h
      exact ⟨hst, fun hskip => ⟨hskip, nofun⟩⟩
  | cons s snapshots ih =>
      rw [List.foldlM_cons] at h
      obtain ⟨st₁, hstep, h⟩ := of_bind_ok h
      obtain ⟨hst₁, hhead⟩ := checkSnapshot_establishes hstep hst
      obtain ⟨hst', htail⟩ := ih h hst₁
      refine ⟨hst', fun hskip => ?_⟩
      obtain ⟨hskip₁, hrest⟩ := htail hskip
      exact ⟨(hhead hskip₁).1, List.forall_mem_cons.mpr ⟨(hhead hskip₁).2, hrest⟩⟩

/-- A deep check that skips no codec is sound for every snapshot that the current metadata does
not have: its manifests can be read, its live files are there with their sizes, an append only
adds data files, and what it adds and deletes fits its parent. -/
theorem deep_check_sound {current : TableMetadata}
    (h : ctx.checkNewSnapshotsDeep next current = .ok st) (hskip : st.skippedCodec = false) :
    ∀ s ∈ next.snapshots, (∀ c ∈ current.snapshots, c.snapshotId ≠ s.snapshotId) →
      ctx.SoundSnapshot next s := by
  obtain ⟨st₁, hrun, h⟩ := of_bind_ok h
  obtain ⟨_, _, h⟩ := of_bind_ok h
  obtain ⟨_, _, h⟩ := of_bind_ok h
  cases h
  have hempty : ctx.Faithful next {} := fun _ _ _ hget => nomatch hget
  intro s hs hnew
  refine ((checkSnapshots_establish hrun hempty).2 hskip).2 s hs fun hmem => ?_
  obtain ⟨c, hc, hid⟩ := List.mem_map.mp hmem
  exact hnew c hc hid

/-- A bucket with the files of two snapshots. The second replaces `s3://b/x` by `s3://b/y`. -/
def replacingContext : CheckContext where
  bucket := ⟨ascii "b", ascii "_lake/"⟩
  objects := SortedMap.empty.insertAll [(ascii "l1", ascii "l1"), (ascii "l2", ascii "l2"),
    (ascii "m1", ascii "m1"), (ascii "m2", ascii "m2"), (ascii "x", ascii "xxx"),
    (ascii "y", ascii "yy")]
  parseManifestList := fun bytes _ =>
    if bytes = ascii "l1" then .ok [{ path := ascii "s3://b/m1", addedSnapshotId := 1 }]
    else .ok [{ path := ascii "s3://b/m2", addedSnapshotId := 2 }]
  parseManifest := fun bytes _ _ =>
    if bytes = ascii "m1" then .ok [{ status := 1, path := ascii "s3://b/x", sizeBytes := 3 }]
    else .ok [{ status := 2, path := ascii "s3://b/x" },
      { status := 1, path := ascii "s3://b/y", sizeBytes := 2 }]
  statisticsPath := fun _ => none

/-- The metadata with both snapshots, the later one first. -/
def replacingMetadata : TableMetadata where
  tableUuid := []
  location := ascii "s3://b"
  lastColumnId := 0
  schemas := []
  partitionSpecs := []
  sortOrders := []
  snapshots := [
    { snapshotId := 2, timestampMs := 1, parentSnapshotId := some 1,
      manifestList := some (ascii "s3://b/l2"), operation := some (ascii "overwrite") },
    { snapshotId := 1, timestampMs := 0, manifestList := some (ascii "s3://b/l1"),
      operation := some (ascii "append") }]

/-- What the check of both snapshots in one commit reports. -/
def replacingReport : DeepState where
  manifests := 2
  files := 2
  totalFiles := 2
  liveCache := SortedMap.empty.insert 1 (some [ascii "s3://b/x"])

/-- Both snapshots come in one commit. -/
theorem deep_check_sound_replacing :
    replacingContext.checkNewSnapshotsDeep replacingMetadata
      { replacingMetadata with snapshots := [] } = .ok replacingReport ∧
    ∀ s ∈ replacingMetadata.snapshots, replacingContext.SoundSnapshot replacingMetadata s := by
  have hcheck : replacingContext.checkNewSnapshotsDeep replacingMetadata
      { replacingMetadata with snapshots := [] } = .ok replacingReport := by
    decide +kernel
  exact ⟨hcheck, fun s hs => deep_check_sound hcheck rfl s hs nofun⟩

end Soundness

end CheckContext

end Lights3.Iceberg
