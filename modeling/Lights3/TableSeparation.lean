import Lights3.Lib.Runs
import Lights3.TableMaintenance

/-!
# Maintenance and the other tables

A purge deletes by key prefix: the reserved directory of the table and its location. A run
deletes files of the metadata directory and of the data directories. Another table is safe
if neither its names nor its location nest with those of the table that is maintained, if its
files lie under its own location, and if the name of a table that was renamed is not taken
again.
-/
namespace Lights3
open ByteString

/-! ## Keys -/

theorem locationToKey_apart {bucket reserved location key : Bytes}
    (h : locationToKey bucket reserved location = .ok key) :
    ¬ reserved <+: key ∧ key ++ [slash] ≠ reserved := by
  unfold locationToKey at h
  split at h
  · simp only [bind, Except.bind, pure, Except.pure, throw, throwThe, MonadExceptOf.throw] at h
    split_ifs at h with hnil hseg hres hctl
    cases h
    simpa using hres
  · cases h

/-- A file in the metadata directory of a table, under a generation and a uuid. -/
def IsFile (b : TableBucket) (path : TablePath) (key : Bytes) : Prop :=
  ∃ gen uuid, looksLikeUuid uuid = true ∧ key = metadataKey b.reserved path gen uuid

theorem IsFile.reserved {b : TableBucket} {path : TablePath} {key : Bytes} (h : IsFile b path key) :
    b.reserved <+: key := by
  obtain ⟨gen, uuid, -, rfl⟩ := h
  rw [metadataKey_eq, metadataDir_eq, List.append_assoc]
  exact List.prefix_append _ _

/-- Whose metadata directory a file is in. -/
theorem IsFile.path_of_dir {b : TableBucket} {p q : TablePath} {key : Bytes} (h : IsFile b q key)
    (hdir : metadataDir b.reserved p <+: key) : p = q ∨ p.val ++ [metadataSegment] <+: q.val := by
  obtain ⟨gen, uuid, huuid, rfl⟩ := h
  exact (metadataDir_covers_iff (slash_not_mem_uuid huuid)).mp hdir

namespace Lake

variable {b : TableBucket} {s s' : Lake}

/-! ## What an operation does to the tables -/

/-- Every record is finalized. -/
def Settled (s : Lake) : Prop := ∀ k r, s.commits.get? k = some r → r.status = .COMMITTED

/-- The name that an operation gives to a table. -/
def target? : LakeOp → Option TablePath
  | .createTable path _ _ | .registerTable path _ _ => some path
  | .renameTable _ dst => some dst
  | _ => none

/-- How the tables change when a name may be given to a table. -/
inductive TableChange (b : TableBucket) (target : Option TablePath) (s s' : Lake) : Prop where
  | same (h : s'.tables = s.tables)
  | made (path : TablePath) (e : TableEntry) (htarget : target = some path)
      (hfile : IsFile b path e.metadataLocation)
      (h : s'.tables = s.tables.insert path e)
  | moved (path : TablePath) (cur next : TableEntry) (hcur : s.tables.get? path = some cur)
      (hid : next.tableId = cur.tableId) (hfile : IsFile b path next.metadataLocation)
      (h : s'.tables = s.tables.insert path next)
  | renamed (src dst : TablePath) (cur : TableEntry) (htarget : target = some dst) (hne : src ≠ dst)
      (hcur : s.tables.get? src = some cur)
      (h : s'.tables =
        (s.tables.insert dst { cur with state := .Active, renameId := [] }).insert src
        { cur with state := .Deleted, renameId := [] })
  | dropped (path : TablePath) (cur : TableEntry) (hcur : s.tables.get? path = some cur)
      (h : s'.tables = s.tables.insert path { cur with state := .Deleted })

variable {key : Bytes} {path : TablePath} {cur e : TableEntry} {c : CatalogState}

theorem finishCreate_ok {md : Metadata} (h : s.finishCreate path e md = .ok s') :
    s'.tables = s.tables.insert path e ∧ s'.commits = s.commits := by
  unfold finishCreate at h
  obtain ⟨-, -, hrest⟩ := of_bind_ok h
  split_ifs at hrest
  cases hrest
  exact ⟨rfl, rfl⟩

theorem writeNext_ok {next md : Metadata} {isStaged : Bool}
    (h : s.writeNext key next isStaged = .ok (c, md)) :
    c.tables = s.tables ∧ c.commits = s.commits := by
  unfold writeNext at h
  split at h
  · cases h
    exact ⟨rfl, rfl⟩
  · obtain ⟨prev, -, hrest⟩ := of_bind_ok h
    split_ifs at hrest <;> cases hrest <;> exact ⟨rfl, rfl⟩

/-- A staged record is a record that is not finalized. -/
theorem replayOf_staged {call : CommitCall} {r : CommitRecord}
    (h : s.replayOf call cur = .ok (.staged r)) :
    s.commits.get? (commitKey cur.tableId call.commitId) = some r ∧ r.status ≠ .COMMITTED := by
  unfold replayOf at h
  split_ifs at h with hid
  · cases h
  · split at h
    · cases h
    · rename_i r' hr'
      split_ifs at h with hdigest hdone hexp
      · cases h
      · cases h
        simp only [Bool.or_eq_true, decide_eq_true_eq, not_or] at hdone
        exact ⟨hr', hdone.1⟩

theorem settled_insert (hc : ∀ k r, c.commits.get? k = some r → r.status = .COMMITTED)
    (r : CommitRecord) :
    ∀ k r', (c.apply (.putCommit r.committed)).commits.get? k = some r' →
    r'.status = .COMMITTED := by
  intro k r' hr'
  obtain ⟨-, rfl⟩ | ⟨-, hold⟩ := SortedMap.get?_insert_cases hr'
  · rfl
  · exact hc k r' hold

/-- The record that a commit leaves is finalized, and it is the only one that changes. -/
theorem settled_publish (hs : s.Settled) (hc : c.commits = s.commits) (uuid : Bytes)
    (path : TablePath) (cur : TableEntry) (r : CommitRecord) (next : Metadata) :
    (s.publish ((c.apply (.mint uuid)).apply (.stage r)) path cur r next).Settled := by
  intro k r' hr'
  obtain ⟨-, rfl⟩ | ⟨hne, hswap⟩ := SortedMap.get?_insert_cases hr'
  · rfl
  · refine hs k r' ?_
    rw [← hc]
    -- The key of the record is not `k`, so neither the stage nor the swap touched it.
    change (if c.atomic then
      (if c.atomic then c.commits else c.commits.insert _ r).insert _ r.committed
      else if c.atomic then c.commits else c.commits.insert _ r).get? k = some r' at hswap
    cases hat : c.atomic with
    | true =>
        rw [hat, if_pos rfl, if_pos rfl, SortedMap.get?_insert] at hswap
        exact (if_neg hne).symm.trans hswap
    | false =>
        rw [hat, if_neg (by simp), if_neg (by simp), SortedMap.get?_insert] at hswap
        exact (if_neg hne).symm.trans hswap

theorem isFile_newKey {call : CommitCall} {ids : NewIds} (huuid : looksLikeUuid ids.uuid = true) :
    IsFile b call.path (newKey b call ids cur) := by
  unfold newKey
  split_ifs with hid
  · exact ⟨_, _, hid, rfl⟩
  · exact ⟨_, _, huuid, rfl⟩

theorem commitTable_ok (hs : s.Settled) {call : CommitCall} {req : CommitRequest} {ids : NewIds}
    (huuid : looksLikeUuid ids.uuid = true) (h : s.commitTable b call req ids = .ok s') :
    TableChange b none s s' ∧ s'.Settled := by
  unfold commitTable at h
  obtain ⟨cur, hcur, h⟩ := of_bind_ok h
  obtain ⟨replay, hreplay, h⟩ := of_bind_ok h
  cases replay with
  | done r =>
      obtain ⟨-, -, h⟩ := of_bind_ok h
      split_ifs at h
      · cases h
        exact ⟨.same rfl, hs⟩
      · cases h
        exact ⟨.same rfl, settled_insert hs r⟩
  | staged r =>
      obtain ⟨hr, hstatus⟩ := replayOf_staged hreplay
      exact absurd (hs _ r hr) hstatus
  | fresh =>
      obtain ⟨current, -, h⟩ := of_bind_ok h
      obtain ⟨next, -, h⟩ := of_bind_ok h
      obtain ⟨⟨c, md⟩, hwrite, h⟩ := of_bind_ok h
      cases h
      obtain ⟨htables, hcommits⟩ := writeNext_ok hwrite
      let r := CatalogState.newRecord call { token := ids.token } cur (commitIdOf call ids)
        (newKey b call ids cur)
      refine ⟨.moved call.path cur (CatalogState.nextEntry cur r md)
        (CatalogState.requireActive_ok hcur).1 rfl (isFile_newKey huuid) ?_,
        settled_publish hs hcommits ids.uuid call.path cur r md⟩
      change c.tables.insert call.path _ = s.tables.insert call.path _
      rw [htables]

/-- The tables and the records after a step. -/
theorem step_change (hs : s.Settled) (op : LakeOp) :
    TableChange b (target? op) s (s.step b op) ∧ (s.step b op).Settled := by
  have hsame (s' : Lake) (ht : s'.tables = s.tables) (hc : s'.commits = s.commits) :
      TableChange b (target? op) s s' ∧ s'.Settled :=
    ⟨.same ht, fun k r hr => hs k r (by rw [← hc]; exact hr)⟩
  have hmade {path : TablePath} {ids : NewIds} {md : Metadata} {s' : Lake}
      (htarget : target? op = some path) (huuid : looksLikeUuid ids.uuid = true)
      (h : (s.draw ids).finishCreate path (entryFor b path ids md) md = .ok s') :
      TableChange b (target? op) s s' ∧ s'.Settled := by
    obtain ⟨htables, hcommits⟩ := finishCreate_ok h
    exact ⟨.made path _ htarget ⟨_, _, huuid, rfl⟩ htables,
      fun k r hr => hs k r (by rw [hcommits] at hr; exact hr)⟩
  unfold step
  split_ifs with hen
  · split
    · rename_i s' hexec
      cases op with
      | tick sec =>
          cases hexec
          exact hsame _ rfl rfl
      | upload key content =>
          simp only [exec, upload] at hexec
          split_ifs at hexec
          cases hexec
          exact hsame _ rfl rfl
      | createNamespace levels =>
          obtain ⟨-, -, h⟩ := of_bind_ok hexec
          split_ifs at h
          cases h
          exact hsame _ rfl rfl
      | createTable path location ids =>
          obtain ⟨-, -, h⟩ := of_bind_ok hexec
          obtain ⟨locKey, -, h⟩ := of_bind_ok h
          exact hmade rfl hen.1.1 h
      | registerTable path metadataLocation ids =>
          obtain ⟨-, -, h⟩ := of_bind_ok hexec
          split at h
          · cases h
          · split at h
            · split_ifs at h
            · obtain ⟨-, -, h⟩ := of_bind_ok h
              obtain ⟨-, -, h⟩ := of_bind_ok h
              exact hmade rfl hen.1.1 h
      | commitTable call req ids =>
          exact commitTable_ok hs hen.1.1 hexec
      | renameTable src dst =>
          simp only [exec, renameTable] at hexec
          split_ifs at hexec with heq
          · cases hexec
            exact hsame _ rfl rfl
          · obtain ⟨cur, hcur, h⟩ := of_bind_ok hexec
            obtain ⟨-, -, h⟩ := of_bind_ok h
            obtain ⟨-, -, h⟩ := of_bind_ok h
            cases h
            exact ⟨.renamed src dst cur rfl heq (CatalogState.requireActive_ok hcur).1 rfl, hs⟩
      | dropTable path =>
          obtain ⟨cur, hcur, h⟩ := of_bind_ok hexec
          cases h
          exact ⟨.dropped path cur (CatalogState.requireActive_ok hcur).1 rfl, hs⟩
    · exact hsame _ rfl rfl
  · exact hsame _ rfl rfl

/-! ## Where a table's metadata file lies -/

/-- Another entry has the table id of the tombstone at the path: its table was renamed. -/
def RenamedAway (s : Lake) (path : TablePath) : Prop :=
  ∃ old ∈ s.tables.get? path, ∃ x ∈ s.tables.entries, x.1 ≠ path ∧ x.2.tableId = old.tableId

instance (s : Lake) (path : TablePath) : Decidable (s.RenamedAway path) :=
  inferInstanceAs (Decidable (∃ old ∈ s.tables.get? path, _))

/-- The name of a table that was renamed is not taken again. -/
def KeepsName (s : Lake) (op : LakeOp) : Prop := ∀ path ∈ target? op, ¬ s.RenamedAway path

instance (s : Lake) (op : LakeOp) : Decidable (s.KeepsName op) :=
  inferInstanceAs (Decidable (∀ path ∈ target? op, _))

/-- A metadata file lies in the metadata directory of a path that the table has had. -/
def Homed (b : TableBucket) (s : Lake) : Prop :=
  ∀ p e, s.tables.get? p = some e →
    ∃ q f, s.tables.get? q = some f ∧ f.tableId = e.tableId ∧ IsFile b q e.metadataLocation

/-- The file's home is still there when an entry is replaced by one of the same table. -/
theorem homed_insert {tables : SortedMap TablePath TableEntry} (next : TableEntry)
    (hcur : tables.get? path = some cur) (hid : next.tableId = cur.tableId) {tableId : Bytes}
    (h : ∃ q f, tables.get? q = some f ∧ f.tableId = tableId ∧ IsFile b q key) :
    ∃ q f, (tables.insert path next).get? q = some f ∧ f.tableId = tableId ∧ IsFile b q key := by
  obtain ⟨q, f, hf, hf', hfile⟩ := h
  by_cases hq : q = path
  · subst hq
    obtain rfl := Option.some.inj (hcur.symm.trans hf)
    exact ⟨q, next, by simp, hid.trans hf', hfile⟩
  · exact ⟨q, f, by rw [SortedMap.get?_insert, if_neg hq, hf], hf', hfile⟩

/-- The file's home is not the name that is taken: its table would be renamed. -/
theorem homed_take {p : TablePath} (new : TableEntry) (hkeeps : ¬ s.RenamedAway path)
    (hp : s.tables.get? p = some e) (hne : p ≠ path)
    (h : ∃ q f, s.tables.get? q = some f ∧ f.tableId = e.tableId ∧ IsFile b q key) :
    ∃ q f, (s.tables.insert path new).get? q = some f ∧ f.tableId = e.tableId ∧ IsFile b q key := by
  obtain ⟨q, f, hf, hid, hfile⟩ := h
  have hq : q ≠ path := by
    rintro rfl
    exact hkeeps ⟨f, hf, (p, e), SortedMap.mem_entries.mpr hp, hne, hid.symm⟩
  exact ⟨q, f, by rw [SortedMap.get?_insert, if_neg hq, hf], hid, hfile⟩

theorem Homed.change (h : Homed b s) {target : Option TablePath}
    (hkeeps : ∀ path ∈ target, ¬ s.RenamedAway path) (hc : TableChange b target s s') :
    Homed b s' := by
  intro p e he
  cases hc with
  | same ht =>
      rw [ht] at he ⊢
      exact h p e he
  | made path new htarget hfile ht =>
      rw [ht] at he ⊢
      obtain ⟨rfl, rfl⟩ | ⟨hne, hold⟩ := SortedMap.get?_insert_cases he
      · exact ⟨p, e, by simp, rfl, hfile⟩
      · exact homed_take new (hkeeps path htarget) hold hne (h p e hold)
  | moved path cur next hcur hid hfile ht =>
      rw [ht] at he ⊢
      obtain ⟨rfl, rfl⟩ | ⟨-, hold⟩ := SortedMap.get?_insert_cases he
      · exact ⟨p, e, by simp, rfl, hfile⟩
      · exact homed_insert next hcur hid (h p e hold)
  | renamed src dst cur htarget hne hcur ht =>
      rw [ht] at he ⊢
      have hkeep := hkeeps dst htarget
      have hsrc : (s.tables.insert dst { cur with state := .Active, renameId := [] }).get? src =
          some cur := by rw [SortedMap.get?_insert, if_neg hne, hcur]
      -- The home of the renamed table is there under both of its names.
      have hmoved := homed_insert { cur with state := .Deleted, renameId := [] } hsrc rfl
        (homed_take { cur with state := .Active, renameId := [] } hkeep hcur hne (h src cur hcur))
      obtain ⟨-, rfl⟩ | ⟨-, hin⟩ := SortedMap.get?_insert_cases he
      · exact hmoved
      · obtain ⟨-, rfl⟩ | ⟨hdst, hold⟩ := SortedMap.get?_insert_cases hin
        · exact hmoved
        · exact homed_insert { cur with state := .Deleted, renameId := [] } hsrc rfl
            (homed_take _ hkeep hold hdst (h p e hold))
  | dropped path cur hcur ht =>
      rw [ht] at he ⊢
      obtain ⟨rfl, rfl⟩ | ⟨-, hold⟩ := SortedMap.get?_insert_cases he
      · exact homed_insert { cur with state := .Deleted } hcur rfl (h p cur hcur)
      · exact homed_insert { cur with state := .Deleted } hcur rfl (h p e hold)

structure HomeInv (b : TableBucket) (s : Lake) : Prop where
  homed : Homed b s
  settled : s.Settled

theorem homeInv_empty (b : TableBucket) : HomeInv b {} where
  homed := nofun
  settled := nofun

theorem HomeInv.step (h : HomeInv b s) {op : LakeOp} (hkeeps : s.KeepsName op) :
    HomeInv b (s.step b op) := by
  obtain ⟨hchange, hsettled⟩ := step_change h.settled op
  exact ⟨h.homed.change hkeeps hchange, hsettled⟩

theorem HomeInv.run {ops : List LakeOp} (hkeeps : Along (Lake.step b) KeepsName {} ops) :
    HomeInv b (Lake.run b {} ops) :=
  hkeeps.invariant (homeInv_empty b) (fun _ _ hk h => h.step hk)

/-! ## The files of a table -/

section Files
variable (b : TableBucket) (objects : Objects)

def keyOf (path : Bytes) : Option Bytes := (pathToKey b.bucket path).toOption

def contentAt (path : Bytes) : Option Content := ((keyOf b path).bind objects.get?).map (·.content)

/-- The manifests of a snapshot. -/
def manifestPaths (snap : Snapshot) : List Bytes :=
  match snap.manifestList with
  | none => snap.manifests
  | some path =>
      match contentAt b objects path with
      | some (.manifestList manifests) => manifests
      | _ => []

/-- The data and delete files that a manifest lists as live. -/
def livePaths (manifest : Bytes) : List Bytes :=
  match contentAt b objects manifest with
  | some (.manifest files) => (files.filter (fun f => f.1 ≠ .deleted)).map Prod.snd
  | _ => []

/-- The keys of the manifest list, the manifests and the live files of a snapshot. -/
def snapshotFiles (snap : Snapshot) : List Bytes :=
  let manifests := manifestPaths b objects snap
  (snap.manifestList.toList ++ manifests ++ manifests.flatMap (livePaths b objects)).filterMap
    (keyOf b)

/-- What the current metadata file of a table reaches. -/
def reachedBy (e : TableEntry) : List Bytes :=
  match objects.get? e.metadataLocation with
  | some ⟨.metadata md, _⟩ => md.snapshots.flatMap (snapshotFiles b objects)
  | _ => []

end Files

/-- The current metadata file of a table and what it reaches. -/
def filesOf (b : TableBucket) (s : Lake) (e : TableEntry) : List Bytes :=
  e.metadataLocation :: reachedBy b s.objects e

/-- No file of the table is deleted. -/
def Spares (b : TableBucket) (s s' : Lake) (e : TableEntry) : Prop :=
  ∀ k ∈ filesOf b s e, ¬ s.Deletes s' k

/-! ## Tables that are apart -/

/-- The directory of the location, if maintenance takes it for one. -/
def dataDir? (b : TableBucket) (e : TableEntry) : Option Bytes :=
  (locationToKey b.bucket b.reserved e.location).toOption

/-- Maintenance of the table `t` at `path` does not reach the table `u`. -/
@[mk_iff]
structure Apart (b : TableBucket) (s : Lake) (path : TablePath) (t u : TableEntry) : Prop where
  table : t.tableId ≠ u.tableId
  names : ∀ x ∈ s.tables.entries, x.2.tableId = u.tableId →
    ¬ path.val <+: x.1.val ∧ path.val ≠ x.1.val ++ [metadataSegment]
  locations : ∀ k ∈ dataDir? b t, ∀ l ∈ dataDir? b u, ¬ Nested k l
  below : ∀ e ∈ [t, u], ∀ k ∈ dataDir? b e, ¬ k ++ [slash] <+: b.reserved
  files : ∀ k ∈ reachedBy b s.objects u, ∃ l ∈ dataDir? b u, l ++ [slash] <+: k

instance (path : TablePath) (t u : TableEntry) : Decidable (Apart b s path t u) :=
  decidable_of_iff _ (apart_iff b s path t u).symm

theorem mem_dataDir {k : Bytes} :
    k ∈ dataDir? b e ↔ locationToKey b.bucket b.reserved e.location = .ok k :=
  toOption_eq_some

/-- A location that is not above the reserved prefix holds no key of it. -/
theorem not_reserved_of_location {l k : Bytes} (hl : l ∈ dataDir? b e)
    (hbelow : ¬ l ++ [slash] <+: b.reserved) (hk : l ++ [slash] <+: k) : ¬ b.reserved <+: k := by
  intro hr
  obtain ⟨hnot, hne⟩ := locationToKey_apart (mem_dataDir.mp hl)
  rcases List.prefix_or_prefix_of_prefix hr hk with hin | hin
  · rcases List.prefix_concat_iff.mp hin with heq | hpre
    · exact hne heq.symm
    · exact hnot hpre
  · exact hbelow hin

/-- One key lies under two locations only if they nest. -/
theorem nested_of_common {k l : Bytes} (hk : k ++ [slash] <+: key) (hl : l ++ [slash] <+: key) :
    Nested k l :=
  List.prefix_or_prefix_of_prefix hk hl

theorem reserved_prefix_tableDir (b : TableBucket) (path : TablePath) :
    b.reserved <+: tableDir b.reserved path := by
  rw [tableDir_eq]
  exact List.prefix_append _ _

theorem reserved_prefix_metadataDir (b : TableBucket) (path : TablePath) :
    b.reserved <+: metadataDir b.reserved path := by
  rw [metadataDir_eq]
  exact List.prefix_append _ _

section
variable {path : TablePath} {t u : TableEntry}

/-- No file of the other table is in the location. -/
theorem Apart.not_in_location (h : Apart b s path t u) (hs : Homed b s) {name : TablePath}
    (hu : s.tables.get? name = some u) {k l : Bytes} (hk : k ∈ filesOf b s u)
    (hl : l ∈ dataDir? b t) : ¬ l ++ [slash] <+: k := by
  intro hin
  rcases List.mem_cons.mp hk with rfl | hreached
  · obtain ⟨q, f, -, -, hfile⟩ := hs name u hu
    exact not_reserved_of_location hl (h.below t (by simp) l hl) hin hfile.reserved
  · obtain ⟨l', hl', hin'⟩ := h.files k hreached
    exact h.locations l hl l' hl' (nested_of_common hin hin')

/-- A file of the other table under the reserved prefix is its metadata file, in the
metadata directory of one of its names. -/
theorem Apart.home (h : Apart b s path t u) (hs : Homed b s) {name : TablePath}
    (hu : s.tables.get? name = some u) {k : Bytes} (hk : k ∈ filesOf b s u)
    (hr : b.reserved <+: k) :
    ∃ q f, s.tables.get? q = some f ∧ f.tableId = u.tableId ∧ IsFile b q k := by
  rcases List.mem_cons.mp hk with rfl | hreached
  · exact hs name u hu
  · obtain ⟨l, hl, hin⟩ := h.files k hreached
    exact absurd hr (not_reserved_of_location hl (h.below u (by simp) l hl) hin)

theorem Apart.spares_purge (h : Apart b s path t u) (hs : Homed b s)
    (ht : s.tables.get? path = some t) {name : TablePath} (hu : s.tables.get? name = some u)
    (hpurge : s.purgeTable b path = .ok s') : Spares b s s' u := by
  intro k hk hdel
  obtain ⟨cur, hcur, -, hdir | ⟨l, hl, hin⟩⟩ := purgeTable_deletes hpurge hdel
  · obtain ⟨q, f, hf, hid, gen, uuid, huuid, rfl⟩ :=
      h.home hs hu hk ((reserved_prefix_tableDir b path).trans hdir)
    obtain ⟨hnot, hne⟩ := h.names (q, f) (SortedMap.mem_entries.mpr hf) hid
    rcases (tableDir_covers_iff (slash_not_mem_uuid huuid)).mp hdir with heq | hpre
    · exact hne heq
    · exact hnot hpre
  · obtain rfl : cur = t := Option.some.inj (hcur.symm.trans ht)
    exact h.not_in_location hs hu hk (mem_dataDir.mpr hl) hin

theorem Apart.not_candidate (h : Apart b s path t u) (hs : Homed b s)
    (ht : s.tables.get? path = some t) {name : TablePath} (hu : s.tables.get? name = some u)
    {plan : MaintenancePlan} (hpath : plan.path = path) (hplan : CatalogState.Planned b t plan)
    {k : Bytes} (hk : k ∈ filesOf b s u) :
    k ∉ plan.metadataCandidates ∧ k ∉ plan.orphanCandidates := by
  constructor
  · intro hcand
    have hdir := hplan.metadata k hcand
    obtain ⟨q, f, hf, hid, hfile⟩ :=
      h.home hs hu hk ((reserved_prefix_metadataDir b plan.path).trans hdir)
    rcases hfile.path_of_dir hdir with rfl | hpre
    · rw [hpath, ht] at hf
      exact h.table (Option.some.inj hf ▸ hid)
    · exact (h.names (q, f) (SortedMap.mem_entries.mpr hf) hid).1
        (hpath ▸ (List.prefix_append _ _).trans hpre)
  · intro hcand
    rcases hplan.orphans with hnil | ⟨l, hl, hin⟩
    · rw [hnil] at hcand
      cases hcand
    · have hslash (dir : Bytes) (hd : [slash] <+: dir) (hpre : l ++ dir <+: k) :
          l ++ [slash] <+: k := ((List.prefix_append_right_inj l).mpr hd).trans hpre
      rcases hin k hcand with hdata | hdelete
      · exact h.not_in_location hs hu hk (mem_dataDir.mpr hl) (hslash _ (by decide) hdata)
      · exact h.not_in_location hs hu hk (mem_dataDir.mpr hl) (hslash _ (by decide) hdelete)

end

/-- In the runs that take no name of a renamed table again, maintenance deletes no file of a
table that is apart. -/
theorem maintenance_spares_tables_apart (b : TableBucket) (ops : List LakeOp)
    (hkeeps : Along (step b) KeepsName {} ops) {path name : TablePath} {t u : TableEntry}
    (ht : (run b {} ops).tables.get? path = some t) (hu : (run b {} ops).tables.get? name = some u)
    (hapart : Apart b (run b {} ops) path t u) :
    (∀ s', (run b {} ops).purgeTable b path = .ok s' → Spares b (run b {} ops) s' u) ∧
    ∀ opt plan review sec expiry safetyWindowSec s',
      (run b {} ops).planTable b path opt = .ok (plan, review) →
      ((run b {} ops).step b (.tick sec)).runTable b plan expiry true safetyWindowSec = .ok s' →
      Spares b (run b {} ops) s' u := by
  have hs := (HomeInv.run hkeeps).homed
  refine ⟨fun s' hpurge => hapart.spares_purge hs ht hu hpurge, ?_⟩
  intro opt plan review sec expiry safetyWindowSec s' hplan hrun k hk hdel
  obtain ⟨hpath, cur, hcur, hplanned⟩ := planTable_ok hplan
  obtain rfl : cur = t := Option.some.inj (hcur.symm.trans ht)
  obtain ⟨hmetadata, horphans⟩ := hapart.not_candidate hs ht hu hpath hplanned hk
  rcases runTable_deletes hrun hdel with hcand | hcand
  · exact hmetadata hcand
  · exact horphans hcand

def tablesBucket : TableBucket := ⟨ascii "lake", ascii ".lights3-table/"⟩

theorem salesOrders_valid : ValidTablePath [ascii "sales", ascii "orders"] := by decide +kernel

def salesOrders : TablePath := ⟨[ascii "sales", ascii "orders"], salesOrders_valid⟩

/-- A text of the form of a uuid. -/
def uuidOf (digit : String) : Bytes :=
  ascii "00000000-0000-4000-8000-00000000000" ++ ascii digit

def salesReturns : TablePath := ⟨[ascii "sales", ascii "returns"], by decide +kernel⟩

/-- The ids of the `n`-th operation. -/
def idsAt (n : String) : NewIds := ⟨uuidOf n, ascii n, ascii "t" ++ ascii n⟩

/-- Two tables, one with a snapshot and one with a file that nothing reaches. -/
def ordersAndReturns : List LakeOp :=
  [.createNamespace [ascii "sales"], .createTable salesOrders none (idsAt "1"),
    .createTable salesReturns none (idsAt "2"),
    .upload (ascii "sales/returns/data/f") .data,
    .upload (ascii "sales/returns/m")
    (.manifest [(.added, ascii "s3://lake/sales/returns/data/f")]),
    .upload (ascii "sales/returns/l") (.manifestList [ascii "s3://lake/sales/returns/m"]),
    .commitTable { path := salesReturns }
      { updates := [.addSnapshot ⟨1, some (ascii "s3://lake/sales/returns/l"), []⟩] } (idsAt "3"),
    .upload (ascii "sales/orders/data/orphan") .data, .tick 1000]

/-- A plan and its run. -/
def cleaned (b : TableBucket) (s : Lake) (path : TablePath) : Except RestError Lake := do
  let (plan, _) ← s.planTable b path {}
  (s.step b (.tick 0)).runTable b plan none true 900

theorem maintenance_spares_tables_apart_cleaned :
    let s := run tablesBucket {} ordersAndReturns
    Along (step tablesBucket) KeepsName {} ordersAndReturns ∧
    ∃ t u, s.tables.get? salesOrders = some t ∧ s.tables.get? salesReturns = some u ∧
      Apart tablesBucket s salesOrders t u ∧ (filesOf tablesBucket s u).length = 4 ∧
      ∃ s', cleaned tablesBucket s salesOrders = .ok s' ∧
        s.Deletes s' (ascii "sales/orders/data/orphan") ∧ Spares tablesBucket s s' u := by
  intro s
  have hkeeps : Along (step tablesBucket) KeepsName {} ordersAndReturns := by decide +kernel
  obtain ⟨t, ht⟩ : ∃ t, s.tables.get? salesOrders = some t :=
    Option.isSome_iff_exists.mp (by decide +kernel)
  obtain ⟨u, hu⟩ : ∃ u, s.tables.get? salesReturns = some u :=
    Option.isSome_iff_exists.mp (by decide +kernel)
  have hapart : ∀ t ∈ s.tables.get? salesOrders, ∀ u ∈ s.tables.get? salesReturns,
      Apart tablesBucket s salesOrders t u ∧ (filesOf tablesBucket s u).length = 4 := by
      decide +kernel
  have hdeleted : (cleaned tablesBucket s salesOrders).toOption.map
      (fun s' => s'.objects.get? (ascii "sales/orders/data/orphan")) = some none := by
      decide +kernel
  obtain ⟨s', hs', hgone⟩ := Option.map_eq_some_iff.mp hdeleted
  have hclean := toOption_eq_some.mp hs'
  obtain ⟨⟨plan, review⟩, hplan, hrun⟩ := of_bind_ok hclean
  obtain ⟨hsep, hfour⟩ := hapart t ht u hu
  exact ⟨hkeeps, t, u, ht, hu, hsep, hfour, s', hclean, ⟨by decide +kernel, hgone⟩,
    (maintenance_spares_tables_apart tablesBucket ordersAndReturns hkeeps ht hu hsep).2
      {} plan review 0 none 900 s' hplan hrun⟩

def tableAb : TablePath := ⟨[ascii "a", ascii "b"], by decide +kernel⟩

def tableAbc : TablePath := ⟨[ascii "a", ascii "b", ascii "c"], by decide +kernel⟩

/-- A table whose namespace path is the path of a table that is dropped. -/
def nestedNames : List LakeOp :=
  [.createNamespace [ascii "a"], .createNamespace [ascii "a", ascii "b"],
    .createTable tableAb none (idsAt "1"), .createTable tableAbc none (idsAt "2"),
    .dropTable tableAb]

/-- The purge of `a.b` deletes the metadata file of the live table `a.b.c`. -/
theorem nestedNames_purge_deletes :
    let s := run tablesBucket {} nestedNames
    ∃ s' u, s.purgeTable tablesBucket tableAb = .ok s' ∧
      s.tables.get? tableAbc = some u ∧
      u.state = .Active ∧ s.Deletes s' u.metadataLocation := by
  intro s
  have h : ((s.purgeTable tablesBucket tableAb).toOption.bind
      fun s' => (s.tables.get? tableAbc).map
        fun u => (u.state, (s.objects.get? u.metadataLocation).isSome,
          s'.objects.get? u.metadataLocation)) = some (.Active, true, none) := by decide +kernel
  obtain ⟨s', hs', hu⟩ := Option.bind_eq_some_iff.mp h
  obtain ⟨u, hu, heq⟩ := Option.map_eq_some_iff.mp hu
  simp only [Prod.mk.injEq] at heq
  exact ⟨s', u, toOption_eq_some.mp hs', hu, heq.1, heq.2.1, heq.2.2⟩

end Lake

end Lights3
