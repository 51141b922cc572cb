import Lights3.TableMaintenance

/-!
# What an orphan plan may list

The scan collects the manifest lists, manifests and files of all snapshots of the retained
metadata and compares the data directories with them. It does not collect the statistics files
that the same metadata names. Their paths are read out of the members of the document that the
catalog does not look at, so they are an argument.
-/
namespace Lights3
open ByteString

/-! ## References -/

section Names

variable (b : TableBucket) (objects : Objects)

/-- The path names an object with this content. -/
def HoldsAt (path : Bytes) (content : Content) : Prop :=
  ∃ key o, pathToKey b.bucket path = .ok key ∧ objects.get? key = some o ∧ o.content = content

/-- A manifest that a snapshot names: in the manifest list that is stored, or itself. -/
inductive NamesManifest (snap : Snapshot) (path : Bytes) : Prop where
  | listed {list : Bytes} {manifests : List Bytes} (named : snap.manifestList = some list)
      (stored : HoldsAt b objects list (.manifestList manifests)) (mem : path ∈ manifests)
  | inline (none : snap.manifestList = none) (mem : path ∈ snap.manifests)

/-- The keys that a snapshot names: its manifest list, its manifests and the files that are stored
in them. -/
inductive SnapshotNames (snap : Snapshot) (k : Bytes) : Prop where
  | manifestList {path : Bytes} (named : snap.manifestList = some path)
      (key : pathToKey b.bucket path = .ok k)
  | manifest {path : Bytes} (named : NamesManifest b objects snap path)
      (key : pathToKey b.bucket path = .ok k)
  | file {path : Bytes} {files : List (EntryStatus × Bytes)} {f : EntryStatus × Bytes}
      (named : NamesManifest b objects snap path)
      (stored : HoldsAt b objects path (.manifest files))
      (mem : f ∈ files) (key : pathToKey b.bucket f.2 = .ok k)

/-- One of the retained files exists and names the key in a snapshot. -/
def NamedBySnapshots (retained : Bytes → Prop) (k : Bytes) : Prop :=
  ∃ key o md snap, retained key ∧ objects.get? key = some o ∧ o.content = .metadata md ∧
    snap ∈ md.snapshots ∧ SnapshotNames b objects snap k

/-- One of the retained files exists and has the key as the path of a statistics entry. -/
def NamedByStatistics (statisticsOf : Metadata → List Bytes) (retained : Bytes → Prop) (k : Bytes) :
    Prop :=
  ∃ key o md path, retained key ∧ objects.get? key = some o ∧ o.content = .metadata md ∧
    path ∈ statisticsOf md ∧ pathToKey b.bucket path = .ok k

end Names

/-! ## What the scan collects -/

section Scan

variable {b : TableBucket} {objects : Objects} {k : Bytes}

theorem mem_checked_iff {paths keys : List Bytes} (h : paths.mapM (checkedKey b) = .ok keys) :
    k ∈ keys ↔ ∃ path ∈ paths, pathToKey b.bucket path = .ok k := by
  constructor
  · intro hk
    obtain ⟨path, hmem, hchecked⟩ := mem_of_mapM_eq_ok h hk
    exact ⟨path, hmem, (checkedKey_ok hchecked).1⟩
  · rintro ⟨path, hmem, hkey⟩
    obtain ⟨key, hk, hchecked⟩ := mapM_eq_ok_mem h hmem
    rw [(checkedKey_ok hchecked).1] at hkey
    exact Except.ok.inj hkey ▸ hk

variable {path : Bytes} {manifests : List Bytes}

theorem HoldsAt.unique {c c' : Content} (h : HoldsAt b objects path c)
    (h' : HoldsAt b objects path c') : c = c' := by
  obtain ⟨key, o, hkey, hget, rfl⟩ := h
  obtain ⟨key', o', hkey', hget', rfl⟩ := h'
  cases hkey.symm.trans hkey'
  cases hget.symm.trans hget'
  rfl

theorem namesManifest_iff {snap : Snapshot}
    (h : manifestsOf b objects snap = .ok (some manifests)) :
    NamesManifest b objects snap path ↔ path ∈ manifests := by
  unfold manifestsOf at h
  split at h
  · next hnone =>
      cases h
      refine ⟨fun hm => ?_, .inline hnone⟩
      cases hm with
      | listed hsome => cases hnone.symm.trans hsome
      | inline _ hmem => exact hmem
  · next list hsome =>
      obtain ⟨key, hkey, h⟩ := of_bind_ok h
      split at h
      · cases h
      · next o ho =>
          split at h
          · next hcontent =>
              cases h
              have hstored : HoldsAt b objects list (.manifestList manifests) :=
                ⟨key, o, (checkedKey_ok hkey).1, ho, hcontent⟩
              refine ⟨fun hm => ?_, .listed hsome hstored⟩
              cases hm with
              | listed hsome' hstored' hmem =>
                  cases hsome.symm.trans hsome'
                  cases hstored.unique hstored'
                  exact hmem
              | inline hnone => cases hsome.symm.trans hnone
          · cases h
          · cases h

theorem holdsAt_of_readManifest {files : List (EntryStatus × Bytes)}
    (h : readManifest b objects path = .ok (some files)) :
    HoldsAt b objects path (.manifest files) := by
  obtain ⟨key, hkey, h⟩ := of_bind_ok h
  split at h
  · cases h
  · next o ho =>
      split at h
      · next hcontent =>
          cases h
          exact ⟨key, o, (checkedKey_ok hkey).1, ho, hcontent⟩
      · cases h
      · cases h

theorem mapM_id_eq_some {α : Type} {xs : List (Option α)} {ys : List α} (h : xs.mapM id = some ys) :
    xs = ys.map some := by
  induction xs generalizing ys with
  | nil =>
      cases h
      rfl
  | cons x xs ih =>
      simp only [List.mapM_cons, Option.bind_eq_bind, Option.bind_eq_some_iff, Option.pure_def,
        Option.some.injEq, id_eq] at h
      obtain ⟨z, rfl, zs, hzs, rfl⟩ := h
      rw [ih hzs, List.map_cons]

/-- The files of all manifests, if all of them were read. -/
theorem mem_entriesOf_iff {all : List (EntryStatus × Bytes)}
    (h : entriesOf b objects manifests = .ok (some all)) {f : EntryStatus × Bytes} :
    f ∈ all ↔ ∃ path ∈ manifests, ∃ files, HoldsAt b objects path (.manifest files) ∧
    f ∈ files := by
  obtain ⟨reads, hreads, h⟩ := of_bind_ok h
  obtain ⟨lists, hlists, rfl⟩ := Option.map_eq_some_iff.mp (Except.ok.inj h)
  obtain rfl := mapM_id_eq_some hlists
  rw [List.mem_flatten]
  constructor
  · rintro ⟨files, hmem, hf⟩
    obtain ⟨path, hpath, hread⟩ := mem_of_mapM_eq_ok hreads (List.mem_map_of_mem hmem)
    exact ⟨path, hpath, files, holdsAt_of_readManifest hread, hf⟩
  · rintro ⟨path, hpath, files, hstored, hf⟩
    obtain ⟨read, hmem, hread⟩ := mapM_eq_ok_mem hreads hpath
    obtain ⟨files', hfiles', rfl⟩ := List.mem_map.mp hmem
    cases hstored.unique (holdsAt_of_readManifest hread)
    exact ⟨files, hfiles', hf⟩

theorem reachableOf_names {snap : Snapshot} {keys : List Bytes}
    (h : reachableOf b objects snap = .ok (some keys)) :
    k ∈ keys ↔ SnapshotNames b objects snap k := by
  obtain ⟨listKeys, hlist, h⟩ := of_bind_ok h
  obtain ⟨manifests?, hmanifests, h⟩ := of_bind_ok h
  cases manifests? with
  | none => cases h
  | some manifests =>
      obtain ⟨manifestKeys, hmanifestKeys, h⟩ := of_bind_ok h
      obtain ⟨files?, hfiles, h⟩ := of_bind_ok h
      cases files? with
      | none => cases h
      | some files =>
          obtain ⟨fileKeys, hfileKeys, h⟩ := of_bind_ok h
          cases h
          have hfile : k ∈ fileKeys ↔ ∃ f ∈ files, pathToKey b.bucket f.2 = .ok k := by
            have hpaths : (files.map (·.2)).mapM (checkedKey b) = .ok fileKeys := by
              rw [List.mapM_map]
              exact hfileKeys
            simp only [mem_checked_iff hpaths, List.mem_map, exists_exists_and_eq_and]
          have hname {path : Bytes} : NamesManifest b objects snap path ↔ path ∈ manifests :=
            namesManifest_iff hmanifests
          rw [List.mem_append, List.mem_append, mem_checked_iff hlist,
            mem_checked_iff hmanifestKeys, hfile]
          constructor
          · rintro ((⟨path, hmem, hkey⟩ | ⟨path, hmem, hkey⟩) | ⟨f, hf, hkey⟩)
            · exact .manifestList (Option.mem_toList.mp hmem) hkey
            · exact .manifest (hname.mpr hmem) hkey
            · obtain ⟨path, hmem, fs, hstored, hf⟩ := (mem_entriesOf_iff hfiles).mp hf
              exact .file (hname.mpr hmem) hstored hf hkey
          · intro hk
            cases hk with
            | manifestList hnamed hkey => exact .inl (.inl ⟨_, Option.mem_toList.mpr hnamed, hkey⟩)
            | manifest hnamed hkey => exact .inl (.inr ⟨_, hname.mp hnamed, hkey⟩)
            | file hnamed hstored hf hkey =>
                exact .inr ⟨_, (mem_entriesOf_iff hfiles).mpr ⟨_, hname.mp hnamed, _, hstored, hf⟩,
                  hkey⟩

theorem reachableFiles_names {snaps : List Snapshot} {keys : List Bytes}
    (h : reachableFiles b objects snaps = .ok (some keys)) :
    k ∈ keys ↔ ∃ snap ∈ snaps, SnapshotNames b objects snap k := by
  induction snaps generalizing keys with
  | nil =>
      cases h
      simp
  | cons x snaps ih =>
      obtain ⟨keys₁?, hx, h⟩ := of_bind_ok h
      cases keys₁? with
      | none => cases h
      | some keys₁ =>
          obtain ⟨keys₂?, hrest, h⟩ := of_bind_ok h
          cases keys₂? with
          | none => cases h
          | some keys₂ =>
              cases h
              rw [List.mem_append, reachableOf_names hx, ih hrest, List.exists_mem_cons_iff]

/-- A scan that went through has found what the snapshots of retained files name, and nothing else.
-/
theorem mem_reachOf_iff {retained reach : List Bytes}
    (h : reachOf b objects retained = some reach) :
    k ∈ reach ↔ NamedBySnapshots b objects (· ∈ retained) k := by
  induction retained generalizing reach with
  | nil =>
      cases h
      simp [NamedBySnapshots]
  | cons key retained ih =>
      have hcons : NamedBySnapshots b objects (· ∈ key :: retained) k ↔
          (∃ o md snap, objects.get? key = some o ∧ o.content = .metadata md ∧
            snap ∈ md.snapshots ∧ SnapshotNames b objects snap k) ∨
          NamedBySnapshots b objects (· ∈ retained) k := by
        simp only [NamedBySnapshots, List.mem_cons]
        aesop
      rw [hcons]
      unfold reachOf at h
      split at h
      · next hnone =>
          rw [ih h]
          simp [hnone]
      · next o ho =>
          split at h
          · next md hmd =>
              obtain ⟨keys, hkeys, h⟩ := Option.bind_eq_some_iff.mp h
              obtain ⟨keys', hkeys', h⟩ := Option.bind_eq_some_iff.mp h
              cases h
              have hok := toOption_eq_some.mp (Option.join_eq_some_iff.mp hkeys)
              rw [List.mem_append, ih hkeys', reachableFiles_names hok]
              simp [ho, hmd]
          · cases h

/-- The last keys of a listing are those that few come after. -/
theorem mem_take_reverse {ks : List Bytes} (hs : ks.Pairwise (· < ·)) {n : Nat} :
    k ∈ ks.reverse.take n ↔ k ∈ ks ∧ (ks.filter (k < ·)).length < n := by
  by_cases hk : k ∈ ks
  · obtain ⟨front, back, rfl⟩ := List.append_of_mem hk
    obtain ⟨-, hback, hfront⟩ := List.pairwise_append.mp hs
    rw [List.pairwise_cons] at hback
    have hfilter : (front ++ k :: back).filter (k < ·) = back := by
      rw [List.filter_append, List.filter_eq_nil_iff.mpr, List.nil_append,
        List.filter_cons_of_neg (by simp), List.filter_eq_self.mpr]
      · exact fun x hx => decide_eq_true (hback.1 x hx)
      · exact fun x hx => by simpa using (hfront x hx k List.mem_cons_self).le
    rw [hfilter, List.reverse_append, List.reverse_cons, List.append_assoc]
    refine ⟨fun h => ⟨hk, ?_⟩, fun h => ?_⟩
    · by_contra hge
      rw [List.take_append_of_le_length (by simpa using hge)] at h
      exact lt_irrefl k (hback.1 k (List.mem_reverse.mp (List.mem_of_mem_take h)))
    · obtain ⟨m, hm⟩ : ∃ m, n - back.length = m + 1 := ⟨n - back.length - 1, by omega⟩
      rw [List.take_append, List.length_reverse, hm]
      exact List.mem_append_right _ List.mem_cons_self
  · exact iff_of_false (fun h => hk (List.mem_reverse.mp (List.mem_of_mem_take h))) fun h => hk h.1

end Scan

/-! ## The plan -/

namespace Lake

variable {b : TableBucket} {s : Lake} {path : TablePath} {opt : PlannerOptions}
  {plan : MaintenancePlan} {k : Bytes}

/-- The name of a metadata file of the table. -/
def IsMetadataName (b : TableBucket) (path : TablePath) (k : Bytes) : Prop :=
  metadataDir b.reserved path <+: k ∧ 14 < k.length ∧ metadataSuffix <:+ k

instance (b : TableBucket) (path : TablePath) (k : Bytes) : Decidable (IsMetadataName b path k) :=
  inferInstanceAs (Decidable (_ ∧ _ ∧ _))

/-- The metadata files that a plan retains: the current one, those of its log and of the committed
records of the table, and the files of the table that few come after. -/
inductive Retained (b : TableBucket) (s : Lake) (path : TablePath) (opt : PlannerOptions)
    (cur : TableEntry) (md : Metadata) : Bytes → Prop where
  | current : Retained b s path opt cur md cur.metadataLocation
  | logged {p k : Bytes} (mem : p ∈ md.metadataLog) (key : pathToKey b.bucket p = .ok k) :
      Retained b s path opt cur md k
  | committed {id : List Bytes} {r : CommitRecord} (record : s.commits.get? id = some r)
      (table : id.head? = some cur.tableId) (status : r.status = .COMMITTED) :
      Retained b s path opt cur md r.newMetadataLocation
  | recent {k : Bytes} (file : (s.objects.get? k).isSome) (name : IsMetadataName b path k)
      (few : (s.objects.keys.filter (fun k' => IsMetadataName b path k' ∧ k < k')).length <
        opt.retainRecent) : Retained b s path opt cur md k

theorem mem_recentFiles :
    k ∈ recentFiles opt (s.objects.listPrefix (metadataDir b.reserved path)) ↔
      (s.objects.get? k).isSome ∧ IsMetadataName b path k ∧
      (s.objects.keys.filter (fun k' => IsMetadataName b path k' ∧ k < k')).length <
        opt.retainRecent := by
  have hfiles : (metadataFiles (s.objects.listPrefix (metadataDir b.reserved path))).map Prod.fst =
      s.objects.keys.filter (IsMetadataName b path) := by
    simp only [metadataFiles, Objects.listPrefix, SortedMap.keys, List.filter_map,
      List.filter_filter]
    refine congrArg _ (List.filter_congr fun x _ => ?_)
    rw [Bool.eq_iff_iff, Function.comp_apply, decide_eq_true_eq (p := IsMetadataName b path x.1)]
    simp only [IsMetadataName, Bool.and_eq_true, decide_eq_true_eq]
    tauto
  rw [recentFiles, List.map_take, List.map_reverse, hfiles,
    mem_take_reverse (s.objects.keys_pairwise.filter _), List.mem_filter, SortedMap.mem_keys,
    List.filter_filter, and_assoc, decide_eq_true_eq, Option.isSome_iff_exists]
  simp only [Bool.decide_and, Bool.and_comm]

variable {md : Metadata} {cur : TableEntry}

theorem retained_iff :
    k ∈ retainedBy b cur.metadataLocation md (s.listCommits cur.tableId) ++
        recentFiles opt (s.objects.listPrefix (metadataDir b.reserved path)) ↔
      Retained b s path opt cur md k := by
  rw [List.mem_append, mem_recentFiles, retainedBy, List.mem_cons, List.mem_append,
    List.mem_filterMap, List.mem_map]
  constructor
  · rintro ((rfl | ⟨p, hp, hkey⟩ | ⟨r, hr, rfl⟩) | ⟨hfile, hname, hfew⟩)
    · exact .current
    · exact .logged hp (toOption_eq_some.mp hkey)
    · obtain ⟨hr, hstatus⟩ := List.mem_filter.mp hr
      obtain ⟨⟨id, r⟩, hmem, rfl⟩ := List.mem_map.mp hr
      obtain ⟨hmem, htable⟩ := List.mem_filter.mp hmem
      exact .committed (SortedMap.mem_entries.mp hmem) (of_decide_eq_true htable)
        (of_decide_eq_true hstatus)
    · exact .recent hfile hname hfew
  · intro h
    cases h with
    | current => exact .inl (.inl rfl)
    | logged hmem hkey => exact .inl (.inr (.inl ⟨_, hmem, toOption_eq_some.mpr hkey⟩))
    | committed hrecord htable hstatus =>
        refine .inl (.inr (.inr ⟨_, List.mem_filter.mpr ⟨?_, decide_eq_true hstatus⟩, rfl⟩))
        refine List.mem_map.mpr ⟨(_, _), List.mem_filter.mpr ⟨?_, decide_eq_true htable⟩, rfl⟩
        exact SortedMap.mem_entries.mpr hrecord
    | recent hfile hname hfew => exact .inr ⟨hfile, hname, hfew⟩

/-- The key is an old file in a directory that is scanned. -/
def LooksOrphaned (b : TableBucket) (s : Lake) (opt : PlannerOptions) (cur : TableEntry)
    (k : Bytes) :
    Prop :=
  opt.orphanCleanup = true ∧ ∃ locKey o,
    locationToKey b.bucket b.reserved cur.location = .ok locKey ∧ s.objects.get? k = some o ∧
    (locKey ++ ascii "/data/" <+: k ∨ locKey ++ ascii "/delete/" <+: k) ∧
    o.mtimeUnix ≤ s.clockUnix - opt.safetyWindowSec

theorem mem_orphansOf {objects : Objects} {locKey : Bytes} {reach : List Bytes} {limit : Int} :
    k ∈ orphansOf objects locKey reach limit ↔ ∃ o, k ∉ reach ∧ objects.get? k = some o ∧
      (locKey ++ ascii "/data/" <+: k ∨ locKey ++ ascii "/delete/" <+: k) ∧
      o.mtimeUnix ≤ limit := by
  unfold orphansOf
  simp only [List.mem_map, List.mem_filter, List.mem_append, Objects.mem_listPrefix,
    Bool.and_eq_true, decide_eq_true_eq]
  constructor
  · rintro ⟨x, ⟨hlist, hreach, hold⟩, rfl⟩
    rcases hlist with ⟨hget, hdir⟩ | ⟨hget, hdir⟩
    · exact ⟨x.2, hreach, hget, .inl hdir, hold⟩
    · exact ⟨x.2, hreach, hget, .inr hdir, hold⟩
  · rintro ⟨o, hreach, hget, hdir, hold⟩
    exact ⟨(k, o), ⟨hdir.imp (⟨hget, ·⟩) (⟨hget, ·⟩), hreach, hold⟩, rfl⟩

/-- The parts of a plan that needs no review. -/
theorem planTable_parts (h : s.planTable b path opt = .ok (plan, false)) : ∃ cur md,
    s.requireActive path = .ok cur ∧ s.currentMetadata cur = .ok md ∧
    plan.metadataCandidates = metadataCandidates
      (retainedBy b cur.metadataLocation md (s.listCommits cur.tableId)) opt s.clockUnix
      (s.objects.listPrefix (metadataDir b.reserved path)) ∧
    ∀ k, k ∈ plan.orphanCandidates ↔ LooksOrphaned b s opt cur k ∧
      ¬ NamedBySnapshots b s.objects (Retained b s path opt cur md) k := by
  obtain ⟨cur, hcur, h⟩ := of_bind_ok h
  obtain ⟨md, hmd, h⟩ := of_bind_ok h
  refine ⟨cur, md, hcur, hmd, ?_⟩
  dsimp only at h
  split_ifs at h with hclean
  · obtain ⟨locKey, hloc, h⟩ := of_bind_ok h
    split at h
    · cases h
    · rename_i reach hreach
      cases h
      have hretained : (· ∈ retainedBy b cur.metadataLocation md (s.listCommits cur.tableId) ++
          recentFiles opt (s.objects.listPrefix (metadataDir b.reserved path))) =
          Retained b s path opt cur md := funext fun _ => propext retained_iff
      refine ⟨rfl, fun k => mem_orphansOf.trans ?_⟩
      rw [← hretained, ← mem_reachOf_iff hreach]
      constructor
      · rintro ⟨o, hnot, hold⟩
        exact ⟨⟨hclean, locKey, o, hloc, hold⟩, hnot⟩
      · rintro ⟨⟨-, l, o, hl, hold⟩, hnot⟩
        obtain rfl := Except.ok.inj (hl.symm.trans hloc)
        exact ⟨o, hnot, hold⟩
  · cases h
    exact ⟨rfl, fun k => ⟨nofun, fun hk => absurd hk.1.1 hclean⟩⟩

/-- A metadata candidate is old enough, and neither the pointer nor the log of the table has it. -/
theorem metadataCandidates_spare
    (h : k ∈ metadataCandidates (retainedBy b cur.metadataLocation md (s.listCommits cur.tableId))
      opt s.clockUnix (s.objects.listPrefix (metadataDir b.reserved path))) :
    k ≠ cur.metadataLocation ∧ (∀ p ∈ md.metadataLog, pathToKey b.bucket p ≠ .ok k) ∧
      ∃ o, s.objects.get? k = some o ∧ o.mtimeUnix ≤ s.clockUnix - opt.safetyWindowSec := by
  have hnot := (mem_metadataCandidates h).2
  refine ⟨fun heq => hnot (heq ▸ List.mem_cons_self), fun p hp hkey => hnot ?_, ?_⟩
  · refine List.mem_cons_of_mem _ (List.mem_append_left _ (List.mem_filterMap.mpr ⟨p, hp, ?_⟩))
    rw [hkey]
    rfl
  · obtain ⟨x, hx, rfl⟩ := List.mem_map.mp h
    obtain ⟨hfile, hkeep⟩ := List.mem_filter.mp hx
    have hlisted := Objects.mem_listPrefix.mp (List.mem_filter.mp hfile).1
    rw [Bool.and_eq_true] at hkeep
    exact ⟨x.2, hlisted.1, of_decide_eq_true hkeep.2⟩

/-- The metadata that the pointer of an active table names. -/
def CurrentMetadata (s : Lake) (path : TablePath) (cur : TableEntry) (md : Metadata) : Prop :=
  s.tables.get? path = some cur ∧ cur.state = .Active ∧
    ∃ o, s.objects.get? cur.metadataLocation = some o ∧ o.content = .metadata md

theorem currentMetadata_ok (hcur : s.requireActive path = .ok cur)
    (hmd : s.currentMetadata cur = .ok md) : s.CurrentMetadata path cur md := by
  obtain ⟨htable, hactive⟩ := CatalogState.requireActive_ok hcur
  refine ⟨htable, hactive, ?_⟩
  obtain ⟨md', hread, hmd⟩ := of_bind_ok hmd
  split_ifs at hmd
  cases hmd
  unfold CatalogState.readMetadata at hread
  split at hread
  · cases hread
  · next o ho =>
      split at hread
      · next hcontent =>
          cases hread
          exact ⟨o, ho, hcontent⟩
      · cases hread

/-- A plan that needs no review lists no file that a snapshot of retained metadata names, and no
metadata file that is in use or young. It lists no statistics file of retained metadata exactly
when none of them is an old file in the data directories that no snapshot names. -/
theorem plan_spares_references (statisticsOf : Metadata → List Bytes) (b : TableBucket) (s : Lake)
    (path : TablePath) (opt : PlannerOptions) (plan : MaintenancePlan)
    (h : s.planTable b path opt = .ok (plan, false)) :
    ∃ cur md, s.CurrentMetadata path cur md ∧
    (∀ k ∈ plan.metadataCandidates, k ≠ cur.metadataLocation ∧
      (∀ p ∈ md.metadataLog, pathToKey b.bucket p ≠ .ok k) ∧
      ∃ o, s.objects.get? k = some o ∧ o.mtimeUnix ≤ s.clockUnix - opt.safetyWindowSec) ∧
    ((∀ k ∈ plan.orphanCandidates,
        ¬ NamedBySnapshots b s.objects (Retained b s path opt cur md) k ∧
        ¬ NamedByStatistics b s.objects statisticsOf (Retained b s path opt cur md) k) ↔
      ∀ k, NamedByStatistics b s.objects statisticsOf (Retained b s path opt cur md) k →
        ¬ NamedBySnapshots b s.objects (Retained b s path opt cur md) k →
        ¬ LooksOrphaned b s opt cur k) := by
  obtain ⟨cur, md, hcur, hmd, hmetadata, horphans⟩ := planTable_parts h
  refine ⟨cur, md, currentMetadata_ok hcur hmd,
    fun k hk => metadataCandidates_spare (hmetadata ▸ hk), ?_, fun hcond k hk => ?_⟩
  · exact fun hspare k hnamed hnot hold => (hspare k ((horphans k).mpr ⟨hold, hnot⟩)).2 hnamed
  · obtain ⟨hold, hnot⟩ := (horphans k).mp hk
    exact ⟨hnot, fun hnamed => hcond k hnamed hnot hold⟩

/-! ## A statistics file -/

def scanBucket : TableBucket := ⟨ascii "lake", ascii ".lights3-table/"⟩

def scanPath : TablePath := ⟨[ascii "sales", ascii "orders"], by decide +kernel⟩

def scanMetadataKey : Bytes := ascii ".lights3-table/sales/orders/metadata/00001-a.metadata.json"

def statisticsMetadata (statistics : Bytes) : Metadata where
  tableUuid := ascii "u"
  location := ascii "s3://lake/sales/orders"
  snapshots := [⟨1, some (ascii "s3://lake/sales/orders/metadata/l"), []⟩]
  rest := ascii "s3://lake/" ++ statistics

/-- A table with one data file, a file that nothing reaches, and a statistics file. Its path is
the rest of the metadata. -/
def statisticsLake (statistics : Bytes) : Lake where
  clockUnix := 1000
  tables := SortedMap.empty.insert scanPath
    ⟨ascii "t", ascii "u", ascii "s3://lake/sales/orders", scanMetadataKey, ascii "a",
      1, 2, .Active, []⟩
  objects := ([(scanMetadataKey, .metadata (statisticsMetadata statistics)),
    (ascii "sales/orders/metadata/l", .manifestList [ascii "s3://lake/sales/orders/metadata/m"]),
    (ascii "sales/orders/metadata/m", .manifest [(.added, ascii "s3://lake/sales/orders/data/f")]),
    (ascii "sales/orders/data/f", .data), (ascii "sales/orders/data/old", .data),
    (statistics, .data)] :
    List (Bytes × Content)).foldl (fun m x => m.insert x.1 ⟨x.2, 0⟩) SortedMap.empty

/-- The statistics entry of the documents here. -/
def restPath (md : Metadata) : List Bytes := [md.rest]

def statisticsKey : Bytes := ascii "sales/orders/metadata/stats.puffin"

def documentOf : Content → Option Metadata
  | .metadata md => some md
  | _ => none

/-- The statistics file is in the metadata directory. -/
theorem plan_spares_references_metadata : ∃ plan cur md,
    (statisticsLake statisticsKey).planTable scanBucket scanPath {} = .ok (plan, false) ∧
    plan.orphanCandidates = [ascii "sales/orders/data/old"] ∧
    ∀ k ∈ plan.orphanCandidates,
      ¬ NamedBySnapshots scanBucket (statisticsLake statisticsKey).objects
        (Retained scanBucket (statisticsLake statisticsKey) scanPath {} cur md) k ∧
      ¬ NamedByStatistics scanBucket (statisticsLake statisticsKey).objects restPath
        (Retained scanBucket (statisticsLake statisticsKey) scanPath {} cur md) k := by
  have hrun : ∃ p ∈ ((statisticsLake statisticsKey).planTable scanBucket scanPath {}).toOption,
      p.2 = false ∧ p.1.orphanCandidates = [ascii "sales/orders/data/old"] := by
    decide +kernel
  have htable : ∀ cur ∈ (statisticsLake statisticsKey).tables.get? scanPath,
      (locationToKey scanBucket.bucket scanBucket.reserved cur.location).toOption =
        some (ascii "sales/orders") := by
    decide +kernel
  have hmetadata : ∀ x ∈ (statisticsLake statisticsKey).objects.entries, ∀ md,
      x.2.content = .metadata md → md = statisticsMetadata statisticsKey := by
    have hone : ∀ x ∈ (statisticsLake statisticsKey).objects.entries, ∀ md ∈ documentOf x.2.content,
        md = statisticsMetadata statisticsKey := by
      decide +kernel
    intro x hx md hmd
    exact hone x hx md (by simp [hmd, documentOf])
  obtain ⟨⟨plan, _⟩, hplan, rfl, horphans⟩ := hrun
  have hplan := toOption_eq_some.mp hplan
  obtain ⟨cur, md, hcurrent, -, hiff⟩ := plan_spares_references restPath scanBucket
    (statisticsLake statisticsKey) scanPath {} plan hplan
  refine ⟨plan, cur, md, hplan, horphans, hiff.mpr ?_⟩
  rintro k ⟨key, o, md', path, -, ho, hmd', hpath, hk⟩ - ⟨-, locKey, o', hloc, -, hdir, -⟩
  obtain rfl := hmetadata (key, o) (SortedMap.mem_entries.mpr ho) md' hmd'
  obtain rfl := List.mem_singleton.mp hpath
  have hlocation := htable cur hcurrent.1
  rw [hloc] at hlocation
  obtain rfl := Option.some.inj hlocation
  have hkey : pathToKey scanBucket.bucket (statisticsMetadata statisticsKey).rest =
      .ok statisticsKey := toOption_eq_some.mp (by decide +kernel)
  obtain rfl := Except.ok.inj (hkey.symm.trans hk)
  exact absurd hdir (by decide)

/-- The statistics file is in the data directory, and the plan lists it. -/
theorem plan_lists_statistics :
    ∃ (s : Lake) (plan : MaintenancePlan) (cur : TableEntry) (md : Metadata),
    s.planTable scanBucket scanPath {} = .ok (plan, false) ∧ s.CurrentMetadata scanPath cur md ∧
    ∃ k ∈ plan.orphanCandidates, NamedByStatistics scanBucket s.objects restPath
      (Retained scanBucket s scanPath {} cur md) k := by
  let key := ascii "sales/orders/data/stats.puffin"
  have hrun : ∃ p ∈ ((statisticsLake key).planTable scanBucket scanPath {}).toOption,
      ∃ cur ∈ ((statisticsLake key).requireActive scanPath).toOption,
      ∃ md ∈ ((statisticsLake key).currentMetadata cur).toOption,
      p.2 = false ∧ key ∈ p.1.orphanCandidates ∧ cur.metadataLocation = scanMetadataKey ∧
      (statisticsLake key).objects.get? scanMetadataKey = some ⟨.metadata md, 0⟩ ∧
      (pathToKey scanBucket.bucket md.rest).toOption = some key := by
    decide +kernel
  obtain ⟨⟨plan, _⟩, hplan, cur, hcur, md, hmd, rfl, horphan, hlocation, hget, hkey⟩ := hrun
  exact ⟨statisticsLake key, plan, cur, md, toOption_eq_some.mp hplan,
    currentMetadata_ok (toOption_eq_some.mp hcur) (toOption_eq_some.mp hmd), key, horphan,
    scanMetadataKey, _, md, md.rest, hlocation ▸ .current, hget, rfl, List.mem_singleton_self _,
    toOption_eq_some.mp hkey⟩

end Lake

end Lights3
