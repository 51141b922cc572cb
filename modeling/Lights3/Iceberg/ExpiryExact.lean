import Lights3.Iceberg.SnapshotExpiry

/-!
# The snapshots that expire

The planner sorts the snapshots by their timestamps and leaves open how equal timestamps are
ordered, so the plan is taken for any such order. While the watermark fits its 64 bits, what the
plan keeps is the least set with the snapshots that are needed and the parents of its members, and
removing the others is accepted and leaves the references alone. An age below zero, which a table
property may give, can take the watermark out of them.
-/
namespace Lights3.Iceberg
open ByteString

/-! ## What has to stay -/

/-- `recent` are `k` snapshots, or all, and no other one is newer. -/
structure Newest (k : Nat) (all recent : List Snapshot) : Prop where
  subperm : recent.Subperm all
  length : recent.length = min k all.length
  newest : ∀ s ∈ recent, ∀ t ∈ all, t ∉ recent → t.timestampMs ≤ s.timestampMs

/-- The ids of the snapshots that stay for a reason of their own. -/
def Needed (md : TableMetadata) (recent : List Snapshot) (nowMs age : Int) : Set Int :=
  {id | id = md.currentSnapshotId ∧ id ≠ -1} ∪
    {id | ∃ name r, md.refs.get? name = some r ∧ r.snapshotId = id} ∪
    {id | ∃ s ∈ recent, s.snapshotId = id} ∪
    {id | ∃ s ∈ md.snapshots, nowMs - s.timestampMs ≤ age ∧ s.snapshotId = id}

/-- Sets that hold what is needed and the parents of their members. -/
def Retaining (md : TableMetadata) (recent : List Snapshot) (nowMs age : Int) : Set (Set Int) :=
  {K | Needed md recent nowMs age ⊆ K ∧ ∀ id ∈ K, ∀ p, md.parentOf id = some p → p ∈ K}

theorem newest_take {order all : List Snapshot} (hperm : order.Perm all)
    (hsorted : order.Pairwise (fun a b => b.timestampMs ≤ a.timestampMs)) (k : Nat) :
    Newest k all (order.take k) := by
  refine ⟨(List.take_sublist k order).subperm.trans hperm.subperm, ?_, fun s hs t ht hnot => ?_⟩
  · rw [List.length_take, hperm.length_eq]
  · have ht := hperm.mem_iff.mpr ht
    rw [← List.take_append_drop k order, List.mem_append] at ht
    rw [← List.take_append_drop k order, List.pairwise_append] at hsorted
    exact hsorted.2.2 s hs t (ht.resolve_left hnot)

/-- The watermark is the difference of the clock and the age. -/
def WatermarkFits (nowUnix age : Int64) : Prop :=
  0 ≤ nowUnix.toInt ∧ nowUnix.toInt * 1000 < 2 ^ 63 ∧ nowUnix.toInt * 1000 - age.toInt < 2 ^ 63

theorem WatermarkFits.toInt {nowUnix age : Int64} (h : WatermarkFits nowUnix age) :
    (nowUnix * 1000 - age).toInt = nowUnix.toInt * 1000 - age.toInt := by
  obtain ⟨hnow, hms, hdiff⟩ := h
  have hage := age.toInt_lt
  have hmul : (nowUnix * 1000).toInt = nowUnix.toInt * 1000 := by
    rw [Int64.toInt_mul, Int.bmod_eq_of_le (by change _ ≤ _ * 1000; omega)
      (by change _ * 1000 < _; omega)]
    rfl
  rw [Int64.toInt_sub, hmul, Int.bmod_eq_of_le (by omega) (by omega)]

section Keep

variable {md : TableMetadata} {order : List Snapshot} {opt : ExpiryOptions} {nowUnix age : Int64}
variable {keep : List Int}

/-- The first members of the set are the ones that are needed. -/
theorem mem_keepFirst (hfits : WatermarkFits nowUnix age) (hperm : order.Perm md.snapshots)
    (hcurrent : md.currentSnapshotId = -1 ∨ md.currentSnapshotId ∈ md.snapshotIds)
    (hids : ∀ s ∈ md.snapshots, 0 ≤ s.snapshotId) (id : Int) :
    id ∈ md.keepFirst order opt (nowUnix * 1000 - age) ↔
      id ∈ Needed md (order.take opt.minSnapshotsToKeep) (nowUnix.toInt * 1000) age.toInt := by
  have hpinned : id ∈ (if 0 ≤ md.currentSnapshotId then [md.currentSnapshotId] else []) ↔
      id = md.currentSnapshotId ∧ id ≠ -1 := by
    rcases hcurrent with hnone | hsome
    · rw [hnone, if_neg (by decide)]
      simp
    · obtain ⟨s, hs, hid⟩ := List.mem_map.mp hsome
      have hnonneg := hids s hs
      rw [if_pos (hid ▸ hnonneg), List.mem_singleton]
      exact ⟨fun h => ⟨h, by omega⟩, fun h => h.1⟩
  have hrefs : id ∈ md.refs.entries.map (fun x => x.2.snapshotId) ↔
      ∃ name r, md.refs.get? name = some r ∧ r.snapshotId = id := by
    rw [List.mem_map]
    exact ⟨fun ⟨x, hx, heq⟩ => ⟨x.1, x.2, SortedMap.mem_entries.mp hx, heq⟩,
      fun ⟨name, r, hr, heq⟩ => ⟨(name, r), SortedMap.mem_entries.mpr hr, heq⟩⟩
  have hyoung : id ∈ (order.filter (fun s =>
        (nowUnix * 1000 - age).toInt ≤ s.timestampMs)).map (·.snapshotId) ↔
      ∃ s ∈ md.snapshots, nowUnix.toInt * 1000 - s.timestampMs ≤ age.toInt ∧ s.snapshotId = id := by
    simp only [List.mem_map, List.mem_filter, decide_eq_true_eq, hperm.mem_iff,
      and_assoc, hfits.toInt]
    exact exists_congr (fun s => and_congr_right (fun _ => and_congr_left (fun _ => by omega)))
  unfold TableMetadata.keepFirst TableMetadata.pinned Needed
  rw [List.mem_append, List.mem_append, List.mem_append, hpinned, hrefs, hyoung, List.mem_map]
  rfl

/-- What is kept is the least set that holds what is needed and the parents of its members. -/
theorem isLeast_keepAll (hkeep : md.keepAll order opt (nowUnix * 1000 - age) = some keep)
    (hfits : WatermarkFits nowUnix age) (hperm : order.Perm md.snapshots)
    (hcurrent : md.currentSnapshotId = -1 ∨ md.currentSnapshotId ∈ md.snapshotIds)
    (hids : ∀ s ∈ md.snapshots, 0 ≤ s.snapshotId) :
    IsLeast (Retaining md (order.take opt.minSnapshotsToKeep) (nowUnix.toInt * 1000) age.toInt)
      {id | id ∈ keep} := by
  have hfirst (id : Int) : id ∈ md.keepFirst order opt _ ↔ _ :=
    mem_keepFirst hfits hperm hcurrent hids id
  obtain ⟨hsub, hclosed⟩ := keepAll_closed hkeep
  refine ⟨⟨fun id hid => hsub ((hfirst id).mpr hid), hclosed⟩, fun K ⟨hneeded, hK⟩ => ?_⟩
  have hstart (id : Int) (hid : id ∈ md.keepFirst order opt (nowUnix * 1000 - age)) : id ∈ K :=
    hneeded ((hfirst id).mp hid)
  exact Closure.close_subset hkeep hK hstart hstart

theorem mem_expired (hperm : order.Perm md.snapshots) (id : Int) :
    id ∈ expired order keep ↔ id ∈ md.snapshotIds ∧ id ∉ keep := by
  unfold expired TableMetadata.snapshotIds
  rw [List.mem_insertionSort, List.mem_filter, decide_eq_true_eq, (hperm.map _).mem_iff]

end Keep

/-! ## The commit of the plan -/

/-- A loop that went through also goes through part of the list. -/
theorem forUnique_sublist {α : Type} {before after : α → Except RestError Unit} {idOf : α → Int}
    {dup : Int → RestError} {seen seen' : List Int} {xs ys : List α} (hsub : ys.Sublist xs)
    (hseen : seen' ⊆ seen) (h : forUnique before after idOf dup seen xs = .ok ()) :
    forUnique before after idOf dup seen' ys = .ok () := by
  induction hsub generalizing seen seen' with
  | slnil => rfl
  | cons x _ ih =>
      obtain ⟨⟨⟩, -, h⟩ := of_bind_ok h
      obtain ⟨⟨⟩, -, h⟩ := of_bind_ok h
      obtain ⟨⟨⟩, -, h⟩ := of_bind_ok h
      exact ih (fun id hid => List.mem_cons_of_mem _ (hseen hid)) h
  | cons_cons x _ ih =>
      obtain ⟨⟨⟩, hbefore, h⟩ := of_bind_ok h
      obtain ⟨⟨⟩, hnew, h⟩ := of_bind_ok h
      obtain ⟨⟨⟩, hafter, h⟩ := of_bind_ok h
      have hnew : idOf x ∉ seen := of_decide_eq_true (require_eq_ok.mp hnew)
      have hnew' : require (idOf x ∉ seen') (dup (idOf x)) = .ok () :=
        require_eq_ok.mpr (decide_eq_true (fun hmem => hnew (hseen hmem)))
      exact bind_eq_ok.mpr ⟨(), hbefore, bind_eq_ok.mpr ⟨(), hnew', bind_eq_ok.mpr
        ⟨(), hafter, ih (List.cons_subset_cons _ hseen) h⟩⟩⟩

theorem validateMetadata_current {md : TableMetadata} (h : validateMetadata md = .ok ()) :
    md.currentSnapshotId = -1 ∨ md.currentSnapshotId ∈ md.snapshotIds := by
  unfold validateMetadata at h
  iterate 10 obtain ⟨⟨⟩, -, h⟩ := of_bind_ok h
  obtain ⟨⟨⟩, hcurrent, -⟩ := of_bind_ok h
  simpa using require_eq_ok.mp hcurrent

/-- Valid metadata stays valid without snapshots that are neither current nor named. -/
theorem validateMetadata_removeSnapshots {md : TableMetadata} {ids : List Int}
    (h : validateMetadata md = .ok ()) (hcurrent : md.currentSnapshotId ∉ ids)
    (hrefs : ∀ name r, md.refs.get? name = some r → r.snapshotId ∉ ids) :
    validateMetadata { md with snapshots := md.snapshots.filter (fun s => s.snapshotId ∉ ids) } =
      .ok () := by
  have hkept {id : Int} (hid : id ∈ md.snapshotIds) (hnot : id ∉ ids) :
      id ∈ (md.snapshots.filter (fun s => s.snapshotId ∉ ids)).map (·.snapshotId) := by
    obtain ⟨s, hs, rfl⟩ := List.mem_map.mp hid
    exact List.mem_map_of_mem (List.mem_filter.mpr ⟨hs, decide_eq_true hnot⟩)
  have hmem := validateMetadata_current h
  unfold validateMetadata at h ⊢
  iterate 9
    obtain ⟨⟨⟩, hpart, h⟩ := of_bind_ok h
    refine bind_eq_ok.mpr ⟨(), hpart, ?_⟩
  obtain ⟨⟨⟩, hsnapshots, h⟩ := of_bind_ok h
  obtain ⟨⟨⟩, -, hnamed⟩ := of_bind_ok h
  refine bind_eq_ok.mpr ⟨(), forUnique_sublist List.filter_sublist (List.Subset.refl _) hsnapshots,
    bind_eq_ok.mpr ⟨(), require_eq_ok.mpr ?_, forM_eq_ok.mpr (fun x hx => require_eq_ok.mpr ?_)⟩⟩
  · simp only [Bool.or_eq_true, decide_eq_true_eq]
    exact hmem.imp_right (fun hid => hkept hid hcurrent)
  · have hid := of_decide_eq_true (require_eq_ok.mp (forM_eq_ok.mp hnamed x hx))
    exact decide_eq_true (hkept hid (hrefs x.1 x.2 (SortedMap.mem_entries.mp hx)))

/-- The actions of a plan are accepted, and references and the current snapshot stay. -/
theorem applyUpdates_removeSnapshots (b : TableBucket) {md : TableMetadata} {ids : List Int}
    (h : validateMetadata md = .ok ()) (hcurrent : md.currentSnapshotId ∉ ids)
    (hrefs : ∀ name r, md.refs.get? name = some r → r.snapshotId ∉ ids) :
    ∃ md', applyUpdates b md [.removeSnapshots ids] = .ok md' ∧ md'.refs = md.refs ∧
      md'.currentSnapshotId = md.currentSnapshotId := by
  have hkeep : md.refs.keep (fun k => (md.refs.get? k).any (fun r => r.snapshotId ∉ ids)) =
      md.refs := by
    refine SortedMap.ext_get? (fun k => ?_)
    rw [SortedMap.get?_keep]
    cases hr : md.refs.get? k with
    | none => simp
    | some r => simp [hrefs k r hr]
  obtain ⟨schema, partitionSpec, hsync⟩ := synchronize_eq (Applier.removeSnapshots { md } ids).md
  have hremoved : (Applier.removeSnapshots { md } ids).md.refs = md.refs ∧
      (Applier.removeSnapshots { md } ids).md.currentSnapshotId = md.currentSnapshotId :=
    ⟨hkeep, if_neg hcurrent⟩
  have hvalid :
      validateMetadata (synchronizeVersionFields (Applier.removeSnapshots { md } ids).md) =
      .ok () := by
    have hbase := validateMetadata_removeSnapshots h hcurrent hrefs
    rw [hsync]
    unfold validateMetadata at hbase ⊢
    dsimp only
    rw [hremoved.1, hremoved.2]
    exact hbase
  refine ⟨_, bind_eq_ok.mpr ⟨_, rfl, bind_eq_ok.mpr ⟨(), hvalid, rfl⟩⟩, ?_⟩
  rw [hsync]
  exact hremoved

/-- What a plan has to be: it expires exactly the snapshots outside the least set that holds what is
needed and the parents of its members. -/
def ExpiresUnneeded (md : TableMetadata) (opt : ExpiryOptions) (nowUnix age : Int64)
    (plan : ExpiryPlan) : Prop :=
  ∃ recent K, Newest opt.minSnapshotsToKeep md.snapshots recent ∧
    IsLeast (Retaining md recent (nowUnix.toInt * 1000) age.toInt) K ∧
    ∀ id, id ∈ plan.expireSnapshots ↔ id ∈ md.snapshotIds ∧ id ∉ K

/-- The branch `main` is at the second of four snapshots, which has the first one as its
parent. -/
def branchedSnapshots : CommitStep where
  updates := [.addSnapshot (snapshotOf 1 (some 1)),
    .addSnapshot { snapshotOf 2 (some 2) with parentSnapshotId := some 1 },
    .addSnapshot (snapshotOf 3 (some 3)), .addSnapshot (snapshotOf 4 (some 4)),
    .setSnapshotRef Applier.mainRef { snapshotId := 2 }]

end Lights3.Iceberg
