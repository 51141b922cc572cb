import Lights3.TableNames
import Lights3.Lib.Runs

/-!
# Compaction candidates

The last section of `plan_table` in `tables/maintenance.cc`. The small data files of the current
snapshot are grouped by directory and sort order and packed first-fit into bins of the target size.
The sizes and their sums are words of 64 bits; a sum that overflows wraps around. The threshold for
small files is the target times a ratio, rounded in floating point, and is an input here.
-/
namespace Lights3
open ByteString

/-- The fields of `iceberg::DataFile` that the section reads. -/
structure LiveFile where
  path : Bytes
  content : Int := 0
  sizeBytes : Int
  sortOrderId : Int := 0

/-- A file and its place in the list of live files: the source keeps pointers into the list. -/
abbrev FileEntry := LiveFile × Nat

/-- The directory and the sort order. -/
abbrev GroupKey := Bytes ×ₗ Int

/-- The fields of a candidate that its group fixes. -/
structure GroupLabel where
  partition : Bytes
  sortOrderId : Int
  rowLevelRequired : Bool

/-- `CompactionCandidate`; the source keeps the paths of the files. -/
structure CompactionCandidate extends GroupLabel where
  files : List FileEntry
  bytes : Int

/-- `std::sort` by size, the largest first; files of the same size come in any order. -/
structure SizeSort where
  sort : List FileEntry → List FileEntry
  perm : ∀ l, (sort l).Perm l
  sorted : ∀ l, (sort l).Pairwise (fun a b => b.1.sizeBytes ≤ a.1.sizeBytes)

/-- A value of type `int64_t`. -/
def word64 (n : Int) : Int := n.bmod (2 ^ 64)

theorem word64_eq {n : Int} (h : 0 ≤ n) (hlt : n < 2 ^ 63) : word64 n = n :=
  Int.bmod_eq_of_le (by omega) (by omega)

/-- A sum that overflows by less than a word comes out negative. -/
theorem word64_neg {n : Int} (h : 2 ^ 63 ≤ n) (hlt : n < 2 ^ 64) : word64 n < 0 := by
  have hwrap : word64 n = word64 (n - (2 ^ 64 : Nat)) := by
    rw [word64, word64, Int.sub_bmod_right]
  rw [hwrap, word64, Int.bmod_eq_of_le (by omega) (by omega)]
  omega

namespace CompactionCandidate

/-- The sum of the sizes of the files. -/
def total (c : CompactionCandidate) : Int := (c.files.map (·.1.sizeBytes)).sum

/-- A bin that is opened for a file. -/
def opened (label : GroupLabel) (f : FileEntry) : CompactionCandidate :=
  { label with files := [f], bytes := f.1.sizeBytes }

def push (b : CompactionCandidate) (f : FileEntry) : CompactionCandidate :=
  { b with files := b.files ++ [f], bytes := word64 (b.bytes + f.1.sizeBytes) }

@[simp] theorem total_opened (label : GroupLabel) (f : FileEntry) :
    (opened label f).total = f.1.sizeBytes := by
  simp [total, opened]

@[simp] theorem total_push (b : CompactionCandidate) (f : FileEntry) :
    (b.push f).total = b.total + f.1.sizeBytes := by
  simp [total, push]

end CompactionCandidate

open CompactionCandidate

/-! ## Packing a group -/

section Packing
variable (target : Int) (label : GroupLabel)

/-- The bins after a file: it goes into the first one where the sum keeps to the target, or into a
new one. -/
def placeFile : List CompactionCandidate → FileEntry → List CompactionCandidate
  | [], f => [opened label f]
  | b :: bins, f =>
      if word64 (b.bytes + f.1.sizeBytes) ≤ target then b.push f :: bins else b :: placeFile bins f

def packFiles (files : List FileEntry) : List CompactionCandidate :=
  files.foldl (placeFile target label) []

/-- No sum that is formed for the file overflows. -/
def SumsFit : List CompactionCandidate → FileEntry → Prop
  | [], _ => True
  | b :: bins, f =>
      b.bytes + f.1.sizeBytes < 2 ^ 63 ∧ (target < b.bytes + f.1.sizeBytes → SumsFit bins f)

instance SumsFit.decidable : ∀ bins f, Decidable (SumsFit target bins f)
  | [], _ => inferInstanceAs (Decidable True)
  | _ :: bins, f =>
      have := decidable bins f
      inferInstanceAs (Decidable (_ ∧ (_ → _)))

variable {target label} {bins : List CompactionCandidate} {f : FileEntry}

theorem placeFile_files (bins : List CompactionCandidate) (f : FileEntry) :
    ((placeFile target label bins f).flatMap (·.files)).Perm (f :: bins.flatMap (·.files)) := by
  induction bins with
  | nil => exact .refl _
  | cons b bins ih =>
      rw [placeFile]
      split
      · simp only [List.flatMap_cons, push]
        exact (List.perm_append_singleton f b.files).append_right _
      · simp only [List.flatMap_cons]
        exact (ih.append_left _).trans List.perm_middle

/-- A bin afterwards is as before, has got the file, or is the new one. -/
theorem mem_placeFile {c : CompactionCandidate} (hc : c ∈ placeFile target label bins f) :
    c ∈ bins ∨ (∃ b ∈ bins, c = b.push f) ∨ c = opened label f := by
  induction bins with
  | nil => exact .inr (.inr (List.mem_singleton.mp hc))
  | cons b bins ih =>
      rw [placeFile] at hc
      split at hc
      · rcases List.mem_cons.mp hc with rfl | hc
        · exact .inr (.inl ⟨b, List.mem_cons_self, rfl⟩)
        · exact .inl (List.mem_cons_of_mem _ hc)
      · rcases List.mem_cons.mp hc with rfl | hc
        · exact .inl List.mem_cons_self
        · rcases ih hc with hin | ⟨b', hb', rfl⟩ | rfl
          · exact .inl (List.mem_cons_of_mem _ hin)
          · exact .inr (.inl ⟨b', List.mem_cons_of_mem _ hb', rfl⟩)
          · exact .inr (.inr rfl)

variable {b : CompactionCandidate}

/-- Every bin stays, perhaps with one more file. -/
theorem placeFile_keeps (hb : b ∈ bins) :
    b ∈ placeFile target label bins f ∨ b.push f ∈ placeFile target label bins f := by
  induction bins with
  | nil => cases hb
  | cons b' bins ih =>
      rw [placeFile]
      split
      · rcases List.mem_cons.mp hb with rfl | hb
        · exact .inr List.mem_cons_self
        · exact .inl (List.mem_cons_of_mem _ hb)
      · rcases List.mem_cons.mp hb with rfl | hb
        · exact .inl List.mem_cons_self
        · exact (ih hb).imp (List.mem_cons_of_mem _) (List.mem_cons_of_mem _)

/-- Whatever the sums come to, the bins belong to the group and none is empty. -/
theorem packFiles_labelled (files : List FileEntry) :
    ∀ c ∈ packFiles target label files, c.toGroupLabel = label ∧ c.files ≠ [] := by
  induction files using List.reverseRecOn with
  | nil => exact nofun
  | append_singleton files f ih =>
      intro c hc
      rw [packFiles, List.foldl_append] at hc
      rcases mem_placeFile hc with hin | ⟨b, hb, rfl⟩ | rfl
      · exact ih c hin
      · exact ⟨(ih b hb).1, by simp [push]⟩
      · exact ⟨rfl, by simp [opened]⟩

theorem packFiles_perm (files : List FileEntry) :
    ((packFiles target label files).flatMap (·.files)).Perm files := by
  induction files using List.reverseRecOn with
  | nil => exact .nil
  | append_singleton files f ih =>
      rw [packFiles, List.foldl_append]
      exact (placeFile_files _ f).trans
        ((ih.cons f).trans (List.perm_append_singleton f files).symm)

/-- The bins of a packing without overflow. -/
structure Packed (target : Int) (bins : List CompactionCandidate) : Prop where
  bytes : ∀ b ∈ bins, b.bytes = b.total
  positive : ∀ b ∈ bins, 0 < b.total
  fits : ∀ b ∈ bins, b.total ≤ target
  apart : bins.Pairwise (fun b c => target < b.total + c.total)

theorem Packed.tail (h : Packed target (b :: bins)) : Packed target bins :=
  ⟨fun c hc => h.bytes c (List.mem_cons_of_mem _ hc), fun c hc =>
    h.positive c (List.mem_cons_of_mem _ hc),
    fun c hc => h.fits c (List.mem_cons_of_mem _ hc), h.apart.of_cons⟩

/-- A bin that a file goes into, or is opened for, together with a bin that both were too much for.
-/
theorem lt_total_of_mem_placeFile {c : CompactionCandidate} (hpos : 0 < f.1.sizeBytes)
    (hfull : target < b.total + f.1.sizeBytes) (hbins : ∀ x ∈ bins, target < b.total + x.total)
    (hc : c ∈ placeFile target label bins f) : target < b.total + c.total := by
  rcases mem_placeFile hc with hin | ⟨x, hx, rfl⟩ | rfl
  · exact hbins c hin
  · have := hbins x hx
    rw [total_push]
    omega
  · rw [total_opened]
    exact hfull

theorem Packed.place (htarget : target < 2 ^ 63) (hpos : 0 < f.1.sizeBytes)
    (hsize : f.1.sizeBytes ≤ target)
    (h : Packed target bins) (hfit : SumsFit target bins f) :
    Packed target (placeFile target label bins f) := by
  induction bins with
  | nil =>
      simp only [placeFile]
      refine ⟨?_, ?_, ?_, List.pairwise_singleton _ _⟩ <;> simp [opened, total, hpos, hsize]
  | cons b bins ih =>
      have hbytes := h.bytes b List.mem_cons_self
      have hb := h.positive b List.mem_cons_self
      have hword : word64 (b.bytes + f.1.sizeBytes) = b.total + f.1.sizeBytes := by
        rw [word64_eq (by omega) hfit.1, hbytes]
      have hapart := List.pairwise_cons.mp h.apart
      rw [placeFile, hword]
      split
      next hle =>
        refine ⟨List.forall_mem_cons.mpr ⟨?_, h.tail.bytes⟩,
          List.forall_mem_cons.mpr ⟨?_, h.tail.positive⟩,
          List.forall_mem_cons.mpr ⟨?_, h.tail.fits⟩,
          List.pairwise_cons.mpr ⟨fun c hc => ?_, hapart.2⟩⟩
        · rw [total_push]
          exact hword
        · rw [total_push]
          omega
        · rw [total_push]
          exact hle
        · have := hapart.1 c hc
          rw [total_push]
          omega
      next hgt =>
        have hrest := ih h.tail (hfit.2 (by omega))
        exact ⟨List.forall_mem_cons.mpr ⟨hbytes, hrest.bytes⟩,
          List.forall_mem_cons.mpr ⟨hb, hrest.positive⟩,
          List.forall_mem_cons.mpr ⟨h.fits b List.mem_cons_self, hrest.fits⟩,
          List.pairwise_cons.mpr
          ⟨fun c hc => lt_total_of_mem_placeFile hpos (by omega) hapart.1 hc, hrest.apart⟩⟩

/-- A bin of several files whose sizes do not add up within a word. -/
def Overfull (bins : List CompactionCandidate) : Prop :=
  ∃ b ∈ bins, 2 ≤ b.files.length ∧ 2 ^ 63 ≤ b.total

theorem Overfull.place (hpos : 0 < f.1.sizeBytes) (h : Overfull bins) :
    Overfull (placeFile target label bins f) := by
  obtain ⟨b, hb, hlen, htotal⟩ := h
  rcases placeFile_keeps hb with hin | hin
  · exact ⟨b, hin, hlen, htotal⟩
  · refine ⟨b.push f, hin, ?_, ?_⟩
    · simp [push]
      omega
    · rw [total_push]
      omega

/-- The first sum that overflows comes out negative, and the bin takes the file. -/
theorem Packed.place_overfull (htarget : 0 ≤ target) (htarget' : target < 2 ^ 63)
    (hpos : 0 < f.1.sizeBytes)
    (hsize : f.1.sizeBytes ≤ target) (h : Packed target bins) (hnonempty : ∀ b ∈ bins, b.files ≠ [])
    (hover : ¬ SumsFit target bins f) : Overfull (placeFile target label bins f) := by
  induction bins with
  | nil => exact absurd trivial hover
  | cons b bins ih =>
      have hbytes := h.bytes b List.mem_cons_self
      have hb := h.positive b List.mem_cons_self
      have hfits := h.fits b List.mem_cons_self
      by_cases hlt : b.bytes + f.1.sizeBytes < 2 ^ 63
      · rw [SumsFit, not_and] at hover
        obtain ⟨hgt, hrest⟩ := Classical.not_imp.mp (hover hlt)
        rw [placeFile, if_neg (by rw [word64_eq (by omega) hlt]; omega)]
        obtain ⟨c, hc, hc'⟩ := ih h.tail (fun c hc => hnonempty c (List.mem_cons_of_mem _ hc)) hrest
        exact ⟨c, List.mem_cons_of_mem _ hc, hc'⟩
      · have hneg := word64_neg (n := b.bytes + f.1.sizeBytes) (by omega) (by omega)
        rw [placeFile, if_pos (by omega)]
        refine ⟨b.push f, List.mem_cons_self, ?_, ?_⟩
        · have := List.length_pos_iff.mpr (hnonempty b List.mem_cons_self)
          simp [push]
          omega
        · rw [total_push]
          omega

/-- The sums that are formed for a group fit into a word. -/
def GroupFits (target : Int) (label : GroupLabel) (files : List FileEntry) : Prop :=
  Along (placeFile target label) (SumsFit target) [] files

instance (files : List FileEntry) : Decidable (GroupFits target label files) :=
  Along.decidable (placeFile target label) (SumsFit target) [] files

variable {files : List FileEntry}

theorem packFiles_packed (htarget : target < 2 ^ 63)
    (hfiles : ∀ f ∈ files, 0 < f.1.sizeBytes ∧ f.1.sizeBytes ≤ target)
    (h : GroupFits target label files) : Packed target (packFiles target label files) := by
  induction files using List.reverseRecOn with
  | nil => exact ⟨by simp [packFiles], by simp [packFiles], by simp [packFiles], .nil⟩
  | append_singleton files f ih =>
      obtain ⟨hpos, hsize⟩ := hfiles f (by simp)
      obtain ⟨hbefore, hlast⟩ := Along.append.mp h
      rw [packFiles, List.foldl_append]
      exact (ih (fun x hx => hfiles x (List.mem_append_left _ hx)) hbefore).place htarget
        hpos hsize hlast.1

theorem packFiles_overfull (htarget : 0 ≤ target) (htarget' : target < 2 ^ 63)
    (hfiles : ∀ f ∈ files, 0 < f.1.sizeBytes ∧ f.1.sizeBytes ≤ target)
    (h : ¬ GroupFits target label files) :
    Overfull (packFiles target label files) := by
  induction files using List.reverseRecOn with
  | nil => exact absurd trivial h
  | append_singleton files f ih =>
      obtain ⟨hpos, hsize⟩ := hfiles f (by simp)
      have hbefore : ∀ x ∈ files, 0 < x.1.sizeBytes ∧ x.1.sizeBytes ≤ target :=
        fun x hx => hfiles x (List.mem_append_left _ hx)
      rw [packFiles, List.foldl_append]
      by_cases hold : GroupFits target label files
      · refine (packFiles_packed htarget' hbefore hold).place_overfull htarget htarget' hpos hsize
          (fun b hb => (packFiles_labelled files b hb).2) fun hlast => h ?_
        exact Along.append.mpr ⟨hold, hlast, trivial⟩
      · exact (ih hbefore hold).place hpos

end Packing

/-! ## The groups of the live files -/

section Planning
variable (order : SizeSort) (bucket : Bytes) (target small : Int) (files : List LiveFile)

/-- `dir_of`: the directory of a file in the bucket. -/
def dirOf (path : Bytes) : Bytes :=
  let key := match pathToKey bucket path with
    | .ok key => key
    | .error _ => path
  ((key.reverse.dropWhile (· ≠ slash)).drop 1).reverse

/-- A data file that is worth compacting. -/
def isSmall (f : LiveFile) : Bool := f.content = 0 && !(f.sizeBytes ≤ 0 || f.sizeBytes > small)

def fileGroup (f : LiveFile) : GroupKey := toLex (dirOf bucket f.path, f.sortOrderId)

/-- The map of groups, a file at a time. -/
def addToGroup (groups : SortedMap GroupKey (List FileEntry)) (f : FileEntry) :
    SortedMap GroupKey (List FileEntry) :=
  if isSmall small f.1 then
    groups.insert (fileGroup bucket f.1) ((groups.get? (fileGroup bucket f.1)).getD [] ++ [f])
  else groups

def fileGroups : SortedMap GroupKey (List FileEntry) :=
  files.zipIdx.foldl (addToGroup bucket small) SortedMap.empty

/-- `delete_dirs`. -/
def deleteDirs : List Bytes := (files.filter (·.content ≠ 0)).map fun f => dirOf bucket f.path

def labelOf (key : GroupKey) : GroupLabel where
  partition := (ofLex key).1
  sortOrderId := (ofLex key).2
  rowLevelRequired := decide ((ofLex key).1 ∈ deleteDirs bucket files)

/-- The bins of a group; a single file is not packed. -/
def groupBins (group : GroupKey × List FileEntry) : List CompactionCandidate :=
  if group.2.length < 2 then [] else packFiles target (labelOf bucket files group.1)
    (order.sort group.2)

/-- `compaction_candidates` of the plan. -/
def compactionCandidates : List CompactionCandidate :=
  (fileGroups bucket small files).entries.flatMap fun group =>
    (groupBins order bucket target files group).filter (2 ≤ ·.files.length)

/-- What a plan of compactions should be. -/
structure ValidCandidates : Prop where
  several : ∀ c ∈ compactionCandidates order bucket target small files, 2 ≤ c.files.length
  members : ∀ c ∈ compactionCandidates order bucket target small files, ∀ f ∈ c.files,
    f ∈ files.zipIdx ∧
    f.1.content = 0 ∧ dirOf bucket f.1.path = c.partition ∧ f.1.sortOrderId = c.sortOrderId ∧
    0 < f.1.sizeBytes ∧ f.1.sizeBytes ≤ small
  bytes : ∀ c ∈ compactionCandidates order bucket target small files, c.bytes = c.total ∧
    c.bytes ≤ target
  disjoint : ((compactionCandidates order bucket target small files).flatMap (·.files)).Nodup
  rowLevel : ∀ c ∈ compactionCandidates order bucket target small files, c.rowLevelRequired ↔
    ∃ f ∈ files, f.content ≠ 0 ∧ dirOf bucket f.path = c.partition
  firstFit : ∀ group ∈ (fileGroups bucket small files).entries,
    (groupBins order bucket target files group).Pairwise (fun b c => target < b.total + c.total)

variable {order bucket target small files}

theorem isSmall_iff {f : LiveFile} :
    isSmall small f ↔ f.content = 0 ∧ 0 < f.sizeBytes ∧ f.sizeBytes ≤ small := by
  simp [isSmall]

/-- Each group has the small files of its directory and sort order, in the order of the list. -/
theorem get?_fileGroups (key : GroupKey) : ((fileGroups bucket small files).get? key).getD [] =
    files.zipIdx.filter (fun f => isSmall small f.1 ∧ fileGroup bucket f.1 = key) := by
  unfold fileGroups
  induction files.zipIdx using List.reverseRecOn with
  | nil => rfl
  | append_singleton entries f ih =>
      rw [List.foldl_append, List.filter_append, ← ih]
      simp only [List.foldl_cons, List.foldl_nil, addToGroup]
      split
      next hsmall =>
        rw [SortedMap.get?_insert]
        by_cases hkey : key = fileGroup bucket f.1
        · simp [hkey, hsmall]
        · simp [hkey, Ne.symm hkey]
      next hsmall => simp [hsmall]

variable {group : GroupKey × List FileEntry}

theorem group_eq (h : group ∈ (fileGroups bucket small files).entries) :
    group.2 = files.zipIdx.filter (fun f => isSmall small f.1 ∧
      fileGroup bucket f.1 = group.1) := by
  rw [← get?_fileGroups, SortedMap.mem_entries.mp h]
  rfl

theorem mem_group (h : group ∈ (fileGroups bucket small files).entries) {f : FileEntry}
    (hf : f ∈ group.2) : f ∈ files.zipIdx ∧ fileGroup bucket f.1 = group.1 ∧ f.1.content = 0 ∧
      0 < f.1.sizeBytes ∧ f.1.sizeBytes ≤ small := by
  rw [group_eq h, List.mem_filter, decide_eq_true_eq] at hf
  obtain ⟨hmem, hsmall, hkey⟩ := hf
  exact ⟨hmem, hkey, isSmall_iff.mp hsmall⟩

theorem groupBins_files_sub (group : GroupKey × List FileEntry) :
    ((groupBins order bucket target files group).flatMap (·.files)).Subperm group.2 := by
  unfold groupBins
  split
  · exact List.nil_subperm
  · exact ((packFiles_perm _).trans (order.perm _)).subperm

/-- A candidate is a bin of one of the groups. -/
theorem mem_candidates {c : CompactionCandidate}
    (h : c ∈ compactionCandidates order bucket target small files) :
    2 ≤ c.files.length ∧ ∃ group ∈ (fileGroups bucket small files).entries,
      c ∈ groupBins order bucket target files group ∧
        c.toGroupLabel = labelOf bucket files group.1 ∧ ∀ f ∈ c.files, f ∈ group.2 := by
  obtain ⟨group, hgroup, hc⟩ := List.mem_flatMap.mp h
  obtain ⟨hbin, hlen⟩ := List.mem_filter.mp hc
  refine ⟨of_decide_eq_true hlen, group, hgroup, hbin, ?_, fun f hf =>
    (groupBins_files_sub group).subset (List.mem_flatMap.mpr ⟨c, hbin, hf⟩)⟩
  unfold groupBins at hbin
  split at hbin
  · cases hbin
  · exact (packFiles_labelled _ c hbin).1

theorem candidates_nodup :
    ((compactionCandidates order bucket target small files).flatMap (·.files)).Nodup := by
  have hentries : files.zipIdx.Nodup := List.Nodup.of_map Prod.snd (by
    rw [List.zipIdx_map_snd]
    exact List.nodup_range')
  have hsub : ∀ group, (((groupBins order bucket target files group).filter
      (2 ≤ ·.files.length)).flatMap (·.files)).Subperm group.2 := fun group =>
    (List.Sublist.flatMap List.filter_sublist _).subperm.trans (groupBins_files_sub group)
  rw [compactionCandidates, List.flatMap_assoc, List.nodup_flatMap]
  refine ⟨fun group hgroup => ?_, ?_⟩
  · obtain ⟨l, hperm, hl⟩ := hsub group
    rw [group_eq hgroup] at hl
    exact hperm.nodup_iff.mp ((hentries.filter _).sublist hl)
  · -- A file in two groups would have two directories or two sort orders.
    refine (fileGroups bucket small files).sorted.imp_of_mem fun {g g'} hg hg' hlt f hf hf' => ?_
    have hkey := (mem_group hg ((hsub g).subset hf)).2.1
    have hkey' := (mem_group hg' ((hsub g').subset hf')).2.1
    exact absurd (hkey.symm.trans hkey') hlt.ne

theorem rowLevel_iff {key : GroupKey} : (labelOf bucket files key).rowLevelRequired ↔
    ∃ f ∈ files, f.content ≠ 0 ∧ dirOf bucket f.path = (ofLex key).1 := by
  simp only [labelOf, deleteDirs, decide_eq_true_eq, List.mem_map, List.mem_filter, and_assoc]

/-- The files of a group are positive and no larger than the target. -/
theorem sorted_sizes (hsmall : small ≤ target)
    (h : group ∈ (fileGroups bucket small files).entries) :
    ∀ f ∈ order.sort group.2, 0 < f.1.sizeBytes ∧ f.1.sizeBytes ≤ target := by
  intro f hf
  obtain ⟨-, -, -, hpos, hle⟩ := mem_group h ((order.perm group.2).mem_iff.mp hf)
  exact ⟨hpos, hle.trans hsmall⟩

/-- The candidates are valid groups exactly if none of the sums that are formed overflows. -/
theorem compaction_valid_iff (order : SizeSort) (bucket : Bytes) {target small : Int}
    (files : List LiveFile)
    (htarget : 0 < target) (htarget' : target < 2 ^ 63) (hsmall : small ≤ target) :
    ValidCandidates order bucket target small files ↔
      ∀ group ∈ (fileGroups bucket small files).entries, 2 ≤ group.2.length →
        GroupFits target (labelOf bucket files group.1) (order.sort group.2) := by
  constructor
  · intro h group hgroup hlen
    by_contra hover
    obtain ⟨c, hc, hlen', htotal⟩ :=
      packFiles_overfull htarget.le htarget' (sorted_sizes hsmall hgroup) hover
    have hmem : c ∈ compactionCandidates order bucket target small files := by
      refine List.mem_flatMap.mpr ⟨group, hgroup, List.mem_filter.mpr ⟨?_, decide_eq_true hlen'⟩⟩
      rw [groupBins, if_neg (by omega)]
      exact hc
    obtain ⟨hbytes, hle⟩ := h.bytes c hmem
    omega
  · intro h
    have hpacked : ∀ group ∈ (fileGroups bucket small files).entries,
        Packed target (groupBins order bucket target files group) := by
      intro group hgroup
      unfold groupBins
      split
      · exact ⟨by simp, by simp, by simp, .nil⟩
      next hlen =>
        exact packFiles_packed htarget' (sorted_sizes hsmall hgroup) (h group hgroup (by omega))
    refine ⟨fun c hc => (mem_candidates hc).1, fun c hc f hf => ?_, fun c hc => ?_,
      candidates_nodup, fun c hc => ?_, fun group hgroup => (hpacked group hgroup).apart⟩
    · obtain ⟨-, group, hgroup, -, hlabel, hfiles⟩ := mem_candidates hc
      obtain ⟨hmem, hkey, hcontent, hsize⟩ := mem_group hgroup (hfiles f hf)
      refine ⟨hmem, hcontent, ?_, ?_, hsize⟩ <;> rw [hlabel, ← hkey] <;> rfl
    · obtain ⟨-, group, hgroup, hbin, -⟩ := mem_candidates hc
      have hbytes := (hpacked group hgroup).bytes c hbin
      exact ⟨hbytes, hbytes ▸ (hpacked group hgroup).fits c hbin⟩
    · obtain ⟨-, group, -, -, hlabel, -⟩ := mem_candidates hc
      rw [hlabel]
      exact rowLevel_iff

/-- Sorting by insertion. -/
def bySize : SizeSort where
  sort l := l.insertionSort fun a b => b.1.sizeBytes ≤ a.1.sizeBytes
  perm l := List.perm_insertionSort _ l
  sorted l :=
    have : Std.Total fun a b : FileEntry => b.1.sizeBytes ≤ a.1.sizeBytes :=
      ⟨fun _ _ => le_total _ _⟩
    have : IsTrans FileEntry fun a b => b.1.sizeBytes ≤ a.1.sizeBytes :=
      ⟨fun _ _ _ hab hbc => hbc.trans hab⟩
    List.pairwise_insertionSort _ l

/-- Three files of 30, 40 and 50 bytes, packed into a bin of 90 and one of 30. -/
theorem compaction_valid_iff_three :
    let files := [LiveFile.mk (ascii "s3://b/t/data/x") 0 30 0, ⟨ascii "s3://b/t/data/y", 0, 40, 0⟩,
      ⟨ascii "s3://b/t/data/z", 0, 50, 0⟩]
    (compactionCandidates bySize (ascii "b") 100 75 files).map (·.bytes) = [90] ∧
      ValidCandidates bySize (ascii "b") 100 75 files :=
  ⟨by decide +kernel,
    (compaction_valid_iff bySize (ascii "b") _ (by decide) (by decide) (by decide)).mpr
    (by decide +kernel)⟩

/-- With the largest target, two files of 6 · 10¹⁸ bytes each share a bin whose size is negative. -/
theorem compaction_overflow :
    ¬ ValidCandidates bySize (ascii "b") (2 ^ 63 - 1) (3 * 2 ^ 61)
      [⟨ascii "s3://b/t/data/x", 0, 6000000000000000000, 0⟩,
        ⟨ascii "s3://b/t/data/y", 0, 6000000000000000000, 0⟩] := by
  intro h
  have hbytes : ∀ c ∈ compactionCandidates bySize (ascii "b") (2 ^ 63 - 1) (3 * 2 ^ 61)
      [⟨ascii "s3://b/t/data/x", 0, 6000000000000000000, 0⟩,
        ⟨ascii "s3://b/t/data/y", 0, 6000000000000000000, 0⟩],
      c.bytes = c.total := fun c hc => (h.bytes c hc).1
  exact absurd hbytes (by decide +kernel)

end Planning

end Lights3
