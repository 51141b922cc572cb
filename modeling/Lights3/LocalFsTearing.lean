import Lights3.LocalFsCommits

/-!
# Data files keep their metadata

A data file with an attribute describes itself. One without relies on the sidecar, which commits and
taggings replace under the lock; but deletes and deferred sidecars hold no lock. While these leave
the sidecar of such a file alone, and no directory is removed that a running commit has made sure
of, a tagging reads the metadata of the write, every data file has that metadata once the operations
have finished, and no commit misses its directory.
-/
namespace Lights3
open ByteString Interleaving

/-! ## The tree -/

namespace FsTree

variable (s : FsTree) (p q : FsPath) (f : ObjectFiles) (r : Option MetaRecord) (d : Option DataFile)
  (w : MetaRecord) (n : Nat)

theorem filesAt_setFiles : (s.setFiles p f).filesAt q = if q = p then f else s.filesAt q := by
  simp only [setFiles, filesAt, SortedMap.get?_insert]
  split <;> rfl

@[simp] theorem filesAt_setSidecar :
    (s.setSidecar p r).filesAt q = if q = p then { s.filesAt p with sidecar := r } else
    s.filesAt q :=
  filesAt_setFiles ..

@[simp] theorem filesAt_setData :
    (s.setData p d).filesAt q = if q = p then { s.filesAt p with data := d } else s.filesAt q :=
  filesAt_setFiles ..

@[simp] theorem filesAt_setWritten : (s.setWritten p w).filesAt q = s.filesAt q := rfl

@[simp] theorem filesAt_retagWritten (b : Bytes) :
    (s.retagWritten p b).filesAt q = s.filesAt q := rfl

@[simp] theorem filesAt_makeDir : (s.makeDir p).filesAt q = s.filesAt q := rfl

@[simp] theorem filesAt_removeDir : (s.removeDir p).filesAt q = s.filesAt q := rfl

@[simp] theorem filesAt_lock : (s.lock n).filesAt q = s.filesAt q := rfl

@[simp] theorem filesAt_unlock : (s.unlock n).filesAt q = s.filesAt q := rfl

@[simp] theorem written_setWritten :
    (s.setWritten p w).written q = if q = p then some w else s.written q := by
  simp [setWritten, Function.update_apply]

@[simp] theorem written_retagWritten (b : Bytes) : (s.retagWritten p b).written q =
    if q = p then some (((s.written p).getD {}).retag b) else s.written q :=
  written_setWritten ..

@[simp] theorem written_setData : (s.setData p d).written q = s.written q := rfl

@[simp] theorem written_setSidecar : (s.setSidecar p r).written q = s.written q := rfl

@[simp] theorem written_makeDir : (s.makeDir p).written q = s.written q := rfl

@[simp] theorem written_removeDir : (s.removeDir p).written q = s.written q := rfl

@[simp] theorem written_lock : (s.lock n).written q = s.written q := rfl

@[simp] theorem written_unlock : (s.unlock n).written q = s.written q := rfl

@[simp] theorem taken_setData : (s.setData p d).taken = s.taken := rfl

@[simp] theorem taken_setSidecar : (s.setSidecar p r).taken = s.taken := rfl

@[simp] theorem taken_setWritten : (s.setWritten p w).taken = s.taken := rfl

@[simp] theorem taken_retagWritten (b : Bytes) : (s.retagWritten p b).taken = s.taken := rfl

@[simp] theorem taken_makeDir : (s.makeDir p).taken = s.taken := rfl

@[simp] theorem taken_removeDir : (s.removeDir p).taken = s.taken := rfl

@[simp] theorem taken_lock : (s.lock n).taken = Function.update s.taken n true := rfl

@[simp] theorem taken_unlock : (s.unlock n).taken = Function.update s.taken n false := rfl

end FsTree

namespace FsTask

/-- The object that the task is about. -/
def path? : FsTask → Option FsPath
  | .commitLock w | .commitCondition w | .commitDirs w _ | .commitCheck w | .commitXattr w
  | .commitRename w _ | .commitFinish w _ | .commitDeferred w | .noEntry w => some w.path
  | .deleteData p | .deleteSidecar p | .tagLock p _ | .tagStat p _ | .tagGetXattr p _
  | .tagReadSidecar p _ | .tagSetXattr p .. | .tagExists p .. | .tagSidecar p .. | .reapLock p
  | .reapCheck p | .reapUnlink p => some p
  | .copyStat .. | .copyGetXattr .. | .copyReadSidecar .. | .copyOpen .. | .pruneCheck _
  | .pruneRemove _ | .done => none

/-- The task holds the commit lock of its object. -/
def locks : FsTask → Bool
  | .commitCondition _ | .commitDirs .. | .commitCheck _ | .commitXattr _ | .commitRename ..
  | .commitFinish .. | .tagStat .. | .tagGetXattr .. | .tagReadSidecar .. | .tagSetXattr ..
  | .tagExists .. | .tagSidecar .. | .reapCheck _ | .reapUnlink _ => true
  | _ => false

/-- The stripe that the task holds. -/
def stripe? (o : FsOptions) (t : FsTask) : Option Nat :=
  if t.locks then t.path?.map o.stripe else none

variable {o : FsOptions} {s : FsTree} {ok : Bool} {t : FsTask} {q : FsPath}

/-- Only the task's own object changes. -/
theorem move_other (h : t.path? ≠ some q) :
    (t.move o s ok).1.filesAt q = s.filesAt q ∧ (t.move o s ok).1.written q = s.written q := by
  have hne : ∀ p, t.path? = some p → q ≠ p := fun p hp hq => h (hq ▸ hp)
  cases t with
  | copyStat | copyGetXattr | copyReadSidecar | copyOpen | pruneCheck | pruneRemove | done =>
      simp only [move]
      repeat' split
      all_goals simp
  | _ =>
      simp only [move, acquire]
      repeat' split
      all_goals simp [hne _ rfl]

/-- Without the lock, data files are only removed. -/
theorem move_unlocked (h : t.locks = false) :
    (((t.move o s ok).1.filesAt q).data = (s.filesAt q).data ∨
      ((t.move o s ok).1.filesAt q).data = none) ∧ (t.move o s ok).1.written q = s.written q := by
  cases t <;> simp only [locks, Bool.true_eq_false] at h <;> simp only [move, acquire]
  all_goals repeat' split
  all_goals simp
  all_goals split <;> simp_all

/-- A move leaves the locks alone, takes the lock of its object if it is free, or gives it back. -/
theorem move_lock :
    ((t.move o s ok).1.taken = s.taken ∧ (t.move o s ok).2.stripe? o = t.stripe? o) ∨
    (∃ l, s.taken l = false ∧ (t.move o s ok).1.taken = Function.update s.taken l true ∧
      (t.move o s ok).2.stripe? o = some l) ∨
    ∃ l, t.stripe? o = some l ∧ (t.move o s ok).1.taken = Function.update s.taken l false ∧
      (t.move o s ok).2.stripe? o = none := by
  cases t <;> simp only [move, acquire]
  all_goals repeat' split
  all_goals simp_all [stripe?, locks, path?]

end FsTask

abbrev FsConfig := Config FsTree FsTask

abbrev FsEvent := Event FsRequest Bool Unit

abbrev FsExclusive (o : FsOptions) : FsConfig → Prop := Exclusive FsTree.taken (FsTask.stripe? o)

theorem FsExclusive.step {o : FsOptions} {s : FsConfig} (h : FsExclusive o s) (e : FsEvent) :
    FsExclusive o ((fsMachine o).step s e) :=
  Exclusive.step h e (fun r => by cases r <;> rfl) (fun _ _ => FsTask.move_lock) fun _ => rfl

/-! ## Directories -/

namespace FsTask

/-- The commit has made sure of the directory and may still use it. -/
def needs (dir : FsPath) : FsTask → Bool
  | .commitDirs w todo => dir ∈ w.parents && dir ∉ todo
  | .commitCheck w | .commitXattr w | .commitRename w _ | .commitFinish w _ => dir ∈ w.parents
  | _ => false

/-- The directories that a commit has made sure of are there, so it does not fail. -/
structure Ready (s : FsTree) (t : FsTask) : Prop where
  todo : ∀ w todo, t = .commitDirs w todo → todo <:+ w.parents
  made : ∀ dir, t.needs dir → dir ∈ s.dirs
  entry : ∀ w, t ≠ .noEntry w

end FsTask

theorem ObjectWrite.length_of_mem_drop {w : ObjectWrite} {n : Nat} {dir : FsPath}
    (h : dir ∈ w.parents.drop n) : n < dir.length := by
  obtain ⟨k, hk⟩ := List.mem_iff_getElem?.mp h
  rw [List.getElem?_drop] at hk
  obtain ⟨hlt, rfl⟩ := List.getElem?_eq_some_iff.mp hk
  simp only [parents, List.length_map, List.length_range] at hlt
  simp only [parents, List.getElem_map, List.getElem_range, List.length_take]
  omega

/-- The parent of a directory that comes next has been made sure of. -/
theorem ObjectWrite.dropLast_of_suffix {w : ObjectWrite} {p : FsPath} {todo : List FsPath}
    (h : p :: todo <:+ w.parents) :
    p.dropLast = [] ∨ (p.dropLast ∈ w.parents ∧ p.dropLast ∉ p :: todo) := by
  obtain ⟨n, hn⟩ : ∃ n, p :: todo = w.parents.drop n := ⟨_, List.suffix_iff_eq_drop.mp h⟩
  have hp : w.parents[n]? = some p := by
    have := congrArg (·[0]?) hn
    simpa [List.getElem?_drop] using this.symm
  obtain ⟨hlt, rfl⟩ := List.getElem?_eq_some_iff.mp hp
  have hlt' : n < w.dir.length := by simpa [parents] using hlt
  have hdrop : (w.parents[n]).dropLast = w.dir.take n := by
    simp only [parents, List.getElem_map, List.getElem_range]
    rw [List.dropLast_eq_take, List.length_take, List.take_take]
    congr 1
    omega
  rw [hn, hdrop]
  cases n with
  | zero => exact .inl rfl
  | succ n =>
      refine .inr ⟨?_, fun hmem => ?_⟩
      · simp only [parents, List.mem_map, List.mem_range]
        exact ⟨n, by omega, rfl⟩
      · have := length_of_mem_drop hmem
        simp only [List.length_take] at this
        omega

theorem ObjectWrite.isDirectory_dir {w : ObjectWrite} {s : FsTree}
    (h : ∀ dir ∈ w.parents, dir ∈ s.dirs) : s.isDirectory w.dir := by
  cases hdir : w.dir.length with
  | zero => simp [FsTree.isDirectory, List.length_eq_zero_iff.mp hdir]
  | succ n =>
      have hmem : w.dir ∈ w.parents := by
        simp only [parents, List.mem_map, List.mem_range]
        exact ⟨n, by omega, List.take_of_length_le (by omega)⟩
      simp [FsTree.isDirectory, h _ hmem]

namespace FsTask

variable {o : FsOptions} {s : FsTree} {ok : Bool} {t : FsTask}

theorem ready_of_needs (hdirs : ∀ w todo, t ≠ .commitDirs w todo)
    (hneeds : ∀ dir, t.needs dir = false) (hentry : ∀ w, t ≠ .noEntry w) : t.Ready s :=
  ⟨fun w todo h => absurd h (hdirs w todo), fun dir h => by simp [hneeds] at h, hentry⟩

/-- A commit that makes sure of one directory after the other finds each parent. -/
theorem move_ready_dirs {w : ObjectWrite} {p : FsPath} {todo : List FsPath}
    (h : (commitDirs w (p :: todo)).Ready s) :
    ((commitDirs w (p :: todo)).move o s ok).2.Ready
    ((commitDirs w (p :: todo)).move o s ok).1 := by
  have hsuffix := h.todo w (p :: todo) rfl
  have hparent : s.isDirectory p.dropLast := by
    rcases ObjectWrite.dropLast_of_suffix hsuffix with hroot | ⟨hmem, hnot⟩
    · simp [FsTree.isDirectory, hroot]
    · have := h.made p.dropLast (by simp [needs, hmem, hnot])
      simp [FsTree.isDirectory, this]
  have hnext : ∀ s' : FsTree, (∀ dir ∈ s.dirs, dir ∈ s'.dirs) → p ∈ s'.dirs →
      (commitDirs w todo).Ready s' := by
    refine fun s' hold hp => ⟨fun w' todo' heq => ?_, fun dir hdir => ?_, by simp⟩
    · cases heq
      exact (List.suffix_cons p todo).trans hsuffix
    · by_cases hdp : dir = p
      · exact hdp ▸ hp
      · refine hold dir (h.made dir ?_)
        simpa [needs, hdp] using hdir
  simp only [move, hparent, if_true]
  split
  next hp => exact hnext s (fun _ hd => hd) hp
  · split
    · exact ready_of_needs (by simp) (by simp [needs]) (by simp)
    · exact hnext _ (fun _ hd => List.mem_cons_of_mem _ hd) List.mem_cons_self

theorem move_ready (h : t.Ready s) : (t.move o s ok).2.Ready (t.move o s ok).1 := by
  cases t with
  | noEntry w => exact absurd rfl (h.entry w)
  | commitCondition w =>
      simp only [move]
      split
      · exact ⟨fun _ _ heq => by cases heq; exact List.suffix_refl _, by simp [needs], by simp⟩
      · exact ready_of_needs (by simp) (by simp [needs]) (by simp)
  | commitDirs w todo =>
      cases todo with
      | nil => exact ⟨by simp [move], fun dir hdir =>
        h.made dir (by simpa [move, needs] using hdir), by simp [move]⟩
      | cons p todo => exact move_ready_dirs h
  | commitCheck w | commitXattr w =>
      simp only [move]
      split
      · exact ready_of_needs (by simp) (by simp [needs]) (by simp)
      · exact ⟨by simp, h.made, by simp⟩
  | commitRename w xattrOk =>
      have hdir :=
        w.isDirectory_dir (s := s) fun dir hdir => h.made dir (by simpa [needs] using hdir)
      simp only [move, hdir, Bool.not_true, Bool.false_eq_true, if_false]
      split
      · exact ready_of_needs (by simp) (by simp [needs]) (by simp)
      · exact ⟨by simp, h.made, by simp⟩
  | commitFinish w xattrOk =>
      have hdir :=
        w.isDirectory_dir (s := s) fun dir hdir => h.made dir (by simpa [needs] using hdir)
      simp only [move, hdir, if_true]
      repeat' split
      all_goals exact ready_of_needs (by simp) (by simp [needs]) (by simp)
  | _ =>
      simp only [move, acquire]
      repeat' split
      all_goals exact ready_of_needs (by simp) (by simp [needs]) (by simp)

/-- A directory goes away only if a delete removes it. -/
theorem move_dirs {dir : FsPath} (h : dir ∈ s.dirs) : dir ∈ (t.move o s ok).1.dirs ∨
    ((t = .deleteData dir ∨ t = .pruneRemove dir) ∧ s.isEmpty dir) := by
  cases t with
  | deleteData p | pruneRemove p =>
      simp only [move]
      split
      · split
        next hempty =>
          by_cases hp : dir = p
          · exact .inr ⟨by simp [hp], hp ▸ hempty⟩
          · exact .inl (List.mem_filter.mpr ⟨h, by simpa using hp⟩)
        · exact .inl h
      · exact .inl h
  | commitDirs w todo =>
      cases todo with
      | nil => exact .inl h
      | cons p todo =>
          simp only [move]
          repeat' split
          all_goals first | exact .inl h | exact .inl (List.mem_cons_of_mem _ h)
  | _ =>
      simp only [move, acquire]
      repeat' split
      all_goals exact .inl h

/-! ## Data files -/

/-- What a task under the lock knows about the data file of its object, if it is still there. -/
def Knows (s : FsTree) : FsTask → Prop
  | .commitFinish w xattrOk => ∀ d ∈ (s.filesAt w.path).data,
      d.xattr = (if xattrOk then some w.record else none) ∧ s.written w.path = some w.record
  | .tagReadSidecar p _ => ∀ d ∈ (s.filesAt p).data, d.xattr = none
  | .tagSetXattr p tagging r | .tagSidecar p tagging r false =>
      ∀ d ∈ (s.filesAt p).data, r = ((s.written p).getD {}).retag tagging
  | .tagExists p _ _ | .tagSidecar p _ _ true => ∀ d ∈ (s.filesAt p).data, d.xattr.isSome
  | .reapUnlink p => (s.filesAt p).data = none
  | _ => True

/-- The commits and taggings of an object find the metadata of its write, if a tagging does so that
reads it. -/
theorem move_knows (h : t.Knows s)
    (hread : ∀ p tagging, t = .tagGetXattr p tagging ∨ t = .tagReadSidecar p tagging →
      ∀ d ∈ (s.filesAt p).data, (s.filesAt p).effective = s.written p) :
    (t.move o s ok).2.Knows (t.move o s ok).1 := by
  cases t with
  | tagGetXattr p tagging =>
      simp only [move]
      split
      next r hr =>
        obtain ⟨d, hd, hx⟩ := Option.bind_eq_some_iff.mp hr
        intro d' hd'
        rw [← hread p tagging (.inl rfl) d hd]
        simp [ObjectFiles.effective, hd, hx]
      next hnone =>
        intro d hd
        simpa [Option.mem_def.mp hd] using hnone
  | tagReadSidecar p tagging =>
      simp only [move, Knows]
      intro d hd
      rw [← hread p tagging (.inr rfl) d hd]
      simp [ObjectFiles.effective, Option.mem_def.mp hd, h d hd]
  | commitRename w xattrOk =>
      simp only [move]
      split
      · trivial
      · split
        · trivial
        · simp [Knows]
  | tagSetXattr p tagging r =>
      simp only [move]
      repeat' split
      · simp [Knows]
      · trivial
      · exact h
  | tagExists p tagging r =>
      simp only [move]
      split
      · trivial
      · exact h
  | reapCheck p =>
      simp only [move]
      split
      · trivial
      next hnone => simpa [Knows] using hnone
  | reapUnlink p => trivial
  | _ =>
      simp only [move, acquire]
      repeat' split
      all_goals trivial

/-- What a task knows only depends on the data file, and stays true when this is removed. -/
theorem Knows.frame {s' : FsTree} {u : FsTask} (h : u.Knows s)
    (hframe : ∀ q, u.path? = some q → u.locks →
      ((s'.filesAt q).data = (s.filesAt q).data ∨ (s'.filesAt q).data = none) ∧
      s'.written q = s.written q) :
    u.Knows s' := by
  cases u with
  | commitFinish w xattrOk =>
      obtain ⟨hsame | hnone, hwritten⟩ := hframe w.path rfl rfl
      · simpa [Knows, hsame, hwritten] using h
      · simp [Knows, hnone]
  | tagReadSidecar p _ | tagSetXattr p _ _ | tagExists p _ _ =>
      obtain ⟨hsame | hnone, hwritten⟩ := hframe p rfl rfl
      · simpa [Knows, hsame, hwritten] using h
      · simp [Knows, hnone]
  | tagSidecar p tagging r xattrOk =>
      obtain ⟨hsame | hnone, hwritten⟩ := hframe p rfl rfl
      · cases xattrOk <;> simpa [Knows, hsame, hwritten] using h
      · cases xattrOk <;> simp [Knows, hnone]
  | reapUnlink p =>
      obtain ⟨hsame | hnone, -⟩ := hframe p rfl rfl
      · exact hsame.trans h
      · exact hnone
  | _ => trivial

end FsTask

/-! ## Every run -/

/-- No directory is removed that a running commit has made sure of. A delete removes the sidecar
only of a data file with an attribute or of none, and a deferred sidecar only replaces the sidecar
of such a file, or says what was written. -/
def KeepsClear (s : FsConfig) : FsTask → Prop
  | .deleteData p | .pruneRemove p =>
      p ∈ s.shared.dirs → s.shared.isEmpty p → ∀ u ∈ s.tasks, u.needs p = false
  | .deleteSidecar p => ∀ d ∈ (s.shared.filesAt p).data, d.xattr.isSome
  | .commitDeferred w =>
      ∀ d ∈ (s.shared.filesAt w.path).data, d.xattr.isSome ∨ s.shared.written w.path = some w.record
  | _ => True

/-- Every data file has the metadata of its write, or a commit is about to write it into the
sidecar. -/
def PathDescribed (s : FsConfig) (q : FsPath) : Prop :=
  ∀ d ∈ (s.shared.filesAt q).data, (s.shared.filesAt q).effective = s.shared.written q ∨
    (d.xattr = none ∧ ∃ w, .commitFinish w false ∈ s.tasks ∧ w.path = q)

/-- The invariant of the runs that keep clear. -/
structure Untorn (o : FsOptions) (s : FsConfig) : Prop where
  exclusive : FsExclusive o s
  ready : ∀ t ∈ s.tasks, t.Ready s.shared
  knows : ∀ t ∈ s.tasks, t.Knows s.shared
  described : ∀ q, PathDescribed s q

namespace Untorn

variable {o : FsOptions} {s : FsConfig} {i : Nat} {ok : Bool} {t : FsTask}

theorem ready_move (h : Untorn o s) (ht : s.tasks[i]? = some t) (hclear : KeepsClear s t) :
    ∀ u ∈ s.tasks.set i (t.move o s.shared ok).2, u.Ready (t.move o s.shared ok).1 := by
  intro u hu
  rcases List.mem_or_eq_of_mem_set hu with hold | rfl
  · obtain ⟨htodo, hmade, hentry⟩ := h.ready u hold
    refine ⟨htodo, fun dir hdir => ?_, hentry⟩
    rcases FsTask.move_dirs (hmade dir hdir) with hstay | ⟨hremove, hempty⟩
    · exact hstay
    · -- The delete would remove a directory that this commit needs.
      have hnot : u.needs dir = false := by
        rcases hremove with rfl | rfl <;> exact hclear (hmade dir hdir) hempty u hold
      rw [hnot] at hdir
      cases hdir
  · exact FsTask.move_ready (h.ready t (List.mem_of_getElem? ht))

/-- Under the lock of an object no commit is about to write its sidecar. -/
theorem effective_of_lock (h : Untorn o s) (ht : s.tasks[i]? = some t) {p : FsPath}
    (hp : t.path? = some p) (hlocks : t.locks) (hnot : ∀ w, t ≠ .commitFinish w false) :
    ∀ d ∈ (s.shared.filesAt p).data, (s.shared.filesAt p).effective = s.shared.written p := by
  intro d hd
  rcases h.described p d hd with heff | ⟨-, w, hw, rfl⟩
  · exact heff
  · obtain ⟨j, hj⟩ := List.mem_iff_getElem?.mp hw
    have hij := h.exclusive.unique i j t _ (o.stripe w.path) ht hj
      (by simp [FsTask.stripe?, hlocks, hp]) rfl
    rw [← hij, ht, Option.some.injEq] at hj
    exact absurd hj (hnot w)

theorem knows_move (h : Untorn o s) (ht : s.tasks[i]? = some t) :
    ∀ u ∈ s.tasks.set i (t.move o s.shared ok).2, u.Knows (t.move o s.shared ok).1 := by
  intro u hu
  obtain ⟨j, hj⟩ := List.mem_iff_getElem?.mp hu
  rcases getElem?_set_cases hj with ⟨-, rfl⟩ | ⟨hij, hj⟩
  · exact FsTask.move_knows (h.knows t (List.mem_of_getElem? ht)) fun p tagging heq =>
      h.effective_of_lock ht (by rcases heq with rfl | rfl <;> rfl)
        (by rcases heq with rfl | rfl <;> rfl) (by rcases heq with rfl | rfl <;> simp)
  · refine (h.knows u (List.mem_of_getElem? hj)).frame fun q hq hlocks => ?_
    by_cases htq : t.path? = some q
    · -- Two tasks with the lock of the same object are one.
      have hfree : t.locks = false := by
        by_contra hlocked
        exact hij (h.exclusive.unique i j t u (o.stripe q) ht hj
          (by simp [FsTask.stripe?, hlocked, htq]) (by simp [FsTask.stripe?, hlocks, hq]))
      exact FsTask.move_unlocked hfree
    · obtain ⟨hfiles, hwritten⟩ := FsTask.move_other (o := o) (s := s.shared) (q := q) (t := t) htq
      exact ⟨.inl (by rw [hfiles]), hwritten⟩

/-- A move that leaves the files of an object alone. -/
theorem described_same {q : FsPath} {s' : FsTree} {t' : FsTask} (h : Untorn o s)
    (ht : s.tasks[i]? = some t)
    (hnot : ∀ w, t = .commitFinish w false → w.path ≠ q)
    (hfiles : s'.filesAt q = s.shared.filesAt q)
    (hwritten : s'.written q = s.shared.written q) : PathDescribed ⟨s', s.tasks.set i t'⟩ q := by
  intro d hd
  simp only [hfiles, hwritten] at hd ⊢
  refine (h.described q d hd).imp_right ?_
  rintro ⟨hx, w, hmem, hw⟩
  refine ⟨hx, w, ?_, hw⟩
  obtain ⟨j, hj⟩ := List.mem_iff_getElem?.mp hmem
  refine List.mem_iff_getElem?.mpr ⟨j, ?_⟩
  rw [List.getElem?_set_ne, hj]
  rintro rfl
  rw [ht, Option.some.injEq] at hj
  exact hnot w hj hw

/-- What was given to a data file with an attribute is in the attribute. -/
theorem written_eq_xattr {q : FsPath} (h : PathDescribed s q) {d : DataFile}
    (hd : (s.shared.filesAt q).data = some d)
    (hx : d.xattr.isSome) : s.shared.written q = d.xattr := by
  obtain ⟨r, hr⟩ := Option.isSome_iff_exists.mp hx
  rcases h d hd with heff | ⟨hnone, -⟩
  · simp [← heff, ObjectFiles.effective, hd, hr]
  · simp [hnone] at hx

/-- A sidecar that is removed or replaced does not matter for a data file with an attribute. -/
theorem described_setSidecar {p : FsPath} (r : Option MetaRecord) {s' : FsTree} {ts : List FsTask}
    (h : PathDescribed s p) (hfiles : s'.filesAt p = { s.shared.filesAt p with sidecar := r })
    (hsidecar : ∀ d ∈ (s.shared.filesAt p).data,
      (d.xattr.isSome ∧ s'.written p = s.shared.written p) ∨
      (d.xattr = none ∧ r = s'.written p)) : PathDescribed ⟨s', ts⟩ p := by
  intro d hd
  simp only [hfiles] at hd ⊢
  refine .inl ?_
  rcases hsidecar d hd with ⟨hx, hwritten⟩ | ⟨hx, hr⟩
  · obtain ⟨x, hr⟩ := Option.isSome_iff_exists.mp hx
    rw [hwritten, written_eq_xattr h hd hx]
    simp [ObjectFiles.effective, Option.mem_def.mp hd, hr]
  · simp [ObjectFiles.effective, Option.mem_def.mp hd, hx, hr]

theorem described_commit (h : Untorn o s) {w : ObjectWrite} {xattrOk : Bool}
    (ht : s.tasks[i]? = some (.commitRename w xattrOk)) :
    PathDescribed ⟨(FsTask.move o s.shared ok (.commitRename w xattrOk)).1,
      s.tasks.set i (FsTask.move o s.shared ok (.commitRename w xattrOk)).2⟩ w.path := by
  obtain ⟨hlt, -⟩ := List.getElem?_eq_some_iff.mp ht
  simp only [FsTask.move]
  split
  · exact h.described_same ht (by simp) rfl rfl
  · split
    · exact h.described_same ht (by simp) rfl rfl
    · intro d hd
      obtain rfl : _ = d := by simpa using hd
      cases xattrOk with
      | true => exact .inl (by simp [ObjectFiles.effective])
      | false => exact .inr ⟨rfl, w, List.mem_set hlt _, rfl⟩

theorem described_finish (h : Untorn o s) {w : ObjectWrite} {xattrOk : Bool}
    (ht : s.tasks[i]? = some (.commitFinish w xattrOk)) :
    PathDescribed ⟨(FsTask.move o s.shared ok (.commitFinish w xattrOk)).1,
      s.tasks.set i (FsTask.move o s.shared ok (.commitFinish w xattrOk)).2⟩ w.path := by
  have hmem := List.mem_of_getElem? ht
  have hknows := h.knows _ hmem
  have hdir :=
    w.isDirectory_dir fun dir hdir => (h.ready _ hmem).made dir (by simpa [FsTask.needs] using hdir)
  simp only [FsTask.move, hdir, if_true]
  split
  next hlazy =>
    refine described_setSidecar none (h.described _) (by simp) fun d hd => .inl ?_
    simp [(hknows d hd).1, hlazy.1]
  · split
    next hasync => exact h.described_same ht (by simp [hasync.1]) rfl rfl
    · refine described_setSidecar (some w.record) (h.described _) (by simp) fun d hd => ?_
      obtain ⟨hx, hwritten⟩ := hknows d hd
      cases xattrOk with
      | true => exact .inl (by simp [hx])
      | false => exact .inr (by simp [hx, hwritten])

theorem described_move (h : Untorn o s) (ht : s.tasks[i]? = some t) (hclear : KeepsClear s t)
    (q : FsPath) :
    PathDescribed ⟨(t.move o s.shared ok).1, s.tasks.set i (t.move o s.shared ok).2⟩ q := by
  by_cases htq : t.path? = some q
  · cases t with
    | commitRename w xattrOk =>
        obtain rfl := Option.some.inj htq
        exact h.described_commit ht
    | commitFinish w xattrOk =>
        obtain rfl := Option.some.inj htq
        exact h.described_finish ht
    | commitDeferred w =>
        obtain rfl := Option.some.inj htq
        simp only [FsTask.move]
        split
        · refine described_setSidecar (some w.record) (h.described _) (by simp) fun d hd => ?_
          cases hx : d.xattr with
          | none => exact .inr (by simpa [hx, eq_comm] using hclear d hd)
          | some x => exact .inl (by simp)
        · exact h.described_same ht (by simp) rfl rfl
    | deleteData p =>
        obtain rfl := Option.some.inj htq
        simp only [FsTask.move]
        repeat' split
        · exact h.described_same ht (by simp) rfl rfl
        · exact h.described_same ht (by simp) rfl rfl
        · intro d hd
          simp at hd
    | deleteSidecar p =>
        obtain rfl := Option.some.inj htq
        exact described_setSidecar none (h.described _) (by simp [FsTask.move]) fun d hd =>
          .inl ⟨hclear d hd, by simp [FsTask.move]⟩
    | tagSetXattr p tagging r =>
        obtain rfl := Option.some.inj htq
        have hknows := h.knows _ (List.mem_of_getElem? ht)
        simp only [FsTask.move]
        split
        next old hold =>
          intro d hd
          obtain rfl : _ = d := by simpa using hd
          exact .inl (by simp [ObjectFiles.effective, hknows old hold])
        · split
          · exact h.described_same ht (by simp) rfl rfl
          · exact h.described_same ht (by simp) rfl rfl
    | tagSidecar p tagging r xattrOk =>
        obtain rfl := Option.some.inj htq
        have hknows := h.knows _ (List.mem_of_getElem? ht)
        simp only [FsTask.move]
        split
        · split
          next hnone =>
            refine described_setSidecar (some r) (h.described _) (by simp) fun d hd => .inr ?_
            have hx : d.xattr = none := by simpa [Option.mem_def.mp hd] using hnone
            cases xattrOk with
            | true => simpa [hx] using hknows d hd
            | false => exact ⟨hx, by simp [hknows d hd]⟩
          next hsome =>
            refine described_setSidecar (some r) (h.described _) (by simp) fun d hd => .inl ?_
            simpa [Option.mem_def.mp hd, Option.isSome_iff_ne_none] using hsome
        · exact h.described_same ht (by simp) rfl rfl
    | reapUnlink p =>
        obtain rfl := Option.some.inj htq
        have hnone : (s.shared.filesAt p).data = none := h.knows _ (List.mem_of_getElem? ht)
        intro d hd
        simp [FsTask.move, hnone] at hd
    | _ =>
        simp only [FsTask.move, FsTask.acquire]
        repeat' split
        all_goals exact h.described_same ht (by simp) rfl rfl
  · obtain ⟨hfiles, hwritten⟩ := FsTask.move_other (o := o) (s := s.shared) (q := q) (t := t) htq
    exact h.described_same ht (fun w hw hq => htq (by simp [hw, FsTask.path?, hq])) hfiles hwritten

theorem step (h : Untorn o s) {e : FsEvent} (he : OnMoves KeepsClear s e) :
    Untorn o ((fsMachine o).step s e) := by
  have hexcl := h.exclusive.step e
  cases e with
  | env => exact h
  | spawn r =>
      have hstart : ∀ t ∈ s.tasks ++ [r.start], t ∈ s.tasks ∨ t = r.start := by simp
      refine ⟨hexcl, fun t ht => ?_, fun t ht => ?_, fun q d hd => ?_⟩
      · rcases hstart t ht with hold | rfl
        · exact h.ready t hold
        · cases r <;> exact FsTask.ready_of_needs (by simp [FsRequest.start])
            (by simp [FsRequest.start, FsTask.needs]) (by simp [FsRequest.start])
      · rcases hstart t ht with hold | rfl
        · exact h.knows t hold
        · cases r <;> trivial
      · exact (h.described q d hd).imp_right fun ⟨hx, w, hmem, hw⟩ =>
          ⟨hx, w, List.mem_append_left _ hmem, hw⟩
  | advance i ok =>
      cases ht : s.tasks[i]? with
      | none =>
          rw [Machine.step_advance_none ht]
          exact h
      | some t =>
          rw [Machine.step_advance ht] at hexcl ⊢
          exact ⟨hexcl, h.ready_move ht (he t ht), h.knows_move ht, h.described_move ht (he t ht)⟩

theorem start (o : FsOptions) (dirs : List FsPath) (files : SortedMap FsPath ObjectFiles) :
    Untorn o ⟨.start dirs files, []⟩ where
  exclusive := ⟨by simp, by simp⟩
  ready := by simp
  knows := by simp
  described _ _ _ := .inl rfl

end Untorn

/-- Returned or failed. -/
def FsTask.finished : FsTask → Bool
  | .done | .noEntry _ => true
  | _ => false

/-- No commit misses its directory, and when all operations have finished every data file has the
metadata of the write that made it, with the tags that took effect since. -/
theorem objects_untorn (o : FsOptions) (dirs : List FsPath) (files : SortedMap FsPath ObjectFiles)
    (es : List FsEvent)
    (h : Along (fsMachine o).step (OnMoves KeepsClear) ⟨.start dirs files, []⟩ es) :
    let s := (fsMachine o).run ⟨.start dirs files, []⟩ es
    (∀ w, .noEntry w ∉ s.tasks) ∧
      ((∀ t ∈ s.tasks, t.finished) → ∀ p, (s.shared.filesAt p).data.isSome →
        (s.shared.filesAt p).effective = s.shared.written p) := by
  intro s
  have hinv : Untorn o s := h.invariant (.start o dirs files) fun _ _ hs hr => hr.step hs
  refine ⟨fun w hw => (hinv.ready _ hw).entry w rfl, fun hdone p hp => ?_⟩
  obtain ⟨d, hd⟩ := Option.isSome_iff_exists.mp hp
  rcases hinv.described p d hd with heff | ⟨-, w, hw, -⟩
  · exact heff
  · cases hdone _ hw

instance (s : FsConfig) (t : FsTask) : Decidable (KeepsClear s t) :=
  match t with
  | .deleteData p | .pruneRemove p =>
      inferInstanceAs
        (Decidable (p ∈ s.shared.dirs → s.shared.isEmpty p → ∀ u ∈ s.tasks, u.needs p = false))
  | .deleteSidecar p =>
      inferInstanceAs (Decidable (∀ d ∈ (s.shared.filesAt p).data, d.xattr.isSome))
  | .commitDeferred w => inferInstanceAs (Decidable (∀ d ∈ (s.shared.filesAt w.path).data,
      d.xattr.isSome ∨ s.shared.written w.path = some w.record))
  | .copyStat .. | .copyGetXattr .. | .copyReadSidecar .. | .copyOpen .. | .commitLock _
  | .commitCondition _ | .commitDirs .. | .commitCheck _ | .commitXattr _ | .commitRename ..
  | .commitFinish .. | .noEntry _ | .pruneCheck _ | .tagLock .. | .tagStat .. | .tagGetXattr ..
  | .tagReadSidecar .. | .tagSetXattr .. | .tagExists .. | .tagSidecar .. | .reapLock _
  | .reapCheck _ | .reapUnlink _ | .done => inferInstanceAs (Decidable True)

/-- The moves of a commit of an object in a directory, without attributes. -/
def plainCommit (i : Nat) : List FsEvent :=
  [.advance i true, .advance i true, .advance i true, .advance i true, .advance i true,
    .advance i false, .advance i false, .advance i false]

def oneObject : SortedMap FsPath ObjectFiles :=
  SortedMap.empty.insert [[97], [121]] ⟨some {}, some {}⟩

/-- A sibling is deleted when the commit has its data file in place; then the object is tagged. -/
theorem objects_untorn_sibling :
    let es : List FsEvent := .spawn (.commit ⟨[[97], [120]], [1], { etag := [1] }⟩) ::
      .spawn (.delete [[97], [121]]) :: plainCommit 0 ++ List.replicate 4 (.advance 1 true) ++
      .spawn (.tag [[97], [120]] [5]) :: List.replicate 7 (.advance 2 true)
    let s := (fsMachine {}).run ⟨.start [[[97]]] oneObject, []⟩ es
    (∀ w, .noEntry w ∉ s.tasks) ∧ (s.shared.filesAt [[97], [120]]).effective =
      some (metaKv { etag := [1], tagging := [5] } {}) := by
  intro es s
  have h := objects_untorn {} [[[97]]] oneObject es (by decide)
  exact ⟨h.1, (h.2 (by decide) _ (by decide)).trans (by decide)⟩

/-- A delete removes the data file, a commit of the same object runs to its end, and the delete
removes the sidecar. -/
def deleteAroundCommit : List FsEvent :=
  [.spawn (.delete [[97], [121]]), .spawn (.commit ⟨[[97], [121]], [1], {}⟩), .advance 0 true] ++
    plainCommit 1 ++ [.advance 0 true, .advance 0 true]

/-- A delete removes the directory that a commit of a sibling has just made sure of. -/
def pruneUnderCommit : List FsEvent :=
  [.spawn (.delete [[97], [121]]), .spawn (.commit ⟨[[97], [120]], [1], {}⟩), .advance 1 true,
    .advance 1 true,
    .advance 1 true] ++ List.replicate 5 (.advance 0 true) ++ List.replicate 5 (.advance 1 false)

/-- The deferred sidecar of a commit arrives after a later commit of the same object whose attribute
was not set. -/
def lateSidecar : List FsEvent :=
  [.spawn (.commit ⟨[[97], [121]], [1], { etag := [1] }⟩),
    .spawn (.commit ⟨[[97], [121]], [2], { etag := [2] }⟩)] ++
    List.replicate 8 (.advance 0 true) ++ plainCommit 1 ++ [.advance 0 true]

theorem objects_torn_by_delete :
    let run o es := (fsMachine o).run ⟨.start [[[97]]] oneObject, []⟩ es
    let torn := run {} deleteAroundCommit
    let failed := run {} pruneUnderCommit
    let late := run { sidecar := .kAsync } lateSidecar
    (torn.tasks = [.done, .done] ∧ (torn.shared.filesAt [[97], [121]]).data =
      some { bytes := [1] } ∧ (torn.shared.filesAt [[97], [121]]).effective = none) ∧
    failed.tasks = [.done, .noEntry ⟨[[97], [120]], [1], {}⟩] ∧
    late.tasks = [.done, .done] ∧ (late.shared.filesAt [[97], [121]]).data = some { bytes := [2] } ∧
      (late.shared.filesAt [[97], [121]]).effective = some (metaKv { etag := [1] } {}) := by
  decide

end Lights3
