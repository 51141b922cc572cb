import Lights3.RestApi
import Lights3.TableSeparation

/-!
# Deletions and the caller's policy

The policy is asked about the path of a table, once, when a request comes in. What the
jobs delete afterwards is decided by the location in the table's metadata and by the keys
in a plan. The deletions stay within the policy in the runs in which the policy also covers
the locations of the tables that are planned or purged and the keys of inline plans, and in
which no purged table has the name of the metadata directory.
-/
namespace Lights3
open ByteString

namespace Lake

variable {b : TableBucket} {s s' : Lake}

/-! ## What an operation does to the objects -/

inductive ObjectChange (b : TableBucket) (s s' : Lake) : Prop where
  | same (h : s'.objects = s.objects)
  | wrote (key : Bytes) (o : StoredObject)
      (hkey : ¬ b.reserved <+: key ∨ ∃ path, IsFile b path key)
      (h : s'.objects = s.objects.insert key o)

theorem commitTable_objectChange (hs : s.Settled) {call : CommitCall} {req : CommitRequest}
    {ids : NewIds} (huuid : looksLikeUuid ids.uuid = true)
    (h : s.commitTable b call req ids = .ok s') : ObjectChange b s s' := by
  unfold commitTable at h
  obtain ⟨cur, -, h⟩ := of_bind_ok h
  obtain ⟨replay, hreplay, h⟩ := of_bind_ok h
  cases replay with
  | done r =>
      obtain ⟨-, -, h⟩ := of_bind_ok h
      split_ifs at h <;> cases h <;> exact .same rfl
  | staged r =>
      obtain ⟨hr, hstatus⟩ := replayOf_staged hreplay
      exact absurd (hs _ r hr) hstatus
  | fresh =>
      obtain ⟨current, -, h⟩ := of_bind_ok h
      obtain ⟨next, -, h⟩ := of_bind_ok h
      obtain ⟨⟨c, md⟩, hwrite, h⟩ := of_bind_ok h
      cases h
      unfold writeNext at hwrite
      split at hwrite
      · cases hwrite
        exact .wrote _ _ (Or.inr ⟨call.path, isFile_newKey huuid⟩) rfl
      · obtain ⟨prev, -, hrest⟩ := of_bind_ok hwrite
        split_ifs at hrest <;> cases hrest <;> exact .same rfl

theorem finishCreate_objectChange {path : TablePath} {ids : NewIds} {md : Metadata}
    (huuid : looksLikeUuid ids.uuid = true)
    (h : (s.draw ids).finishCreate path (entryFor b path ids md) md = .ok s') :
    ObjectChange b s s' := by
  unfold finishCreate at h
  obtain ⟨-, -, hrest⟩ := of_bind_ok h
  split_ifs at hrest
  cases hrest
  exact .wrote _ _ (Or.inr ⟨path, _, _, huuid, rfl⟩) rfl

theorem exec_objectChange (hs : s.Settled) {op : LakeOp} (hen : s.Enabled op)
    (h : s.exec b op = .ok s') : ObjectChange b s s' := by
  cases op with
  | tick sec =>
      cases h
      exact .same rfl
  | upload key content =>
      simp only [exec, upload] at h
      split_ifs at h with hkey
      cases h
      exact .wrote key _ (Or.inl hkey) rfl
  | createNamespace levels =>
      obtain ⟨-, -, h⟩ := of_bind_ok h
      split_ifs at h
      cases h
      exact .same rfl
  | createTable path location ids =>
      obtain ⟨-, -, h⟩ := of_bind_ok h
      obtain ⟨locKey, -, h⟩ := of_bind_ok h
      exact finishCreate_objectChange hen.1.1 h
  | registerTable path metadataLocation ids =>
      obtain ⟨-, -, h⟩ := of_bind_ok h
      split at h
      · cases h
      · split at h
        · split_ifs at h
        · obtain ⟨-, -, h⟩ := of_bind_ok h
          obtain ⟨-, -, h⟩ := of_bind_ok h
          exact finishCreate_objectChange hen.1.1 h
  | commitTable call req ids => exact commitTable_objectChange hs hen.1.1 h
  | renameTable src dst =>
      simp only [exec, renameTable] at h
      split_ifs at h
      · cases h
        exact .same rfl
      · obtain ⟨cur, -, h⟩ := of_bind_ok h
        obtain ⟨-, -, h⟩ := of_bind_ok h
        obtain ⟨-, -, h⟩ := of_bind_ok h
        cases h
        exact .same rfl
  | dropTable path =>
      obtain ⟨cur, -, h⟩ := of_bind_ok h
      cases h
      exact .same rfl

/-- Nothing is deleted. -/
theorem ObjectChange.keeps (h : ObjectChange b s s') (k : Bytes) : ¬ s.Deletes s' k := by
  rintro ⟨hthere, hgone⟩
  cases h with
  | same h =>
      rw [h] at hgone
      simp [hgone] at hthere
  | wrote key o hkey h =>
      rw [h, SortedMap.get?_insert] at hgone
      split_ifs at hgone
      simp [hgone] at hthere

/-! ## The objects under the reserved prefix -/

/-- Every record is finalized and only metadata files lie under the reserved prefix. -/
structure Tidy (b : TableBucket) (s : Lake) : Prop where
  settled : s.Settled
  files : ∀ k o, s.objects.get? k = some o → b.reserved <+: k → ∃ path, IsFile b path k

theorem tidy_empty (b : TableBucket) : Tidy b {} where
  settled := nofun
  files := nofun

theorem Tidy.change (h : Tidy b s) (hsettled : s'.Settled) (hc : ObjectChange b s s') :
    Tidy b s' := by
  refine ⟨hsettled, fun k o hk hr => ?_⟩
  cases hc with
  | same heq => exact h.files k o (heq ▸ hk) hr
  | wrote key o' hkey heq =>
      rw [heq] at hk
      obtain ⟨rfl, -⟩ | ⟨-, hold⟩ := SortedMap.get?_insert_cases hk
      · exact hkey.resolve_left (fun hnot => hnot hr)
      · exact h.files k o hold hr

/-- Objects and records are only taken away. -/
structure Shrinks (s s' : Lake) : Prop where
  objects : ∀ k o, s'.objects.get? k = some o → s.objects.get? k = some o
  commits : ∀ k r, s'.commits.get? k = some r → s.commits.get? k = some r

theorem Tidy.shrinks (h : Tidy b s) (hc : Shrinks s s') : Tidy b s' where
  settled k r hr := h.settled k r (hc.commits k r hr)
  files k o hk hr := h.files k o (hc.objects k o hk) hr

theorem removeCandidate_shrinks (path : TablePath) (windowLimit : Int) (c : CatalogState)
    (x : Bytes × Bool) :
    (removeCandidate path windowLimit c x).commits = c.commits ∧
      ∀ k o, (removeCandidate path windowLimit c x).objects.get? k = some o →
        c.objects.get? k = some o := by
  unfold removeCandidate
  split_ifs
  · exact ⟨rfl, fun k o h => h⟩
  · split
    · exact ⟨rfl, fun k o h => h⟩
    · split_ifs
      · exact ⟨rfl, fun k o h => h⟩
      · exact ⟨rfl, fun k o h => (SortedMap.get?_erase_some h).2⟩

theorem removeAll_shrinks (s : Lake) (plan : MaintenancePlan) (safetyWindowSec : Int) :
    Shrinks s (s.removeAll plan safetyWindowSec) := by
  suffices h : ∀ (todo : List (Bytes × Bool)) (limit : Int) (c : CatalogState),
      (todo.foldl (removeCandidate plan.path limit) c).commits = c.commits ∧
        ∀ k o, (todo.foldl (removeCandidate plan.path limit) c).objects.get? k = some o →
          c.objects.get? k = some o by
    obtain ⟨hcommits, hobjects⟩ := h (CatalogState.todoOf plan) (s.clockUnix - safetyWindowSec)
      s.toCatalogState
    exact ⟨hobjects, fun k r hr => by rw [← hcommits]; exact hr⟩
  intro todo limit c
  induction todo generalizing c with
  | nil => exact ⟨rfl, fun k o h => h⟩
  | cons x todo ih =>
      obtain ⟨hcommits, hobjects⟩ := removeCandidate_shrinks plan.path limit c x
      obtain ⟨ihcommits, ihobjects⟩ := ih (removeCandidate plan.path limit c x)
      exact ⟨ihcommits.trans hcommits, fun k o h => hobjects k o (ihobjects k o h)⟩

theorem wipe_shrinks {c : CatalogState} {keyPrefix k : Bytes} {o : StoredObject}
    (h : (wipe c keyPrefix).objects.get? k = some o) : c.objects.get? k = some o := by
  rw [get?_wipe] at h
  split_ifs at h
  exact h

theorem purgeTable_shrinks {path : TablePath} (h : s.purgeTable b path = .ok s') :
    Shrinks s s' := by
  unfold purgeTable at h
  split at h
  · cases h
  · rename_i cur hcur
    split_ifs at h
    cases h
    have hcommits (c : CatalogState) (l : Bytes) : (wipeLocation b c l).commits = c.commits := by
      unfold wipeLocation
      split <;> rfl
    refine ⟨fun k o hk => ?_, fun k r hr => ?_⟩
    · change (wipeLocation b (wipe s.toCatalogState (tableDir b.reserved path))
        cur.location).objects.get? k = some o at hk
      unfold wipeLocation at hk
      split at hk
      · exact wipe_shrinks hk
      · exact wipe_shrinks (wipe_shrinks hk)
    · change ((wipeLocation b (wipe s.toCatalogState (tableDir b.reserved path))
        cur.location).commits.keep _).get? k = some r at hr
      rw [SortedMap.get?_keep, hcommits] at hr
      split_ifs at hr
      exact hr

/-- The jobs keep the bucket tidy. -/
theorem Tidy.runTable (h : Tidy b s) {plan : MaintenancePlan} {expiry : Option Expiry}
    {deleteEnabled : Bool} {safetyWindowSec : Int}
    (huuid : ∀ x ∈ expiry, looksLikeUuid x.ids.uuid = true)
    (hrun : s.runTable b plan expiry deleteEnabled safetyWindowSec = .ok s') : Tidy b s' := by
  obtain ⟨expired, hexpire, rfl⟩ := runTable_ok hrun
  have htidy : Tidy b expired := by
    rcases expire_ok hexpire with rfl | ⟨x, hx, hcommit⟩
    · exact h
    · exact h.change (commitTable_ok h.settled (huuid x hx) hcommit).2
        (commitTable_objectChange h.settled (huuid x hx) hcommit)
  split_ifs
  · exact htidy.shrinks (removeAll_shrinks _ _ _)
  · exact htidy

theorem Tidy.exec (h : Tidy b s) {op : LakeOp} (hen : s.Enabled op) (hexec : s.exec b op = .ok s') :
    Tidy b s' := by
  have hstep : s.step b op = s' := by
    unfold Lake.step
    rw [if_pos hen, hexec]
  exact h.change (hstep ▸ (step_change h.settled op).2) (exec_objectChange h.settled hen hexec)

end Lake

namespace RestState

variable {fnmatch : Bytes → Bytes → Bool} {p : CredentialPolicy} {b : TableBucket}

/-! ## What a policy covers -/

section Covered
variable (fnmatch p b)

/-- The policy allows to delete the key, or a table in whose metadata directory it lies. -/
def Confined (k : Bytes) : Prop :=
  p.allows fnmatch b.bucket k .Delete = true ∨
    ∃ path, p.allowsTable fnmatch b.bucket path .Delete = true ∧ metadataDir b.reserved path <+: k

/-- The policy allows to delete what lies under the location of the table. -/
def CoversLocation (s : RestState) (path : TablePath) : Prop :=
  ∀ e ∈ s.lake.tables.get? path, ∀ k ∈ Lake.dataDir? b e,
    p.allows fnmatch b.bucket (k ++ [slash]) .Delete = true

/-- A key that an inline plan of the table may name. -/
def CoversKey (path : TablePath) (k : Bytes) : Prop :=
  p.allows fnmatch b.bucket k .Delete = true ∨
    p.allowsTable fnmatch b.bucket path .Delete = true ∧ metadataDir b.reserved path <+: k

/-- What the service would have to check. -/
def Covers (s : RestState) : RestEvent → Prop
  | .request (.runMaintenance path (.inline doc) _) =>
      ∀ k ∈ doc.candidates, CoversKey fnmatch p b path k
  | .finish path _ _ =>
      match s.running.get? path with
      | some (.plan _) =>
          p.allowsTable fnmatch b.bucket path .Delete = true ∧ s.CoversLocation fnmatch p b path
      | some .purge => s.CoversLocation fnmatch p b path ∧ path.name ≠ metadataSegment
      | _ => True
  | _ => True

instance (s : RestState) (path : TablePath) : Decidable (s.CoversLocation fnmatch p b path) :=
  inferInstanceAs (Decidable (∀ e ∈ s.lake.tables.get? path, ∀ k ∈ Lake.dataDir? b e, _))

instance (path : TablePath) (k : Bytes) : Decidable (CoversKey fnmatch p b path k) :=
  inferInstanceAs (Decidable (_ ∨ _))

instance (s : RestState) (e : RestEvent) : Decidable (s.Covers fnmatch p b e) := by
  unfold Covers
  split
  · infer_instance
  · split <;> infer_instance
  · infer_instance

/-- The deletions of a step are within the policy. -/
def Within (s : RestState) (e : RestEvent) : Prop :=
  ∀ k, s.lake.Deletes (s.step fnmatch p b e).lake k → Confined fnmatch p b k

end Covered

variable {path : TablePath} {s : RestState}

theorem CoversLocation.confined (h : s.CoversLocation fnmatch p b path) {e : TableEntry}
    (he : s.lake.tables.get? path = some e) {l k : Bytes} (hl : l ∈ Lake.dataDir? b e)
    (hk : l ++ [slash] <+: k) : Confined fnmatch p b k :=
  Or.inl (CredentialPolicy.allows_mono (by simp) hk (h e he l hl))

/-- The candidates of a plan that the planner made. -/
theorem confined_of_planned {cur : TableEntry} {plan : MaintenancePlan} (hpath : plan.path = path)
    (hcur : s.lake.tables.get? path = some cur) (hplan : CatalogState.Planned b cur plan)
    (htable : p.allowsTable fnmatch b.bucket path .Delete = true)
    (hloc : s.CoversLocation fnmatch p b path) :
    ∀ k ∈ plan.metadataCandidates ++ plan.orphanCandidates, Confined fnmatch p b k := by
  intro k hk
  rcases List.mem_append.mp hk with hk | hk
  · exact Or.inr ⟨path, htable, hpath ▸ hplan.metadata k hk⟩
  · rcases hplan.orphans with hnil | ⟨l, hl, hin⟩
    · rw [hnil] at hk
      cases hk
    · have hdir (dir : Bytes) (hd : [slash] <+: dir) (hpre : l ++ dir <+: k) :
          Confined fnmatch p b k :=
        hloc.confined hcur (Lake.mem_dataDir.mpr hl)
          (((List.prefix_append_right_inj l).mpr hd).trans hpre)
      rcases hin k hk with hdata | hdelete
      · exact hdir _ (by decide) hdata
      · exact hdir _ (by decide) hdelete

/-- What a purge deletes. -/
theorem confined_of_purge {lake : Lake} (htidy : Lake.Tidy b s.lake)
    (hpurge : s.lake.purgeTable b path = .ok lake)
    (htable : p.allowsTable fnmatch b.bucket path .Delete = true)
    (hloc : s.CoversLocation fnmatch p b path) (hname : path.name ≠ metadataSegment) {k : Bytes}
    (hk : s.lake.Deletes lake k) : Confined fnmatch p b k := by
  obtain ⟨cur, hcur, -, hdir | ⟨l, hl, hin⟩⟩ := Lake.purgeTable_deletes hpurge hk
  · obtain ⟨o, ho⟩ := Option.isSome_iff_exists.mp hk.1
    obtain ⟨q, gen, uuid, huuid, rfl⟩ :=
      htidy.files k o ho ((Lake.reserved_prefix_tableDir b path).trans hdir)
    rcases (tableDir_covers_iff (slash_not_mem_uuid huuid)).mp hdir with heq | hpre
    · refine absurd ?_ hname
      rw [TablePath.name, heq]
      simp
    · refine Or.inr ⟨q, CredentialPolicy.allowsTable_mono hpre htable, ?_⟩
      rw [metadataKey_eq]
      exact List.prefix_append _ _
  · exact hloc.confined hcur (Lake.mem_dataDir.mpr hl) hin

/-! ## Runs -/

/-- What is known of a job that was started. -/
def JobOk (fnmatch : Bytes → Bytes → Bool) (p : CredentialPolicy) (b : TableBucket)
    (path : TablePath) : TableJob → Prop
  | .plan _ => True
  | .run doc _ _ => ∀ k ∈ doc.candidates, Confined fnmatch p b k
  | .purge => p.allowsTable fnmatch b.bucket path .Delete = true

structure RestInv (fnmatch : Bytes → Bytes → Bool) (p : CredentialPolicy) (b : TableBucket)
    (s : RestState) : Prop where
  tidy : Lake.Tidy b s.lake
  running : ∀ path job, s.running.get? path = some job → JobOk fnmatch p b path job
  plans : ∀ path slot, s.plans.get? path = some slot → ∀ doc ∈ slot.stats,
    ∀ k ∈ doc.candidates, Confined fnmatch p b k

theorem restInv_empty : RestInv fnmatch p b {} where
  tidy := Lake.tidy_empty b
  running := nofun
  plans := nofun

section Steps
variable {s s' : RestState} {path : TablePath}

theorem RestInv.lake (h : RestInv fnmatch p b s) {lake : Lake} (htidy : Lake.Tidy b lake) :
    RestInv fnmatch p b { s with lake } :=
  ⟨htidy, h.running, h.plans⟩

theorem RestInv.launch (h : RestInv fnmatch p b s) {job : TableJob}
    (hl : s.launch path job = .ok s') (hjob : JobOk fnmatch p b path job) :
    RestInv fnmatch p b s' ∧ s'.lake = s.lake := by
  unfold RestState.launch at hl
  split at hl
  · cases hl
  · cases hl
    refine ⟨⟨h.tidy, fun q j hj => ?_, fun q slot hslot => ?_⟩, rfl⟩
    · obtain ⟨rfl, rfl⟩ | ⟨-, hold⟩ := SortedMap.get?_insert_cases hj
      · exact hjob
      · exact h.running q j hold
    · -- A plan job starts with an empty result.
      cases job with
      | plan opt =>
          obtain ⟨rfl, rfl⟩ | ⟨-, hold⟩ := SortedMap.get?_insert_cases hslot
          · intro doc hdoc
            cases hdoc
          · exact h.plans q slot hold
      | run doc d w => exact h.plans q slot hslot
      | purge => exact h.plans q slot hslot

/-- A plan is given inline or is the result of a plan job. -/
theorem planOf_ok {body : RunBody} {doc : PlanDocument} (h : s.planOf path body = .ok doc) :
    body = .inline doc ∨ ∃ slot, s.plans.get? path = some slot ∧ slot.stats = some doc := by
  have hstats (slot : PlanSlot) (hs : planOf.statsOf s path slot = .ok doc) :
      slot.stats = some doc := by
    unfold planOf.statsOf at hs
    split at hs
    · cases hs
    · cases hs
    · rename_i hdoc _
      cases hs
      exact hdoc
  cases body with
  | inline d =>
      cases h
      exact Or.inl rfl
  | jobId id =>
      simp only [planOf] at h
      split at h
      · cases h
      · rename_i slot hslot
        exact Or.inr ⟨slot, (Option.filter_eq_some_iff.mp hslot).1, hstats slot h⟩
  | latest =>
      simp only [planOf] at h
      split at h
      · cases h
      · rename_i slot hslot
        exact Or.inr ⟨slot, hslot, hstats slot h⟩

theorem RestInv.startJob (h : RestInv fnmatch p b s) {r : RestRequest}
    (hauth : r.authorised fnmatch p b.bucket = true) {s₀ : RestState}
    (hcovers : s₀.Covers fnmatch p b (.request r)) (hs : s.startJob b r = .ok s') :
    RestInv fnmatch p b s' ∧ s'.lake = s.lake := by
  unfold RestState.startJob at hs
  split at hs
  · exact h.launch hs hauth
  · obtain ⟨-, -, hs⟩ := of_bind_ok hs
    exact h.launch hs trivial
  · rename_i path body eff
    obtain ⟨-, -, hs⟩ := of_bind_ok hs
    obtain ⟨doc, hdoc, hs⟩ := of_bind_ok hs
    split_ifs at hs with hother hreview
    refine h.launch hs (fun k hk => ?_)
    obtain rfl | ⟨slot, hslot, hstats⟩ := planOf_ok hdoc
    · rcases hcovers k hk with hkey | ⟨htable, hdir⟩
      · exact Or.inl hkey
      · exact Or.inr ⟨path, htable, hdir⟩
    · exact h.plans path slot hslot doc hstats k hk
  · cases hs
    exact ⟨h, rfl⟩

/-- A request deletes nothing itself and starts jobs that are known. -/
theorem RestInv.handle (h : RestInv fnmatch p b s) {r : RestRequest}
    (hauth : r.authorised fnmatch p b.bucket = true) (hcovers : s.Covers fnmatch p b (.request r)) :
    RestInv fnmatch p b (s.handle b r) ∧ ∀ k, ¬ s.lake.Deletes (s.handle b r).lake k := by
  have hnone (k : Bytes) : ¬ s.lake.Deletes s.lake k := fun hk => by simp [Lake.Deletes, hk.2] at hk
  have hstart (s₁ : RestState) (h₁ : RestInv fnmatch p b s₁)
      (hkeeps : ∀ k, ¬ s.lake.Deletes s₁.lake k) :
      RestInv fnmatch p b ((s₁.startJob b r).toOption.getD s₁) ∧
        ∀ k, ¬ s.lake.Deletes ((s₁.startJob b r).toOption.getD s₁).lake k := by
    cases hj : s₁.startJob b r with
    | error e => exact ⟨h₁, hkeeps⟩
    | ok s' =>
        obtain ⟨hinv, hlake⟩ := h₁.startJob hauth hcovers hj
        exact ⟨hinv, fun k => by
          change ¬ s.lake.Deletes s'.lake k
          rw [hlake]
          exact hkeeps k⟩
  unfold RestState.handle
  cases hop : opOf r with
  | none => exact hstart s h hnone
  | some op =>
      by_cases hen : s.lake.Enabled op
      · cases hexec : s.lake.exec b op with
        | error e =>
            simp only [hexec, if_pos hen, Except.toOption, Option.map_none]
            exact ⟨h, hnone⟩
        | ok l =>
            simp only [hexec, if_pos hen, Except.toOption, Option.map_some]
            exact hstart _ (h.lake (h.tidy.exec hen hexec))
              (Lake.exec_objectChange h.tidy.settled hen hexec).keeps
      · simp only [if_neg hen]
        exact ⟨h, hnone⟩

theorem RestInv.finish (h : RestInv fnmatch p b s) {maintId : Bytes} {ids : NewIds}
    (huuid : looksLikeUuid ids.uuid = true)
    (hcovers : s.Covers fnmatch p b (.finish path maintId ids)) :
    RestInv fnmatch p b (s.finish b path maintId ids) ∧
      ∀ k, s.lake.Deletes (s.finish b path maintId ids).lake k → Confined fnmatch p b k := by
  have hnone (k : Bytes) (hk : s.lake.Deletes s.lake k) : Confined fnmatch p b k := by
    simp [Lake.Deletes, hk.2] at hk
  have hrest (q : TablePath) (j : TableJob) (hj : (s.running.erase path).get? q = some j) :
      JobOk fnmatch p b q j := h.running q j (SortedMap.get?_erase_some hj).2
  unfold RestState.finish
  cases hrun : s.running.get? path with
  | none => exact ⟨h, hnone⟩
  | some job =>
      have hjob := h.running path job hrun
      simp only [Covers, hrun] at hcovers
      cases job with
      | plan opt =>
          simp only [perform]
          split
          · exact ⟨⟨h.tidy, hrest, h.plans⟩, hnone⟩
          · rename_i plan review hplan
            refine ⟨⟨h.tidy, hrest, fun q slot hslot doc hdoc => ?_⟩, hnone⟩
            obtain ⟨hpath, cur, hcur, hplanned⟩ := Lake.planTable_ok hplan
            simp only at hslot
            split at hslot
            · exact h.plans q slot hslot doc hdoc
            · obtain ⟨-, rfl⟩ | ⟨-, hold⟩ := SortedMap.get?_insert_cases hslot
              · cases hdoc
                exact confined_of_planned hpath hcur hplanned hcovers.1 hcovers.2
              · exact h.plans q slot hold doc hdoc
      | run doc deleteEnabled safetyWindowSec =>
          simp only [perform]
          split
          · exact ⟨⟨h.tidy, hrest, h.plans⟩, hnone⟩
          · rename_i lake hlake
            have hids : ∀ x ∈ expiryOf doc maintId ids, looksLikeUuid x.ids.uuid = true := by
              intro x hx
              obtain ⟨req, -, rfl⟩ := Option.map_eq_some_iff.mp hx
              exact huuid
            refine ⟨⟨h.tidy.runTable hids hlake, hrest, h.plans⟩, fun k hk => ?_⟩
            exact hjob k (List.mem_append.mpr (Lake.runTable_deletes hlake hk))
      | purge =>
          simp only [perform]
          split
          · exact ⟨⟨h.tidy, hrest, h.plans⟩, hnone⟩
          · rename_i lake hlake
            exact ⟨⟨h.tidy.shrinks (Lake.purgeTable_shrinks hlake), hrest, h.plans⟩,
              fun k hk => confined_of_purge h.tidy hlake hjob hcovers.1 hcovers.2 hk⟩

theorem RestInv.step (h : RestInv fnmatch p b s) {e : RestEvent}
    (hcovers : s.Covers fnmatch p b e) :
    RestInv fnmatch p b (s.step fnmatch p b e) ∧ s.Within fnmatch p b e := by
  have hnone (k : Bytes) (hk : s.lake.Deletes s.lake k) : Confined fnmatch p b k := by
    simp [Lake.Deletes, hk.2] at hk
  unfold Within
  cases e with
  | request r =>
      simp only [RestState.step]
      split_ifs with hauth
      · obtain ⟨hinv, hkeeps⟩ := h.handle hauth hcovers
        exact ⟨hinv, fun k hk => absurd hk (hkeeps k)⟩
      · exact ⟨h, hnone⟩
  | finish path maintId ids =>
      simp only [RestState.step]
      split_ifs with hfresh
      · exact h.finish hfresh.1.1 hcovers
      · exact ⟨h, hnone⟩
  | other op =>
      simp only [RestState.step, Lake.step]
      split_ifs with hen
      · split
        · rename_i l hexec
          exact ⟨h.lake (h.tidy.exec hen hexec), fun k hk =>
            absurd hk ((Lake.exec_objectChange h.tidy.settled hen hexec).keeps k)⟩
        · exact ⟨h, hnone⟩
      · exact ⟨h, hnone⟩

end Steps

/-- Deletions stay within the policy in the runs that it covers. -/
theorem deletions_within_policy (fnmatch : Bytes → Bytes → Bool) (p : CredentialPolicy)
    (b : TableBucket) (events : List RestEvent)
    (h : Along (step fnmatch p b) (Covers fnmatch p b) {} events) :
    Along (step fnmatch p b) (Within fnmatch p b) {} events :=
  h.imp_of_invariant restInv_empty (fun _ _ hc hi => (hi.step hc).1)
    (fun _ _ hc hi => (hi.step hc).2)

open Lights3.Lake (tablesBucket salesOrders uuidOf)

/-- A caller that may do anything below `sales/`. -/
def salesPolicy : CredentialPolicy := { prefixes := [ascii "sales/"] }

def salesStep : RestState → RestEvent → RestState :=
  step (fun _ _ => false) salesPolicy tablesBucket

/-- A table is created, and dropped with a purge. -/
def droppedOrders (location : Option Bytes) (file : Bytes) : List RestEvent :=
  [.other (.createNamespace [ascii "sales"]), .other (.upload file .data),
    .request (.createTable salesOrders location (Lake.idsAt "1")),
    .request (.dropTable salesOrders true)]

def purgeOrders : RestEvent := .finish salesOrders [] (Lake.idsAt "2")

theorem deletions_within_policy_dropped :
    let events := droppedOrders none (ascii "sales/orders/data/f") ++ [purgeOrders]
    let s := (droppedOrders none (ascii "sales/orders/data/f")).foldl salesStep {}
    Along salesStep (Covers (fun _ _ => false) salesPolicy tablesBucket) {} events ∧
      s.lake.Deletes (salesStep s purgeOrders).lake (ascii "sales/orders/data/f") ∧
      Along salesStep (Within (fun _ _ => false) salesPolicy tablesBucket) {} events := by
  intro events s
  have hcovers : Along salesStep (Covers (fun _ _ => false) salesPolicy tablesBucket)
      {} events := by
    decide +kernel
  exact ⟨hcovers, ⟨by decide +kernel, by decide +kernel⟩,
    deletions_within_policy _ salesPolicy tablesBucket events hcovers⟩

/-- The caller of `sales/` creates a table at the location `finance` and purges it. -/
theorem droppedOrders_not_within :
    salesPolicy.prefixes ≠ [] ∧
      ¬ Along salesStep (Within (fun _ _ => false) salesPolicy tablesBucket) {}
        (droppedOrders (some (ascii "s3://lake/finance")) (ascii "finance/ledger") ++
          [purgeOrders]) := by
  refine ⟨by decide, fun h => ?_⟩
  have hpurge := h.2.2.2.2.1 (ascii "finance/ledger") ⟨by decide +kernel, by decide +kernel⟩
  rcases hpurge with hkey | ⟨path, -, hdir⟩
  · exact absurd hkey (by decide)
  · exact absurd ((Lake.reserved_prefix_metadataDir tablesBucket path).trans hdir) (by decide)

end RestState

end Lights3
