import Lights3.Iceberg.WellFormed
import Lights3.Lib.Closure
import Lights3.Lib.Runs

/-!
# Snapshot expiry

`plan_table` chooses the snapshots to expire and `run_table` removes them with an ordinary
commit. The plan keeps what the references of its metadata need. The run compares the version
token with the plan and then starts a commit that reads its base again, and of that base it
asserts the branch `main` only. Between the two another commit may add a reference to a
snapshot that is about to go.
-/
namespace Lights3.Iceberg
open ByteString

/-! ## The plan -/

/-- The options of the planner that expiry reads. -/
structure ExpiryOptions where
  maxSnapshotAgeMs : Option Int64 := none
  minSnapshotsToKeep : Nat := 1

/-- What a plan says about snapshots. -/
structure ExpiryPlan where
  expireSnapshots : List Int := []
  expireUpdates : List Update := []
  expireRequirements : List Requirement := []
  manualReview : Bool := false

namespace TableMetadata

variable (md : TableMetadata)

/-- The snapshots that are named by a reference or current. -/
def pinned : List Int :=
  (if 0 ≤ md.currentSnapshotId then [md.currentSnapshotId] else []) ++
    md.refs.entries.map (fun x => x.2.snapshotId)

/-- A reference other than `main` has retention rules of its own. -/
def refRules : Bool :=
  md.refs.entries.any (fun x => x.1 ≠ Applier.mainRef &&
    (x.2.maxRefAgeMs.isSome || x.2.minSnapshotsToKeep.isSome || x.2.maxSnapshotAgeMs.isSome))

/-- `parent_of`. -/
def parentOf (id : Int) : Option Int := (md.findSnapshot id).bind (·.parentSnapshotId)

/-- The snapshots, the newest first. The comparison of the sort leaves equal timestamps open; `ties`
orders their ids. -/
def byTime (ties : Int → Nat) : List Snapshot :=
  md.snapshots.insertionSort (fun a b => b.timestampMs < a.timestampMs ∨
    b.timestampMs = a.timestampMs ∧ ties a.snapshotId ≤ ties b.snapshotId)

variable (order : List Snapshot)

/-- The snapshots that are pinned, recent or young enough. -/
def keepFirst (opt : ExpiryOptions) (watermark : Int64) : List Int :=
  md.pinned ++ (order.take opt.minSnapshotsToKeep).map (·.snapshotId) ++
    (order.filter (fun s => watermark.toInt ≤ s.timestampMs)).map (·.snapshotId)

/-- What is kept, with the parent chains. The loop has a round for each member it starts from and
for each parent. -/
def keepAll (opt : ExpiryOptions) (watermark : Int64) : Option (List Int) :=
  let first := md.keepFirst order opt watermark
  Closure.close md.parentOf (first.length + md.snapshots.length) first first

/-- The requirement of the expiry commit. -/
def expiryRequirement : Requirement :=
  match md.refs.get? Applier.mainRef with
  | some r => .assertRefSnapshotId Applier.mainRef (some r.snapshotId)
  | none => .assertTableUuid md.tableUuid

end TableMetadata

/-- The snapshots that expire. -/
def expired (order : List Snapshot) (keep : List Int) : List Int :=
  ((order.map (·.snapshotId)).filter (fun id => id ∉ keep)).insertionSort (· ≤ ·)

/-- The expiry part of `plan_table` when the snapshots are sorted into `order`. There is no plan
when the loop does not come to an end. -/
def planExpiry (order : List Snapshot) (opt : ExpiryOptions) (nowUnix : Int64)
    (md : TableMetadata) :
    Option ExpiryPlan :=
  match opt.maxSnapshotAgeMs with
  | none => some {}
  | some age =>
      if md.refRules then some { manualReview := true }
      else (md.keepAll order opt (nowUnix * 1000 - age)).map fun keep =>
        if (expired order keep).isEmpty then {}
        else
          { expireSnapshots := expired order keep
            expireUpdates := [.removeSnapshots (expired order keep)]
            expireRequirements := [md.expiryRequirement] }

/-! ## What a plan spares -/

/-- `a` is `id` or an ancestor of it. -/
def Ancestor (md : TableMetadata) : Int → Int → Prop :=
  Relation.ReflTransGen (fun id p => md.parentOf id = some p)

theorem parentOf_mem_targets {md : TableMetadata} (id p : Int) (h : md.parentOf id = some p) :
    p ∈ md.snapshots.filterMap (·.parentSnapshotId) := by
  obtain ⟨s, hs, hp⟩ := Option.bind_eq_some_iff.mp h
  exact List.mem_filterMap.mpr ⟨s, List.mem_of_find?_eq_some hs, hp⟩

section Plan

variable {md : TableMetadata} {order : List Snapshot} {opt : ExpiryOptions} {watermark now : Int64}
variable {keep : List Int} {plan : ExpiryPlan}

/-- The loop comes to an end. -/
theorem exists_keepAll : ∃ keep, md.keepAll order opt watermark = some keep := by
  refine Closure.exists_close parentOf_mem_targets ?_
  have hmissing := List.length_filter_le (fun p => decide (p ∉ md.keepFirst order opt watermark))
    (md.snapshots.filterMap (·.parentSnapshotId))
  have hparents := List.length_filterMap_le (fun s : Snapshot => s.parentSnapshotId) md.snapshots
  unfold Closure.missing
  omega

theorem keepAll_closed (h : md.keepAll order opt watermark = some keep) :
    md.keepFirst order opt watermark ⊆ keep ∧
      ∀ id ∈ keep, ∀ p, md.parentOf id = some p → p ∈ keep :=
  Closure.close_closed h (fun _ hx => Or.inl hx)

/-- A plan removes the snapshots that it expires with one action. -/
theorem planExpiry_spec (h : planExpiry order opt now md = some plan) :
    (plan.expireSnapshots = [] ∧ plan.expireUpdates = []) ∨ ∃ watermark keep,
      md.keepAll order opt watermark = some keep ∧ plan.expireSnapshots = expired order keep ∧
      plan.expireUpdates = [.removeSnapshots plan.expireSnapshots] := by
  unfold planExpiry at h
  split at h
  · cases h
    exact Or.inl ⟨rfl, rfl⟩
  · split_ifs at h
    · cases h
      exact Or.inl ⟨rfl, rfl⟩
    · obtain ⟨keep, hkeep, rfl⟩ := Option.map_eq_some_iff.mp h
      split_ifs
      · exact Or.inl ⟨rfl, rfl⟩
      · exact Or.inr ⟨_, keep, hkeep, rfl, rfl⟩

/-- No planned snapshot is needed by a reference. -/
theorem planExpiry_spares (h : planExpiry order opt now md = some plan) {name : Bytes}
    {r : SnapshotRef} (hr : md.refs.get? name = some r) {id : Int}
    (hid : Ancestor md r.snapshotId id) : id ∉ plan.expireSnapshots := by
  rcases planExpiry_spec h with ⟨hnone, -⟩ | ⟨watermark, keep, hkeep, hexpired, -⟩
  · rw [hnone]
    exact List.not_mem_nil
  · obtain ⟨hfirst, hclosed⟩ := keepAll_closed hkeep
    have hpinned : r.snapshotId ∈ md.pinned :=
      List.mem_append_right _ (List.mem_map.mpr ⟨(name, r), SortedMap.mem_entries.mpr hr, rfl⟩)
    have hkept : id ∈ keep := by
      induction hid with
      | refl => exact hfirst (List.mem_append_left _ (List.mem_append_left _ hpinned))
      | tail _ hstep ih => exact hclosed _ ih _ hstep
    rw [hexpired, expired, List.mem_insertionSort, List.mem_filter]
    exact fun hmem => of_decide_eq_true hmem.2 hkept

end Plan

/-! ## A run between other commits -/

/-- A table with one maintenance run on it. Version tokens are fresh, so they are numbered. -/
structure ExpiryRun where
  md : TableMetadata
  token : Nat := 0
  /-- The plan and the token that it was made for. -/
  plan : Option (Nat × ExpiryPlan) := none
  /-- The run has compared the token of the table with the one of the plan. -/
  checked : Bool := false
  /-- The token and the metadata that the expiry commit has read. -/
  base : Option (Nat × TableMetadata) := none

inductive ExpiryEvent where
  /-- Another commit. -/
  | commit (c : CommitStep)
  | plan (opt : ExpiryOptions) (nowUnix : Int64) (ties : Int → Nat)
  | check
  | readBase
  /-- The expiry commit replaces the pointer, if it is still the one that was read. -/
  | swap (prevMetadataLocation : Bytes) (nowMs : Int) (metadataLogKeep : Nat)

namespace ExpiryRun

variable (b : TableBucket)

/-- The metadata that the expiry commit installs. -/
def expiryCommit (s : ExpiryRun) (prevMetadataLocation : Bytes) (nowMs : Int)
    (metadataLogKeep : Nat) : Option TableMetadata := do
  let (_, plan) ← s.plan
  let (token, base) ← s.base
  if token = s.token ∧ plan.expireSnapshots ≠ [] then
    (Iceberg.commit b base
      { requirements := plan.expireRequirements, updates := plan.expireUpdates,
        prevMetadataLocation, nowMs, metadataLogKeep }).toOption
  else none

/-- A new version of the table. -/
def install (s : ExpiryRun) : Option TableMetadata → ExpiryRun
  | none => s
  | some md => { s with md, token := s.token + 1 }

def step (s : ExpiryRun) : ExpiryEvent → ExpiryRun
  | .commit c => s.install (Iceberg.commit b s.md c).toOption
  | .plan opt nowUnix ties =>
      { s with
        plan := (planExpiry (s.md.byTime ties) opt nowUnix s.md).map (s.token, ·)
        checked := false
        base := none }
  | .check => { s with checked := s.plan.any (fun p => p.1 = s.token), base := none }
  | .readBase => if s.checked then { s with base := some (s.token, s.md) } else s
  | .swap prev nowMs keep =>
      { s.install (s.expiryCommit b prev nowMs keep) with checked := false, base := none }

/-- The expiry commit keeps every reference and all that it needs. -/
def KeepsRefs (s : ExpiryRun) : ExpiryEvent → Prop
  | .swap prev nowMs keep => ∀ md', s.expiryCommit b prev nowMs keep = some md' →
      ∀ name r, s.md.refs.get? name = some r → md'.refs.get? name = some r ∧
        ∀ id, Ancestor s.md r.snapshotId id → id ∈ s.md.snapshotIds → id ∈ md'.snapshotIds
  | _ => True

/-- No other commit comes between the check and the base of the expiry commit. -/
def Undisturbed (s : ExpiryRun) : ExpiryEvent → Prop
  | .readBase => s.checked = true → ∀ p ∈ s.plan, p.1 = s.token
  | _ => True

instance (s : ExpiryRun) (e : ExpiryEvent) : Decidable (s.Undisturbed e) := by
  unfold Undisturbed
  split <;> infer_instance

variable {b}

/-- A plan and a base with the token of the table belong to its metadata. -/
structure Inv (s : ExpiryRun) : Prop where
  plan : ∀ p ∈ s.plan, p.1 ≤ s.token ∧
    (p.1 = s.token → ∃ order opt now, planExpiry order opt now s.md = some p.2)
  base : ∀ x ∈ s.base, x.1 ≤ s.token ∧
    (x.1 = s.token → x.2 = s.md ∧ ∀ p ∈ s.plan, p.1 = s.token)

theorem Inv.install {s : ExpiryRun} (h : s.Inv) (md? : Option TableMetadata) :
    (s.install md?).Inv := by
  cases md? with
  | none => exact h
  | some md =>
      -- The new token is above all that were read before.
      constructor
      · intro p hp
        have hle := (h.plan p hp).1
        simp only [ExpiryRun.install]
        exact ⟨by omega, fun heq => by omega⟩
      · intro x hx
        have hle := (h.base x hx).1
        simp only [ExpiryRun.install]
        exact ⟨by omega, fun heq => by omega⟩

theorem Inv.step {s : ExpiryRun} (h : s.Inv) {e : ExpiryEvent} (he : s.Undisturbed e) :
    (s.step b e).Inv := by
  cases e with
  | commit c => exact h.install _
  | plan opt nowUnix ties =>
      refine ⟨fun p hp => ?_, by simp [ExpiryRun.step]⟩
      obtain ⟨plan, hplan, rfl⟩ := Option.map_eq_some_iff.mp hp
      exact ⟨le_rfl, fun _ => ⟨_, opt, nowUnix, hplan⟩⟩
  | check => exact ⟨h.plan, by simp [ExpiryRun.step]⟩
  | readBase =>
      unfold ExpiryRun.step
      split_ifs with hchecked
      · refine ⟨h.plan, ?_⟩
        rintro _ ⟨⟩
        exact ⟨le_rfl, fun _ => ⟨rfl, he hchecked⟩⟩
      · exact h
  | swap prev nowMs keep => exact ⟨(h.install _).plan, by simp [ExpiryRun.step]⟩

/-- What remove-snapshots leaves after a commit. -/
theorem commit_removeSnapshots {md md' : TableMetadata} {ids : List Int} {c : CommitStep}
    (hc : c.updates = [.removeSnapshots ids]) (h : Iceberg.commit b md c = .ok md') :
    md'.refs = md.refs.keep (fun k => (md.refs.get? k).any (fun r => r.snapshotId ∉ ids)) ∧
      md'.snapshots = md.snapshots.filter (fun s => s.snapshotId ∉ ids) := by
  obtain ⟨a, ha, -, -, rfl⟩ := commit_ok h
  have hsame := finish_same a.md c.prevMetadataLocation c.nowMs c.metadataLogKeep
  rw [hc] at ha
  cases ha
  exact ⟨hsame.refs, hsame.snapshots⟩

theorem Inv.keepsRefs {s : ExpiryRun} (h : s.Inv) (e : ExpiryEvent) : s.KeepsRefs b e := by
  cases e with
  | swap prev nowMs keep =>
      intro md' hmd' name r hr
      unfold expiryCommit at hmd'
      obtain ⟨⟨t, plan⟩, hplan, hmd'⟩ := Option.bind_eq_some_iff.mp hmd'
      obtain ⟨⟨token, base⟩, hbase, hmd'⟩ := Option.bind_eq_some_iff.mp hmd'
      simp only at hmd'
      split_ifs at hmd' with hcond
      obtain ⟨heq, hplanned⟩ := (h.base _ hbase).2 hcond.1
      obtain ⟨order, opt, now, hp⟩ := (h.plan _ hplan).2 (hplanned _ hplan)
      simp only at heq hp
      rw [heq] at hmd'
      have hupdates : plan.expireUpdates = [.removeSnapshots plan.expireSnapshots] := by
        obtain ⟨hnone, -⟩ | ⟨-, -, -, -, hone⟩ := planExpiry_spec hp
        · exact absurd hnone hcond.2
        · exact hone
      have hspares (id : Int) (hid : Ancestor s.md r.snapshotId id) :
          id ∉ plan.expireSnapshots := planExpiry_spares hp hr hid
      obtain ⟨hrefs, hsnapshots⟩ := commit_removeSnapshots hupdates (toOption_eq_some.mp hmd')
      constructor
      · rw [hrefs, SortedMap.get?_keep, hr]
        simp [hspares r.snapshotId .refl]
      · intro id hid hmem
        obtain ⟨t, ht, rfl⟩ := List.mem_map.mp hmem
        rw [TableMetadata.snapshotIds, hsnapshots]
        exact List.mem_map.mpr ⟨t, List.mem_filter.mpr ⟨ht, by simp [hspares _ hid]⟩, rfl⟩
  | _ => trivial

/-- When no other commit comes between the check of a run and the base of its expiry commit,
the expiry drops no reference and removes nothing that one needs. -/
theorem expiry_keepsRefs (b : TableBucket) (md : TableMetadata) (events : List ExpiryEvent)
    (h : Along (step b) Undisturbed { md } events) :
    Along (step b) (KeepsRefs b) { md } events := by
  have hstart : Inv { md } := ⟨by simp, by simp⟩
  exact h.imp_of_invariant hstart (fun _ _ he hs => hs.step he) (fun s e _ hs => hs.keepsRefs e)

/-! ## A tag on an expiring snapshot -/

def audit : Bytes := ascii "audit"

/-- Three snapshots, the last one on the branch `main`. -/
def threeSnapshots : CommitStep where
  updates := [.addSnapshot (snapshotOf 1 (some 1)), .addSnapshot (snapshotOf 2 (some 2)),
    .addSnapshot (snapshotOf 3 (some 3)), .setSnapshotRef Applier.mainRef { snapshotId := 3 }]

def tagAudit : CommitStep where
  updates := [.setSnapshotRef audit { snapshotId := 1, type := .tag }]

def expireAll : ExpiryOptions := { maxSnapshotAgeMs := some 0 }

/-- The tag is there when the plan is made; only the second snapshot goes. -/
def taggedBefore : List ExpiryEvent :=
  [.commit threeSnapshots, .commit tagAudit, .plan expireAll 1000 Int.toNat, .check, .readBase]

theorem expiry_keepsRefs_tagged : ∃ md, initialMetadata orders = .ok md ∧
    (∃ md' ∈ (taggedBefore.foldl (step lake) { md }).expiryCommit lake [] 0 100,
      md'.snapshotIds = [1, 3]) ∧
    Along (step lake) Undisturbed { md } (taggedBefore ++ [.swap [] 0 100]) ∧
    Along (step lake) (KeepsRefs lake) { md } (taggedBefore ++ [.swap [] 0 100]) := by
  have hrun : ∃ md ∈ (initialMetadata orders).toOption,
      (∃ md' ∈ (taggedBefore.foldl (step lake) { md }).expiryCommit lake [] 0 100,
        md'.snapshotIds = [1, 3]) ∧
      Along (step lake) Undisturbed { md } (taggedBefore ++ [.swap [] 0 100]) := by
    decide +kernel
  obtain ⟨md, hmd, hswap, hcond⟩ := hrun
  exact ⟨md, toOption_eq_some.mp hmd, hswap, hcond, expiry_keepsRefs lake md _ hcond⟩

/-- The tag comes after the check of the run. -/
def taggedBetween : List ExpiryEvent :=
  [.commit threeSnapshots, .plan expireAll 1000 Int.toNat, .check, .commit tagAudit, .readBase]

theorem taggedBetween_drops_audit : ∃ md, initialMetadata orders = .ok md ∧
    ¬ Along (step lake) (KeepsRefs lake) { md } (taggedBetween ++ [.swap [] 0 100]) := by
  have hrun : ∃ md ∈ (initialMetadata orders).toOption,
      ∃ md' ∈ (taggedBetween.foldl (step lake) { md }).expiryCommit lake [] 0 100,
      ∃ r ∈ (taggedBetween.foldl (step lake) { md }).md.refs.get? audit,
        md'.refs.get? audit = none := by
    decide +kernel
  obtain ⟨md, hmd, md', hmd', r, hr, hgone⟩ := hrun
  refine ⟨md, toOption_eq_some.mp hmd, fun h => ?_⟩
  have hkept := (h.last md' hmd' audit r hr).1
  rw [hgone] at hkept
  cases hkept

end ExpiryRun

end Lights3.Iceberg
