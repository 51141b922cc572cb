import Lights3.MemorySpec
import Lights3.Tenants
import Lights3.Lib.Runs

/-!
# The owner of a bucket that tenants create and delete

Whether a bucket exists is known to the backend; who owns it stands in the owner table. A request to
create or delete a bucket changes the backend first and the owner table in a later step, and other
requests take their steps in between. A late write of the owner table can belong to a bucket that
has been deleted and made again. The owner is right as long as no request changes a bucket while
another one has still to write an owner for it that it does not leave itself.
-/
namespace Lights3
open ByteString

/-! ## Requests and their steps -/

inductive BucketAction where
  | create
  | delete
  deriving DecidableEq

/-- The steps of `dispatch`, `create_bucket` and `delete_bucket` up to the next step. -/
inductive RequestPhase where
  /-- The owner is looked up. -/
  | gate
  /-- The owner was another one; the backend is asked whether the bucket exists. -/
  | refuse
  /-- The tenant and its bucket limit are looked up. -/
  | admission
  /-- The backend is asked whether the bucket exists. -/
  | probe
  /-- The backend creates or deletes the bucket. -/
  | backend
  /-- The owner table is written. -/
  | record
  | done (result : Except S3Error Unit)

def RequestPhase.isRecord : RequestPhase → Bool
  | .record => true
  | _ => false

def RequestPhase.isBackend : RequestPhase → Bool
  | .backend => true
  | _ => false

def RequestPhase.isDone : RequestPhase → Bool
  | .done _ => true
  | _ => false

structure BucketRequest where
  action : BucketAction
  bucket : Bytes
  /-- The tenant of the credential; empty for the root credential. -/
  tenant : Bytes
  phase : RequestPhase

/-- The owner that a request leaves behind if it changes its bucket. -/
def BucketRequest.leaves (r : BucketRequest) : Bytes :=
  match r.action with
  | .create => r.tenant
  | .delete => []

/-- A request that created its bucket after so many deletions of it. -/
structure MadeBucket where
  request : Nat
  bucket : Bytes
  life : Nat

structure OwnershipRun where
  backend : MemoryBackend := {}
  registry : TenantRegistry
  requests : SortedMap Nat BucketRequest := .empty
  /-- The tenant of the last successful creation. -/
  creator : Bytes → Bytes := fun _ => []
  deletions : Bytes → Nat := fun _ => 0
  made : List MadeBucket := []

inductive OwnershipEvent where
  | start (i : Nat) (action : BucketAction) (b tenant : Bytes)
  | advance (i : Nat)

namespace OwnershipRun

variable (s : OwnershipRun)

def hasBucket (b : Bytes) : Bool := (s.backend.buckets.get? b).isSome

def goto (i : Nat) (r : BucketRequest) (phase : RequestPhase) : OwnershipRun :=
  { s with requests := s.requests.insert i { r with phase } }

/-- `require_tenant_bucket` up to its first suspension. -/
def afterGate (r : BucketRequest) : RequestPhase :=
  match s.registry.gate r.bucket r.tenant (r.action = .create), r.action with
  | .admitted, .create => .admission
  | .admitted, .delete => .backend
  | .foreign, _ => .refuse

def afterAdmit (r : BucketRequest) : RequestPhase :=
  match s.registry.admitBucket r.bucket r.tenant with
  | .ok _ => .probe
  | .error e => .done (.error e)

def afterProbe (r : BucketRequest) : RequestPhase :=
  if s.hasBucket r.bucket then
    .done (.error ⟨.BucketAlreadyExists, "The requested bucket name is not available.", r.bucket⟩)
  else .backend

def callBackend (i : Nat) (r : BucketRequest) : OwnershipRun :=
  match r.action with
  | .create =>
      match s.backend.createBucket r.bucket with
      | .error e => s.goto i r (.done (.error e))
      | .ok m =>
          ({ s with
            backend := m
            creator := Function.update s.creator r.bucket r.tenant
            made := ⟨i, r.bucket, s.deletions r.bucket⟩ :: s.made } : OwnershipRun).goto i r
            (if r.tenant = [] then .done (.ok ()) else .record)
  | .delete =>
      match s.backend.deleteBucket r.bucket with
      | .error e => s.goto i r (.done (.error e))
      | .ok m =>
          ({ s with
            backend := m
            deletions := Function.update s.deletions r.bucket (s.deletions r.bucket + 1) } :
            OwnershipRun).goto i r .record

def record (r : BucketRequest) : TenantRegistry :=
  match r.action with
  | .create => s.registry.forceAssign r.bucket r.tenant
  | .delete => s.registry.unassign r.bucket

def act (i : Nat) (r : BucketRequest) : OwnershipRun :=
  match r.phase with
  | .gate => s.goto i r (s.afterGate r)
  | .refuse =>
      s.goto i r (.done (.error
        (TenantRegistry.foreignError r.bucket r.tenant (s.hasBucket r.bucket))))
  | .admission => s.goto i r (s.afterAdmit r)
  | .probe => s.goto i r (s.afterProbe r)
  | .backend => s.callBackend i r
  | .record => ({ s with registry := s.record r } : OwnershipRun).goto i r (.done (.ok ()))
  | .done _ => s

def step : OwnershipEvent → OwnershipRun
  | .start i action b tenant =>
      match s.requests.get? i with
      | some _ => s
      | none =>
          s.goto i ⟨action, b, tenant, .gate⟩ (if tenant = [] then .backend else .gate)
  | .advance i =>
      match s.requests.get? i with
      | some r => s.act i r
      | none => s

/-- No buckets yet; the tenants are fixed. -/
def begin (tenants : SortedMap Bytes TenantQuota) : OwnershipRun := { registry := { tenants } }

def run (tenants : SortedMap Bytes TenantQuota) (es : List OwnershipEvent) : OwnershipRun :=
  es.foldl step (begin tenants)

/-! ## The properties -/

/-- The request has still to write the owner of the bucket. -/
def Unrecorded (b : Bytes) (r : BucketRequest) : Prop := r.bucket = b ∧ r.phase.isRecord = true

instance (b : Bytes) (r : BucketRequest) : Decidable (Unrecorded b r) :=
  inferInstanceAs (Decidable (_ ∧ _))

def Quiet : Prop := ∀ e ∈ s.requests.entries, e.2.phase.isDone = true

instance : Decidable s.Quiet := inferInstanceAs (Decidable (∀ e ∈ _, _))

/-- When no request is in progress, a bucket belongs to the tenant that created it. -/
def OwnedByCreator : Prop :=
  s.Quiet → ∀ b, s.hasBucket b = true → s.registry.ownerOf b = s.creator b

/-- The owner that a bucket should have: its creator, if it exists. -/
def rightOwner (b : Bytes) : Bytes := if s.hasBucket b then s.creator b else []

/-- A request that is about to change a bucket finds none that has still to write another owner: no
deletion overtakes a tenant's creation that has still to record its owner, and no tenant's creation
a deletion that has still to remove the owner. -/
def Unovertaken : OwnershipEvent → Prop
  | .start .. => True
  | .advance i => ∀ r ∈ s.requests.get? i, r.phase.isBackend = true →
      ∀ e ∈ s.requests.entries, Unrecorded r.bucket e.2 → e.2.leaves = r.leaves

instance : (e : OwnershipEvent) → Decidable (s.Unovertaken e)
  | .start .. => inferInstanceAs (Decidable True)
  | .advance i => inferInstanceAs (Decidable (∀ r ∈ s.requests.get? i, _))

/-- Two requests that created a bucket are separated by a deletion of it. -/
def CreatedOnce : Prop := (s.made.map (fun m => (m.bucket, m.life))).Nodup

/-! ## What a step does -/

/-- The steps of a request. -/
inductive Acts (s : OwnershipRun) (i : Nat) (r : BucketRequest) : OwnershipRun → Prop
  | idle : r.phase.isRecord = false → Acts s i r s
  | moved (phase : RequestPhase) : r.phase.isRecord = false → phase.isRecord = false →
      Acts s i r (s.goto i r phase)
  | created (m : MemoryBackend) : r.phase.isBackend = true → r.action = .create →
      s.backend.createBucket r.bucket = .ok m →
      Acts s i r (({ s with
        backend := m
        creator := Function.update s.creator r.bucket r.tenant
        made := ⟨i, r.bucket, s.deletions r.bucket⟩ :: s.made } : OwnershipRun).goto i r
        (if r.tenant = [] then .done (.ok ()) else .record))
  | deleted (m : MemoryBackend) : r.phase.isBackend = true → r.action = .delete →
      s.backend.deleteBucket r.bucket = .ok m →
      Acts s i r (({ s with
        backend := m
        deletions := Function.update s.deletions r.bucket (s.deletions r.bucket + 1) } :
        OwnershipRun).goto i r .record)
  | recorded : r.phase.isRecord = true →
      Acts s i r (({ s with registry := s.record r } : OwnershipRun).goto i r (.done (.ok ())))

variable {s} {i : Nat} {r : BucketRequest} {phase : RequestPhase} {s' : OwnershipRun}

theorem isRecord_of_isBackend (h : phase.isBackend = true) : phase.isRecord = false := by
  cases phase <;> first | rfl | cases h

theorem acts_callBackend (hr : r.phase.isBackend = true) : Acts s i r (s.callBackend i r) := by
  unfold callBackend
  have hnot := isRecord_of_isBackend hr
  cases haction : r.action with
  | create =>
      cases hm : s.backend.createBucket r.bucket with
      | error e => exact .moved _ hnot rfl
      | ok m => exact .created m hr haction hm
  | delete =>
      cases hm : s.backend.deleteBucket r.bucket with
      | error e => exact .moved _ hnot rfl
      | ok m => exact .deleted m hr haction hm

theorem acts (s : OwnershipRun) (i : Nat) (r : BucketRequest) : Acts s i r (s.act i r) := by
  unfold act
  cases hphase : r.phase with
  | gate =>
      refine .moved _ (by rw [hphase]; rfl) ?_
      unfold afterGate
      split <;> rfl
  | refuse => exact .moved _ (by rw [hphase]; rfl) rfl
  | admission =>
      refine .moved _ (by rw [hphase]; rfl) ?_
      unfold afterAdmit
      split <;> rfl
  | probe =>
      refine .moved _ (by rw [hphase]; rfl) ?_
      unfold afterProbe
      split <;> rfl
  | backend => exact acts_callBackend (by rw [hphase]; rfl)
  | record => exact .recorded (by rw [hphase]; rfl)
  | done result => exact .idle (by rw [hphase]; rfl)

/-! ## The owner -/

/-- No request has still to write the owner of the bucket. -/
def Free (s : OwnershipRun) (b : Bytes) : Prop :=
  ∀ j r, s.requests.get? j = some r → ¬ Unrecorded b r

/-- A bucket that no request has still to write the owner of has the right owner, and whoever has
still to write one leaves the right one. -/
structure Settled (s : OwnershipRun) : Prop where
  owned : ∀ b, s.Free b → s.registry.ownerOf b = s.rightOwner b
  agreed : ∀ j r, s.requests.get? j = some r → r.phase.isRecord = true →
    r.leaves = s.rightOwner r.bucket

theorem get?_goto (s : OwnershipRun) (i : Nat) (r : BucketRequest)
    (phase : RequestPhase) (j : Nat) : (s.goto i r phase).requests.get? j =
      if j = i then some { r with phase } else s.requests.get? j :=
  SortedMap.get?_insert _ _ _ _

/-- A request that moves on leaves the other requests as they are. -/
theorem free_of_goto {b : Bytes} (h : (s.goto i r phase).Free b)
    (hi : ∀ r', s.requests.get? i = some r' → ¬ Unrecorded b r') : s.Free b := by
  intro j r' hj
  by_cases hji : j = i
  · subst hji
    exact hi r' hj
  · refine h j r' ?_
    simp [get?_goto, hji, hj]

theorem free_of_goto_of_ne {b : Bytes} (hi : s.requests.get? i = some r) (hb : b ≠ r.bucket)
    (h : (s.goto i r phase).Free b) : s.Free b := by
  refine free_of_goto h ?_
  rintro r' hr' ⟨hbucket, -⟩
  cases hi.symm.trans hr'
  exact hb hbucket.symm

/-- What has still to be written after a request has moved on. -/
theorem pending_goto {P : BucketRequest → Prop}
    (hold : ∀ j r', j ≠ i → s.requests.get? j = some r' → r'.phase.isRecord = true → P r')
    (hnew : phase.isRecord = true → P { r with phase }) :
    ∀ j r', (s.goto i r phase).requests.get? j = some r' → r'.phase.isRecord = true → P r' := by
  intro j r' hj hrec
  rw [get?_goto] at hj
  split_ifs at hj with hji
  · cases hj
    exact hnew hrec
  · exact hold j r' hji hj hrec

theorem rightOwner_congr {b : Bytes} (hb : s'.hasBucket b = s.hasBucket b)
    (hc : s'.creator b = s.creator b) : s'.rightOwner b = s.rightOwner b := by
  simp only [rightOwner, hb, hc]

theorem settled_goto (h : s.Settled)
    (hi : ∀ r', s.requests.get? i = some r' → r'.phase.isRecord = false)
    (hphase : phase.isRecord = false) : (s.goto i r phase).Settled where
  owned b hb := by
    refine h.owned b (free_of_goto hb ?_)
    rintro r' hr' ⟨-, hrec⟩
    simp [hi r' hr'] at hrec
  agreed := pending_goto (fun j r' _ => h.agreed j r') (by simp [hphase])

/-- The backend has changed the bucket of a request: others have the owner that they had, and what
has still to be written of the bucket is what the request leaves. -/
theorem settled_changed (h : s.Settled) (hi : s.requests.get? i = some r)
    (hback : r.phase.isBackend = true) (hover : s.Unovertaken (.advance i))
    (hrequests : s'.requests = s.requests) (hregistry : s'.registry = s.registry)
    (hleaves : s'.rightOwner r.bucket = r.leaves)
    (hother : ∀ b, b ≠ r.bucket → s'.rightOwner b = s.rightOwner b)
    (hphase : phase.isRecord = false → s.Free r.bucket → s.registry.ownerOf r.bucket = r.leaves) :
    (s'.goto i r phase).Settled := by
  have hagreed : ∀ j r', s.requests.get? j = some r' → r'.phase.isRecord = true →
      r'.leaves = s'.rightOwner r'.bucket := by
    intro j r' hj hrec
    by_cases hb : r'.bucket = r.bucket
    · rw [hb, hleaves]
      exact hover r hi hback (j, r') (SortedMap.mem_entries.mpr hj) ⟨hb, hrec⟩
    · rw [hother _ hb]
      exact h.agreed j r' hj hrec
  refine ⟨fun b hb => ?_,
    pending_goto (fun j r' _ hj => hagreed j r' (hrequests ▸ hj)) fun _ => hleaves.symm⟩
  show s'.registry.ownerOf b = s'.rightOwner b
  rw [hregistry]
  have hfree (hnot : ¬ Unrecorded b r) : s.Free b := by
    intro j r' hj
    by_cases hji : j = i
    · subst hji
      cases hi.symm.trans hj
      exact hnot
    · exact hb j r' (by rw [get?_goto, if_neg hji, hrequests]; exact hj)
  by_cases hbr : b = r.bucket
  · subst hbr
    have hrec : phase.isRecord = false := by
      rw [Bool.eq_false_iff]
      exact fun hrec => hb i { r with phase } (by rw [get?_goto, if_pos rfl]) ⟨rfl, hrec⟩
    rw [hleaves]
    refine hphase hrec (hfree fun hun => ?_)
    cases (isRecord_of_isBackend hback).symm.trans hun.2
  · rw [hother b hbr]
    exact h.owned b (hfree fun hun => hbr hun.1.symm)

theorem settled_recorded (h : s.Settled) (hi : s.requests.get? i = some r)
    (hr : r.phase.isRecord = true) :
    (({ s with registry := s.record r } : OwnershipRun).goto i r (.done (.ok ()))).Settled := by
  have howner (b : Bytes) :
      (s.record r).ownerOf b = if b = r.bucket then r.leaves else s.registry.ownerOf b := by
    unfold record BucketRequest.leaves
    cases r.action with
    | create => exact TenantRegistry.ownerOf_forceAssign ..
    | delete => exact TenantRegistry.ownerOf_unassign ..
  refine ⟨fun b hb => (howner b).trans ?_,
    pending_goto (fun j r' _ => h.agreed j r') (by simp [RequestPhase.isRecord])⟩
  split_ifs with hbr
  · subst hbr
    exact h.agreed i r hi hr
  · exact h.owned b (free_of_goto_of_ne hi hbr hb)

theorem settled_acts (h : s.Settled) (hi : s.requests.get? i = some r) (hacts : Acts s i r s')
    (hover : s.Unovertaken (.advance i)) : s'.Settled := by
  cases hacts with
  | idle hr => exact h
  | moved phase hr hphase =>
      refine settled_goto h (fun r' hr' => ?_) hphase
      cases hi.symm.trans hr'
      exact hr
  | recorded hr => exact settled_recorded h hi hr
  | created m hback haction hm =>
      obtain ⟨-, hnone, rfl⟩ := MemoryBackend.createBucket_ok.mp hm
      refine settled_changed h hi hback hover rfl rfl ?_ (fun b hb => rightOwner_congr ?_ ?_) ?_
      · simp [rightOwner, hasBucket, BucketRequest.leaves, haction, SortedMap.get?_insert]
      · simp [hasBucket, SortedMap.get?_insert, hb]
      · simp [hb]
      · -- the root credential writes no owner, and there was none
        intro hphase hfree
        rw [h.owned _ hfree]
        split_ifs at hphase with ht
        · simp [rightOwner, hasBucket, hnone, BucketRequest.leaves, haction, ht]
        · cases hphase
  | deleted m hback haction hm =>
      obtain ⟨-, objs, -, -, rfl⟩ := MemoryBackend.deleteBucket_ok.mp hm
      refine settled_changed h hi hback hover rfl rfl ?_ (fun b hb => rightOwner_congr ?_ rfl) nofun
      · simp [rightOwner, hasBucket, BucketRequest.leaves, haction, SortedMap.get?_erase]
      · simp [hasBucket, SortedMap.get?_erase, hb]

theorem settled_step (h : s.Settled) {e : OwnershipEvent} (hover : s.Unovertaken e) :
    (s.step e).Settled := by
  cases e with
  | start i action b tenant =>
      cases hi : s.requests.get? i with
      | some r =>
          simp only [step, hi]
          exact h
      | none =>
          simp only [step, hi]
          refine settled_goto h (by simp [hi]) ?_
          split_ifs <;> rfl
  | advance i =>
      cases hi : s.requests.get? i with
      | none =>
          simp only [step, hi]
          exact h
      | some r =>
          simp only [step, hi]
          exact settled_acts h hi (acts s i r) hover

theorem settled_begin (tenants : SortedMap Bytes TenantQuota) : (begin tenants).Settled where
  owned b _ := by simp [begin, TenantRegistry.ownerOf, rightOwner, hasBucket]
  agreed j r h := by simp [begin] at h

theorem settled_run {tenants : SortedMap Bytes TenantQuota} {es : List OwnershipEvent}
    (h : Along step Unovertaken (begin tenants) es) : (run tenants es).Settled :=
  h.invariant (settled_begin tenants) (fun _ _ hover hs => settled_step hs hover)

theorem Settled.ownedByCreator (h : s.Settled) : s.OwnedByCreator := by
  intro hquiet b hb
  have hfree : s.Free b := by
    rintro j r hj ⟨-, hrec⟩
    have hdone := hquiet (j, r) (SortedMap.mem_entries.mpr hj)
    cases hphase : r.phase with
    | record => simp [hphase, RequestPhase.isDone] at hdone
    | _ => simp [hphase, RequestPhase.isRecord] at hrec
  simpa [rightOwner, hb] using h.owned b hfree

/-! ## Creations -/

/-- The creations of a bucket are told apart by its deletions. -/
structure Counted (s : OwnershipRun) : Prop where
  once : s.CreatedOnce
  life : ∀ m ∈ s.made, m.life < s.deletions m.bucket ∨
    m.life = s.deletions m.bucket ∧ s.hasBucket m.bucket = true

theorem counted_acts (h : s.Counted) (hacts : Acts s i r s') : s'.Counted := by
  cases hacts with
  | idle hr => exact h
  | moved phase hr hphase => exact ⟨h.once, h.life⟩
  | recorded hr => exact ⟨h.once, h.life⟩
  | created m hr haction hm =>
      obtain ⟨-, hnone, rfl⟩ := MemoryBackend.createBucket_ok.mp hm
      have hno : s.hasBucket r.bucket = false := by simp [hasBucket, hnone]
      constructor
      · simp only [CreatedOnce, goto, List.map_cons, List.nodup_cons, List.mem_map, Prod.mk.injEq,
          not_exists, not_and]
        refine ⟨?_, h.once⟩
        intro m hmem hbucket hlife
        rcases h.life m hmem with hlt | ⟨-, hhas⟩
        · rw [hbucket] at hlt
          omega
        · simp [hbucket, hno] at hhas
      · intro m hmem
        rcases List.mem_cons.mp hmem with rfl | hmem
        · exact Or.inr ⟨rfl, by simp [goto, hasBucket, SortedMap.get?_insert]⟩
        · refine (h.life m hmem).imp_right (fun ⟨hlife, hhas⟩ => ⟨hlife, ?_⟩)
          simp only [goto, hasBucket, SortedMap.get?_insert]
          split_ifs
          · rfl
          · exact hhas
  | deleted m hr haction hm =>
      obtain ⟨-, objs, -, -, rfl⟩ := MemoryBackend.deleteBucket_ok.mp hm
      refine ⟨h.once, fun m hmem => ?_⟩
      by_cases hb : m.bucket = r.bucket
      · left
        rcases h.life m hmem with hlt | ⟨heq, -⟩
        · simp only [goto, hb, Function.update_self]
          rw [hb] at hlt
          omega
        · simp only [goto, hb, Function.update_self]
          rw [hb] at heq
          omega
      · simpa [goto, hasBucket, SortedMap.get?_erase, hb] using h.life m hmem

theorem counted_step (h : s.Counted) (e : OwnershipEvent) : (s.step e).Counted := by
  cases e with
  | start i action b tenant =>
      cases hi : s.requests.get? i with
      | some r =>
          simp only [step, hi]
          exact h
      | none =>
          simp only [step, hi]
          exact ⟨h.once, h.life⟩
  | advance i =>
      cases hi : s.requests.get? i with
      | none =>
          simp only [step, hi]
          exact h
      | some r =>
          simp only [step, hi]
          exact counted_acts h (acts s i r)

theorem counted_run (tenants : SortedMap Bytes TenantQuota) (es : List OwnershipEvent) :
    (run tenants es).Counted := by
  have hbegin : (begin tenants).Counted := ⟨by simp [CreatedOnce, begin], by simp [begin]⟩
  unfold run
  generalize begin tenants = s at hbegin
  induction es generalizing s with
  | nil => exact hbegin
  | cons e es ih => exact ih (s.step e) (counted_step hbegin e)

/-! ## Runs -/

/-- Runs in which no request overtakes another one keep the owners. Two successful creations of a
bucket are always separated by a deletion. -/
theorem owner_follows_creation (tenants : SortedMap Bytes TenantQuota) :
    (∀ es, Along step Unovertaken (begin tenants) es → (run tenants es).OwnedByCreator) ∧
    ∀ es, (run tenants es).CreatedOnce :=
  ⟨fun _ h => (settled_run h).ownedByCreator, fun es => (counted_run tenants es).once⟩

def oneTenant : SortedMap Bytes TenantQuota := SortedMap.empty.insert (ascii "a") {}

/-- The five steps of a creation. -/
def creation (i : Nat) : List OwnershipEvent :=
  .start i .create (ascii "docs") (ascii "a") :: List.replicate 5 (.advance i)

/-- A deletion up to the step of the backend. -/
def deletion (i : Nat) : List OwnershipEvent :=
  .start i .delete (ascii "docs") (ascii "a") :: List.replicate 2 (.advance i)

/-- The second creation begins before the deletion has removed the owner, and changes the backend
after that. -/
theorem owner_follows_creation_interleaved :
    (run oneTenant (creation 0 ++ deletion 1 ++ (creation 2).take 4 ++ [.advance 1] ++
      (creation 2).drop 4)).OwnedByCreator :=
  (owner_follows_creation oneTenant).1 _ (by decide)

/-- The bucket is made again between the two steps of its deletion, and the deletion removes the
owner of the new bucket. -/
theorem owner_removed_by_deletion :
    ¬ (run oneTenant (creation 0 ++ deletion 1 ++ creation 2 ++ [.advance 1])).OwnedByCreator := by
  intro h
  have howner := h (by decide) (ascii "docs") (by decide)
  revert howner
  decide

end OwnershipRun

end Lights3
