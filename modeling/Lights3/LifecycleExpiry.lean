import Lights3.CopyIntegrity

/-!
# Expiry by lifecycle passes

`run_once` of `s3/lifecycle.cc` step by step, between requests on objects. The age of an object is
tested on an entry of a listing. The deletion that follows names the key only, so it removes the
version that is stored under the key by then.
-/
namespace Lights3
open ByteString

/-- Where a pass is. A page carries what is left of it and where the next page starts. -/
inductive PassPhase where
  | next
  | uploads (b : Bytes) (rule : LifecycleRule) (opt : ListUploadsOptions)
  | abort (b : Bytes) (rule : LifecycleRule) (opt : ListUploadsOptions) (page : List UploadInfo)
      (more : Option (Bytes × Bytes))
  | objects (b : Bytes) (rule : LifecycleRule) (opt : ListOptions)
  | test (b : Bytes) (rule : LifecycleRule) (opt : ListOptions) (page : List ObjectMeta)
      (more : Option Bytes)
  | delete (b : Bytes) (rule : LifecycleRule) (opt : ListOptions) (m : ObjectMeta)
      (page : List ObjectMeta) (more : Option Bytes)

/-- A version that a deletion of the pass removed. -/
structure Removal where
  time : Int64
  bucket : Bytes
  key : Bytes
  version : BackendObject

structure LifecycleRun where
  store : ObjectStore
  /-- The buckets and rules that are left of the snapshot. -/
  work : List (Bytes × List LifecycleRule)
  phase : PassPhase := .next
  /-- The last reading of the clock. -/
  clock : Int64 := 0
  removed : List Removal := []

inductive LifecycleEvent where
  | request (e : StoreEvent)
  | advance

namespace LifecycleRun

variable (D : Digests) (s : LifecycleRun)

def startObjects (b : Bytes) (rule : LifecycleRule) : PassPhase :=
  if 0 < rule.expirationDays then .objects b rule { keyPrefix := rule.keyPrefix } else .next

def startRule (b : Bytes) (rule : LifecycleRule) : PassPhase :=
  if !rule.enabled then .next
  else if 0 < rule.abortIncompleteDays then .uploads b rule { keyPrefix := rule.keyPrefix }
  else startObjects b rule

/-- A listing that fails ends the pass over the bucket. -/
def leaveBucket : LifecycleRun := { s with work := s.work.tail, phase := .next }

def nextRule : LifecycleRun :=
  match s.work with
  | [] => s
  | (_, []) :: work => { s with work := work }
  | (b, rule :: rules) :: work => { s with work := (b, rules) :: work, phase := startRule b rule }

def listUploads (now : Int64) (b : Bytes) (rule : LifecycleRule) (opt : ListUploadsOptions) :
    LifecycleRun :=
  let mem := s.store.mem.expireUploads now
  let s := { s with store := { s.store with mem := mem } }
  match mem.listMultipartUploads b opt with
  | .ok page =>
      let more := if page.isTruncated then some (page.nextKeyMarker, page.nextUploadIdMarker) else
        none
      { s with phase := .abort b rule opt page.uploads more }
  | .error _ => s.leaveBucket

/-- A failed abortion is skipped. -/
def abortUpload (now : Int64) (b : Bytes) (rule : LifecycleRule) (u : UploadInfo) : ObjectStore :=
  if Gateway.aged now u.initiated rule.abortIncompleteDays then
    s.store.settle (s.store.mem.abortMultipart b u.key u.uploadId)
  else s.store

def listObjects (b : Bytes) (rule : LifecycleRule) (opt : ListOptions) : LifecycleRun :=
  match s.store.mem.listObjects b opt with
  | .ok page =>
      let more := if page.isTruncated then some page.nextToken else none
      { s with phase := .test b rule opt page.objects more }
  | .error _ => s.leaveBucket

/-- The deletion, with a note of what was stored under the key. -/
def deleteObject (now : Int64) (b k : Bytes) : LifecycleRun :=
  match s.store.mem.deleteObject b k with
  | .ok mem =>
      { s with
        store := { s.store with mem := mem }
        removed := s.removed ++ (((s.store.mem.objectsOf b).get? k).map (⟨now, b, k, ·⟩)).toList }
  | .error _ => s

/-- The next step of the pass. -/
def advance (now : Int64) : LifecycleRun :=
  match s.phase with
  | .next => s.nextRule
  | .uploads b rule opt => s.listUploads now b rule opt
  | .abort b rule opt (u :: page) more =>
      { s with store := s.abortUpload now b rule u, phase := .abort b rule opt page more }
  | .abort b rule opt [] (some (key, id)) =>
      { s with phase := .uploads b rule { opt with keyMarker := key, uploadIdMarker := id } }
  | .abort b rule _ [] none => { s with phase := startObjects b rule }
  | .objects b rule opt => s.listObjects b rule opt
  | .test b rule opt (m :: page) more =>
      if Gateway.aged now m.lastModified rule.expirationDays then
        { s with phase := .delete b rule opt m page more }
      else { s with phase := .test b rule opt page more }
  | .test b rule opt [] (some token) =>
      { s with phase := .objects b rule { opt with startAfter := token } }
  | .test _ _ _ [] none => { s with phase := .next }
  | .delete b rule opt m page more =>
      { s.deleteObject now b m.key with phase := .test b rule opt page more }

def step (e : Int64 × LifecycleEvent) : LifecycleRun :=
  let s := { s with clock := e.1 }
  match e.2 with
  | .request r => { s with store := s.store.step D (e.1, r) }
  | .advance => s.advance e.1

/-! ## What a pass knows -/

variable {D : Digests} {s : LifecycleRun} {rules : List (Bytes × List LifecycleRule)} {b : Bytes}
  {rule : LifecycleRule}

/-- The rule is an enabled one of the bucket. -/
def Active (rules : List (Bytes × List LifecycleRule)) (b : Bytes) (rule : LifecycleRule) : Prop :=
  rule.enabled = true ∧ ∃ own, (b, own) ∈ rules ∧ rule ∈ own

/-- The rule also expires objects. -/
def Expiring (rules : List (Bytes × List LifecycleRule)) (b : Bytes)
    (rule : LifecycleRule) : Prop :=
  Active rules b rule ∧ 0 < rule.expirationDays

/-- A version that was removed is old enough for a rule that matches its key. -/
def Old (rules : List (Bytes × List LifecycleRule)) (r : Removal) : Prop :=
  ∃ rule, Expiring rules r.bucket rule ∧ rule.keyPrefix.isPrefixOf r.key = true ∧
    Gateway.aged r.time r.version.objMeta.lastModified rule.expirationDays = true

/-- What the phase of a pass tells: the entries of a page match the rule, and an entry that is about
to be deleted was old at the last reading of the clock. -/
def PhaseOk (rules : List (Bytes × List LifecycleRule)) (clock : Int64) : PassPhase → Prop
  | .next => True
  | .uploads b rule _ => Active rules b rule
  | .abort b rule _ _ _ => Active rules b rule
  | .objects b rule opt => Expiring rules b rule ∧ opt.keyPrefix = rule.keyPrefix
  | .test b rule opt page _ => Expiring rules b rule ∧ opt.keyPrefix = rule.keyPrefix ∧
      ∀ m ∈ page, rule.keyPrefix.isPrefixOf m.key = true
  | .delete b rule opt m page _ => Expiring rules b rule ∧ opt.keyPrefix = rule.keyPrefix ∧
      (∀ m' ∈ m :: page, rule.keyPrefix.isPrefixOf m'.key = true) ∧
      Gateway.aged clock m.lastModified rule.expirationDays = true

/-- The invariant of a run. -/
structure Sound (rules : List (Bytes × List LifecycleRule)) (s : LifecycleRun) : Prop where
  resolved : s.store.Resolved
  keyed : ObjectStore.KeysRight s.store.mem
  work : ∀ x ∈ s.work, ∃ own, (x.1, own) ∈ rules ∧ ∀ r ∈ x.2, r ∈ own
  phase : PhaseOk rules s.clock s.phase
  removed : ∀ r ∈ s.removed, Old rules r

theorem aged_later {now later since : Int64} {days : Nat} (h : Gateway.aged now since days = true)
    (hle : now.toInt ≤ later.toInt) : Gateway.aged later since days = true := by
  simp only [Gateway.aged, decide_eq_true_eq] at h ⊢
  omega

theorem aged_earlier {now since before : Int64} {days : Nat}
    (h : Gateway.aged now since days = true) (hle : before.toInt ≤ since.toInt) :
    Gateway.aged now before days = true := by
  simp only [Gateway.aged, decide_eq_true_eq] at h ⊢
  omega

theorem PhaseOk.later {clock now : Int64} {phase : PassPhase} (h : PhaseOk rules clock phase)
    (hle : clock.toInt ≤ now.toInt) : PhaseOk rules now phase := by
  cases phase with
  | delete b rule opt m page more =>
      obtain ⟨hactive, hopt, hpage, haged⟩ := h
      exact ⟨hactive, hopt, hpage, aged_later haged hle⟩
  | _ => exact h

theorem startObjects_ok (h : Active rules b rule) (clock : Int64) :
    PhaseOk rules clock (startObjects b rule) := by
  unfold startObjects
  split_ifs with hdays
  · exact ⟨⟨h, hdays⟩, rfl⟩
  · trivial

theorem startRule_ok {own : List LifecycleRule} (hown : (b, own) ∈ rules) (hrule : rule ∈ own)
    (clock : Int64) : PhaseOk rules clock (startRule b rule) := by
  unfold startRule
  split_ifs with hen habort
  · trivial
  · exact ⟨by simpa using hen, own, hown, hrule⟩
  · exact startObjects_ok ⟨by simpa using hen, own, hown, hrule⟩ clock

/-- The entries of a page have the prefix that was asked for. -/
theorem page_matches {mem : MemoryBackend} {opt : ListOptions} {page : ListResult ObjectMeta}
    (hkeys : ObjectStore.KeysRight mem) (h : mem.listObjects b opt = .ok page) :
    ∀ m ∈ page.objects, opt.keyPrefix.isPrefixOf m.key = true := by
  obtain ⟨⟨⟩, -, h⟩ := of_bind_ok h
  obtain ⟨objs, hobjs, h⟩ := of_bind_ok h
  cases h
  have hof := MemoryBackend.objectsOf_of_get? (MemoryBackend.bucketOrThrow_ok.mp hobjs)
  obtain ⟨ks, hsub, hall, hks⟩ := applyListing_objects objs.keys opt
    (fun k => ((objs.get? k).map (·.objMeta)).getD {})
  intro m hm
  rw [hks] at hm
  obtain ⟨k, hk, rfl⟩ := List.mem_map.mp hm
  obtain ⟨o, ho⟩ := SortedMap.mem_keys.mp (hsub.subset hk)
  rw [ho, Option.map_some, Option.getD_some, hkeys b k o (hof ▸ ho)]
  exact hall k hk

/-! ## Steps -/

/-- The clock does not go back. -/
def ClockForward (s : LifecycleRun) (e : Int64 × LifecycleEvent) : Prop := s.clock.toInt ≤ e.1.toInt

/-- What is stored under the key of an entry is not younger than the entry. -/
def NotYounger (s : LifecycleRun) (b : Bytes) (m : ObjectMeta) : Prop :=
  ∀ o ∈ (s.store.mem.objectsOf b).get? m.key, o.objMeta.lastModified.toInt ≤ m.lastModified.toInt

/-- A deletion of the pass finds a version that is not younger than the entry of the listing. -/
def RemovesListed (s : LifecycleRun) (e : Int64 × LifecycleEvent) : Prop :=
  match e.2, s.phase with
  | .advance, .delete b _ _ m _ _ => s.NotYounger b m
  | _, _ => True

instance (s : LifecycleRun) (e : Int64 × LifecycleEvent) : Decidable (ClockForward s e) :=
  inferInstanceAs (Decidable (_ ≤ _))

instance (s : LifecycleRun) (b : Bytes) (m : ObjectMeta) : Decidable (s.NotYounger b m) :=
  inferInstanceAs (Decidable (∀ o ∈ _, _))

instance (s : LifecycleRun) (e : Int64 × LifecycleEvent) : Decidable (RemovesListed s e) := by
  unfold RemovesListed
  split <;> infer_instance

theorem Sound.leaveBucket (h : s.Sound rules) : s.leaveBucket.Sound rules :=
  { h with work := fun x hx => h.work x (List.mem_of_mem_tail hx), phase := trivial }

/-- The store changes without the objects of the pass. -/
theorem Sound.store {mem : MemoryBackend} (h : s.Sound rules)
    (hmoves : ObjectStore.Moves s.store.mem mem none) :
    ({ s with store := { s.store with mem := mem } } : LifecycleRun).Sound rules :=
  have hresolved : ({ s.store with mem := mem } : ObjectStore).Resolved :=
    h.resolved.of_moves hmoves h.resolved.copies
  { h with resolved := hresolved, keyed := hmoves.keyed h.keyed }

theorem Sound.goto {phase : PassPhase} (h : s.Sound rules) (hphase : PhaseOk rules s.clock phase) :
    ({ s with phase := phase } : LifecycleRun).Sound rules :=
  { h with phase := hphase }

theorem Sound.nextRule (h : s.Sound rules) : s.nextRule.Sound rules := by
  unfold LifecycleRun.nextRule
  split
  · exact h
  · rename_i b work hwork
    refine { h with work := fun x hx => h.work x ?_ }
    rw [hwork]
    exact List.mem_cons_of_mem _ hx
  · rename_i b rule own work hwork
    obtain ⟨all, hall, hown⟩ := h.work (b, rule :: own) (by rw [hwork]; exact List.mem_cons_self)
    refine ⟨h.resolved, h.keyed, fun x hx => ?_,
      startRule_ok hall (hown rule List.mem_cons_self) s.clock, h.removed⟩
    rcases List.mem_cons.mp hx with rfl | hx
    · exact ⟨all, hall, fun r hr => hown r (List.mem_cons_of_mem rule hr)⟩
    · exact h.work x (by rw [hwork]; exact List.mem_cons_of_mem _ hx)

theorem Sound.listUploads (h : s.Sound rules) (hactive : Active rules b rule) (now : Int64)
    (opt : ListUploadsOptions) : (s.listUploads now b rule opt).Sound rules := by
  obtain ⟨-, hbuckets, huploads⟩ := s.store.mem.expireUploads_spec now
  have hswept := h.store (ObjectStore.moves_uploads hbuckets
    (fun id u hu => .inr ⟨id, u, huploads hu, rfl⟩))
  unfold LifecycleRun.listUploads
  simp only
  cases (s.store.mem.expireUploads now).listMultipartUploads b opt with
  | ok page => exact hswept.goto hactive
  | error e => exact hswept.leaveBucket

theorem Sound.abortUpload (h : s.Sound rules) (now : Int64) (b : Bytes) (rule : LifecycleRule)
    (u : UploadInfo) :
    ({ s with store := s.abortUpload now b rule u } : LifecycleRun).Sound rules := by
  unfold LifecycleRun.abortUpload
  split_ifs
  · cases habort : s.store.mem.abortMultipart b u.key u.uploadId with
    | ok mem =>
        obtain ⟨-, hbuckets, huploads, -⟩ := MemoryBackend.abortMultipart_ok habort
        refine h.store (ObjectStore.moves_uploads hbuckets (fun id v hv => .inr ⟨id, v, ?_, rfl⟩))
        rw [huploads] at hv
        exact (SortedMap.get?_erase_some hv).2
    | error e => exact h
  · exact h

theorem Sound.listObjects {opt : ListOptions} (h : s.Sound rules) (hactive : Expiring rules b rule)
    (hopt : opt.keyPrefix = rule.keyPrefix) : (s.listObjects b rule opt).Sound rules := by
  unfold LifecycleRun.listObjects
  cases hpage : s.store.mem.listObjects b opt with
  | ok page => exact h.goto ⟨hactive, hopt, hopt ▸ page_matches h.keyed hpage⟩
  | error e => exact h.leaveBucket

/-- What a deletion removes has been found old enough. -/
theorem Sound.deleteObject {k : Bytes} {since : Int64} (h : s.Sound rules)
    (hactive : Expiring rules b rule) (hmatch : rule.keyPrefix.isPrefixOf k = true)
    (haged : Gateway.aged s.clock since rule.expirationDays = true)
    (hlisted : ∀ o, (s.store.mem.objectsOf b).get? k = some o →
      o.objMeta.lastModified.toInt ≤ since.toInt) : (s.deleteObject s.clock b k).Sound rules := by
  unfold LifecycleRun.deleteObject
  cases hdel : s.store.mem.deleteObject b k with
  | error e => exact h
  | ok mem =>
      have hstore := h.store (ObjectStore.moves_delete hdel)
      refine { hstore with removed := fun r hr => ?_ }
      rcases List.mem_append.mp hr with hr | hr
      · exact h.removed r hr
      · obtain ⟨o, ho, rfl⟩ := Option.map_eq_some_iff.mp (Option.mem_toList.mp hr)
        exact ⟨rule, hactive, hmatch, aged_earlier haged (hlisted o ho)⟩

theorem Sound.advance {now : Int64} (h : s.Sound rules) (hnow : s.clock = now)
    (hlisted : RemovesListed s (now, .advance)) : (s.advance now).Sound rules := by
  subst hnow
  have hphase := h.phase
  unfold LifecycleRun.advance
  split
  · exact h.nextRule
  · rename_i b rule opt heq
    rw [heq] at hphase
    exact h.listUploads hphase s.clock opt
  · rename_i b rule opt u page more heq
    rw [heq] at hphase
    exact (h.abortUpload s.clock b rule u).goto hphase
  · rename_i b rule opt key id heq
    rw [heq] at hphase
    exact h.goto hphase
  · rename_i b rule opt heq
    rw [heq] at hphase
    exact h.goto (startObjects_ok hphase s.clock)
  · rename_i b rule opt heq
    rw [heq] at hphase
    exact h.listObjects hphase.1 hphase.2
  · rename_i b rule opt m page more heq
    rw [heq] at hphase
    obtain ⟨hactive, hopt, hpage⟩ := hphase
    split_ifs with haged
    · exact h.goto ⟨hactive, hopt, hpage, haged⟩
    · exact h.goto ⟨hactive, hopt, fun m' hm' => hpage m' (List.mem_cons_of_mem m hm')⟩
  · rename_i b rule opt token heq
    rw [heq] at hphase
    exact h.goto ⟨hphase.1, hphase.2.1⟩
  · exact h.goto trivial
  · rename_i b rule opt m page more heq
    rw [heq] at hphase
    obtain ⟨hactive, hopt, hpage, haged⟩ := hphase
    have hnot : s.NotYounger b m := by
      unfold RemovesListed at hlisted
      rw [heq] at hlisted
      exact hlisted
    have hdel := h.deleteObject hactive (hpage m List.mem_cons_self) haged
      (fun o ho => hnot o ho)
    exact hdel.goto ⟨hactive, hopt, fun m' hm' => hpage m' (List.mem_cons_of_mem m hm')⟩

theorem Sound.step {e : Int64 × LifecycleEvent} (h : s.Sound rules) (hclock : ClockForward s e)
    (hlisted : RemovesListed s e) : (s.step D e).Sound rules := by
  obtain ⟨now, e⟩ := e
  have hticked : ({ s with clock := now } : LifecycleRun).Sound rules :=
    { h with phase := h.phase.later hclock }
  cases e with
  | request r =>
      obtain ⟨new, hmoves, -⟩ := ObjectStore.step_moves (D := D) h.resolved (now, r)
      exact ⟨h.resolved.step (now, r), hmoves.keyed h.keyed, hticked.work, hticked.phase,
        hticked.removed⟩
  | advance => exact hticked.advance rfl hlisted

/-- A run that begins with a pass over the rules. -/
structure Begins (rules : List (Bytes × List LifecycleRule)) (s : LifecycleRun) : Prop where
  resolved : s.store.Resolved
  keyed : ObjectStore.KeysRight s.store.mem
  work : s.work = rules
  phase : s.phase = .next
  removed : s.removed = []

/-- A pass removes only what is old, if its deletions find versions that are not younger than those
that it listed. -/
theorem expires_only_old (D : Digests) (hs : Begins rules s) (es : List (Int64 × LifecycleEvent))
    (hclock : Along (step D) ClockForward s es) (hlisted : Along (step D) RemovesListed s es) :
    ∀ r ∈ (es.foldl (step D) s).removed, Old rules r := by
  have hstart : s.Sound rules := by
    refine ⟨hs.resolved, hs.keyed, fun x hx => ⟨x.2, hs.work ▸ hx, fun r hr => hr⟩, ?_, ?_⟩
    · rw [hs.phase]
      trivial
    · rw [hs.removed]
      exact nofun
  have hboth : Along (step D) (fun s e => ClockForward s e ∧ RemovesListed s e) s es :=
    hclock.and hlisted
  have hrun : (es.foldl (step D) s).Sound rules :=
    hboth.invariant (I := Sound rules) hstart (fun s e he h => h.step he.1 he.2)
  exact hrun.removed

/-- One day in nanoseconds, and a rule that expires everything after one. -/
def oneDay : Int64 := 86400000000000

def dailyRules : List (Bytes × List LifecycleRule) := [(ascii "docs", [⟨true, [], 1, 0⟩])]

def dailyPass : LifecycleRun := { store := .withBucket (ascii "docs"), work := dailyRules }

theorem dailyPass_begins : Begins dailyRules dailyPass := by
  have h := ObjectStore.withBucket_inOrder Digests.zero (ascii "docs")
  exact ⟨h.toResolved, fun b k o ho => absurd ho (ObjectStore.withBucket_empty _ b k o), rfl, rfl,
    rfl⟩

def putAt (now : Int64) : Int64 × LifecycleEvent :=
  (now, .request (.put (ascii "docs") (ascii "k") {} {} [1] {}))

/-- An object is put; a day later a pass lists it, finds it old and deletes it. -/
def expiredInTime : List (Int64 × LifecycleEvent) :=
  [putAt 0, (oneDay, .advance), (oneDay, .advance), (oneDay, .advance), (oneDay, .advance)]

theorem expires_only_old_daily :
    (expiredInTime.foldl (step Digests.zero) dailyPass).removed.length = 1 ∧
      ∀ r ∈ (expiredInTime.foldl (step Digests.zero) dailyPass).removed, Old dailyRules r :=
  ⟨by decide +kernel, expires_only_old Digests.zero dailyPass_begins expiredInTime
    (by decide +kernel) (by decide +kernel)⟩

/-- The object is put again between the test of its age and the deletion. -/
def overwrittenInTime : List (Int64 × LifecycleEvent) :=
  [putAt 0, (oneDay, .advance), (oneDay, .advance), (oneDay, .advance), putAt oneDay,
    (oneDay, .advance)]

/-- The pass deletes a version that is no day old. -/
theorem young_version_expired :
    Begins dailyRules dailyPass ∧
      Along (step Digests.zero) ClockForward dailyPass overwrittenInTime ∧
      ¬ ∀ r ∈ (overwrittenInTime.foldl (step Digests.zero) dailyPass).removed,
      Old dailyRules r := by
  refine ⟨dailyPass_begins, by decide +kernel, fun h => ?_⟩
  have hyoung : (overwrittenInTime.foldl (step Digests.zero) dailyPass).removed.any
      (fun r => !Gateway.aged r.time r.version.objMeta.lastModified 1) = true := by
    decide +kernel
  obtain ⟨r, hr, hyoung⟩ := List.any_eq_true.mp hyoung
  obtain ⟨rule, ⟨⟨-, own, hown, hrule⟩, -⟩, -, haged⟩ := h r hr
  simp only [dailyRules, List.mem_singleton, Prod.mk.injEq] at hown
  rw [hown.2, List.mem_singleton] at hrule
  rw [hrule] at haged
  simp [haged] at hyoung

end LifecycleRun

end Lights3
