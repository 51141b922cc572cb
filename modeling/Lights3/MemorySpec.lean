import Lights3.MemoryBackend

/-!
# What the operations of the in-memory backend do

One lemma for each operation: what has to hold for it to succeed, and the buckets and uploads it
leaves. The account of the used bytes is left out, since no other operation but the capacity check
reads it.
-/
namespace Lights3
open ByteString

namespace MemoryBackend

variable {s s' : MemoryBackend} {D : Digests} {now : Int64} {b k id : Bytes}

theorem reserve_ok {delta : Int} (h : s.reserve delta = .ok s') :
    s' = { s with usedBytes := (s.usedBytes + delta).toNat } := by
  unfold reserve at h
  split_ifs at h
  exact (Except.ok.inj h).symm

variable {o : BackendObject} {objs : BucketObjects}

theorem bucketOrThrow_ok : s.bucketOrThrow b = .ok objs ↔ s.buckets.get? b = some objs := by
  unfold bucketOrThrow
  cases s.buckets.get? b with
  | none => simp
  | some x => simp

theorem objectOrThrow_ok : objectOrThrow objs k = .ok o ↔ objs.get? k = some o := by
  unfold objectOrThrow
  cases objs.get? k with
  | none => simp
  | some x => simp

theorem uploadOrThrow_ok {u : StoredUpload} :
    s.uploadOrThrow b k id = .ok u ↔ s.uploads.get? id = some u ∧ u.bucket = b ∧ u.key = k := by
  unfold uploadOrThrow
  cases s.uploads.get? id with
  | none => simp
  | some x =>
      by_cases h : x.bucket = b ∧ x.key = k
      · simp only [h, and_self, if_true, Except.ok.injEq, Option.some.injEq]
        constructor
        · rintro rfl
          exact ⟨rfl, h⟩
        · exact fun hx => hx.1
      · simp only [h, if_false, Option.some.injEq, reduceCtorEq, false_iff]
        rintro ⟨rfl, hx⟩
        exact h hx

/-! ## Buckets -/

theorem createBucket_ok : s.createBucket b = .ok s' ↔ validateBucketName b true = .ok () ∧
    s.buckets.get? b = none ∧ s' = { s with buckets := s.buckets.insert b .empty } := by
  unfold createBucket
  rw [bind_eq_ok, exists_unit]
  refine and_congr_right (fun _ => ?_)
  cases hb : s.buckets.get? b with
  | none => simp [eq_comm]
  | some objs => simp

theorem deleteBucket_ok : s.deleteBucket b = .ok s' ↔ validateBucketName b true = .ok () ∧
    ∃ objs, s.buckets.get? b = some objs ∧ objs.entries = [] ∧
      s' = { s with buckets := s.buckets.erase b } := by
  unfold deleteBucket
  simp only [bind_eq_ok, exists_unit, bucketOrThrow_ok]
  refine and_congr_right (fun _ => exists_congr (fun objs => and_congr_right (fun _ => ?_)))
  by_cases hempty : objs.entries = []
  · simp [hempty, eq_comm]
  · simp [hempty]

/-! ## Objects -/

theorem getObject_ok (h : s.getObject b k = .ok o) :
    ∃ objs, s.buckets.get? b = some objs ∧ objs.get? k = some o := by
  obtain ⟨⟨⟩, -, h⟩ := of_bind_ok h
  obtain ⟨objs, hobjs, h⟩ := of_bind_ok h
  exact ⟨objs, bucketOrThrow_ok.mp hobjs, objectOrThrow_ok.mp h⟩

theorem headObject_ok {m : ObjectMeta} (h : s.headObject b k = .ok m) :
    ∃ objs o, s.buckets.get? b = some objs ∧ objs.get? k = some o ∧ o.objMeta = m := by
  obtain ⟨o, ho, h⟩ := of_bind_ok h
  obtain ⟨objs, hobjs, ho⟩ := getObject_ok ho
  exact ⟨objs, o, hobjs, ho, Except.ok.inj h⟩

theorem commitObject_ok (h : s.commitObject b k objs o = .ok s') :
    s'.opt = s.opt ∧ s'.uploads = s.uploads ∧
      s'.buckets = s.buckets.insert b (objs.insert k o) := by
  obtain ⟨t, ht, h⟩ := of_bind_ok h
  cases reserve_ok ht
  cases h
  exact ⟨rfl, rfl, rfl⟩

theorem putObject_ok {m : ObjectMeta} {data etag : Bytes} {cond : PutCondition}
    (h : s.putObject D now b k m data cond = .ok (etag, s')) : s'.opt = s.opt ∧
      s'.uploads = s.uploads ∧ ∃ objs, s.buckets.get? b = some objs ∧
        checkCondition objs k cond = .ok () ∧
        s'.buckets = s.buckets.insert b (objs.insert k (newObject D now k m data)) := by
  obtain ⟨⟨⟩, -, h⟩ := of_bind_ok h
  obtain ⟨⟨⟩, -, h⟩ := of_bind_ok h
  obtain ⟨⟨⟩, -, h⟩ := of_bind_ok h
  obtain ⟨objs, hobjs, h⟩ := of_bind_ok h
  obtain ⟨⟨⟩, hcond, h⟩ := of_bind_ok h
  obtain ⟨t, ht, h⟩ := of_bind_ok h
  cases h
  obtain ⟨hopt, hups, hbuckets⟩ := commitObject_ok ht
  exact ⟨hopt, hups, objs, bucketOrThrow_ok.mp hobjs, hcond, hbuckets⟩

theorem deleteObject_ok (h : s.deleteObject b k = .ok s') : s'.opt = s.opt ∧
    s'.uploads = s.uploads ∧ ∃ objs, s.buckets.get? b = some objs ∧
      s'.buckets = s.buckets.insert b (objs.erase k) := by
  obtain ⟨⟨⟩, -, h⟩ := of_bind_ok h
  obtain ⟨objs, hobjs, h⟩ := of_bind_ok h
  have hobjs := bucketOrThrow_ok.mp hobjs
  cases hk : objs.get? k with
  | none =>
      simp only [hk] at h
      cases h
      refine ⟨rfl, rfl, objs, hobjs, ?_⟩
      rw [SortedMap.erase_eq_self hk, SortedMap.insert_eq_self hobjs]
  | some o =>
      simp only [hk] at h
      obtain ⟨t, ht, h⟩ := of_bind_ok h
      cases reserve_ok ht
      cases h
      exact ⟨rfl, rfl, objs, hobjs, rfl⟩

/-! ## Multipart uploads -/

theorem createMultipart_ok {m : ObjectMeta} (h : s.createMultipart now id b k m = .ok s') :
    (s.buckets.get? b).isSome = true ∧
      s' = { s with
        uploads := s.uploads.insert id
          { bucket := b, key := k, objMeta := m, initiated := now } } := by
  obtain ⟨⟨⟩, -, h⟩ := of_bind_ok h
  obtain ⟨⟨⟩, -, h⟩ := of_bind_ok h
  obtain ⟨objs, hobjs, h⟩ := of_bind_ok h
  cases h
  exact ⟨by simp [bucketOrThrow_ok.mp hobjs], rfl⟩

/-- The upload with one more part. -/
def StoredUpload.withPart (u : StoredUpload) (partNo : PartNumber) (part : StoredPart) :
    StoredUpload :=
  { u with parts := u.parts.insert partNo part }

theorem uploadPart_ok {partNo : Int} {data etag : Bytes} {checksum : Option PartChecksum}
    (h : s.uploadPart D now b k id partNo data checksum = .ok (etag, s')) :
    s'.opt = s.opt ∧ s'.buckets = s.buckets ∧ ∃ u, ∃ hno : 1 ≤ partNo ∧ partNo ≤ 10000,
      s.uploads.get? id = some u ∧ u.bucket = b ∧ u.key = k ∧
      s'.uploads = s.uploads.insert id
        (StoredUpload.withPart u ⟨partNo, hno⟩ (newPart D now data checksum)) := by
  unfold uploadPart at h
  split_ifs at h with hno
  obtain ⟨u, hu, h⟩ := of_bind_ok h
  obtain ⟨⟨⟩, -, h⟩ := of_bind_ok h
  obtain ⟨t, ht, h⟩ := of_bind_ok h
  cases reserve_ok ht
  cases h
  obtain ⟨hget, hb, hk⟩ := uploadOrThrow_ok.mp hu
  exact ⟨rfl, rfl, u, hno, hget, hb, hk, rfl⟩

theorem completeMultipart_ok {parts : List PartInfo} {etag : Bytes}
    (h : s.completeMultipart D now b k id parts = .ok (etag, s')) :
    s'.opt = s.opt ∧ validatePartOrder parts = .ok () ∧ s'.uploads = s.uploads.erase id ∧
      ∃ u objs named, s.uploads.get? id = some u ∧ u.bucket = b ∧ u.key = k ∧
        s.buckets.get? b = some objs ∧ namedParts k u.parts parts = .ok named ∧
        s'.buckets = s.buckets.insert b
          (objs.insert k (assembledObject D now k u.objMeta named)) := by
  obtain ⟨⟨⟩, horder, h⟩ := of_bind_ok h
  obtain ⟨u, hu, h⟩ := of_bind_ok h
  obtain ⟨objs, hobjs, h⟩ := of_bind_ok h
  obtain ⟨named, hnamed, h⟩ := of_bind_ok h
  obtain ⟨t, ht, h⟩ := of_bind_ok h
  cases h
  obtain ⟨hopt, hups, hbuckets⟩ := commitObject_ok ht
  obtain ⟨hget, hb, hk⟩ := uploadOrThrow_ok.mp hu
  exact ⟨hopt, horder, by rw [← hups], u, objs, named, hget, hb, hk, bucketOrThrow_ok.mp hobjs,
    hnamed, hbuckets⟩

theorem abortMultipart_ok (h : s.abortMultipart b k id = .ok s') :
    s'.opt = s.opt ∧ s'.buckets = s.buckets ∧ s'.uploads = s.uploads.erase id ∧
      ∃ u, s.uploads.get? id = some u ∧ u.bucket = b ∧ u.key = k := by
  obtain ⟨u, hu, h⟩ := of_bind_ok h
  cases h
  exact ⟨rfl, rfl, rfl, u, uploadOrThrow_ok.mp hu⟩

theorem expireUploads_spec (now : Int64) : (s.expireUploads now).opt = s.opt ∧
    (s.expireUploads now).buckets = s.buckets ∧
    ∀ {id u}, (s.expireUploads now).uploads.get? id = some u → s.uploads.get? id = some u := by
  unfold expireUploads
  split_ifs
  · exact ⟨rfl, rfl, fun h => h⟩
  · refine ⟨rfl, rfl, fun {id u} h => ?_⟩
    simp only [SortedMap.get?_keep] at h
    split_ifs at h
    exact h

end MemoryBackend

/-! ## What a bucket holds -/

namespace MemoryBackend

variable (s : MemoryBackend)

/-- The objects of a bucket, none if there is no bucket. -/
def objectsOf (b : Bytes) : BucketObjects := (s.buckets.get? b).getD .empty

variable {s s' : MemoryBackend} {b b' : Bytes}

theorem objectsOf_of_get? {objs : BucketObjects} (h : s.buckets.get? b = some objs) :
    s.objectsOf b = objs := by
  simp [objectsOf, h]

theorem objectsOf_insert {objs : BucketObjects} (h : s'.buckets = s.buckets.insert b objs) :
    s'.objectsOf b' = if b' = b then objs else s.objectsOf b' := by
  by_cases hb : b' = b
  · simp [objectsOf, h, SortedMap.get?_insert, hb]
  · simp [objectsOf, h, SortedMap.get?_insert, hb]

/-- A backend with one bucket that is empty. -/
def withBucket (b : Bytes) : MemoryBackend := { buckets := SortedMap.empty.insert b .empty }

@[simp] theorem objectsOf_withBucket (b c : Bytes) : (withBucket b).objectsOf c = .empty := by
  rw [objectsOf_insert (s := {}) (b := b) rfl]
  split_ifs <;> rfl

end MemoryBackend

end Lights3
