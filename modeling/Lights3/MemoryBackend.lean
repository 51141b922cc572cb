import Lights3.Listing
import Lights3.Multipart
import Lights3.Lib.Results

/-!
# The in-memory backend

`storage/memory/memory_backend.cc` with the checks of `storage/validate.cc`. Every operation is one
critical section, so it is one function on the state; a body is read before the lock is taken and is
an argument. An operation that fails leaves the state as it was, except that the uploads which have
expired are swept before `create_multipart` and `list_multipart_uploads` look at anything.

The creation time of a bucket is left out: only the listing of the buckets reads it.
-/
namespace Lights3
open ByteString

/-! ## Names -/

def sysBucketName : Bytes := ascii ".sys"

/-- `looks_like_ipv4`. -/
def looksLikeIpv4 (b : Bytes) : Bool :=
  (b.splitOn 46).length = 4 && (b.splitOn 46).all (fun s =>
    s ≠ [] && s.length ≤ 3 && s.all Decimal.isDigit && Decimal.value s ≤ 255)

def bucketNameChar (c : UInt8) : Bool :=
  (97 ≤ c && c ≤ 122) || (48 ≤ c && c ≤ 57) || c = 45 || c = 46

def reservedPrefixes : List Bytes := [ascii "xn--", ascii "sthree-", ascii "amzn-s3-demo-"]

def reservedSuffixes : List Bytes :=
  [ascii "-s3alias", ascii "--ol-s3", ascii "--x-s3", ascii ".mrap"]

def bucketNameOk (b : Bytes) : Bool :=
  3 ≤ b.length && b.length ≤ 63 && b.all bucketNameChar &&
    !(b.head? = some 45 || b.head? = some 46 || b.getLast? = some 45 || b.getLast? = some 46) &&
    (indexOf (ascii "..") b).isNone && (indexOf (ascii ".-") b).isNone &&
    (indexOf (ascii "-.") b).isNone && !looksLikeIpv4 b &&
    reservedPrefixes.all (fun p => !p.isPrefixOf b) &&
    reservedSuffixes.all (fun p => !p.isSuffixOf b)

/-- `validate_bucket_name`; the reserved bucket is for callers that ask for it. -/
def validateBucketName (b : Bytes) (allowReserved : Bool := false) : Except S3Error Unit :=
  if (b = sysBucketName && allowReserved) || (b ≠ sysBucketName && bucketNameOk b) then .ok ()
  else .error ⟨.InvalidBucketName, "The specified bucket is not valid.", b⟩

/-- `validate_object_key`. -/
def validateObjectKey (k : Bytes) : Except S3Error Unit :=
  if k = [] ∨ k.length > 1024 then
    .error ⟨.KeyTooLongError, "Object key is empty or too long.", []⟩
  else if k.any (fun c => c < 0x20 || c = 0x7f) then
    .error ⟨.InvalidArgument, "Object key contains control characters.", []⟩
  else if (k.splitOn 47).any (fun seg => seg = ascii "." || seg = ascii "..") then
    .error ⟨.InvalidArgument, "Object key must not contain '.' or '..' path segments.", []⟩
  else .ok ()

/-! ## The state -/

structure MemoryOptions where
  /-- Zero for no limit. -/
  maxBytes : Nat := 0
  /-- Zero for uploads that never expire. -/
  mpuTtlSec : Int := 24 * 3600

/-- An object; its recorded size is the one of its data. -/
structure BackendObject where
  objMeta : ObjectMeta
  data : Bytes
  size_eq : objMeta.size = UInt64.ofNat data.length

abbrev PartNumber := { n : Int // 1 ≤ n ∧ n ≤ 10000 }

/-- `MemoryBackend::Part`. -/
structure StoredPart where
  data : Bytes
  etag : Bytes
  uploaded : Int64
  checksumAlgorithm : Bytes := []
  checksumValue : Bytes := []

def StoredPart.size (p : StoredPart) : UInt64 := UInt64.ofNat p.data.length

/-- `MemoryBackend::Upload`. -/
structure StoredUpload where
  bucket : Bytes
  key : Bytes
  objMeta : ObjectMeta
  parts : SortedMap PartNumber StoredPart := .empty
  initiated : Int64

def StoredUpload.bytes (u : StoredUpload) : Nat := (u.parts.entries.map (·.2.data.length)).sum

abbrev BucketObjects := SortedMap Bytes BackendObject

structure MemoryBackend where
  opt : MemoryOptions := {}
  buckets : SortedMap Bytes BucketObjects := .empty
  uploads : SortedMap Bytes StoredUpload := .empty
  usedBytes : Nat := 0

namespace MemoryBackend

variable (s : MemoryBackend)

def slowDown : S3Error :=
  ⟨.SlowDown, "memory backend is at its configured max_bytes capacity", []⟩

/-- `reserve_locked`. -/
def reserve (delta : Int) : Except S3Error MemoryBackend :=
  if 0 < delta ∧ s.opt.maxBytes ≠ 0 ∧ s.opt.maxBytes < s.usedBytes + delta then .error slowDown
  else .ok { s with usedBytes := (s.usedBytes + delta).toNat }

/-- `check_inflight` of a body that is read to its end. -/
def checkInflight (data : Bytes) : Except S3Error Unit :=
  if data ≠ [] ∧ s.opt.maxBytes ≠ 0 ∧ s.opt.maxBytes < s.usedBytes + data.length then
    .error slowDown
  else .ok ()

/-- `expire_uploads_locked`. -/
def expireUploads (now : Int64) : MemoryBackend :=
  if s.opt.mpuTtlSec ≤ 0 then s
  else
    let cutoff := now - Int64.ofInt (s.opt.mpuTtlSec * 10 ^ 9)
    let kept := s.uploads.keep (fun id => (s.uploads.get? id).any (fun u => cutoff ≤ u.initiated))
    let freed := ((s.uploads.entries.filter (fun e => e.2.initiated < cutoff)).map (·.2.bytes)).sum
    { s with uploads := kept, usedBytes := s.usedBytes - freed }

def noSuchBucket (b : Bytes) : S3Error :=
  ⟨.NoSuchBucket, "The specified bucket does not exist", b⟩

def noSuchKey (k : Bytes) : S3Error := ⟨.NoSuchKey, "The specified key does not exist", k⟩

def preconditionFailed (k : Bytes) : S3Error :=
  ⟨.PreconditionFailed, "At least one of the pre-conditions you specified did not hold", k⟩

/-- `bucket_or_throw`. -/
def bucketOrThrow (b : Bytes) : Except S3Error BucketObjects :=
  match s.buckets.get? b with
  | some objs => .ok objs
  | none => .error (noSuchBucket b)

def objectOrThrow (objs : BucketObjects) (k : Bytes) : Except S3Error BackendObject :=
  match objs.get? k with
  | some o => .ok o
  | none => .error (noSuchKey k)

/-! ## Buckets -/

def createBucket (b : Bytes) : Except S3Error MemoryBackend := do
  validateBucketName b true
  if (s.buckets.get? b).isSome then
    .error ⟨.BucketAlreadyOwnedByYou, "Bucket already exists", b⟩
  else .ok { s with buckets := s.buckets.insert b .empty }

/-- Uploads are not looked at. -/
def deleteBucket (b : Bytes) : Except S3Error MemoryBackend := do
  validateBucketName b true
  let objs ← s.bucketOrThrow b
  if objs.entries ≠ [] then
    .error ⟨.BucketNotEmpty, "The bucket you tried to delete is not empty", b⟩
  else .ok { s with buckets := s.buckets.erase b }

/-! ## Objects -/

/-- The condition of a put, checked where it commits. -/
def checkCondition (objs : BucketObjects) (k : Bytes) (cond : PutCondition) : Except S3Error Unit :=
  if cond.ifNoneMatch && (objs.get? k).isSome then .error (preconditionFailed k)
  else
    match cond.ifMatchEtag, objs.get? k with
    | none, _ => .ok ()
    | some _, none => .error (noSuchKey k)
    | some etag, some o => if etag ≠ o.objMeta.etag then .error (preconditionFailed k) else .ok ()

/-- `finalize_checksum`. -/
def finalizeChecksum (m : ObjectMeta) : ObjectMeta :=
  { m with checksumValue := resolvedChecksumValue m, checksumPending := none }

/-- What `put_object` stores. -/
def newObject (D : Digests) (now : Int64) (k : Bytes) (m : ObjectMeta) (data : Bytes) :
    BackendObject where
  objMeta := finalizeChecksum
    { m with
      key := k
      size := UInt64.ofNat data.length
      etag := toHex (D.md5 data)
      lastModified := now }
  data := data
  size_eq := rfl

/-- An object is put into its bucket, with its bytes reserved. -/
def commitObject (b k : Bytes) (objs : BucketObjects) (o : BackendObject) :
    Except S3Error MemoryBackend := do
  let old := ((objs.get? k).map (·.data.length)).getD 0
  let s ← s.reserve (o.data.length - old)
  .ok { s with buckets := s.buckets.insert b (objs.insert k o) }

def putObject (D : Digests) (now : Int64) (b k : Bytes) (m : ObjectMeta) (data : Bytes)
    (cond : PutCondition := {}) : Except S3Error (Bytes × MemoryBackend) := do
  validateBucketName b true
  validateObjectKey k
  s.checkInflight data
  let objs ← s.bucketOrThrow b
  checkCondition objs k cond
  let o := newObject D now k m data
  let s ← s.commitObject b k objs o
  .ok (o.objMeta.etag, s)

/-- The object that `get_object` streams, whatever happens to the key meanwhile. -/
def getObject (b k : Bytes) : Except S3Error BackendObject := do
  validateBucketName b true
  let objs ← s.bucketOrThrow b
  objectOrThrow objs k

def headObject (b k : Bytes) : Except S3Error ObjectMeta := do
  let o ← s.getObject b k
  .ok o.objMeta

/-- Deleting a missing key is no error. -/
def deleteObject (b k : Bytes) : Except S3Error MemoryBackend := do
  validateBucketName b true
  let objs ← s.bucketOrThrow b
  match objs.get? k with
  | none => .ok s
  | some o =>
      let s ← s.reserve (-o.data.length)
      .ok { s with buckets := s.buckets.insert b (objs.erase k) }

def listObjects (b : Bytes) (opt : ListOptions) : Except S3Error (ListResult ObjectMeta) := do
  validateBucketName b true
  let objs ← s.bucketOrThrow b
  .ok (applyListing objs.keys opt (fun k => ((objs.get? k).map (·.objMeta)).getD {}))

/-! ## Multipart uploads -/

/-- `upload_or_throw`. -/
def uploadOrThrow (b k id : Bytes) : Except S3Error StoredUpload :=
  match s.uploads.get? id with
  | some u =>
      if u.bucket = b ∧ u.key = k then .ok u
      else .error ⟨.NoSuchUpload, "The specified multipart upload does not exist.", id⟩
  | none => .error ⟨.NoSuchUpload, "The specified multipart upload does not exist.", id⟩

/-- `create_multipart` once the expired uploads are swept; the id is the one of `new_upload_id`. -/
def createMultipart (now : Int64) (id b k : Bytes) (m : ObjectMeta) :
    Except S3Error MemoryBackend := do
  validateBucketName b true
  validateObjectKey k
  let _ ← s.bucketOrThrow b
  let u : StoredUpload := { bucket := b, key := k, objMeta := m, initiated := now }
  .ok { s with uploads := s.uploads.insert id u }

/-- The checksum that came with the body of a part. -/
structure PartChecksum where
  algorithm : Bytes
  value : Bytes
  pending : Option Bytes := none

def PartChecksum.resolved (c : PartChecksum) : Bytes :=
  if c.value ≠ [] then c.value else c.pending.getD []

def newPart (D : Digests) (now : Int64) (data : Bytes) (checksum : Option PartChecksum) :
    StoredPart where
  data := data
  etag := toHex (D.md5 data)
  uploaded := now
  checksumAlgorithm := (checksum.map (·.algorithm)).getD []
  checksumValue := (checksum.map (·.resolved)).getD []

/-- A second upload of a part number replaces the first one. The bucket is not looked at. -/
def uploadPart (D : Digests) (now : Int64) (b k id : Bytes) (partNo : Int) (data : Bytes)
    (checksum : Option PartChecksum := none) : Except S3Error (Bytes × MemoryBackend) :=
  if h : 1 ≤ partNo ∧ partNo ≤ 10000 then do
    let u ← s.uploadOrThrow b k id
    s.checkInflight data
    let old := ((u.parts.get? ⟨partNo, h⟩).map (·.data.length)).getD 0
    let s ← s.reserve (data.length - old)
    let part := newPart D now data checksum
    let u' : StoredUpload := { u with parts := u.parts.insert ⟨partNo, h⟩ part }
    .ok (part.etag, { s with uploads := s.uploads.insert id u' })
  else .error ⟨.InvalidArgument, "Part number must be an integer between 1 and 10000.", []⟩

def findPart (parts : SortedMap PartNumber StoredPart) (partNo : Int) : Option StoredPart :=
  if h : 1 ≤ partNo ∧ partNo ≤ 10000 then parts.get? ⟨partNo, h⟩ else none

/-- The stored parts that a complete request names. -/
def namedParts (k : Bytes) (stored : SortedMap PartNumber StoredPart) :
    List PartInfo → Except S3Error (List StoredPart)
  | [] => .ok []
  | p :: ps =>
      match findPart stored p.partNo with
      | none => .error ⟨.InvalidPart, invalidPartText, k⟩
      | some part =>
          if part.etag ≠ stripEtagQuotes p.etag then .error ⟨.InvalidPart, invalidPartText, k⟩
          else do
            let rest ← namedParts k stored ps
            .ok (part :: rest)
where
  invalidPartText :=
    "One or more of the specified parts could not be found or the ETag did not match."

@[simp] theorem applyCompositeChecksum_size (D : Digests) (ds : List PartDigest) (m : ObjectMeta) :
    (applyCompositeChecksum D ds m).size = m.size := by
  unfold applyCompositeChecksum
  split
  · rfl
  · split_ifs
    · rfl
    · split <;> rfl

/-- What `complete_multipart` stores. -/
def assembledObject (D : Digests) (now : Int64) (k : Bytes) (m : ObjectMeta)
    (parts : List StoredPart) : BackendObject where
  objMeta := applyCompositeChecksum D
    (parts.map (fun p => ⟨p.checksumAlgorithm, p.checksumValue⟩))
    { m with
      key := k
      size := UInt64.ofNat (parts.flatMap (·.data)).length
      etag := combinedEtag D (parts.map (·.etag))
      lastModified := now
      partSizes := parts.map (·.size) }
  data := parts.flatMap (·.data)
  size_eq := by simp

def completeMultipart (D : Digests) (now : Int64) (b k id : Bytes) (parts : List PartInfo) :
    Except S3Error (Bytes × MemoryBackend) := do
  validatePartOrder parts
  let u ← s.uploadOrThrow b k id
  let objs ← s.bucketOrThrow b
  let named ← namedParts k u.parts parts
  let o := assembledObject D now k u.objMeta named
  let s ← s.commitObject b k objs o
  .ok (o.objMeta.etag, { s with uploads := s.uploads.erase id, usedBytes := s.usedBytes - u.bytes })

def abortMultipart (b k id : Bytes) : Except S3Error MemoryBackend := do
  let u ← s.uploadOrThrow b k id
  .ok { s with uploads := s.uploads.erase id, usedBytes := s.usedBytes - u.bytes }

/-- The uploads of a bucket, by key and id. -/
def bucketUploads (b : Bytes) : List UploadInfo :=
  ((s.uploads.entries.filter (fun e => e.2.bucket = b)).map
    (fun e => ⟨e.2.key, e.1, e.2.initiated⟩)).mergeSort (fun u v => decide (u.pos ≤ v.pos))

/-- `list_multipart_uploads` once the expired uploads are swept. -/
def listMultipartUploads (b : Bytes) (opt : ListUploadsOptions) :
    Except S3Error ListUploadsResult := do
  validateBucketName b true
  let _ ← s.bucketOrThrow b
  .ok (applyUploadsPage (s.bucketUploads b) opt)

end MemoryBackend

end Lights3
