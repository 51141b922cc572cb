import Lights3.Gateway
import Lights3.RequestChecksums
import Lights3.Tenants

/-!
# Object requests as steps

The requests on objects as they interleave. A put, a deletion and the completion of an upload change
the backend in one step: what they read before does not change what they commit. A copy takes three
steps. It reads the metadata of its source, later the bytes, and commits both.
-/
namespace Lights3
open ByteString

/-- What `meta_from_headers` gives: nothing in it describes bytes. -/
def fromHeaders (m : ObjectMeta) : ObjectMeta :=
  { m with
    key := []
    size := 0
    etag := []
    checksumAlgorithm := []
    checksumValue := []
    checksumType := []
    checksumPending := none
    partSizes := [] }

/-- `x-amz-checksum-type` of a new upload. -/
inductive ChecksumTypeHeader where
  | fullObject
  | composite
  | other (value : Bytes)

/-- What a copy has read. -/
inductive CopyPhase where
  | headed (m : ObjectMeta)
  | got (m : ObjectMeta) (o : BackendObject)

/-- A copy between its steps. -/
structure CopyCall where
  src : CopySource
  bucket : Bytes
  key : Bytes
  directive : CopyDirective
  phase : CopyPhase

structure ObjectStore where
  mem : MemoryBackend := {}
  copies : SortedMap Nat CopyCall := .empty

inductive StoreEvent where
  | put (b k : Bytes) (m : ObjectMeta) (checksums : ChecksumHeaders) (data : Bytes)
      (cond : PutCondition)
  | delete (b k : Bytes)
  /-- With the algorithms that the headers name and the type. -/
  | createMultipart (b k : Bytes) (m : ObjectMeta) (algorithms : List ChecksumAlgorithm)
      (type : Option ChecksumTypeHeader) (id : Bytes)
  | uploadPart (b k id : Bytes) (partNo : Int) (checksums : ChecksumHeaders) (data : Bytes)
  | complete (b k id : Bytes) (parts : List PartInfo)
  | headCopy (call : Nat) (src : CopySource) (b k : Bytes) (directive : CopyDirective)
  | getCopy (call : Nat)
  | commitCopy (call : Nat)

namespace ObjectStore

variable (D : Digests) (s : ObjectStore)

/-- The metadata and checks of a put; the body is compared before the backend commits. -/
def put (now : Int64) (b k : Bytes) (m : ObjectMeta) (checksums : ChecksumHeaders) (data : Bytes)
    (cond : PutCondition) : Except S3Error MemoryBackend := do
  let expected ← expectedDigests checksums
  let c ← requestChecksum checksums
  verifyBody D expected data
  let (_, mem) ← s.mem.putObject D now b k (attachChecksum D data c (fromHeaders m)) data cond
  .ok mem

/-- The algorithm of a new upload; only composite checksums are kept. -/
def declareAlgorithm (m : ObjectMeta) (a : ChecksumAlgorithm) : Except S3Error ObjectMeta :=
  if a = .crc64nvme then
    .error ⟨.NotImplemented, "Full-object multipart checksums (CRC64NVME) are not implemented; " ++
      "use CRC32, CRC32C, SHA1 or SHA256 (composite).", []⟩
  else .ok { m with checksumAlgorithm := a.wireName, checksumType := ascii "COMPOSITE" }

def checkType : Option ChecksumTypeHeader → Except S3Error Unit
  | none => .ok ()
  | some .composite => .ok ()
  | some .fullObject => .error ⟨.NotImplemented,
      "Full-object multipart checksums are not implemented; only COMPOSITE is supported.", []⟩
  | some (.other v) =>
      .error ⟨.InvalidRequest, "Invalid x-amz-checksum-type value: " ++ shown v, []⟩

/-- The metadata of a new upload. -/
def uploadMeta (m : ObjectMeta) (algorithms : List ChecksumAlgorithm)
    (type : Option ChecksumTypeHeader) : Except S3Error ObjectMeta := do
  let m ← algorithms.foldlM declareAlgorithm (fromHeaders m)
  checkType type
  .ok m

/-- A failed request leaves the backend as it is. -/
def settle (x : Except S3Error MemoryBackend) : ObjectStore :=
  match x with
  | .ok mem => { s with mem := mem }
  | .error _ => s

/-- The backend sweeps expired uploads before it adds one. -/
def createMultipart (now : Int64) (b k : Bytes) (m : ObjectMeta)
    (algorithms : List ChecksumAlgorithm) (type : Option ChecksumTypeHeader) (id : Bytes) :
    ObjectStore :=
  match uploadMeta m algorithms type with
  | .ok m =>
      let swept := { s with mem := s.mem.expireUploads now }
      swept.settle (swept.mem.createMultipart now id b k m)
  | .error _ => s

/-- `extract_part_checksum`, with its slot filled. -/
def partChecksum (data : Bytes) (c : RequestChecksum) : MemoryBackend.PartChecksum :=
  { algorithm := c.algorithm.wireName
    value := c.value.getD []
    pending := if c.value.isSome then none else some (base64Encode (c.algorithm.digest D data)) }

def uploadPart (now : Int64) (b k id : Bytes) (partNo : Int) (checksums : ChecksumHeaders)
    (data : Bytes) : Except S3Error MemoryBackend := do
  let expected ← expectedDigests checksums
  let c ← requestChecksum checksums
  verifyBody D expected data
  let (_, mem) ← s.mem.uploadPart D now b k id partNo data (c.map (partChecksum D data))
  .ok mem

def complete (now : Int64) (b k id : Bytes) (parts : List PartInfo) :
    Except S3Error MemoryBackend := do
  let (_, mem) ← s.mem.completeMultipart D now b k id parts
  .ok mem

/-- The metadata that a copy asks for comes from headers. -/
def headerDirective : CopyDirective → CopyDirective
  | .copy => .copy
  | .replace m => .replace (fromHeaders m)

/-- The first read of a copy, with the checks that follow it. -/
def headCopy (src : CopySource) (b k : Bytes) (directive : CopyDirective) :
    Except S3Error CopyCall := do
  let m ← s.mem.headObject src.bucket src.key
  src.check m
  Gateway.refuseSelfCopy src b k directive
  .ok ⟨src, b, k, headerDirective directive, .headed m⟩

/-- The copy commits what it has read. -/
def commitCopy (now : Int64) (call : CopyCall) (m : ObjectMeta) (o : BackendObject) :
    Except S3Error MemoryBackend := do
  let (_, mem) ← s.mem.putObject D now call.bucket call.key
    (Gateway.copyMeta m call.directive) o.data
  .ok mem

/-- The next read of a copy; a copy whose source is gone ends. -/
def getCopy (i : Nat) : ObjectStore :=
  match s.copies.get? i with
  | some call =>
      match call.phase with
      | .headed m =>
          match s.mem.getObject call.src.bucket call.src.key with
          | .ok o => { s with copies := s.copies.insert i { call with phase := .got m o } }
          | .error _ => { s with copies := s.copies.erase i }
      | .got _ _ => s
  | none => s

def endCopy (now : Int64) (i : Nat) : ObjectStore :=
  match s.copies.get? i with
  | some call =>
      match call.phase with
      | .got m o => { s.settle (s.commitCopy D now call m o) with copies := s.copies.erase i }
      | .headed _ => s
  | none => s

def step (e : Int64 × StoreEvent) : ObjectStore :=
  match e.2 with
  | .put b k m checksums data cond => s.settle (s.put D e.1 b k m checksums data cond)
  | .delete b k => s.settle (s.mem.deleteObject b k)
  | .createMultipart b k m algorithms type id => s.createMultipart e.1 b k m algorithms type id
  | .uploadPart b k id partNo checksums data =>
      s.settle (s.uploadPart D e.1 b k id partNo checksums data)
  | .complete b k id parts => s.settle (s.complete D e.1 b k id parts)
  | .headCopy i src b k directive =>
      match s.headCopy src b k directive with
      | .ok call => { s with copies := s.copies.insert i call }
      | .error _ => s
  | .getCopy i => s.getCopy i
  | .commitCopy i => s.endCopy D e.1 i

end ObjectStore

end Lights3
