import Lights3.MemorySpec

/-!
# Requests on objects

What the requests of `s3/handlers/objects.cc` and the lifecycle pass of `s3/lifecycle.cc` are given,
after their headers and documents have been read, and the parts of the handlers that look at nothing
else.
-/
namespace Lights3
open ByteString

/-! ## Requests -/

/-- `x-amz-metadata-directive`, with the metadata of the request. -/
inductive CopyDirective where
  | copy
  | replace (m : ObjectMeta)
  deriving DecidableEq

/-- The source of a copy and the `x-amz-copy-source-if-*` conditions on it. -/
structure CopySource where
  bucket : Bytes
  key : Bytes
  check : ObjectMeta → Except S3Error Unit

structure LifecycleRule where
  enabled : Bool
  keyPrefix : Bytes
  expirationDays : Nat
  abortIncompleteDays : Nat

namespace Gateway

/-! ## Copies -/

/-- The metadata of a copy. -/
def copyMeta (src : ObjectMeta) : CopyDirective → ObjectMeta
  | .copy => { src with key := [], size := 0, etag := [] }
  | .replace m =>
      { m with
        checksumAlgorithm := src.checksumAlgorithm
        checksumValue := src.checksumValue
        checksumType := src.checksumType
        partSizes := src.partSizes }

/-- A copy of an object to itself has to change the metadata. -/
def refuseSelfCopy (src : CopySource) (b k : Bytes) (directive : CopyDirective) :
    Except S3Error Unit :=
  if src.bucket = b ∧ src.key = k ∧ directive = .copy then
    .error ⟨.InvalidRequest,
      "This copy request is illegal because it is trying to copy an object " ++
      "to itself without changing metadata.", []⟩
  else .ok ()

/-! ## Multipart uploads -/

/-- A `uint64_t` sum of sizes. -/
def sumSizes (sizes : List UInt64) : UInt64 := sizes.foldl (· + ·) 0

/-! ## Lifecycle passes -/

/-- `kDay` in nanoseconds. -/
def nanosPerDay : Int := 24 * 3600 * 10 ^ 9

def aged (now since : Int64) (days : Nat) : Bool := days * nanosPerDay ≤ now.toInt - since.toInt

end Gateway

end Lights3
