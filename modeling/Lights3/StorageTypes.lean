import Lights3.Lib.ByteString
import Lights3.Lib.SortedMap

/-!
# Storage-layer data types

The records of `storage/backend.h` and the error type of `s3/errors.h`.
Strings are byte strings, `std::map` is a sorted map, and a
`system_clock::time_point` is its signed 64-bit count of nanoseconds.
Response-header names and the echo flag of the first-class metadata table are
left out: nothing in the storage layer reads them.
-/
namespace Lights3
open ByteString

/-- `s3::S3ErrorCode`, in the order of the source table. -/
inductive S3ErrorCode where
  | AccessDenied | AuthorizationHeaderMalformed | BadDigest | BucketAlreadyExists
  | BucketAlreadyOwnedByYou | BucketNotEmpty | EntityTooLarge | EntityTooSmall
  | ExpiredToken | InternalError | InvalidAccessKeyId | InvalidArgument
  | InvalidBucketName | InvalidDigest | InvalidLocationConstraint | InvalidObjectState
  | InvalidPart | InvalidPartNumber | InvalidPartOrder | InvalidRange
  | InvalidRequest | InvalidToken | KeyTooLongError | MalformedXML
  | MetadataTooLarge | MethodNotAllowed | MissingContentLength | NoSuchBucket
  | NoSuchCORSConfiguration | NoSuchKey | NoSuchLifecycleConfiguration
  | NoSuchQuotaConfiguration | NoSuchTenant | NoSuchWebsiteConfiguration
  | NoSuchUpload | NotImplemented | PermanentRedirect | PreconditionFailed
  | QuotaExceeded | RequestTimeout | RequestTimeTooSkewed | SignatureDoesNotMatch
  | SlowDown | TenantAlreadyExists | TenantNotEmpty | ScrubInProgress
  | JobInProgress | TooManyBuckets | XAmzContentSHA256Mismatch
  deriving DecidableEq

/-- `s3::S3Error`: the code, the message text and the resource it names. -/
structure S3Error where
  code : S3ErrorCode
  message : String
  resource : Bytes := []
  deriving DecidableEq

/-- `storage::ObjectMeta`. -/
structure ObjectMeta where
  key : Bytes := []
  size : UInt64 := 0
  etag : Bytes := []
  contentType : Bytes := ascii "binary/octet-stream"
  /-- Nanoseconds since the epoch. -/
  lastModified : Int64 := 0
  userMeta : SortedMap Bytes Bytes := SortedMap.empty
  cacheControl : Bytes := []
  contentDisposition : Bytes := []
  contentEncoding : Bytes := []
  contentLanguage : Bytes := []
  expires : Bytes := []
  websiteRedirect : Bytes := []
  checksumAlgorithm : Bytes := []
  checksumValue : Bytes := []
  checksumType : Bytes := []
  /-- Slot of a trailer-form checksum, filled once the body has been read. -/
  checksumPending : Option Bytes := none
  partSizes : List UInt64 := []
  tagging : Bytes := []
  deriving DecidableEq

/-- `resolved_checksum_value`: a declared value wins over the pending slot. -/
def resolvedChecksumValue (m : ObjectMeta) : Bytes :=
  if m.checksumValue ≠ [] then m.checksumValue else m.checksumPending.getD []

/-- One row of `kStdMetaFields`: the persisted name and the member it denotes. -/
structure StdMetaField where
  storeKey : Bytes
  get : ObjectMeta → Bytes
  set : ObjectMeta → Bytes → ObjectMeta

/-- `kStdMetaFields`, in table order. -/
def stdMetaFields : List StdMetaField :=
  [⟨ascii "cache_control", (·.cacheControl), fun m v => { m with cacheControl := v }⟩,
   ⟨ascii "content_disposition", (·.contentDisposition),
     fun m v => { m with contentDisposition := v }⟩,
   ⟨ascii "content_encoding", (·.contentEncoding), fun m v => { m with contentEncoding := v }⟩,
   ⟨ascii "content_language", (·.contentLanguage), fun m v => { m with contentLanguage := v }⟩,
   ⟨ascii "expires", (·.expires), fun m v => { m with expires := v }⟩,
   ⟨ascii "website_redirect", (·.websiteRedirect), fun m v => { m with websiteRedirect := v }⟩,
   ⟨ascii "tagging", (·.tagging), fun m v => { m with tagging := v }⟩]

/-- `PutCondition`. -/
structure PutCondition where
  ifNoneMatch : Bool := false
  ifMatchEtag : Option Bytes := none

/-- `ListOptions`; `max_keys` is a signed `int`. -/
structure ListOptions where
  keyPrefix : Bytes := []
  delimiter : Bytes := []
  maxKeys : Int := 1000
  startAfter : Bytes := []

/-- `ListResult`, over the type of the listed records. -/
structure ListResult (μ : Type) where
  objects : List μ := []
  commonPrefixes : List Bytes := []
  isTruncated : Bool := false
  nextToken : Bytes := []
  deriving DecidableEq

/-- `PartInfo`: one entry of a complete request. -/
structure PartInfo where
  partNo : Int := 0
  etag : Bytes := []
  checksumAlgorithm : Bytes := []
  checksumValue : Bytes := []
  deriving DecidableEq

/-- `UploadInfo`. -/
structure UploadInfo where
  key : Bytes
  uploadId : Bytes
  initiated : Int64

/-- `ListUploadsOptions`. -/
structure ListUploadsOptions where
  keyPrefix : Bytes := []
  delimiter : Bytes := []
  maxUploads : Int := 1000
  keyMarker : Bytes := []
  uploadIdMarker : Bytes := []

/-- `ListUploadsResult`. -/
structure ListUploadsResult where
  uploads : List UploadInfo := []
  commonPrefixes : List Bytes := []
  isTruncated : Bool := false
  nextKeyMarker : Bytes := []
  nextUploadIdMarker : Bytes := []

end Lights3
