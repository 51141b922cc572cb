import Lights3.StorageTypes

/-!
# Metadata records

The location information of `duostore/data_ref.h` and the records of
`duostore/meta_store.h`.
-/
namespace Lights3

/-- `Extent::Kind`. -/
inductive ExtentKind where
  | chunk | pack | rados
  deriving DecidableEq

/-- The persisted byte of a kind. -/
def ExtentKind.toByte : ExtentKind → UInt8
  | chunk => 0
  | pack => 1
  | rados => 2

/-- `Extent`. -/
structure Extent where
  kind : ExtentKind := .chunk
  fileId : UInt64 := 0
  /-- Payload start within the pack; 0 for chunks and rados objects. -/
  offset : UInt64 := 0
  length : UInt64 := 0
  crc32c : UInt32 := 0
  deriving DecidableEq

/-- `DataRef`. -/
structure DataRef where
  extents : List Extent := []
  deriving DecidableEq

inductive Tier where
  | kLocal
  | kRemote
  | kCached
  deriving DecidableEq

/-- `TierState`; the tier byte is 0 local, 1 remote, 2 cached. -/
structure TierState where
  tier : UInt8 := 0
  remoteEtag : Bytes := []
  remoteAt : Bytes := []
  deriving DecidableEq

/-- `ObjectRec`. -/
structure ObjectRec where
  objMeta : ObjectMeta := {}
  data : DataRef := {}
  version : UInt64 := 0
  tier : TierState := {}
  deriving DecidableEq

/-- `UploadRec`. -/
structure UploadRec where
  uploadId : Bytes := []
  objMeta : ObjectMeta := {}
  initiatedMs : Int64 := 0

/-- `PartRec`. -/
structure PartRec where
  partNo : Int := 0
  size : UInt64 := 0
  etag : Bytes := []
  modifiedMs : Int64 := 0
  data : DataRef := {}
  checksumAlgorithm : Bytes := []
  checksumValue : Bytes := []

/-- `ReclaimReason`. -/
inductive ReclaimReason where
  | unknown | overwrite | delete | partOverwrite | abort | complete

def ReclaimReason.toByte : ReclaimReason → UInt8
  | unknown => 0
  | overwrite => 1
  | delete => 2
  | partOverwrite => 3
  | abort => 4
  | complete => 5

/-- Unknown bytes fall back to `unknown`. -/
def ReclaimReason.ofByte (b : UInt8) : ReclaimReason :=
  if b = 1 then overwrite
  else if b = 2 then delete
  else if b = 3 then partOverwrite
  else if b = 4 then abort
  else if b = 5 then complete
  else unknown

theorem ReclaimReason.ofByte_toByte (r : ReclaimReason) : ofByte r.toByte = r := by
  cases r <;> rfl

/-- `Reclaim`: one entry of the deletion queue. -/
structure Reclaim where
  extents : List Extent := []
  enqueueMs : Int64 := 0
  reason : ReclaimReason := .unknown

end Lights3
