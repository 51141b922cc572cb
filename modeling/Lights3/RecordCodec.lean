import Lights3.Multipart
import Lights3.Records
import Lights3.Lib.Wire

/-!
# Record codec

The value encodings of `duostore/codec.cc`: hand-written little-endian layouts
with a version byte in front and the extent array in run form at the end. A
writer appends to the value built so far; a reader is the `Cursor` of the
source, whose state is the input that is still unread.
-/
namespace Lights3
open ByteString Wire

/-- `corrupt`. -/
def corrupt (what : String) : S3Error :=
  ⟨.InternalError, "duostore: corrupt meta value: " ++ what, []⟩

/-- `too_large`: an oversized field is a request problem. -/
def tooLarge (what : String) : S3Error :=
  ⟨.InvalidArgument, "Metadata field too large: " ++ what, []⟩

abbrev Encoder := Wire.Writer S3Error Unit
abbrev Decoder := Reader S3Error

/-- `to_unix_ms`: `duration_cast` truncates towards zero. -/
def toUnixMs (t : Int64) : Int64 := t / 1000000

/-- `from_unix_ms`. -/
def fromUnixMs (ms : Int64) : Int64 := ms * 1000000

/-! ## Writers -/

def putU8 (v : UInt8) : Encoder := emit (leBytes 1 v.toNat)
def putU16 (v : UInt16) : Encoder := emit (leBytes 2 v.toNat)
def putU32 (v : UInt32) : Encoder := emit (leBytes 4 v.toNat)
def putU64 (v : UInt64) : Encoder := emit (leBytes 8 v.toNat)

/-- `put_str`. -/
def putStr (v : Bytes) : Encoder :=
  if v.length > 0xffff then throw (tooLarge "string field exceeds 64KiB")
  else do
    putU16 (UInt16.ofNat v.length)
    emit v

def putPair (kv : Bytes × Bytes) : Encoder := do
  putStr kv.1
  putStr kv.2

/-- The `Run` of `append_extent_runs`. -/
structure Run where
  kind : ExtentKind
  firstId : UInt64
  count : UInt32
  chunkLen : UInt64
  lastLen : UInt64
  packOffset : UInt64
  crcs : List UInt32

/-- A run that holds one extent. -/
def Run.single (e : Extent) : Run :=
  ⟨e.kind, e.fileId, 1, e.length, e.length, e.offset, [e.crc32c]⟩

/-- The merge condition: same kind, not a pack, the next file id, and every extent
of the run so far at full length. -/
def Run.accepts (r : Run) (e : Extent) : Bool :=
  r.kind = e.kind && e.kind ≠ .pack && e.fileId = r.firstId + r.count.toUInt64 &&
    e.offset = 0 && r.lastLen = r.chunkLen

def Run.extend (r : Run) (e : Extent) : Run :=
  { r with count := r.count + 1, lastLen := e.length, crcs := r.crcs ++ [e.crc32c] }

/-- One iteration of the merge loop. The head of the list is `runs.back()`. -/
def pushExtent (runs : List Run) (e : Extent) : List Run :=
  match runs with
  | [] => [Run.single e]
  | r :: rest => if r.accepts e then r.extend e :: rest else Run.single e :: r :: rest

/-- The runs of an extent array, in order. -/
def extentRuns (extents : List Extent) : List Run :=
  (extents.foldl pushExtent []).reverse

def putRun (r : Run) : Encoder := do
  putU8 r.kind.toByte
  putU64 r.firstId
  putU32 r.count
  putU64 r.chunkLen
  putU64 r.lastLen
  putU64 r.packOffset
  r.crcs.forM putU32

/-- `append_extent_runs`. -/
def appendExtentRuns (extents : List Extent) : Encoder := do
  let runs := extentRuns extents
  putU32 (UInt32.ofNat runs.length)
  runs.forM putRun

/-- `put_user_meta`. -/
def putUserMeta (m : SortedMap Bytes Bytes) : Encoder :=
  if m.entries.length > 0xffff then throw (tooLarge "too many user metadata entries")
  else do
    putU16 (UInt16.ofNat m.entries.length)
    m.entries.forM putPair

/-- An entry of the first-class metadata section; empty values are not written. -/
def optEntry (k v : Bytes) : List (Bytes × Bytes) := if v = [] then [] else [(k, v)]

/-- The `extra` entries of `put_std_meta`. -/
def extraMetaEntries (m : ObjectMeta) : List (Bytes × Bytes) :=
  optEntry (ascii "checksum_algorithm") m.checksumAlgorithm ++
  optEntry (ascii "checksum_value") (resolvedChecksumValue m) ++
  optEntry (ascii "checksum_type") m.checksumType ++
  (if m.partSizes = [] then [] else [(ascii "part_sizes", joinPartSizes m.partSizes)])

/-- The entries of the first-class metadata section in the order they are written. -/
def stdMetaEntries (m : ObjectMeta) : List (Bytes × Bytes) :=
  stdMetaFields.flatMap (fun f => optEntry f.storeKey (f.get m)) ++ extraMetaEntries m

/-- `put_std_meta`. -/
def putStdMeta (m : ObjectMeta) : Encoder := do
  putU16 (UInt16.ofNat (stdMetaEntries m).length)
  (stdMetaEntries m).forM putPair

/-! ## Readers -/

def readU8 : Decoder UInt8 := UInt8.ofNat <$> number (corrupt "truncated") 1
def readU16 : Decoder UInt16 := UInt16.ofNat <$> number (corrupt "truncated") 2
def readU32 : Decoder UInt32 := UInt32.ofNat <$> number (corrupt "truncated") 4
def readU64 : Decoder UInt64 := UInt64.ofNat <$> number (corrupt "truncated") 8

/-- `Cursor::str`. -/
def readStr : Decoder Bytes := do
  let n ← readU16
  take (corrupt "truncated") n.toNat

/-- `Cursor::skip`. -/
def skip (n : Nat) : Decoder Unit := do
  let _ ← take (corrupt "truncated") n

/-- `Cursor::done`. -/
def done : Decoder Unit := atEnd (corrupt "trailing bytes")

/-- Rejects a count that the unread payload cannot hold. -/
def needPayload (n : Nat) : Decoder Unit := atLeast (corrupt "run count beyond payload") n

/-- `check_ver`. -/
def checkVer (expect : UInt8) : Decoder Unit := do
  let v ← readU8
  reject (v ≠ expect) (corrupt "unsupported value version")

/-- `read_ver`: every version up to `max`. -/
def readVer (max : UInt8) : Decoder UInt8 := do
  let v ← readU8
  reject (v = 0 ∨ v > max) (corrupt "unsupported value version")
  return v

def readKind : Decoder ExtentKind := do
  let b ← readU8
  if b = 0 then return .chunk
  else if b = 1 then return .pack
  else if b = 2 then return .rados
  else throw (corrupt "unknown extent kind")

/-- The extents of one decoded run. -/
def expandRun (kind : ExtentKind) (firstId : UInt64) (count : UInt32)
    (chunkLen lastLen packOffset : UInt64) (crcs : List UInt32) : List Extent :=
  crcs.mapIdx fun j crc =>
    { kind
      fileId := firstId + UInt64.ofNat j
      offset := if kind = .pack then packOffset else 0
      length := if j + 1 < count.toNat then chunkLen else lastLen
      crc32c := crc }

/-- One iteration of the loop of `read_extent_runs`. -/
def readRun (out : List Extent) : Decoder (List Extent) := do
  let kind ← readKind
  let firstId ← readU64
  let count ← readU32
  reject (count = 0) (corrupt "empty run")
  reject (kind = .pack ∧ count ≠ 1) (corrupt "pack run count")
  needPayload (count.toNat * 4)
  let chunkLen ← readU64
  let lastLen ← readU64
  let packOffset ← readU64
  let crcs ← times (fun cs => do return cs ++ [← readU32]) count.toNat []
  return out ++ expandRun kind firstId count chunkLen lastLen packOffset crcs

/-- `read_extent_runs`. -/
def readExtentRuns : Decoder (List Extent) := do
  let n ← readU32
  needPayload (n.toNat * 33)
  times readRun n.toNat []

/-- One iteration of the loop of `skip_extent_runs`. -/
def skipRun (_ : Unit) : Decoder Unit := do
  let _ ← readU8
  let _ ← readU64
  let count ← readU32
  let _ ← readU64
  let _ ← readU64
  let _ ← readU64
  skip (count.toNat * 4)

/-- `skip_extent_runs`. -/
def skipExtentRuns : Decoder Unit := do
  let n ← readU32
  needPayload (n.toNat * 33)
  times skipRun n.toNat ()

/-- `read_user_meta`. -/
def readUserMeta : Decoder (SortedMap Bytes Bytes) := do
  let n ← readU16
  times (fun m => do
    let k ← readStr
    let v ← readStr
    return m.insert k v) n.toNat SortedMap.empty

/-- The effect of one entry of the first-class section; unknown names are dropped. -/
def applyStdEntry (m : ObjectMeta) (kv : Bytes × Bytes) : ObjectMeta :=
  if kv.1 = ascii "checksum_algorithm" then { m with checksumAlgorithm := kv.2 }
  else if kv.1 = ascii "checksum_value" then { m with checksumValue := kv.2 }
  else if kv.1 = ascii "checksum_type" then { m with checksumType := kv.2 }
  else if kv.1 = ascii "part_sizes" then { m with partSizes := parsePartSizes kv.2 }
  else stdMetaFields.foldl (fun m f => if kv.1 = f.storeKey then f.set m kv.2 else m) m

/-- `read_std_meta`. -/
def readStdMeta (m : ObjectMeta) : Decoder ObjectMeta := do
  let n ← readU16
  times (fun m => do
    let k ← readStr
    let v ← readStr
    return applyStdEntry m (k, v)) n.toNat m

/-- A section that exists since version `since`; older values get the default. -/
def sectionSince {α : Type} (ver since : UInt8) (p : Decoder α) (default : α) : Decoder α :=
  if ver ≥ since then p else pure default

def readTier : Decoder TierState := do
  let tier ← readU8
  let remoteEtag ← readStr
  let remoteAt ← readStr
  return { tier, remoteEtag, remoteAt }

def readPartChecksum : Decoder (Bytes × Bytes) := do
  let algorithm ← readStr
  let value ← readStr
  return (algorithm, value)

/-! ## Values -/

def encodeValue (p : Encoder) : Except S3Error Bytes := do
  let (_, s) ← p.run []
  return s

def decodeValue {α : Type} (v : Bytes) (p : Decoder α) : Except S3Error α := do
  let (a, _) ← p.run v
  return a

def objectVer : UInt8 := 3
def uploadVer : UInt8 := 2
def partVer : UInt8 := 2

/-- `encode_object`. -/
def encodeObject (rec : ObjectRec) : Except S3Error Bytes := encodeValue do
  putU8 objectVer
  putU64 rec.objMeta.size
  putU64 (toUnixMs rec.objMeta.lastModified).toUInt64
  putU64 rec.version
  putStr rec.objMeta.etag
  putStr rec.objMeta.contentType
  putUserMeta rec.objMeta.userMeta
  putStdMeta rec.objMeta
  putU8 rec.tier.tier
  putStr rec.tier.remoteEtag
  putStr rec.tier.remoteAt
  appendExtentRuns rec.data.extents

/-- `decode_object`. -/
def decodeObject (key v : Bytes) : Except S3Error ObjectRec := decodeValue v do
  let ver ← readVer objectVer
  let size ← readU64
  let ms ← readU64
  let version ← readU64
  let etag ← readStr
  let contentType ← readStr
  let userMeta ← readUserMeta
  let base : ObjectMeta :=
    { key, size, lastModified := fromUnixMs ms.toInt64, etag, contentType, userMeta }
  let objMeta ← sectionSince ver 2 (readStdMeta base) base
  let tier ← sectionSince ver 3 readTier {}
  let extents ← readExtentRuns
  done
  return { objMeta, data := { extents }, version, tier }

/-- `decode_object_meta`: the listing path, which steps over the extent runs. -/
def decodeObjectMeta (key v : Bytes) : Except S3Error ObjectMeta := decodeValue v do
  let ver ← readVer objectVer
  let size ← readU64
  let ms ← readU64
  let _ ← readU64
  let etag ← readStr
  let contentType ← readStr
  let userMeta ← readUserMeta
  let base : ObjectMeta :=
    { key, size, lastModified := fromUnixMs ms.toInt64, etag, contentType, userMeta }
  let objMeta ← sectionSince ver 2 (readStdMeta base) base
  let _ ← sectionSince ver 3 readTier {}
  skipExtentRuns
  done
  return objMeta

/-- `encode_upload`. -/
def encodeUpload (rec : UploadRec) : Except S3Error Bytes := encodeValue do
  putU8 uploadVer
  putU64 rec.initiatedMs.toUInt64
  putStr rec.objMeta.contentType
  putUserMeta rec.objMeta.userMeta
  putStdMeta rec.objMeta

/-- `decode_upload`. -/
def decodeUpload (key uploadId v : Bytes) : Except S3Error UploadRec := decodeValue v do
  let ver ← readVer uploadVer
  let ms ← readU64
  let contentType ← readStr
  let userMeta ← readUserMeta
  let base : ObjectMeta := { key, contentType, userMeta }
  let objMeta ← sectionSince ver 2 (readStdMeta base) base
  done
  return { uploadId, objMeta, initiatedMs := ms.toInt64 }

/-- `encode_part`. -/
def encodePart (rec : PartRec) : Except S3Error Bytes := encodeValue do
  putU8 partVer
  putU64 rec.size
  putStr rec.etag
  putU64 rec.modifiedMs.toUInt64
  putStr rec.checksumAlgorithm
  putStr rec.checksumValue
  appendExtentRuns rec.data.extents

/-- `decode_part`. -/
def decodePart (partNo : Int) (v : Bytes) : Except S3Error PartRec := decodeValue v do
  let ver ← readVer partVer
  let size ← readU64
  let etag ← readStr
  let ms ← readU64
  let checksum ← sectionSince ver 2 readPartChecksum ([], [])
  let extents ← readExtentRuns
  done
  return { partNo, size, etag, modifiedMs := ms.toInt64, data := { extents },
           checksumAlgorithm := checksum.1, checksumValue := checksum.2 }

/-- `encode_reclaim`. -/
def encodeReclaim (r : Reclaim) (enqueueMs : Int64) : Except S3Error Bytes := encodeValue do
  putU8 1
  putU8 r.reason.toByte
  putU64 enqueueMs.toUInt64
  appendExtentRuns r.extents

/-- `decode_reclaim`. -/
def decodeReclaim (v : Bytes) : Except S3Error Reclaim := decodeValue v do
  checkVer 1
  let reason ← readU8
  let ms ← readU64
  let extents ← readExtentRuns
  done
  return { extents, enqueueMs := ms.toInt64, reason := ReclaimReason.ofByte reason }

end Lights3
