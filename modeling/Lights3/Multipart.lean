import Lights3.Checksum
import Lights3.StorageTypes
import Lights3.Lib.Decimal

/-!
# Multipart helpers

The pure part of `storage/multipart.cc`: request validation, the aggregate
ETag, the composite checksum and the persisted text form of a part layout.
-/
namespace Lights3
open ByteString

/-- `combined_etag`: the MD5 of the concatenated part digests and the part count. -/
def combinedEtag (D : Digests) (partMd5Hex : List Bytes) : Bytes :=
  toHex (D.md5 (partMd5Hex.flatMap fromHex)) ++ ascii "-" ++ Decimal.render partMd5Hex.length

/-- `strip_etag_quotes`. -/
def stripEtagQuotes (etag : Bytes) : Bytes :=
  if etag.length ≥ 2 ∧ etag.head? = some 34 ∧ etag.getLast? = some 34 then
    (etag.drop 1).take (etag.length - 2)
  else etag

def invalidPartOrder : S3Error :=
  ⟨.InvalidPartOrder,
    "The list of parts was not in ascending order. Parts must be ordered by part number.", []⟩

/-- The loop of `validate_part_order`, with the last part number accepted so far. -/
def validatePartOrderFrom : Int → List PartInfo → Except S3Error Unit
  | _, [] => .ok ()
  | prev, p :: ps =>
      if p.partNo ≤ prev then .error invalidPartOrder else validatePartOrderFrom p.partNo ps

/-- `validate_part_order`. -/
def validatePartOrder (parts : List PartInfo) : Except S3Error Unit :=
  if parts = [] then .error ⟨.InvalidPart, "You must specify at least one part.", []⟩
  else validatePartOrderFrom 0 parts

/-- `validate_part_number`. -/
def validatePartNumber (partNo : Int) : Except S3Error Unit :=
  if partNo < 1 ∨ partNo > 10000 then
    .error ⟨.InvalidArgument, "Part number must be an integer between 1 and 10000.", []⟩
  else .ok ()

/-- `PartDigest`. -/
structure PartDigest where
  algorithm : Bytes
  value : Bytes

/-- The digests of all parts, decoded; they must have one common non-zero length. -/
def concatDigests : Nat → List Bytes → Option Bytes
  | _, [] => some []
  | len, b64 :: rest => do
      let raw ← base64Decode b64
      let len := if len = 0 then raw.length else len
      if raw.length ≠ len ∨ len = 0 then none
      else return raw ++ (← concatDigests len rest)

/-- The four bytes of a checksum, most significant first. -/
def beBytes32 (crc : UInt32) : Bytes :=
  [(crc >>> 24).toUInt8, (crc >>> 16).toUInt8, (crc >>> 8).toUInt8, crc.toUInt8]

/-- The digest of one algorithm; `none` for those without composite form. -/
def compositeDigest (D : Digests) (algorithm concat : Bytes) : Option Bytes :=
  if algorithm = ascii "SHA1" then some (D.sha1 concat)
  else if algorithm = ascii "SHA256" then some (D.sha256 concat)
  else if algorithm = ascii "CRC32" then some (beBytes32 (crc32Update 0 concat))
  else if algorithm = ascii "CRC32C" then some (beBytes32 (crc32cUpdate 0 concat))
  else none

/-- `composite_checksum`. -/
def compositeChecksum (D : Digests) (algorithm : Bytes) (values : List Bytes) : Option Bytes :=
  if values = [] then none
  else do
    let concat ← concatDigests 0 values
    let out ← compositeDigest D algorithm concat
    return base64Encode out ++ ascii "-" ++ Decimal.render values.length

/-- `apply_composite_checksum`, on the metadata it updates. -/
def applyCompositeChecksum (D : Digests) (parts : List PartDigest) (m : ObjectMeta) :
    ObjectMeta :=
  match parts with
  | [] => m
  | first :: _ =>
      if parts.any (fun p => p.algorithm = [] || p.value = [] || p.algorithm ≠ first.algorithm)
      then m
      else
        match compositeChecksum D first.algorithm (parts.map (·.value)) with
        | none => m
        | some composite =>
            { m with
              checksumAlgorithm := first.algorithm
              checksumValue := composite
              checksumType := ascii "COMPOSITE"
              checksumPending := none }

theorem applyCompositeChecksum_cases (D : Digests) (ds : List PartDigest) (m : ObjectMeta) :
    applyCompositeChecksum D ds m = m ∨ ∃ algorithm composite,
      compositeChecksum D algorithm (ds.map (·.value)) = some composite ∧
      applyCompositeChecksum D ds m =
        { m with
          checksumAlgorithm := algorithm
          checksumValue := composite
          checksumType := ascii "COMPOSITE"
          checksumPending := none } := by
  unfold applyCompositeChecksum
  cases ds with
  | nil => exact Or.inl rfl
  | cons d ds =>
      dsimp only
      split_ifs
      · exact Or.inl rfl
      · cases hc : compositeChecksum D d.algorithm ((d :: ds).map (·.value)) with
        | none => exact Or.inl rfl
        | some composite => exact Or.inr ⟨d.algorithm, composite, hc, rfl⟩

/-- The composite checksum replaces the checksum fields and nothing else. -/
theorem applyCompositeChecksum_fields (D : Digests) (ds : List PartDigest) (m : ObjectMeta) :
    (applyCompositeChecksum D ds m).size = m.size ∧
      (applyCompositeChecksum D ds m).partSizes = m.partSizes ∧
      (applyCompositeChecksum D ds m).etag = m.etag ∧
      (applyCompositeChecksum D ds m).contentType = m.contentType ∧
      (applyCompositeChecksum D ds m).userMeta = m.userMeta := by
  obtain h | ⟨_, _, -, h⟩ := applyCompositeChecksum_cases D ds m <;> rw [h] <;>
    exact ⟨rfl, rfl, rfl, rfl, rfl⟩

/-- `join_part_sizes`. -/
def joinPartSizes (sizes : List UInt64) : Bytes :=
  sizes.foldl (fun out s =>
    (if out ≠ [] then out ++ ascii "," else out) ++ Decimal.render s.toNat) []

/-- `from_chars` on a whole field: digits only, and within 64 bits. -/
def parsePartSize (field : Bytes) : Option UInt64 :=
  match Decimal.parse field with
  | none => none
  | some n => if n < 2 ^ 64 then some (UInt64.ofNat n) else none

/-- `parse_part_sizes`: a malformed layout is unknown, the empty list. -/
def parsePartSizes (s : Bytes) : List UInt64 :=
  (Decimal.splitLoop parsePartSize 44 s.length s []).getD []

theorem parsePartSize_render (n : UInt64) : parsePartSize (Decimal.render n.toNat) = some n := by
  have h := n.toNat_lt
  simp [parsePartSize, Decimal.parse_render, h]

theorem joinPartSizes_foldl (sizes : List UInt64) (s : UInt64) (out : Bytes) :
    (s :: sizes).foldl (fun out s =>
        (if out ≠ [] then out ++ ascii "," else out) ++ Decimal.render s.toNat) out =
      (if out ≠ [] then out ++ ascii "," else out) ++
        Decimal.join 44 ((s :: sizes).map UInt64.toNat) := by
  induction sizes generalizing s out with
  | nil => rfl
  | cons t sizes ih =>
      rw [List.foldl_cons, ih]
      have hne : (if out ≠ [] then out ++ ascii "," else out) ++ Decimal.render s.toNat ≠ [] := by
        simp
      rw [if_pos hne]
      simp [Decimal.join, ascii]

/-- The persisted layout is the comma-separated list of the sizes. -/
theorem joinPartSizes_eq (sizes : List UInt64) :
    joinPartSizes sizes = Decimal.join 44 (sizes.map UInt64.toNat) := by
  cases sizes with
  | nil => rfl
  | cons s sizes => exact joinPartSizes_foldl sizes s []

/-- Reading a persisted layout gives the sizes back. -/
theorem parsePartSizes_join (sizes : List UInt64) :
    parsePartSizes (joinPartSizes sizes) = sizes := by
  rw [joinPartSizes_eq]
  unfold parsePartSizes
  rw [Decimal.splitLoop_join (by decide) sizes (fun n _ => parsePartSize_render n) _ _ le_rfl]
  rfl

theorem joinPartSizes_eq_nil {sizes : List UInt64} : joinPartSizes sizes = [] ↔ sizes = [] := by
  rw [joinPartSizes_eq]
  cases sizes with
  | nil => simp [Decimal.join]
  | cons s sizes => simpa using Decimal.join_ne_nil 44 s.toNat (sizes.map UInt64.toNat)

end Lights3
