import Lights3.Multipart
import Lights3.Lib.Results
import Mathlib.Data.List.ReduceOption

/-!
# The checksums of a request body

The declared digests of `s3/checksum_guard.h`: what a client may announce in headers or trailers,
how the body is compared with it before it is committed, and what is stored beside the object. A
value from a header is stored as it came, a value from a trailer is computed again.
-/
namespace Lights3
open ByteString

/-! ## Base64 texts -/

theorem base64Alphabet_val : ∀ n : Fin 64,
    base64Val (base64Alphabet.getD n.val 0) = some (UInt32.ofNat n.val) ∧
      base64Alphabet.getD n.val 0 ≠ 61 := by
  decide +kernel

theorem base64Val_char (v shift : UInt32) :
    base64Val (base64Char v shift) = some ((v >>> shift) &&& 63) ∧ base64Char v shift ≠ 61 := by
  have hlt : ((v >>> shift) &&& 63).toNat < 64 := by
    rw [UInt32.toNat_and]
    exact Nat.lt_succ_of_le Nat.and_le_right
  have h := base64Alphabet_val ⟨_, hlt⟩
  simp only [UInt32.ofNat_toNat] at h
  exact h

/-- The groups of six bits give the bytes back. -/
theorem base64_regroup (a b c : UInt8) (v : UInt32)
    (hv : v = a.toUInt32 <<< 16 ||| b.toUInt32 <<< 8 ||| c.toUInt32) :
    let x := (v >>> 18 &&& 63) <<< 18 ||| (v >>> 12 &&& 63) <<< 12 ||| (v >>> 6 &&& 63) <<< 6 |||
      (v >>> 0 &&& 63)
    (x >>> 16 &&& 0xff).toUInt8 = a ∧ (x >>> 8 &&& 0xff).toUInt8 = b ∧
      (x >>> 0 &&& 0xff).toUInt8 = c := by
  subst hv
  refine ⟨?_, ?_, ?_⟩
  all_goals
    apply UInt8.toBitVec_inj.mp
    ext i hi
    interval_cases i <;> simp

theorem base64_regroup_one (a : UInt8) :
    let v := a.toUInt32 <<< 16
    let x : UInt32 := (v >>> 18 &&& 63) <<< 18 ||| (v >>> 12 &&& 63) <<< 12 |||
      (0 : UInt32) <<< 6 ||| 0
    (x >>> 16 &&& 0xff).toUInt8 = a := by
  apply UInt8.toBitVec_inj.mp
  ext i hi
  interval_cases i <;> simp

theorem base64_regroup_two (a b : UInt8) :
    let v := a.toUInt32 <<< 16 ||| b.toUInt32 <<< 8
    let x := (v >>> 18 &&& 63) <<< 18 ||| (v >>> 12 &&& 63) <<< 12 ||| (v >>> 6 &&& 63) <<< 6 ||| 0
    (x >>> 16 &&& 0xff).toUInt8 = a ∧ (x >>> 8 &&& 0xff).toUInt8 = b := by
  refine ⟨?_, ?_⟩
  all_goals
    apply UInt8.toBitVec_inj.mp
    ext i hi
    interval_cases i <;> simp

theorem base64Groups_encode (s : Bytes) : base64Groups (base64Encode s) = some s := by
  induction s using base64Encode.induct with
  | case1 => rfl
  | case2 a =>
      have h18 := base64Val_char (a.toUInt32 <<< 16) 18
      have h12 := base64Val_char (a.toUInt32 <<< 16) 12
      have hbytes := base64_regroup_one a
      simpa [base64Encode, base64Groups, base64Quad, ascii, h18.1, h12.1] using hbytes
  | case3 a b =>
      have hval := base64Val_char (a.toUInt32 <<< 16 ||| b.toUInt32 <<< 8)
      have hbytes := base64_regroup_two a b
      simpa [base64Encode, base64Groups, base64Quad, ascii, (hval _).1, (hval _).2] using hbytes
  | case4 a b c rest ih =>
      have hval := base64Val_char (a.toUInt32 <<< 16 ||| b.toUInt32 <<< 8 ||| c.toUInt32)
      have hbytes := base64_regroup a b c _ rfl
      simpa [base64Encode, base64Groups, base64Quad, (hval _).1, (hval _).2, ih] using hbytes

/-- A text that was encoded is decoded to what it was made from. -/
theorem base64Decode_encode {s : Bytes} (h : s ≠ []) : base64Decode (base64Encode s) = some s := by
  have hne : base64Encode s ≠ [] := by
    intro hnil
    have hlen := base64Encode_length s
    have hpos := List.length_pos_iff.mpr h
    rw [hnil] at hlen
    simp only [List.length_nil] at hlen
    omega
  rw [base64Decode, if_neg hne, base64Groups_encode]

/-! ## Algorithms -/

/-- The rows of `kChecksumSpecs`. -/
inductive ChecksumAlgorithm where
  | crc32 | crc32c | crc64nvme | sha1 | sha256
  deriving DecidableEq

/-- The polynomial of `crc64nvme_update` (NVMe, reflected). -/
def crc64Poly : UInt64 := 0x9A6C9329AC4BC9B5

def crc64BitStep (c : UInt64) : UInt64 :=
  if c &&& 1 ≠ 0 then crc64Poly ^^^ (c >>> 1) else c >>> 1

/-- `table_crc64`; a table word is eight bit steps of its index. -/
def crc64nvmeUpdate (crc : UInt64) (data : Bytes) : UInt64 :=
  ~~~ data.foldl (fun c b => crc64BitStep^[8] ((c ^^^ b.toUInt64) &&& 0xff) ^^^ (c >>> 8)) (~~~ crc)

/-- The eight bytes of a checksum, most significant first. -/
def beBytes64 (crc : UInt64) : Bytes :=
  [(crc >>> 56).toUInt8, (crc >>> 48).toUInt8, (crc >>> 40).toUInt8, (crc >>> 32).toUInt8,
    (crc >>> 24).toUInt8, (crc >>> 16).toUInt8, (crc >>> 8).toUInt8, crc.toUInt8]

namespace ChecksumAlgorithm

def all : List ChecksumAlgorithm := [.crc32, .crc32c, .crc64nvme, .sha1, .sha256]

def header : ChecksumAlgorithm → String
  | .crc32 => "x-amz-checksum-crc32"
  | .crc32c => "x-amz-checksum-crc32c"
  | .crc64nvme => "x-amz-checksum-crc64nvme"
  | .sha1 => "x-amz-checksum-sha1"
  | .sha256 => "x-amz-checksum-sha256"

/-- The length of the digest. -/
def bytes : ChecksumAlgorithm → Nat
  | .crc32 | .crc32c => 4
  | .crc64nvme => 8
  | .sha1 => 20
  | .sha256 => 32

/-- `checksum_wire_name`. -/
def wireName : ChecksumAlgorithm → Bytes
  | .crc32 => ascii "CRC32"
  | .crc32c => ascii "CRC32C"
  | .crc64nvme => ascii "CRC64NVME"
  | .sha1 => ascii "SHA1"
  | .sha256 => ascii "SHA256"

/-- `StreamingDigest` over a whole body. -/
def digest (D : Digests) : ChecksumAlgorithm → Bytes → Bytes
  | .crc32, data => beBytes32 (crc32Update 0 data)
  | .crc32c, data => beBytes32 (crc32cUpdate 0 data)
  | .crc64nvme, data => beBytes64 (crc64nvmeUpdate 0 data)
  | .sha1, data => D.sha1 data
  | .sha256, data => D.sha256 data

theorem mem_all (a : ChecksumAlgorithm) : a ∈ all := by
  cases a <;> decide

theorem digest_length (D : Digests) (a : ChecksumAlgorithm) (data : Bytes) :
    (a.digest D data).length = a.bytes := by
  cases a with
  | crc32 | crc32c | crc64nvme => rfl
  | sha1 => exact D.sha1_length data
  | sha256 => exact D.sha256_length data

theorem digest_ne_nil (D : Digests) (a : ChecksumAlgorithm) (data : Bytes) :
    a.digest D data ≠ [] := by
  rw [← List.length_pos_iff, digest_length]
  cases a <;> decide

end ChecksumAlgorithm

/-! ## Declared digests -/

/-- What the headers of a request say about the digest of its body. -/
structure ChecksumHeaders where
  contentMd5 : Option Bytes := none
  declared : ChecksumAlgorithm → Option Bytes := fun _ => none
  /-- The known names in `x-amz-trailer`. -/
  trailers : List ChecksumAlgorithm := []

/-- A digest that the body must have; no algorithm stands for MD5. -/
structure ExpectedDigest where
  algorithm : Option ChecksumAlgorithm
  expected : Bytes

namespace ExpectedDigest

def header (e : ExpectedDigest) : String := e.algorithm.elim "Content-MD5" (·.header)

def digest (D : Digests) (e : ExpectedDigest) : Bytes → Bytes :=
  e.algorithm.elim D.md5 (·.digest D)

end ExpectedDigest

/-- `decode` in `parse_expected_digests`. -/
def decodeDigest (algorithm : Option ChecksumAlgorithm) (v : Option Bytes) :
    Except S3Error (Option ExpectedDigest) :=
  match v with
  | none => .ok none
  | some v =>
      match base64Decode v with
      | some raw =>
          if raw.length = algorithm.elim 16 (·.bytes) then .ok (some ⟨algorithm, raw⟩)
          else .error invalid
      | none => .error invalid
where
  invalid : S3Error :=
    ⟨.InvalidDigest, "The " ++ algorithm.elim "Content-MD5" (·.header) ++
      " you specified is not valid.", []⟩

/-- `parse_expected_digests`. -/
def expectedDigests (h : ChecksumHeaders) : Except S3Error (List ExpectedDigest) := do
  let md5 ← decodeDigest none h.contentMd5
  let others ← ChecksumAlgorithm.all.mapM (fun a => decodeDigest (some a) (h.declared a))
  .ok (md5.toList ++ others.reduceOption)

def badDigest (e : ExpectedDigest) : S3Error :=
  ⟨.BadDigest, "The " ++ e.header ++ " you specified did not match what we received.", []⟩

/-- `ChecksumVerifyingReader`, when the body has been read. -/
def verifyBody (D : Digests) (expected : List ExpectedDigest) (data : Bytes) :
    Except S3Error Unit :=
  expected.forM (fun e => if e.digest D data = e.expected then .ok () else .error (badDigest e))

/-! ## The stored checksum -/

/-- `RequestChecksum`; the trailer form has no value. -/
structure RequestChecksum where
  algorithm : ChecksumAlgorithm
  value : Option Bytes

/-- Only one algorithm may be declared. -/
def addChecksum (out : Option RequestChecksum) (c : RequestChecksum) :
    Except S3Error (Option RequestChecksum) :=
  match out with
  | none => .ok (some c)
  | some o =>
      if o.algorithm = c.algorithm then .ok (some o)
      else .error ⟨.InvalidRequest, "Expecting a single x-amz-checksum- header. " ++
        "Multiple checksum types are not allowed.", []⟩

def declaredChecksums (h : ChecksumHeaders) : List RequestChecksum :=
  ChecksumAlgorithm.all.filterMap (fun a => (h.declared a).map (fun v => ⟨a, some v⟩))

/-- `request_checksum`: headers come before trailers. -/
def requestChecksum (h : ChecksumHeaders) : Except S3Error (Option RequestChecksum) :=
  (declaredChecksums h ++ h.trailers.map (RequestChecksum.mk · none)).foldlM addChecksum none

/-- `attach_request_checksum`, with the slot that is filled when the body has been read. -/
def attachChecksum (D : Digests) (data : Bytes) (c : Option RequestChecksum) (m : ObjectMeta) :
    ObjectMeta :=
  match c with
  | none => m
  | some c =>
      { m with
        checksumAlgorithm := c.algorithm.wireName
        checksumType := ascii "FULL_OBJECT"
        checksumValue := c.value.getD m.checksumValue
        checksumPending :=
          if c.value.isSome then m.checksumPending
          else some (base64Encode (c.algorithm.digest D data)) }

/-! ## What a request that is accepted has shown -/

variable {D : Digests} {h : ChecksumHeaders} {data : Bytes} {c : RequestChecksum}

theorem mem_of_addChecksum {cs : List RequestChecksum} {out : Option RequestChecksum}
    (hc : cs.foldlM addChecksum out = .ok (some c)) : out = some c ∨ c ∈ cs := by
  induction cs generalizing out with
  | nil =>
      cases hc
      exact .inl rfl
  | cons x cs ih =>
      rw [List.foldlM_cons] at hc
      obtain ⟨out', hadd, hc⟩ := of_bind_ok hc
      rcases ih hc with rfl | hmem
      · unfold addChecksum at hadd
        split at hadd
        · cases hadd
          exact .inr List.mem_cons_self
        · split_ifs at hadd
          cases hadd
          exact .inl rfl
      · exact .inr (List.mem_cons_of_mem x hmem)

/-- A value comes from the header of its algorithm. -/
theorem declared_of_requestChecksum {v : Bytes} (hc : requestChecksum h = .ok (some c))
    (hv : c.value = some v) : h.declared c.algorithm = some v := by
  rcases mem_of_addChecksum hc with hnone | hmem
  · cases hnone
  · rcases List.mem_append.mp hmem with hdecl | htrail
    · obtain ⟨a, -, ha⟩ := List.mem_filterMap.mp hdecl
      obtain ⟨w, hw, rfl⟩ := Option.map_eq_some_iff.mp ha
      rw [hw, ← hv]
    · obtain ⟨a, -, rfl⟩ := List.mem_map.mp htrail
      cases hv

theorem expected_of_declared {expected : List ExpectedDigest} {a : ChecksumAlgorithm} {v : Bytes}
    (he : expectedDigests h = .ok expected) (hv : h.declared a = some v) :
    ∃ raw, base64Decode v = some raw ∧ ⟨some a, raw⟩ ∈ expected := by
  obtain ⟨md5, -, he⟩ := of_bind_ok he
  obtain ⟨others, hothers, he⟩ := of_bind_ok he
  cases he
  obtain ⟨r, hr, hdec⟩ := mapM_eq_ok_mem hothers a.mem_all
  rw [hv] at hdec
  unfold decodeDigest at hdec
  simp only at hdec
  cases hraw : base64Decode v with
  | none =>
      rw [hraw] at hdec
      cases hdec
  | some raw =>
      rw [hraw] at hdec
      simp only at hdec
      split_ifs at hdec
      cases hdec
      exact ⟨raw, rfl, List.mem_append_right _ (List.reduceOption_mem_iff.mpr hr)⟩

/-- The checksum that is stored is the one of the body. -/
theorem value_of_accepted {expected : List ExpectedDigest} (he : expectedDigests h = .ok expected)
    (hbody : verifyBody D expected data = .ok ()) (hc : requestChecksum h = .ok (some c)) :
    base64Decode (c.value.getD (base64Encode (c.algorithm.digest D data))) =
      some (c.algorithm.digest D data) := by
  cases hv : c.value with
  | none => exact base64Decode_encode (c.algorithm.digest_ne_nil D data)
  | some v =>
      obtain ⟨raw, hraw, hmem⟩ := expected_of_declared he (declared_of_requestChecksum hc hv)
      have hsame := forM_eq_ok.mp hbody _ hmem
      split_ifs at hsame with heq
      rw [Option.getD_some, hraw]
      exact congrArg some heq.symm

end Lights3
