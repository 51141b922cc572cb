import Lights3.Lib.Crc

/-!
# Checksums and text encodings

The two 32-bit checksums of `core/util/checksum.cc` and the hexadecimal and
base64 codecs beside them. The cryptographic hashes come from OpenSSL; the
model takes them as arbitrary functions with the digest lengths of the
algorithms.
-/
namespace Lights3
open ByteString

/-- The polynomial of `crc32c_update` (Castagnoli, reflected). -/
def crc32cPoly : UInt32 := 0x82F63B78

/-- The polynomial of `crc32_update` (IEEE 802.3, reflected). -/
def crc32Poly : UInt32 := 0xEDB88320

def crc32cUpdate (crc : UInt32) (data : Bytes) : UInt32 := Crc.update crc32cPoly crc data

def crc32Update (crc : UInt32) (data : Bytes) : UInt32 := Crc.update crc32Poly crc data

/-- The digests computed by `HashStream`. -/
structure Digests where
  md5 : Bytes → Bytes
  sha1 : Bytes → Bytes
  sha256 : Bytes → Bytes
  md5_length : ∀ s, (md5 s).length = 16
  sha1_length : ∀ s, (sha1 s).length = 20
  sha256_length : ∀ s, (sha256 s).length = 32

/-- Digests that are constant; they have the right lengths. -/
def Digests.zero : Digests where
  md5 _ := List.replicate 16 0
  sha1 _ := List.replicate 20 0
  sha256 _ := List.replicate 32 0
  md5_length _ := rfl
  sha1_length _ := rfl
  sha256_length _ := rfl

def hexDigits : Bytes := ascii "0123456789abcdef"

/-- `to_hex`. -/
def toHex (data : Bytes) : Bytes :=
  data.flatMap fun (b : UInt8) =>
    [hexDigits.getD (b >>> 4).toNat 0, hexDigits.getD (b &&& 0xf).toNat 0]

def hexVal (c : UInt8) : Option UInt8 :=
  if 48 ≤ c ∧ c ≤ 57 then some (c - 48)
  else if 97 ≤ c ∧ c ≤ 102 then some (c - 97 + 10)
  else if 65 ≤ c ∧ c ≤ 70 then some (c - 65 + 10)
  else none

/-- The byte pairs of `from_hex`; `none` on an invalid character or odd length. -/
def hexPairs : Bytes → Option Bytes
  | [] => some []
  | [_] => none
  | hi :: lo :: rest => do
      let h ← hexVal hi
      let l ← hexVal lo
      return (h <<< 4 ||| l) :: (← hexPairs rest)

/-- `from_hex`: malformed input gives the empty string. -/
def fromHex (hex : Bytes) : Bytes := (hexPairs hex).getD []

def base64Alphabet : Bytes :=
  ascii "ABCDEFGHIJKLMNOPQRSTUVWXYZabcdefghijklmnopqrstuvwxyz0123456789+/"

def base64Char (v : UInt32) (shift : UInt32) : UInt8 :=
  base64Alphabet.getD ((v >>> shift) &&& 63).toNat 0

/-- `base64_encode`. -/
def base64Encode : Bytes → Bytes
  | [] => []
  | [a] =>
      let v := a.toUInt32 <<< 16
      [base64Char v 18, base64Char v 12] ++ ascii "=="
  | [a, b] =>
      let v := a.toUInt32 <<< 16 ||| b.toUInt32 <<< 8
      [base64Char v 18, base64Char v 12, base64Char v 6] ++ ascii "="
  | a :: b :: c :: rest =>
      let v := a.toUInt32 <<< 16 ||| b.toUInt32 <<< 8 ||| c.toUInt32
      [base64Char v 18, base64Char v 12, base64Char v 6, base64Char v 0] ++ base64Encode rest

theorem base64Encode_length (s : Bytes) : (base64Encode s).length = 4 * ((s.length + 2) / 3) := by
  induction s using base64Encode.induct with
  | case1 => rfl
  | case2 a => simp [base64Encode, ascii]
  | case3 a b => simp [base64Encode, ascii]
  | case4 a b c rest ih =>
      simp only [base64Encode, List.length_append, ih, List.length_cons, List.length_nil]
      omega

def base64Val (c : UInt8) : Option UInt32 :=
  if 65 ≤ c ∧ c ≤ 90 then some (c - 65).toUInt32
  else if 97 ≤ c ∧ c ≤ 122 then some (c - 97 + 26).toUInt32
  else if 48 ≤ c ∧ c ≤ 57 then some (c - 48 + 52).toUInt32
  else if c = 43 then some 62
  else if c = 47 then some 63
  else none

/-- One group of four characters; padding is allowed in the last group only and
only as its last one or two characters. -/
def base64Quad (last : Bool) (a b c d : UInt8) : Option Bytes := do
  let v0 ← base64Val a
  let v1 ← base64Val b
  let (v2, pad) ←
    if c = 61 ∧ last then some ((0 : UInt32), 1) else (base64Val c).map fun v => (v, 0)
  let (v3, pad) ←
    if d = 61 ∧ last then some ((0 : UInt32), pad + 1)
    else if pad > 0 then none
    else (base64Val d).map fun v => (v, pad)
  let x := v0 <<< 18 ||| v1 <<< 12 ||| v2 <<< 6 ||| v3
  let byte (shift : UInt32) : UInt8 := ((x >>> shift) &&& 0xff).toUInt8
  return [byte 16] ++ (if pad < 2 then [byte 8] else []) ++ (if pad < 1 then [byte 0] else [])

def base64Groups : Bytes → Option Bytes
  | [] => some []
  | a :: b :: c :: d :: rest => do
      let q ← base64Quad rest.isEmpty a b c d
      return q ++ (← base64Groups rest)
  | _ => none

/-- `base64_decode`; the empty string is rejected. -/
def base64Decode (s : Bytes) : Option Bytes := if s = [] then none else base64Groups s

example : base64Decode (ascii "aGk=") = some (ascii "hi") := by decide

end Lights3
