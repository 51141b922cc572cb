import Lights3.Gateway
import Lights3.Lib.HttpSyntax
import Lights3.RequestChecksums

/-!
# HTTP requests

The requests and headers of `http/model.h` and the encodings of `core/util/uri.cc`. The tags beside
the names of a header table are a filter that changes no answer. What no function here reads of a
request is left out: the undecoded path and query, the body and who has sent it.
-/
namespace Lights3
open ByteString

/-! ## Headers -/

/-- `HeaderMap::ieq`. -/
abbrev ieq (a b : Bytes) : Bool := HttpSyntax.sameName a b

/-- `HeaderMap`, in the order of insertion. -/
abbrev HeaderMap := List (Bytes × Bytes)

/-! ## Requests -/

structure HttpRequest where
  method : Bytes
  /-- Decoded. -/
  path : Bytes
  /-- Decoded, in order. -/
  query : List (Bytes × Bytes) := []
  headers : HeaderMap := []

namespace HttpRequest

def queryGet (req : HttpRequest) (k : Bytes) : Option Bytes :=
  (req.query.find? (fun e => e.1 = k)).map (·.2)

end HttpRequest

/-! ## URIs -/

/-- `percent_decode`; what is no escape is kept. -/
def percentDecode : Bytes → Bytes
  | [] => []
  | [c] => [c]
  | [c, d] => [c, d]
  | c :: h :: l :: s =>
      match (if c = 37 then hexVal h else none), hexVal l with
      | some hi, some lo => (hi * 16 + lo) :: percentDecode s
      | _, _ => c :: percentDecode (h :: l :: s)

def unreserved (c : UInt8) : Bool :=
  (65 ≤ c && c ≤ 90) || (97 ≤ c && c ≤ 122) || (48 ≤ c && c ≤ 57) || c = 45 || c = 95 || c = 46 ||
    c = 126

/-- `aws_uri_encode` with slashes kept. -/
def awsUriEncodePath (s : Bytes) : Bytes :=
  s.flatMap (fun c =>
    if unreserved c || c = 47 then [c] else [37, digit (c >>> 4), digit (c &&& 0xf)])
where
  digit (n : UInt8) : UInt8 := if n < 10 then n + 48 else n - 10 + 65

end Lights3
