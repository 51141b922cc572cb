import Lights3.CanonicalQuery
import Lights3.ListingPagination
import Lights3.SessionPolicies

/-!
# The listing handler

`S3Service::list_objects` of `s3/handlers/list_objects.cc` over the reference listing of a bucket:
the options of a request, the page of the backend, the filter of a policy and what is written into
the answer. The answer is the list of its XML elements. Owner and tenant are arguments.
-/
namespace Lights3
open ByteString

/-! ## The request -/

/-- `std::stoi`: blanks, a sign and digits, and anything behind them. -/
def stoi (s : Bytes) : Option Int :=
  let s := s.dropWhile fun c => c = 32 || (9 ≤ c && c ≤ 13)
  let digits :=
    (if s.head? = some 43 ∨ s.head? = some 45 then s.tail else s).takeWhile Decimal.isDigit
  let v : Int := if s.head? = some 45 then -Decimal.value digits else Decimal.value digits
  if digits = [] ∨ v < -2 ^ 31 ∨ 2 ^ 31 ≤ v then none else some v

structure ListRequest where
  opt : ListOptions
  encodeUrl : Bool := false
  v2 : Bool := false
  continuationToken : Option Bytes := none
  /-- Echoed by version 2. -/
  startAfterParam : Option Bytes := none
  fetchOwner : Bool := false

def invalidMaxKeys : S3Error := ⟨.InvalidArgument, "Invalid max-keys value", []⟩

def listMaxKeys (req : HttpRequest) : Except S3Error Int :=
  match req.queryGet (ascii "max-keys") with
  | none => .ok 1000
  | some v =>
      match stoi v with
      | none => .error invalidMaxKeys
      | some n => if n < 0 then .error invalidMaxKeys else .ok (min n 1000)

/-- Where the listing starts: the marker of version 1, the token or the start of version 2. -/
def listStart (req : HttpRequest) (v2 : Bool) : Except S3Error (Bytes × Option Bytes) :=
  if v2 then
    match req.queryGet (ascii "continuation-token") with
    | some tok =>
        match base64Decode tok with
        | none => .error ⟨.InvalidArgument, "The continuation token provided is incorrect.", []⟩
        | some key => .ok (key, req.queryGet (ascii "start-after"))
    | none =>
        match req.queryGet (ascii "start-after") with
        | some sa => .ok (sa, some sa)
        | none => .ok ([], none)
  else .ok ((req.queryGet (ascii "marker")).getD [], none)

def parseListRequest (req : HttpRequest) : Except S3Error ListRequest := do
  let maxKeys ← listMaxKeys req
  let encodingType := req.queryGet (ascii "encoding-type")
  if encodingType.any (· ≠ ascii "url") then
    throw ⟨.InvalidArgument, "Invalid Encoding Method specified in Request", []⟩
  let listType := req.queryGet (ascii "list-type")
  if listType.any (· ≠ ascii "2") then
    throw ⟨.InvalidArgument, "Invalid List Type specified in Request", []⟩
  let v2 := listType.isSome
  let (startAfter, startAfterParam) ← listStart req v2
  return { opt := { keyPrefix := (req.queryGet (ascii "prefix")).getD []
                    delimiter := (req.queryGet (ascii "delimiter")).getD []
                    maxKeys, startAfter }
           encodeUrl := encodingType.isSome
           v2
           continuationToken := if v2 then req.queryGet (ascii "continuation-token") else none
           startAfterParam
           fetchOwner := v2 && req.queryGet (ascii "fetch-owner") = some (ascii "true") }

/-! ## The filter -/

/-- `prefix_may_contain`: the group is below an allowed prefix or above one. -/
def CredentialPolicy.prefixMayContain (p : CredentialPolicy) (group : Bytes) : Bool :=
  p.prefixes = [] || p.prefixes.any fun pre =>
    let n := min pre.length group.length
    pre.take n = group.take n

/-- What a policy with prefixes leaves of a page. The cursor stays the backend's. -/
def filterListing (policy : Option CredentialPolicy) (r : ListResult ObjectMeta) :
    ListResult ObjectMeta :=
  match policy with
  | some p =>
      if p.prefixes = [] then r
      else { r with objects := r.objects.filter fun o => p.allowsKey o.key
                    commonPrefixes := r.commonPrefixes.filter p.prefixMayContain }
  | none => r

/-! ## The answer -/

structure ListedObject where
  key : Bytes
  lastModified : Int64
  etag : Bytes
  size : UInt64
  owner : Option (Bytes × Bytes)

/-- The elements of `ListBucketResult`, as they are written. -/
structure ListBucketResult where
  name : Bytes
  keyPrefix : Bytes
  encodingUrl : Bool
  delimiter : Option Bytes
  maxKeys : Int
  keyCount : Option Nat
  continuationToken : Option Bytes
  startAfter : Option Bytes
  marker : Option Bytes
  isTruncated : Bool
  nextContinuationToken : Option Bytes
  nextMarker : Option Bytes
  contents : List ListedObject
  commonPrefixes : List Bytes

def ListRequest.enc (lr : ListRequest) (s : Bytes) : Bytes :=
  if lr.encodeUrl then awsUriEncodePath s else s

/-- What is written for a page. -/
def listBucketResult (bucket : Bytes) (owner : Bytes × Bytes) (lr : ListRequest)
    (r : ListResult ObjectMeta) : ListBucketResult where
  name := bucket
  keyPrefix := lr.enc lr.opt.keyPrefix
  encodingUrl := lr.encodeUrl
  delimiter := if lr.opt.delimiter = [] then none else some (lr.enc lr.opt.delimiter)
  maxKeys := lr.opt.maxKeys
  keyCount := if lr.v2 then some (r.objects.length + r.commonPrefixes.length) else none
  continuationToken := lr.continuationToken
  startAfter := if lr.v2 then lr.startAfterParam.map lr.enc else none
  marker := if lr.v2 then none else some (lr.enc lr.opt.startAfter)
  isTruncated := r.isTruncated
  nextContinuationToken := if r.isTruncated && lr.v2 then some (base64Encode r.nextToken) else none
  nextMarker := if r.isTruncated && !lr.v2 then some (lr.enc r.nextToken) else none
  contents := r.objects.map fun o =>
    ⟨lr.enc o.key, o.lastModified, o.etag, o.size, if lr.fetchOwner then some owner else none⟩
  commonPrefixes := r.commonPrefixes.map lr.enc

/-- A bucket, by keys. -/
abbrev BucketContent := SortedMap Bytes ObjectMeta

/-- The reference listing of a bucket. -/
def BucketContent.list (content : BucketContent) (opt : ListOptions) : ListResult ObjectMeta :=
  applyListing content.keys opt fun k => { (content.get? k).getD {} with key := k }

/-- `S3Service::list_objects`. -/
def listObjectsHandler (bucket : Bytes) (owner : Bytes × Bytes) (content : BucketContent)
    (policy : Option CredentialPolicy) (req : HttpRequest) : Except S3Error ListBucketResult := do
  let lr ← parseListRequest req
  return listBucketResult bucket owner lr (filterListing policy (content.list lr.opt))

end Lights3
