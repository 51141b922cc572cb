import Lights3.StorageTypes
import Lights3.Lib.Decimal
import Lights3.Lib.Results
import Lights3.Lib.SharedReads

/-!
# Conditional reads and reads of parts

`S3Service::get_object` of `s3/handlers/objects.cc` for `GET` and `HEAD`, as a program of reads of
the key: the part layout, the preconditions and the stream come from separate calls of the backend.
The response is modelled by what depends on the version and the range; the response overrides and
the other headers are left out. The texts of HTTP dates are a parameter, and so are the parts that
only a proxy backend can look up.
-/
namespace Lights3
open ByteString

/-- A version of an object as it is stored; a completed upload has at most 10000 parts, which make
up the object. -/
structure ReadVersion where
  etag : Bytes
  data : Bytes
  /-- Seconds since the epoch. -/
  lastModified : Int := 0
  partSizes : List Nat := []
  layout : partSizes = [] ∨ partSizes.sum = data.length
  few : partSizes.length ≤ 10000

/-- The headers and the query parameter that decide what is read. -/
structure ReadRequest where
  headOnly : Bool := false
  range : Option Bytes := none
  ifMatch : Option Bytes := none
  ifNoneMatch : Option Bytes := none
  ifModifiedSince : Option Bytes := none
  ifUnmodifiedSince : Option Bytes := none
  ifRange : Option Bytes := none
  partNumber : Option Bytes := none

structure ReadResponse where
  status : Nat := 200
  etag : Bytes
  contentRange : Option Bytes := none
  contentLength : Nat := 0
  /-- `x-amz-mp-parts-count`. -/
  partsCount : Option Nat := none
  body : Bytes := []
  deriving DecidableEq

/-- `ObjectPartExtent`: the number of parts, and where the part begins and how long it is. -/
structure PartExtent where
  partsCount : Nat
  offset : Nat
  size : Nat

/-- What is outside the handler: `parse_http_date`, and `resolve_object_part` of the backend. -/
structure ReadEnv where
  parseDate : Bytes → Option Int
  resolvePart : Option ReadVersion → Nat → Option PartExtent := fun _ _ => none

/-- `strip_quotes`. -/
def stripQuotes (s : Bytes) : Bytes :=
  if 2 ≤ s.length ∧ s.head? = some 34 ∧ s.getLast? = some 34 then (s.drop 1).dropLast else s

/-! ## Ranges -/

structure ByteRange where
  first : Option Nat
  last : Option Nat

/-- One end of a range, which may be missing: a number of 64 bits. -/
def parseBound (s : Bytes) : Option (Option Nat) :=
  if s = [] then some none else ((Decimal.parse s).filter (· < 2 ^ 64)).map some

/-- `parse_range_header`; what is no range is ignored. -/
def parseRangeHeader (v : Bytes) : Option ByteRange :=
  let spec := v.drop 6
  let a := spec.takeWhile (· ≠ 45)
  let b := spec.dropWhile (· ≠ 45)
  if !(ascii "bytes=").isPrefixOf v || 44 ∈ spec || b = [] || (a = [] && b = [45]) then none
  else
    match parseBound a, parseBound (b.drop 1) with
    | some (some f), some (some l) => if l < f then none else some ⟨some f, some l⟩
    | some f, some l => some ⟨f, l⟩
    | _, _ => none

def invalidRange : S3Error := ⟨.InvalidRange, "The requested range is not satisfiable", []⟩

/-- `resolve_range`. -/
def resolveRange (r : ByteRange) (size : Nat) : Except S3Error (Nat × Nat) :=
  if size = 0 then .error invalidRange
  else
    match r.first, r.last with
    | some f, l =>
        let l := (l.map (min · (size - 1))).getD (size - 1)
        if size ≤ f ∨ l < f then .error invalidRange else .ok (f, l)
    | none, some n =>
        if n = 0 then .error invalidRange else .ok (if size ≤ n then 0 else size - n, size - 1)
    | none, none => .error invalidRange

/-- The bytes from the first to the last position. -/
def window (data : Bytes) : Option (Nat × Nat) → Bytes
  | none => data
  | some (f, l) => (data.drop f).take (l - f + 1)

def contentRangeText (f l size : Nat) : Bytes :=
  ascii "bytes " ++ Decimal.render f ++ [45] ++ Decimal.render l ++ [47] ++ Decimal.render size

/-! ## The handler -/

abbrev ReadPlan := Reads (Option ReadVersion) (Except S3Error ReadResponse)

namespace ReadRequest

variable (env : ReadEnv) (key : Bytes) (req : ReadRequest)

def fail (e : S3Error) : ReadPlan := .done (.error e)

/-- `head_object` and `get_object` of the backend. -/
def onVersion (k : ReadVersion → ReadPlan) : ReadPlan :=
  .read fun
    | none => fail ⟨.NoSuchKey, "The specified key does not exist", key⟩
    | some v => k v

def invalidPartNumber : S3Error :=
  ⟨.InvalidPartNumber, "The requested partnumber is not satisfiable", key⟩

/-- The part of the object whose layout the version records. -/
def recordedExtent (v : ReadVersion) (no : Nat) : Except S3Error PartExtent :=
  if v.partSizes.length < no then .error (invalidPartNumber key)
  else .ok ⟨v.partSizes.length, (v.partSizes.take (no - 1)).sum, (v.partSizes[no - 1]?).getD 0⟩

/-- The part of an object without a layout, given what the backend looked up. -/
def unrecordedExtent (v : ReadVersion) (no : Nat) (found : Option PartExtent) :
    Except S3Error PartExtent :=
  match found with
  | some e => .ok e
  | none =>
      if 45 ∈ v.etag then
        .error ⟨.NotImplemented,
          "The part layout of this object was not recorded (uploaded before part-layout tracking).",
          key⟩
      else if 1 < no then .error (invalidPartNumber key)
      else .ok ⟨1, 0, v.data.length⟩

/-- The range of a part; an empty part has none. -/
def extentRange (e : PartExtent) : Option ByteRange :=
  if 0 < e.size then some ⟨some e.offset, some (e.offset + e.size - 1)⟩ else none

def partNumber? (text : Bytes) : Option Nat :=
  (Decimal.parse text).filter fun no => 1 ≤ no ∧ no ≤ 10000

/-- The range that is asked for, by the header or by the number of a part. -/
def withRange (k : Option ByteRange → Option Nat → ReadPlan) : ReadPlan :=
  let range := req.range.bind parseRangeHeader
  match req.partNumber with
  | none => k range none
  | some text =>
      match partNumber? text with
      | none => fail ⟨.InvalidArgument, "Part number must be an integer between 1 and 10000.", []⟩
      | some no =>
          if range.isSome then
            fail ⟨.InvalidRequest,
              "Cannot specify both Range header and partNumber query parameter.", []⟩
          else
            let go : Except S3Error PartExtent → ReadPlan
              | .error e => fail e
              | .ok e => k (extentRange e) (some e.partsCount)
            onVersion key fun v =>
              if v.partSizes ≠ [] then go (recordedExtent key v no)
              else .read fun now => go (unrecordedExtent key v no (env.resolvePart now no))

/-- `check_read_preconditions`: refused, or whether the client has this version. -/
def checkReadPreconditions (v : ReadVersion) : Except S3Error Bool :=
  let holds := match req.ifMatch, req.ifUnmodifiedSince with
    | some e, _ => decide (e = ascii "*" ∨ stripQuotes e = v.etag)
    | none, some d => (env.parseDate d).all fun t => v.lastModified ≤ t
    | none, none => true
  let notModified := match req.ifNoneMatch, req.ifModifiedSince with
    | some e, _ => decide (e = ascii "*" ∨ stripQuotes e = v.etag)
    | none, some d => (env.parseDate d).any fun t => v.lastModified ≤ t
    | none, none => false
  if holds then .ok notModified
  else .error ⟨.PreconditionFailed, "At least one of the pre-conditions you specified did not hold",
    []⟩

def hasReadPreconditions : Bool :=
  req.ifMatch.isSome || req.ifNoneMatch.isSome || req.ifModifiedSince.isSome ||
    req.ifUnmodifiedSince.isSome

/-- `if_range_matches`. -/
def ifRangeMatches (v : ReadVersion) : Bool :=
  match req.ifRange with
  | none => true
  | some e =>
      if e.head? = some 34 then stripQuotes e = v.etag
      else (env.parseDate e).any fun t => v.lastModified = t

/-- The answer to a read of a version, with the range resolved against its size. -/
def answer (parts : Option Nat) (v : ReadVersion) (range : Option ByteRange) :
    Except S3Error ReadResponse :=
  match range with
  | none => .ok { etag := v.etag, contentLength := v.data.length, partsCount := parts,
                  body := v.data }
  | some r => (resolveRange r v.data.length).map fun (f, l) =>
      { status := 206, etag := v.etag, contentRange := some (contentRangeText f l v.data.length)
        contentLength := l - f + 1, partsCount := parts, body := window v.data (some (f, l)) }

/-- The preconditions are decided on one version; the rest gets the range that is left. -/
def decideOn (range : Option ByteRange) (v : ReadVersion) (k : Option ByteRange → ReadPlan) :
    ReadPlan :=
  match checkReadPreconditions env req v with
  | .error e => fail e
  | .ok true => .done (.ok { status := 304, etag := v.etag })
  | .ok false => k (if ifRangeMatches env req v then range else none)

/-- The handler, once the range is known. -/
def readRange (range : Option ByteRange) (parts : Option Nat) : ReadPlan :=
  let stream := fun range => onVersion key fun v => .done (answer parts v range)
  if req.headOnly then
    onVersion key fun v => decideOn env req range v fun range =>
      .done ((answer parts v range).map fun resp => { resp with body := [] })
  else if req.hasReadPreconditions || (range.isSome && req.ifRange.isSome) then
    onVersion key fun v => decideOn env req range v stream
  else stream range

/-- `S3Service::get_object`. -/
def getObject : ReadPlan := withRange env key req (readRange env key req)

/-! ## What an answer says about the version -/

variable {env key req}
variable {o : Option ReadVersion} {v : ReadVersion} {range : Option ByteRange} {parts : Option Nat}
variable {resp : ReadResponse}

/-- The part, as the reads see it while nobody writes. -/
def partExtent (env : ReadEnv) (key : Bytes) (v : ReadVersion) (no : Nat) :
    Except S3Error PartExtent :=
  if v.partSizes ≠ [] then recordedExtent key v no
  else unrecordedExtent key v no (env.resolvePart (some v) no)

theorem alone_onVersion {k : ReadVersion → ReadPlan} (h : (onVersion key k).alone o = .ok resp) :
    ∃ v, o = some v ∧ (k v).alone o = .ok resp := by
  cases o with
  | none => cases h
  | some v => exact ⟨v, rfl, h⟩

theorem alone_withRange {k : Option ByteRange → Option Nat → ReadPlan}
    (h : (withRange env key req k).alone o = .ok resp) :
    (req.partNumber = none ∧ (k (req.range.bind parseRangeHeader) none).alone o = .ok resp) ∨
    ∃ text no v e, req.partNumber = some text ∧ partNumber? text = some no ∧ o = some v ∧
      partExtent env key v no = .ok e ∧ (k (extentRange e) (some e.partsCount)).alone o =
        .ok resp := by
  unfold withRange at h
  cases hpart : req.partNumber with
  | none =>
      rw [hpart] at h
      exact .inl ⟨rfl, h⟩
  | some text =>
      rw [hpart] at h
      cases hno : partNumber? text with
      | none =>
          simp only [hno] at h
          cases h
      | some no =>
          simp only [hno] at h
          split at h
          · cases h
          · obtain ⟨v, rfl, h⟩ := alone_onVersion h
            refine .inr ⟨text, no, v, ?_⟩
            unfold partExtent
            split at h
            next hparts =>
              rw [if_pos hparts]
              cases hext : recordedExtent key v no with
              | error e =>
                  rw [hext] at h
                  cases h
              | ok e =>
                  rw [hext] at h
                  exact ⟨e, rfl, hno, rfl, rfl, h⟩
            next hparts =>
              rw [if_neg hparts]
              simp only [Reads.alone] at h
              cases hext : unrecordedExtent key v no (env.resolvePart (some v) no) with
              | error e =>
                  rw [hext] at h
                  cases h
              | ok e =>
                  rw [hext] at h
                  exact ⟨e, rfl, hno, rfl, rfl, h⟩

theorem answer_ok (h : answer parts v range = .ok resp) :
    resp.etag = v.etag ∧ ((range = none ∧ resp.status = 200 ∧ resp.body = v.data) ∨
      ∃ r f l, range = some r ∧ resolveRange r v.data.length = .ok (f, l) ∧ resp.status = 206 ∧
        resp.body = window v.data (some (f, l))) := by
  unfold answer at h
  cases range with
  | none =>
      cases h
      exact ⟨rfl, .inl ⟨rfl, rfl, rfl⟩⟩
  | some r =>
      obtain ⟨⟨f, l⟩, hr, rfl⟩ := map_eq_ok.mp h
      exact ⟨rfl, .inr ⟨r, f, l, rfl, hr, rfl, rfl⟩⟩

/-- The preconditions held of the version that was read. -/
theorem alone_decideOn {k : Option ByteRange → ReadPlan} (hstatus : resp.status ≠ 304)
    (h : (decideOn env req range v k).alone o = .ok resp) :
    (∀ e, req.ifMatch = some e → e ≠ ascii "*" → stripQuotes e = v.etag) ∧
      (k (if ifRangeMatches env req v then range else none)).alone o = .ok resp := by
  unfold decideOn at h
  cases hcheck : checkReadPreconditions env req v with
  | error e =>
      rw [hcheck] at h
      cases h
  | ok notModified =>
      rw [hcheck] at h
      cases notModified with
      | true =>
          cases h
          exact absurd rfl hstatus
      | false =>
          refine ⟨fun e he hstar => ?_, h⟩
          unfold checkReadPreconditions at hcheck
          simp only [he] at hcheck
          split at hcheck
          next hholds => exact (of_decide_eq_true hholds).resolve_left hstar
          · cases hcheck

/-- The bytes of a part, cut out by its range. -/
theorem window_extent {e : PartExtent} {r : ByteRange} {f l : Nat} (hr : extentRange e = some r)
    (data : Bytes)
    (h : resolveRange r data.length = .ok (f, l)) :
      f = e.offset ∧ l + 1 = min (e.offset + e.size) data.length ∧
      window data (some (f, l)) = (data.drop e.offset).take e.size := by
  unfold extentRange at hr
  split at hr
  next hpos =>
    cases hr
    unfold resolveRange at h
    split at h
    · cases h
    · dsimp only [Option.map_some, Option.getD_some] at h
      split at h
      · cases h
      next hle =>
        cases h
        refine ⟨rfl, by omega, ?_⟩
        rw [window]
        by_cases hlast : e.offset + e.size ≤ data.length
        · rw [min_eq_left (by omega)]
          congr 1
          omega
        · rw [min_eq_right (by omega), List.take_of_length_le (by simp; omega),
            List.take_of_length_le (by simp; omega)]
  · cases hr

/-- Where a part is: after the parts before it, and without a layout where the backend finds it, or
it is the whole object. -/
inductive PartAt (env : ReadEnv) (v : ReadVersion) : Nat → Nat → Nat → Prop where
  | recorded {i size : Nat} (part : v.partSizes[i]? = some size) :
      PartAt env v (i + 1) (v.partSizes.take i).sum size
  | found {no : Nat} {e : PartExtent} (plain : v.partSizes = [])
      (part : env.resolvePart (some v) no = some e) : PartAt env v no e.offset e.size
  | whole (plain : v.partSizes = []) : PartAt env v 1 0 v.data.length

theorem partAt_of_extent {no : Nat} {e : PartExtent} (hno : 0 < no)
    (h : partExtent env key v no = .ok e) : PartAt env v no e.offset e.size := by
  obtain ⟨i, rfl⟩ := Nat.exists_eq_add_of_le' hno
  unfold partExtent at h
  split_ifs at h with hparts
  · unfold recordedExtent at h
    split_ifs at h with hlen
    cases h
    obtain ⟨size, hsize⟩ : ∃ size, v.partSizes[i]? = some size :=
      ⟨_, List.getElem?_eq_getElem (by omega)⟩
    rw [Nat.add_sub_cancel, hsize]
    exact .recorded hsize
  · have hplain := not_not.mp hparts
    unfold unrecordedExtent at h
    split at h
    next hfound =>
      cases h
      exact .found hplain hfound
    · split_ifs at h
      cases h
      obtain rfl : i = 0 := by omega
      exact .whole hplain

/-- The answer is one of the version: its tag and bytes of it, as the conditions and the part number
ask. -/
structure AnswersFor (env : ReadEnv) (req : ReadRequest) (v : ReadVersion)
    (resp : ReadResponse) : Prop where
  etag : resp.etag = v.etag
  bytes : ∃ r, resp.body = window v.data r
  ifMatch : ∀ e, req.ifMatch = some e → e ≠ ascii "*" → v.etag = stripQuotes e
  ifRange : ∀ e, req.ifRange = some e → e.head? = some 34 → resp.status = 206 →
    v.etag = stripQuotes e
  part : ∀ text no, req.partNumber = some text → partNumber? text = some no → resp.status = 206 →
    ∃ offset size, PartAt env v no offset size ∧ resp.body = (v.data.drop offset).take size

/-- The version that the stream comes from, and the range that the preconditions have left. -/
theorem alone_readRange (hget : req.headOnly = false) (hstatus : resp.status ≠ 304)
    (h : (readRange env key req range parts).alone o = .ok resp) :
    ∃ v left, o = some v ∧ answer parts v left = .ok resp ∧ (left.isSome → left = range) ∧
      (∀ e, req.ifMatch = some e → e ≠ ascii "*" → v.etag = stripQuotes e) ∧
      (left.isSome → ∀ e, req.ifRange = some e → e.head? = some 34 → v.etag = stripQuotes e) := by
  unfold readRange at h
  simp only [hget, Bool.false_eq_true, if_false] at h
  split at h
  · obtain ⟨v, rfl, h⟩ := alone_onVersion h
    obtain ⟨hmatch, h⟩ := alone_decideOn hstatus h
    refine ⟨v, _, rfl, h, fun hsome => ?_, fun e he hstar => (hmatch e he hstar).symm,
      fun hsome e he hquote => ?_⟩
    · split at hsome
      next hm => rw [if_pos hm]
      · cases hsome
    · split at hsome
      next hm =>
        simp only [ifRangeMatches, he, hquote, if_true] at hm
        exact (of_decide_eq_true hm).symm
      · cases hsome
  next hplain =>
    obtain ⟨v, rfl, h⟩ := alone_onVersion h
    simp only [hasReadPreconditions, Bool.or_eq_true, Bool.and_eq_true, not_or, not_and] at hplain
    refine ⟨v, range, rfl, h, fun _ => rfl, fun e he => ?_, fun hsome e he => ?_⟩
    · simp [he] at hplain
    · exact absurd (he ▸ rfl) (hplain.2 hsome)

theorem AnswersFor.of_answer {left asked : Option ByteRange} (h : answer parts v left = .ok resp)
    (hleft : left.isSome → left = asked)
    (hmatch : ∀ e, req.ifMatch = some e → e ≠ ascii "*" → v.etag = stripQuotes e)
    (hrange : left.isSome → ∀ e, req.ifRange = some e → e.head? = some 34 → v.etag = stripQuotes e)
    (hpart : ∀ text no, req.partNumber = some text → partNumber? text = some no →
      ∃ e, PartAt env v no e.offset e.size ∧
      asked = extentRange e) : AnswersFor env req v resp := by
  obtain ⟨hetag, ⟨rfl, h200, hbody⟩ | ⟨r, f, l, rfl, hr, -, hbody⟩⟩ := answer_ok h
  · refine ⟨hetag, ⟨none, hbody⟩, hmatch, fun _ _ _ h206 => ?_, fun _ _ _ _ h206 => ?_⟩ <;> omega
  · refine ⟨hetag, ⟨_, hbody⟩, hmatch, fun e he hquote _ => hrange rfl e he hquote,
      fun text no ht hno _ => ?_⟩
    obtain ⟨e, hext, hasked⟩ := hpart text no ht hno
    exact ⟨_, _, hext, hbody.trans (window_extent (hasked.symm.trans (hleft rfl).symm) _ hr).2.2⟩

theorem alone_getObject (hget : req.headOnly = false)
    (h : (getObject env key req).alone o = .ok resp)
    (hstatus : resp.status = 200 ∨ resp.status = 206) :
    ∃ v, o = some v ∧ AnswersFor env req v resp := by
  have hnot : resp.status ≠ 304 := by omega
  rcases alone_withRange h with ⟨hnone, h⟩ | ⟨text, no, w, e, htext, hno, rfl, hext, h⟩
  · obtain ⟨v, left, hv, hanswer, hleft, hmatch, hrange⟩ := alone_readRange hget hnot h
    refine ⟨v, hv, .of_answer hanswer hleft hmatch hrange fun text no ht => ?_⟩
    rw [hnone] at ht
    cases ht
  · obtain ⟨v, left, hv, hanswer, hleft, hmatch, hrange⟩ := alone_readRange hget hnot h
    cases hv
    refine ⟨w, rfl, .of_answer hanswer hleft hmatch hrange fun text' no' ht hno' => ?_⟩
    obtain rfl : text = text' := Option.some.inj (htext.symm.trans ht)
    obtain rfl : no = no' := Option.some.inj (hno.symm.trans hno')
    have hrange := (Option.filter_eq_some_iff.mp hno).2
    simp only [Bool.decide_and, Bool.and_eq_true, decide_eq_true_eq] at hrange
    exact ⟨e, partAt_of_extent hrange.1 hext, rfl⟩

/-- If every call of the backend sees the version that the first one saw, an answer of a `GET` is
one of a version that the key has had: with `If-Match` it is a version of that tag, with `If-Range`
a part of one, and the answer for a part has the bytes of that part. -/
theorem conditional_read_atomic (env : ReadEnv) (key : Bytes) (req : ReadRequest)
    (hget : req.headOnly = false)
    (s : Option ReadVersion) (es : List (Reads.Event (Option ReadVersion))) (resp : ReadResponse)
    (h : Along Reads.Session.next Reads.Session.Steady
      { shared := s, rest := getObject env key req } es)
    (hdone : (es.foldl Reads.Session.next
      { shared := s, rest := getObject env key req }).rest.result? = some (.ok resp))
    (hstatus : resp.status = 200 ∨ resp.status = 206) :
    ∃ v, some v ∈
      (es.foldl Reads.Session.next { shared := s, rest := getObject env key req }).history ∧
      AnswersFor env req v resp := by
  obtain ⟨o, ho, halone⟩ := Reads.Session.result_of_steady h hdone
  obtain ⟨v, rfl, hv⟩ := alone_getObject hget halone hstatus
  exact ⟨v, ho, hv⟩

/-- Two versions of a key. -/
def oldVersion : ReadVersion :=
  { etag := ascii "e1", data := [1], layout := .inl rfl, few := by decide }

def newVersion : ReadVersion :=
  { etag := ascii "e2", data := [2], layout := .inl rfl, few := by decide }

/-- A version with two parts. -/
def partedVersion : ReadVersion :=
  { etag := ascii "e1", data := [1, 3], partSizes := [1, 1], layout := .inr rfl, few := by decide }

/-- The version is overwritten after the read of its second part. -/
theorem conditional_read_atomic_part :
    let req : ReadRequest := { ifMatch := some (ascii "\"e1\""), partNumber := some (ascii "2") }
    ∃ v, some v ∈ [some newVersion, some partedVersion] ∧
      AnswersFor { parseDate := fun _ => none } req v
        { status := 206, etag := ascii "e1", contentRange := some (contentRangeText 1 1 2),
          contentLength := 1
          partsCount := some 2, body := [3] } :=
  conditional_read_atomic { parseDate := fun _ => none } (ascii "k")
    { ifMatch := some (ascii "\"e1\""), partNumber := some (ascii "2") } rfl
    (some partedVersion) [.step, .step, .step, .write (some newVersion)] _
    ⟨nofun, fun _ h => Option.some.inj h, fun _ h => Option.some.inj h, trivial, trivial⟩ rfl
    (.inr rfl)

/-- Overwritten between the two reads, the answer to `If-Match` with the old tag is the new version.
-/
theorem overwritten_between_reads :
    ([.step, .write (some newVersion), .step].foldl Reads.Session.next
      { shared := some oldVersion
        rest := getObject { parseDate := fun _ => none } (ascii "k")
          { ifMatch := some (ascii "\"e1\"") } }).rest.result? =
    some (.ok { etag := ascii "e2", contentLength := 1, body := [2] }) := rfl

/-! ## Downloading an object part by part -/

/-- The answer while nobody writes. -/
def serve (env : ReadEnv) (key : Bytes) (v : ReadVersion) (req : ReadRequest) :
    Except S3Error ReadResponse :=
  (getObject env key req).alone (some v)

/-- A request for one part. -/
def forPart (headOnly : Bool) (no : Nat) : ReadRequest :=
  { headOnly, partNumber := some (Decimal.render no) }

/-- The answer for a part whose layout is recorded; an empty part is answered with the whole object.
-/
theorem serve_forPart (hparts : v.partSizes ≠ []) {no : Nat} (hpos : 1 ≤ no) (headOnly : Bool) :
    serve env key v (forPart headOnly no) =
      if 10000 < no then
        .error ⟨.InvalidArgument, "Part number must be an integer between 1 and 10000.", []⟩
      else (recordedExtent key v no).bind fun e =>
        (answer (some e.partsCount) v (extentRange e)).map fun resp =>
        if headOnly then { resp with body := [] } else resp := by
  by_cases hmany : 10000 < no
  · have hno : partNumber? (Decimal.render no) = none := by
      rw [partNumber?, Decimal.parse_render, Option.filter_some, if_neg (by simp; omega)]
    rw [if_pos hmany]
    simp only [serve, getObject, withRange, forPart, hno]
    rfl
  · have hno : partNumber? (Decimal.render no) = some no := by
      rw [partNumber?, Decimal.parse_render, Option.filter_some, if_pos (by simp; omega)]
    rw [if_neg hmany]
    simp only [serve, getObject, withRange, forPart, hno, Option.bind_none, Option.isSome_none,
      Bool.false_eq_true,
      if_false, onVersion, Reads.alone, ne_eq, hparts, not_false_eq_true, if_true]
    cases recordedExtent key v no with
    | error e => rfl
    | ok e =>
        cases headOnly with
        | true => rfl
        | false =>
            simp only [readRange, Bool.false_eq_true, if_false, hasReadPreconditions,
              Option.isSome_none, Bool.or_self, Bool.and_false, onVersion, Reads.alone, Except.bind]
            cases answer (some e.partsCount) v (extentRange e) <;> rfl

/-- The part with the index `i` lies inside the object. -/
theorem sum_take_add_le {sizes : List Nat} {i size : Nat} (h : sizes[i]? = some size) :
    (sizes.take i).sum + size ≤ sizes.sum := by
  obtain ⟨hi, rfl⟩ := List.getElem?_eq_some_iff.mp h
  rw [← List.sum_take_succ _ _ hi, ← List.sum_take_add_sum_drop sizes (i + 1)]
  exact Nat.le_add_right _ _

theorem recordedExtent_eq {i size : Nat} (h : v.partSizes[i]? = some size) :
    recordedExtent key v (i + 1) = .ok ⟨v.partSizes.length, (v.partSizes.take i).sum, size⟩ := by
  have hi := (List.getElem?_eq_some_iff.mp h).1
  rw [recordedExtent, if_neg (by omega), Nat.add_sub_cancel, h]
  rfl

theorem answer_part {e : PartExtent} (hpos : 0 < e.size) (hle : e.offset + e.size ≤ v.data.length) :
    answer parts v (extentRange e) =
      .ok { status := 206, etag := v.etag
            contentRange := some (contentRangeText e.offset (e.offset + e.size - 1) v.data.length)
            contentLength := e.size, partsCount := parts, body :=
              (v.data.drop e.offset).take e.size } := by
  have hrange : resolveRange ⟨some e.offset, some (e.offset + e.size - 1)⟩ v.data.length =
      .ok (e.offset, e.offset + e.size - 1) := by
    rw [resolveRange, if_neg (by omega)]
    simp only [Option.map_some, Option.getD_some]
    rw [if_neg (by omega), min_eq_left (by omega)]
  have hlen : e.offset + e.size - 1 - e.offset + 1 = e.size := by omega
  rw [extentRange, if_pos hpos, answer, hrange]
  simp only [Except.map, window, hlen]

theorem answer_empty_part {e : PartExtent} (h : e.size = 0) : answer parts v (extentRange e) =
    .ok { etag := v.etag, contentLength := v.data.length, partsCount := parts,
          body := v.data } := by
  rw [extentRange, if_neg (by omega), answer]

def bodyOf : Except S3Error ReadResponse → Bytes
  | .ok resp => resp.body
  | .error _ => []

/-- The parts of an object, downloaded one by one, are the object. -/
structure PartDownloads (env : ReadEnv) (key : Bytes) (v : ReadVersion) : Prop where
  bodies : ((List.range v.partSizes.length).map fun i =>
    bodyOf (serve env key v (forPart false (i + 1)))).flatten = v.data
  lengths : ∀ i size, v.partSizes[i]? = some size → ∃ get head,
    serve env key v (forPart false (i + 1)) = .ok get ∧
    serve env key v (forPart true (i + 1)) = .ok head ∧ get.body.length = size ∧
    get.contentLength = size ∧
    head.contentLength = size ∧
      (0 < size → get.contentRange = some (contentRangeText (v.partSizes.take i).sum
      ((v.partSizes.take i).sum + size - 1) v.data.length))
  beyond : ∀ no headOnly, v.partSizes.length < no → ∃ e,
    serve env key v (forPart headOnly no) = .error e

/-- The windows of the parts, one after the other, are the whole. -/
theorem flatten_windows {sizes : List Nat} {data : Bytes} (h : sizes.sum = data.length) :
    ((List.range sizes.length).map fun i => (data.drop (sizes.take i).sum).take
      ((sizes[i]?).getD 0)).flatten = data := by
  induction sizes generalizing data with
  | nil => simpa using List.eq_nil_of_length_eq_zero h.symm
  | cons n sizes ih =>
      have hsum : sizes.sum = (data.drop n).length := by
        simp only [List.sum_cons] at h
        rw [List.length_drop]
        omega
      have hrest := ih hsum
      rw [List.length_cons, List.range_succ_eq_map, List.map_cons, List.map_map, List.flatten_cons]
      simp only [Function.comp_def, List.take_succ_cons, List.sum_cons, List.getElem?_cons_succ,
        List.take_zero,
        List.sum_nil, List.drop_zero, List.getElem?_cons_zero, Option.getD_some, ← List.drop_drop]
      rw [hrest]
      exact List.take_append_drop n data

/-- Part by part the object comes out whole exactly if no part is empty, or the object is. -/
theorem part_downloads_iff (env : ReadEnv) (key : Bytes) (v : ReadVersion)
    (hparts : v.partSizes ≠ []) :
    PartDownloads env key v ↔ (∀ size ∈ v.partSizes, 0 < size) ∨ v.data = [] := by
  have hsum : v.partSizes.sum = v.data.length := v.layout.resolve_left hparts
  have hserve : ∀ i size headOnly, v.partSizes[i]? = some size →
      serve env key v (forPart headOnly (i + 1)) =
        (answer (some v.partSizes.length) v
          (extentRange ⟨v.partSizes.length, (v.partSizes.take i).sum, size⟩)).map
        fun resp => if headOnly then { resp with body := [] } else resp := by
    intro i size headOnly hi
    have hlt := (List.getElem?_eq_some_iff.mp hi).1
    rw [serve_forPart hparts (by omega), if_neg (by have := v.few; omega), recordedExtent_eq hi]
    rfl
  have hbeyond : ∀ no headOnly, v.partSizes.length < no → ∃ e,
      serve env key v (forPart headOnly no) = .error e := by
    intro no headOnly hno
    rw [serve_forPart hparts (by omega), recordedExtent, if_pos hno]
    by_cases hmany : 10000 < no
    · exact ⟨_, if_pos hmany⟩
    · exact ⟨_, if_neg hmany⟩
  constructor
  · intro h
    by_contra hnot
    obtain ⟨hsome, hne⟩ := not_or.mp hnot
    obtain ⟨size, hmem, hzero⟩ : ∃ size ∈ v.partSizes, size = 0 := by
      simpa [Nat.pos_iff_ne_zero] using hsome
    obtain ⟨i, hi⟩ := List.mem_iff_getElem?.mp hmem
    obtain ⟨get, head, hget, -, hlen, -⟩ := h.lengths i size hi
    rw [hserve i size false hi, answer_empty_part hzero] at hget
    cases hget
    exact hne (List.eq_nil_of_length_eq_zero (hlen.trans hzero))
  · intro h
    have hpart : ∀ i size, v.partSizes[i]? = some size → ∀ headOnly, ∃ resp,
        serve env key v (forPart headOnly (i + 1)) = .ok resp ∧ resp.contentLength = size ∧
        (headOnly = false → resp.body = (v.data.drop (v.partSizes.take i).sum).take size) ∧
        (0 < size → resp.contentRange = some (contentRangeText (v.partSizes.take i).sum
          ((v.partSizes.take i).sum + size - 1) v.data.length)) := by
      intro i size hi headOnly
      have hle := sum_take_add_le hi
      by_cases hpos : 0 < size
      · rw [hserve i size headOnly hi, answer_part hpos (by dsimp only; omega)]
        refine ⟨_, rfl, ?_, ?_, ?_⟩ <;> cases headOnly <;> simp
      · have hdata : v.data = [] :=
          h.resolve_left fun hall => hpos (hall size (List.mem_of_getElem? hi))
        rw [hserve i size headOnly hi, answer_empty_part (by dsimp only; omega)]
        refine ⟨_, rfl, ?_, ?_, fun hpos' => absurd hpos' hpos⟩ <;> cases headOnly <;>
          simp [hdata] <;> omega
    refine ⟨?_, fun i size hi => ?_, hbeyond⟩
    · have hbody : ∀ i ∈ List.range v.partSizes.length,
          bodyOf (serve env key v (forPart false (i + 1))) =
          (v.data.drop (v.partSizes.take i).sum).take ((v.partSizes[i]?).getD 0) := by
        intro i hi
        obtain ⟨size, hsize⟩ : ∃ size, v.partSizes[i]? = some size :=
          ⟨_, List.getElem?_eq_getElem (List.mem_range.mp hi)⟩
        obtain ⟨resp, hresp, -, hb, -⟩ := hpart i size hsize false
        rw [hresp, hsize]
        exact hb rfl
      rw [List.map_congr_left hbody]
      exact flatten_windows hsum
    · obtain ⟨get, hget, hgetlen, hbody, hrange⟩ := hpart i size hi false
      obtain ⟨head, hhead, hheadlen, -⟩ := hpart i size hi true
      have hle := sum_take_add_le hi
      refine ⟨get, head, hget, hhead, ?_, hgetlen, hheadlen, hrange⟩
      rw [hbody rfl, List.length_take, List.length_drop]
      omega

/-- An object of two bytes in two parts. -/
def twoParts : ReadVersion :=
  { etag := ascii "e-2", data := [7, 8], partSizes := [1, 1], layout := .inr rfl, few := by decide }

theorem part_downloads_iff_two :
    PartDownloads { parseDate := fun _ => none } (ascii "k") twoParts :=
  (part_downloads_iff { parseDate := fun _ => none } (ascii "k") twoParts (by decide)).mpr
    (.inl (by decide))

/-- An object whose second part is empty. -/
def emptyPart : ReadVersion :=
  { etag := ascii "e-2", data := [7, 8], partSizes := [2, 0], layout := .inr rfl, few := by decide }

/-- The empty part is answered with the whole object. -/
theorem empty_part_whole :
    ¬ PartDownloads { parseDate := fun _ => none } (ascii "k") emptyPart := by
  intro h
  obtain ⟨get, head, hget, -, hlen, -⟩ := h.lengths 1 0 rfl
  have hwhole : serve { parseDate := fun _ => none } (ascii "k") emptyPart (forPart false (1 + 1)) =
      .ok { etag := ascii "e-2", contentLength := 2, partsCount := some 2, body := [7, 8] } := by
    decide +kernel
  rw [hwhole] at hget
  cases hget
  exact absurd hlen (by decide)

end ReadRequest
end Lights3
