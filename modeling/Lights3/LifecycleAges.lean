import Lights3.Gateway
import Lights3.Lib.PagedSweep

/-!
# Ages in lifecycle passes

The documents of lifecycle rules (`s3/handlers/bucket_lifecycle.cc`) and the ages that `run_once` of
`s3/lifecycle.cc` computes for them. An age and a number of days are compared as signed counts of
nanoseconds in 64 bits. `Gateway.aged` is the comparison of the exact numbers.
-/
namespace Lights3
open ByteString

/-! ## Documents of rules -/

/-- `XmlNode`. -/
inductive XmlNode where
  | mk (name text : Bytes) (children : List XmlNode)

namespace XmlNode

def name : XmlNode → Bytes
  | .mk name _ _ => name

def text : XmlNode → Bytes
  | .mk _ text _ => text

def children : XmlNode → List XmlNode
  | .mk _ _ children => children

/-- The first child with the name. -/
def find (n : XmlNode) (child : String) : Option XmlNode := n.children.find? (·.name = ascii child)

/-- The text of the child. -/
def get (n : XmlNode) (child : String) : Bytes := ((n.find child).map text).getD []

end XmlNode

/-- `parse_days`; a number that does not fit into `int` is rejected, and a sign makes it less than
one. -/
def parseDays (v : Bytes) (what : String) : Except S3Error Nat :=
  match Decimal.parse v with
  | some n =>
      if 1 ≤ n ∧ n < 2 ^ 31 then .ok n else
        .error ⟨.MalformedXML, what ++ " must be a positive integer.", []⟩
  | none => .error ⟨.MalformedXML, what ++ " must be a positive integer.", []⟩

/-- Elements that would claim more than there is. -/
def refuse (n : XmlNode) (names : List String) (message : String → String) : Except S3Error Unit :=
  match names.find? (fun name => (n.find name).isSome) with
  | some name => .error ⟨.NotImplemented, message name, []⟩
  | none => .ok ()

def parseStatus (status : Bytes) : Except S3Error Bool :=
  if status = ascii "Enabled" then .ok true
  else if status = ascii "Disabled" then .ok false
  else .error ⟨.MalformedXML, "Each Rule requires a Status of Enabled or Disabled.", []⟩

/-- The prefix of the filter, or the older form without one. -/
def parsePrefix (rn : XmlNode) : Except S3Error Bytes :=
  match rn.find "Filter" with
  | some f => do
      refuse f ["Tag", "And", "ObjectSizeGreaterThan", "ObjectSizeLessThan"]
        fun _ => "Lifecycle filters other than Prefix are not implemented."
      return f.get "Prefix"
  | none => .ok (rn.get "Prefix")

def parseExpiration (rn : XmlNode) : Except S3Error Nat :=
  match rn.find "Expiration" with
  | some e => do
      refuse e ["Date", "ExpiredObjectDeleteMarker"] fun _ => "Only Expiration.Days is implemented."
      parseDays (e.get "Days") "Expiration.Days"
  | none => .ok 0

def parseAbort (rn : XmlNode) : Except S3Error Nat :=
  match rn.find "AbortIncompleteMultipartUpload" with
  | some a => parseDays (a.get "DaysAfterInitiation") "DaysAfterInitiation"
  | none => .ok 0

/-- One `Rule` of `parse_lifecycle_xml`. -/
def parseRule (rn : XmlNode) : Except S3Error LifecycleRule := do
  refuse rn ["Transition", "NoncurrentVersionExpiration", "NoncurrentVersionTransition"] fun name =>
    name ++ " lifecycle rules are not implemented (only Expiration.Days and AbortIncompleteMultipartUpload)."
  let enabled ← parseStatus (rn.get "Status")
  let keyPrefix ← parsePrefix rn
  let expirationDays ← parseExpiration rn
  let abortIncompleteDays ← parseAbort rn
  if expirationDays = 0 ∧ abortIncompleteDays = 0 then
    .error ⟨.InvalidRequest,
      "Each Rule must specify Expiration and/or AbortIncompleteMultipartUpload.", []⟩
  else .ok { enabled, keyPrefix, expirationDays, abortIncompleteDays }

/-- The loop over the children of the document. -/
def parseRules : List XmlNode → List LifecycleRule → Except S3Error (List LifecycleRule)
  | [], rules => .ok rules
  | rn :: rest, rules =>
      if rn.name ≠ ascii "Rule" then parseRules rest rules
      else if 1000 ≤ rules.length then
        .error ⟨.InvalidRequest, "The lifecycle configuration may contain at most 1000 rules.", []⟩
      else do
        let rule ← parseRule rn
        parseRules rest (rules ++ [rule])

/-- `parse_lifecycle_xml` on the parsed text. -/
def parseLifecycleXml (root : XmlNode) : Except S3Error (List LifecycleRule) :=
  if root.name ≠ ascii "LifecycleConfiguration" then
    .error ⟨.MalformedXML,
      "The XML you provided was not well-formed or did not validate against our published schema.",
      []⟩
  else do
    let rules ← parseRules root.children []
    if rules = [] then
      .error ⟨.MalformedXML, "The lifecycle configuration must contain at least one Rule.", []⟩
    else .ok rules

/-! ## A pass over a bucket -/

/-- `days * kDay` in nanoseconds: the days are hours in 64 bits before they are nanoseconds in 64
bits. -/
def daysNs (days : Nat) : Int64 := Int64.ofNat days * 24 * 3600000000000

/-- The comparison of `run_once`. -/
def due (now since : Int64) (days : Nat) : Bool := ¬ now - since < daysNs days

def kListPage : Nat := 1000

section Sweeps

variable {κ : Type} [LinearOrder κ] (days : LifecycleRule → Nat) (keyOf : κ → Bytes)
  (clock : Nat → κ → Int64)

/-- One rule for one kind of things; `clock` has the readings by the number of the rule and what it
is tested on. -/
def sweepRule (m : SortedMap κ Int64) (x : LifecycleRule × Nat) : SortedMap κ Int64 :=
  if x.1.enabled = true ∧ 0 < days x.1 then
    m.sweep kListPage (fun k => x.1.keyPrefix.isPrefixOf (keyOf k)) fun k t =>
      due (clock x.2 k) t (days x.1)
  else m

/-- A thing is gone after the pass exactly if it is old enough for an enabled rule with a prefix of
its key. -/
def ExactAges (rules : List LifecycleRule) (m : SortedMap κ Int64) : Prop :=
  ∀ k t, m.get? k = some t →
    ((rules.zipIdx.foldl (sweepRule days keyOf clock) m).get? k = none ↔
      ∃ x ∈ rules.zipIdx, x.1.enabled = true ∧ 0 < days x.1 ∧ x.1.keyPrefix <+: keyOf k ∧
        Gateway.aged (clock x.2 k) t (days x.1) = true)

/-- The times are in the past of the clock, by less than `2 ^ 63` nanoseconds. -/
def PastTimes (m : SortedMap κ Int64) : Prop :=
  ∀ i k t, m.get? k = some t → 0 ≤ (clock i k).toInt - t.toInt ∧
    (clock i k).toInt - t.toInt < 2 ^ 63

end Sweeps

/-- The times of the objects by key and of the uploads by key and id. -/
structure BucketTimes where
  objects : SortedMap Bytes Int64 := .empty
  uploads : SortedMap (Bytes ×ₗ Bytes) Int64 := .empty

structure PassClock where
  objects : Nat → Bytes → Int64
  uploads : Nat → Bytes ×ₗ Bytes → Int64

def keyOfUpload (u : Bytes ×ₗ Bytes) : Bytes := (ofLex u).1

def sweepUploads (clock : PassClock) : SortedMap (Bytes ×ₗ Bytes) Int64 → LifecycleRule × Nat →
    SortedMap (Bytes ×ₗ Bytes) Int64 :=
  sweepRule LifecycleRule.abortIncompleteDays keyOfUpload clock.uploads

def sweepObjects (clock : PassClock) :
    SortedMap Bytes Int64 → LifecycleRule × Nat → SortedMap Bytes Int64 :=
  sweepRule LifecycleRule.expirationDays id clock.objects

/-- The rules of a bucket in `run_once`: for each rule the uploads, and then the objects. -/
def runRules (clock : PassClock) (rules : List LifecycleRule) (b : BucketTimes) : BucketTimes :=
  rules.zipIdx.foldl (fun b x => ⟨sweepObjects clock b.objects x, sweepUploads clock b.uploads x⟩) b

/-! ## Days that fit -/

/-- The greatest number of days that fits into 63 bits of nanoseconds. -/
def kMaxDays : Nat := 106751

theorem toInt_daysNs {days : Nat} (h : days ≤ kMaxDays) :
    (daysNs days).toInt = days * Gateway.nanosPerDay := by
  unfold kMaxDays at h
  have hdays : (Int64.ofNat days).toInt = days := Int64.toInt_ofNat_of_lt (by omega)
  have h24 : (24 : Int64).toInt = 24 := by decide
  have hhours : (Int64.ofNat days * 24).toInt = days * 24 := by
    rw [Int64.toInt_mul, hdays, h24]
    exact Int.bmod_eq_of_le (by norm_num; omega) (by norm_num; omega)
  rw [daysNs, Int64.toInt_mul, hhours, Gateway.nanosPerDay]
  have hns : (3600000000000 : Int64).toInt = 3600000000000 := by decide
  rw [hns, Int.bmod_eq_of_le (by norm_num; omega) (by norm_num; omega)]
  ring

theorem toInt_age {now since : Int64} (h : 0 ≤ now.toInt - since.toInt)
    (h' : now.toInt - since.toInt < 2 ^ 63) : (now - since).toInt = now.toInt - since.toInt := by
  rw [Int64.toInt_sub]
  exact Int.bmod_eq_of_le (by norm_num; omega) (by norm_num; omega)

theorem due_eq_aged {now since : Int64} {days : Nat} (h : days ≤ kMaxDays)
    (h0 : 0 ≤ now.toInt - since.toInt)
    (h1 : now.toInt - since.toInt < 2 ^ 63) : due now since days = Gateway.aged now since days := by
  simp only [due, Gateway.aged, Int64.lt_iff_toInt_lt, toInt_age h0 h1, toInt_daysNs h, not_lt]

/-! ## Passes -/

section Sweeps

variable {κ : Type} [LinearOrder κ] {days : LifecycleRule → Nat} {keyOf : κ → Bytes}
  {clock : Nat → κ → Int64} {rules : List LifecycleRule} {m : SortedMap κ Int64} {k : κ} {t : Int64}

/-- What the rules leave. -/
theorem sweepRules_get? (days : LifecycleRule → Nat) (keyOf : κ → Bytes) (clock : Nat → κ → Int64)
    (xs : List (LifecycleRule × Nat)) (hk : m.get? k = some t) :
    (xs.foldl (sweepRule days keyOf clock) m).get? k = none ↔
      ∃ x ∈ xs, x.1.enabled = true ∧ 0 < days x.1 ∧ x.1.keyPrefix <+: keyOf k ∧
        due (clock x.2 k) t (days x.1) = true := by
  have hsweeps (v : Int64) := SortedMap.sweeps_get? (m := m) (k := k) (v := v)
    (fun x : LifecycleRule × Nat => x.1.enabled = true ∧ 0 < days x.1)
    (fun x k => x.1.keyPrefix.isPrefixOf (keyOf k)) (fun x k t => due (clock x.2 k) t (days x.1))
    (n := kListPage) (by decide) xs
  change (xs.foldl _ m).get? k = none ↔ _
  rw [Option.eq_none_iff_forall_ne_some]
  constructor
  · intro h
    by_contra hnone
    refine h t ((hsweeps t).mpr ⟨hk, fun x hx hon hsel => ?_⟩)
    by_contra hdue
    exact hnone ⟨x, hx, hon.1, hon.2, List.isPrefixOf_iff_prefix.mp hsel, by simpa using hdue⟩
  · rintro ⟨x, hx, hen, hpos, hpre, hdue⟩ v hv
    obtain ⟨hv, hall⟩ := (hsweeps v).mp hv
    obtain rfl := Option.some.inj (hk.symm.trans hv)
    simp [hall x hx ⟨hen, hpos⟩ (List.isPrefixOf_iff_prefix.mpr hpre)] at hdue

theorem exactAges_of_fits (hdays : ∀ r ∈ rules, r.enabled = true → days r ≤ kMaxDays)
    (hpast : PastTimes clock m) :
    ExactAges days keyOf clock rules m := by
  intro k t hk
  rw [sweepRules_get? days keyOf clock _ hk]
  refine exists_congr fun x => and_congr_right fun hx => and_congr_right fun hen => ?_
  have hfits := hdays x.1 (List.fst_mem_of_mem_zipIdx hx) hen
  rw [due_eq_aged hfits (hpast x.2 k t hk).1 (hpast x.2 k t hk).2]

/-- The age at which the wrapped number of days is reached. -/
def wrongAge (days : Nat) : Int64 := if daysNs days < 0 then 0 else daysNs days

theorem due_wrongAge (days : Nat) : due (wrongAge days) 0 days = true := by
  simp only [due, wrongAge, Int64.sub_zero, Int64.lt_iff_toInt_lt, decide_eq_true_eq]
  split_ifs with h
  · exact fun h0 => lt_irrefl _ (h0.trans h)
  · exact lt_irrefl _

theorem wrongAge_nonneg (days : Nat) : 0 ≤ (wrongAge days).toInt := by
  unfold wrongAge
  split_ifs with h
  · exact le_refl _
  · rw [Int64.lt_iff_toInt_lt] at h
    exact not_lt.mp h

/-- Days that do not fit let one object go too early. -/
theorem fits_of_exactAges (days : LifecycleRule → Nat) (keyOf : κ → Bytes)
    (hkey : ∀ p, ∃ k, keyOf k = p)
    (h : ∀ clock (m : SortedMap κ Int64), PastTimes clock m → ExactAges days keyOf clock rules m)
    (r : LifecycleRule) (hr : r ∈ rules) (hen : r.enabled = true) : days r ≤ kMaxDays := by
  by_contra hlarge
  rw [not_le, kMaxDays] at hlarge
  obtain ⟨i, hi, rfl⟩ := List.getElem_of_mem hr
  obtain ⟨k, hk⟩ := hkey rules[i].keyPrefix
  have hmem : (rules[i], i) ∈ rules.zipIdx := by simp [List.mk_mem_zipIdx_iff_getElem?]
  -- One thing of time zero; the other rules read zero as well.
  let clock : Nat → κ → Int64 := fun j _ => if j = i then wrongAge (days rules[i]) else 0
  have hzero : (0 : Int64).toInt = 0 := by decide
  have hage (j : Nat) (k : κ) : 0 ≤ (clock j k).toInt ∧ (clock j k).toInt < 2 ^ 63 := by
    refine ⟨?_, Int64.toInt_lt _⟩
    dsimp only [clock]
    split_ifs
    · exact wrongAge_nonneg _
    · exact le_of_eq hzero.symm
  have hget : (SortedMap.empty.insert k (0 : Int64)).get? k = some 0 := by simp
  have hpast : PastTimes clock (SortedMap.empty.insert k 0) := by
    intro j k' t hk'
    rcases SortedMap.get?_insert_cases hk' with ⟨-, rfl⟩ | ⟨-, hk'⟩
    · simpa [hzero] using hage j k'
    · cases hk'
  have hpre : rules[i].keyPrefix <+: keyOf k := by rw [hk]
  have hdue : due (clock i k) 0 (days rules[i]) = true := by
    dsimp only [clock]
    rw [if_pos rfl]
    exact due_wrongAge _
  have hgone := (sweepRules_get? days keyOf clock rules.zipIdx hget).mpr
    ⟨(rules[i], i), hmem, hen, Nat.zero_lt_of_lt hlarge, hpre, hdue⟩
  obtain ⟨x, hx, -, hpos, -, haged⟩ := (h clock _ hpast k 0 hget).mp hgone
  simp only [Gateway.aged, Gateway.nanosPerDay, decide_eq_true_eq, hzero] at haged
  have hlt := (hage x.2 k).2
  by_cases hxi : x.2 = i
  · have hrule : x.1 = rules[i] := by
      have hxget := List.mem_zipIdx_iff_getElem?.mp hx
      rw [hxi, List.getElem?_eq_getElem hi] at hxget
      exact (Option.some.inj hxget).symm
    rw [hrule] at haged
    omega
  · simp only [clock, if_neg hxi, hzero] at haged
    omega

end Sweeps

/-- A pass over a bucket is exact. -/
def PassExact (clock : PassClock) (rules : List LifecycleRule) (b : BucketTimes) : Prop :=
  (∀ k t, b.objects.get? k = some t →
    ((runRules clock rules b).objects.get? k = none ↔
      ∃ x ∈ rules.zipIdx, x.1.enabled = true ∧ 0 < x.1.expirationDays ∧ x.1.keyPrefix <+: k ∧
        Gateway.aged (clock.objects x.2 k) t x.1.expirationDays = true)) ∧
  ∀ u t, b.uploads.get? u = some t →
    ((runRules clock rules b).uploads.get? u = none ↔
      ∃ x ∈ rules.zipIdx, x.1.enabled = true ∧ 0 < x.1.abortIncompleteDays ∧
        x.1.keyPrefix <+: keyOfUpload u ∧
        Gateway.aged (clock.uploads x.2 u) t x.1.abortIncompleteDays = true)

/-- The two kinds are swept independently. -/
theorem runRules_eq (clock : PassClock) (rules : List LifecycleRule) (b : BucketTimes) :
    runRules clock rules b =
      ⟨rules.zipIdx.foldl (sweepObjects clock) b.objects,
        rules.zipIdx.foldl (sweepUploads clock) b.uploads⟩ := by
  unfold runRules
  induction rules.zipIdx generalizing b with
  | nil => rfl
  | cons x xs ih => exact ih _

theorem passExact_iff (clock : PassClock) (rules : List LifecycleRule) (b : BucketTimes) :
    PassExact clock rules b ↔
      ExactAges LifecycleRule.expirationDays id clock.objects rules b.objects ∧
        ExactAges LifecycleRule.abortIncompleteDays keyOfUpload clock.uploads rules b.uploads := by
  unfold PassExact
  rw [runRules_eq]
  rfl

/-- The passes over the rules of an accepted document are exact for all ages below `2 ^ 63`
nanoseconds exactly if no enabled rule has a number of days that does not fit. -/
theorem lifecycle_ages_exact (doc : XmlNode) (rules : List LifecycleRule)
    (_hdoc : parseLifecycleXml doc = .ok rules) :
    (∀ clock b, PastTimes clock.objects b.objects → PastTimes clock.uploads b.uploads →
      PassExact clock rules b) ↔
      ∀ r ∈ rules, r.enabled = true → r.expirationDays ≤ kMaxDays ∧
      r.abortIncompleteDays ≤ kMaxDays := by
  simp only [passExact_iff]
  have hnone {κ : Type} [LinearOrder κ]
    (clock : Nat → κ → Int64) : PastTimes clock SortedMap.empty := nofun
  constructor
  · intro h r hr hen
    refine ⟨fits_of_exactAges _ id (fun p => ⟨p, rfl⟩) (fun clock m hpast => ?_) r hr hen,
      fits_of_exactAges _ keyOfUpload (fun p => ⟨toLex (p, []), rfl⟩)
      (fun clock m hpast => ?_) r hr hen⟩
    · exact (h ⟨clock, fun _ _ => 0⟩ { objects := m } hpast (hnone _)).1
    · exact (h ⟨fun _ _ => 0, clock⟩ { uploads := m } (hnone _) hpast).2
  · intro h clock b hobjects huploads
    exact ⟨exactAges_of_fits (fun r hr hen => (h r hr hen).1) hobjects,
      exactAges_of_fits (fun r hr hen => (h r hr hen).2) huploads⟩

/-- A document with one enabled rule for the whole bucket. -/
def expireAfter (days : String) : XmlNode :=
  .mk (ascii "LifecycleConfiguration") []
    [.mk (ascii "Rule") []
      [.mk (ascii "Status") (ascii "Enabled") [],
       .mk (ascii "Expiration") [] [.mk (ascii "Days") (ascii days) []]]]

theorem lifecycle_ages_exact_thirty :
    parseLifecycleXml (expireAfter "30") = .ok [⟨true, [], 30, 0⟩] ∧
      ∀ clock b, PastTimes clock.objects b.objects → PastTimes clock.uploads b.uploads →
        PassExact clock [⟨true, [], 30, 0⟩] b :=
  ⟨by rfl, (lifecycle_ages_exact (expireAfter "30") _ (by rfl)).mpr (by decide)⟩

/-- 106752 days are a negative number of nanoseconds, so a pass deletes an object in the moment of
its creation. -/
theorem lifecycle_days_wrap :
    parseLifecycleXml (expireAfter "106752") = .ok [⟨true, [], 106752, 0⟩] ∧
    ((runRules ⟨fun _ _ => 5, fun _ _ => 5⟩ [⟨true, [], 106752, 0⟩]
      { objects := SortedMap.empty.insert (ascii "k") 5 }).objects.get? (ascii "k") = none) ∧
    Gateway.aged 5 5 106752 = false := by
  refine ⟨by rfl, by decide +kernel, by decide +kernel⟩

end Lights3
