import Lights3.CanonicalQuery
import Lights3.CodecSections
import Lights3.ObjectFiles
import Lights3.Tenants
import Lights3.Lib.TabText

/-!
# The metadata of a local object as text

`meta_kv`, `kv_to_tsv` and `parse_meta_tsv` (`storage/localfs/fs_util.cc`) escape nothing. What
keeps the entries apart are checks elsewhere: the HTTP server cuts requests into lines, and
`meta_from_headers` (`s3/handlers/common.h`) refuses line breaks. A tab in the name of a header
passes both, so the name of a user entry is cut there; and a checksum algorithm without a value,
which the completion of an upload can leave, is not written. Everything else comes back.

The limits on the sizes of tags and of user metadata are those of the source; lengths are not
bounded otherwise.
-/
namespace Lights3
open ByteString HttpSyntax TabText

/-! ## The text -/

def tierEntries (m : ObjectMeta) (t : TierInfo) : List (Bytes × Bytes) :=
  if t.tier = .kLocal then []
  else
    [(ascii "tier", ascii (if t.tier = .kRemote then "remote" else "cached")),
     (ascii "size", Decimal.render m.size.toNat),
     (ascii "remote.etag", t.remoteEtag),
     (ascii "remote.at", t.remoteAt)]

def fieldEntries (m : ObjectMeta) : List (Bytes × Bytes) :=
  stdMetaFields.flatMap (fun f => optEntry f.storeKey (f.get m))

def checksumEntries (m : ObjectMeta) : List (Bytes × Bytes) :=
  if resolvedChecksumValue m = [] then []
  else
    [(ascii "checksum_algorithm", m.checksumAlgorithm),
      (ascii "checksum_value", resolvedChecksumValue m)] ++
      optEntry (ascii "checksum_type") m.checksumType

def partEntries (m : ObjectMeta) : List (Bytes × Bytes) :=
  if m.partSizes = [] then [] else [(ascii "part_sizes", joinPartSizes m.partSizes)]

/-- The entries of `meta_kv` before those of the user. -/
def fixedEntries (m : ObjectMeta) (t : TierInfo) : List (Bytes × Bytes) :=
  [(ascii "etag", m.etag), (ascii "content_type", m.contentType)] ++ tierEntries m t ++
    fieldEntries m ++ checksumEntries m ++ partEntries m

def userEntry (e : Bytes × Bytes) : Bytes × Bytes := (ascii "meta." ++ e.1, e.2)

/-- `meta_kv`. -/
def metaEntries (m : ObjectMeta) (t : TierInfo) : List (Bytes × Bytes) :=
  fixedEntries m t ++ m.userMeta.entries.map userEntry

/-- What `parse_meta_tsv` fills in. -/
structure MetaScan where
  objMeta : ObjectMeta := {}
  tier : TierInfo := {}
  declaredSize : UInt64 := 0

/-- `from_chars`: the digits at the start, if they are a number. -/
def leadingNumber (v : Bytes) : Option UInt64 := parsePartSize (v.takeWhile Decimal.isDigit)

def MetaScan.entry (s : MetaScan) (e : Bytes × Bytes) : MetaScan :=
  if e.1 = ascii "etag" then { s with objMeta := { s.objMeta with etag := e.2 } }
  else if e.1 = ascii "content_type" then
    { s with objMeta := { s.objMeta with contentType := e.2 } }
  else if e.1 = ascii "tier" then
    { s with tier := { s.tier with
        tier := if e.2 = ascii "remote" then .kRemote else if e.2 = ascii "cached" then .kCached
          else .kLocal } }
  else if e.1 = ascii "size" then { s with declaredSize := (leadingNumber e.2).getD s.declaredSize }
  else if e.1 = ascii "remote.etag" then { s with tier := { s.tier with remoteEtag := e.2 } }
  else if e.1 = ascii "remote.at" then { s with tier := { s.tier with remoteAt := e.2 } }
  else if e.1 = ascii "checksum_algorithm" then
    { s with objMeta := { s.objMeta with checksumAlgorithm := e.2 } }
  else if e.1 = ascii "checksum_value" then
    { s with objMeta := { s.objMeta with checksumValue := e.2 } }
  else if e.1 = ascii "checksum_type" then
    { s with objMeta := { s.objMeta with checksumType := e.2 } }
  else if e.1 = ascii "part_sizes" then
    { s with objMeta := { s.objMeta with partSizes := parsePartSizes e.2 } }
  else if (ascii "meta.").isPrefixOf e.1 then
    { s with objMeta := { s.objMeta with userMeta := s.objMeta.userMeta.insert (e.1.drop 5) e.2 } }
  else
    { s with objMeta :=
        stdMetaFields.foldl (fun m f => if e.1 = f.storeKey then f.set m e.2 else m) s.objMeta }

/-- `parse_meta_tsv`. -/
def parseMetaTsv (text : Bytes) : MetaScan := (read text).foldl MetaScan.entry {}

/-! ## What is read back -/

/-- The texts of an object that stay on their lines. -/
structure OneLineTexts (m : ObjectMeta) : Prop where
  contentType : OneLine m.contentType
  std : ∀ f ∈ stdMetaFields, OneLine (f.get m)
  user : ∀ e ∈ m.userMeta.entries, OneLine e.1 ∧ OneLine e.2

/-- The values that are not taken from headers stay on their lines, and an object without a remote
copy has no remote texts. -/
structure PlainValues (m : ObjectMeta) (t : TierInfo) : Prop where
  etag : OneLine m.etag
  algorithm : OneLine m.checksumAlgorithm
  value : OneLine (resolvedChecksumValue m)
  type : OneLine m.checksumType
  remoteEtag : OneLine t.remoteEtag
  remoteAt : OneLine t.remoteAt
  home : t.tier = .kLocal → t = {}

theorem oneLine_render (n : Nat) : OneLine (Decimal.render n) := fun h =>
  absurd (Decimal.isDigit_of_mem_render h) (by decide)

theorem oneLine_joinPartSizes (sizes : List UInt64) : OneLine (joinPartSizes sizes) := by
  rw [joinPartSizes_eq]
  induction sizes.map UInt64.toNat with
  | nil => exact List.not_mem_nil
  | cons n ns ih =>
      cases ns with
      | nil => exact oneLine_render n
      | cons k ns =>
          have hjoin : Decimal.join 44 (n :: k :: ns) = Decimal.render n ++
            44 :: Decimal.join 44 (k :: ns) := rfl
          simp [OneLine, hjoin, oneLine_render n, ih]

/-- An entry that is read back as it is. -/
def PlainEntry (e : Bytes × Bytes) : Prop := 9 ∉ e.1 ∧ OneLine e.1 ∧ OneLine e.2

theorem PlainEntry.named {k v : Bytes} (hk : 9 ∉ k ∧ OneLine k) (hv : OneLine v) :
    PlainEntry (k, v) :=
  ⟨hk.1, hk.2, hv⟩

theorem plain_optEntry {k v : Bytes} (hk : 9 ∉ k ∧ OneLine k) (hv : OneLine v) :
    ∀ e ∈ optEntry k v, PlainEntry e := by
  intro e he
  unfold optEntry at he
  split_ifs at he
  · simp at he
  · rw [List.mem_singleton.mp he]
    exact .named hk hv

theorem stdMetaFields_names : ∀ f ∈ stdMetaFields, 9 ∉ f.storeKey ∧ OneLine f.storeKey := by
  simp only [stdMetaFields, List.forall_mem_cons, List.not_mem_nil, false_implies,
    implies_true, and_true]
  decide

variable {m : ObjectMeta}

theorem plain_fixedEntries {t : TierInfo} (hm : OneLineTexts m) (hv : PlainValues m t) :
    ∀ e ∈ fixedEntries m t, PlainEntry e := by
  have hword : OneLine (ascii (if t.tier = .kRemote then "remote" else "cached")) := by
    split_ifs <;> decide
  have hfields : ∀ e ∈ fieldEntries m, PlainEntry e := by
    intro e he
    obtain ⟨f, hf, he⟩ := List.mem_flatMap.mp he
    exact plain_optEntry (stdMetaFields_names f hf) (hm.std f hf) e he
  have hif (c : Prop) [Decidable c] {es : List (Bytes × Bytes)} (hes : ∀ e ∈ es, PlainEntry e) :
      ∀ e ∈ if c then [] else es, PlainEntry e := by
    split_ifs
    · simp
    · exact hes
  unfold fixedEntries tierEntries checksumEntries partEntries
  simp only [List.forall_mem_append]
  refine ⟨⟨⟨⟨?_, hif _ ?_⟩, hfields⟩, hif _ ?_⟩, hif _ ?_⟩ <;>
    simp only [List.forall_mem_append, List.forall_mem_cons, List.not_mem_nil, false_implies,
      implies_true, and_true]
  · exact ⟨.named (by decide) hv.etag, .named (by decide) hm.contentType⟩
  · exact ⟨.named (by decide) hword, .named (by decide) (oneLine_render _),
      .named (by decide) hv.remoteEtag, .named (by decide) hv.remoteAt⟩
  · exact ⟨⟨.named (by decide) hv.algorithm, .named (by decide) hv.value⟩,
      plain_optEntry (by decide) hv.type⟩
  · exact .named (by decide) (oneLine_joinPartSizes _)

theorem read_metaEntries {t : TierInfo} (hm : OneLineTexts m) (hv : PlainValues m t) :
    read (write (metaEntries m t)) = fixedEntries m t ++
    (m.userMeta.entries.map tear).map userEntry := by
  have hfixed := plain_fixedEntries hm hv
  have htear : (fixedEntries m t).map tear = fixedEntries m t :=
    (List.map_congr_left fun e he => tear_eq_self (hfixed e he).1).trans (List.map_id _)
  have huser (e : Bytes × Bytes) : tear (userEntry e) = userEntry (tear e) :=
    tear_append (by decide) e
  rw [read_write, metaEntries, List.map_append, htear, List.map_map, List.map_map]
  · exact congrArg _ (List.map_congr_left fun e _ => huser e)
  · intro e he
    rcases List.mem_append.mp he with he | he
    · exact (hfixed e he).2
    · obtain ⟨u, hu, rfl⟩ := List.mem_map.mp he
      obtain ⟨hname, hvalue⟩ := hm.user u hu
      have hmeta : OneLine (ascii "meta.") := by decide
      exact ⟨fun h => (List.mem_append.mp h).elim hmeta hname, hvalue⟩

/-! ## What the entries say -/

theorem MetaScan.entry_std (s : MetaScan) {k : Bytes} (hk : k ∈ stdMetaFields.map (·.storeKey))
    (v : Bytes) : s.entry (k, v) = { s with objMeta := applyStdEntry s.objMeta (k, v) } := by
  simp only [stdMetaFields, List.map_cons, List.map_nil, List.mem_cons, List.not_mem_nil, or_false]
    at hk
  rcases hk with rfl | rfl | rfl | rfl | rfl | rfl | rfl <;> rfl

theorem MetaScan.foldl_std (s : MetaScan) {es : List (Bytes × Bytes)}
    (h : ∀ e ∈ es, e.1 ∈ stdMetaFields.map (·.storeKey)) :
    es.foldl MetaScan.entry s = { s with objMeta := es.foldl applyStdEntry s.objMeta } := by
  induction es generalizing s with
  | nil => rfl
  | cons e es ih =>
      obtain ⟨he, h⟩ := List.forall_mem_cons.mp h
      rw [List.foldl_cons, entry_std s he, ih _ h, List.foldl_cons]

theorem MetaScan.foldl_user (s : MetaScan) (es : List (Bytes × Bytes)) :
    (es.map userEntry).foldl MetaScan.entry s =
      { s with objMeta := { s.objMeta with userMeta := s.objMeta.userMeta.insertAll es } } := by
  induction es generalizing s with
  | nil => rfl
  | cons e es ih =>
      have hstep : s.entry (userEntry e) =
          { s with
            objMeta := { s.objMeta with userMeta := s.objMeta.userMeta.insert e.1 e.2 } } := by
        simp [MetaScan.entry, userEntry, ascii]
      rw [List.map_cons, List.foldl_cons, hstep, ih]
      rfl

theorem leadingNumber_render (n : UInt64) : leadingNumber (Decimal.render n.toNat) = some n := by
  have hdigits : (Decimal.render n.toNat).takeWhile Decimal.isDigit = Decimal.render n.toNat :=
    List.takeWhile_eq_self_iff.mpr fun c hc => Decimal.isDigit_of_mem_render hc
  rw [leadingNumber, hdigits, parsePartSize_render]

theorem MetaScan.foldl_tier (s : MetaScan) (m : ObjectMeta) (t : TierInfo) :
    (tierEntries m t).foldl MetaScan.entry s =
      if t.tier = .kLocal then s else { s with tier := t, declaredSize := m.size } := by
  obtain ⟨tier, remoteEtag, remoteAt⟩ := t
  have hsize (s : MetaScan) : s.entry (ascii "size", Decimal.render m.size.toNat) =
      { s with declaredSize := m.size } := by
    have hentry : s.entry (ascii "size", Decimal.render m.size.toNat) =
        { s with
          declaredSize := (leadingNumber (Decimal.render m.size.toNat)).getD s.declaredSize } := rfl
    rw [hentry, leadingNumber_render, Option.getD_some]
  cases tier with
  | kLocal => rfl
  | kRemote =>
      simp only [tierEntries, List.foldl_cons, List.foldl_nil, hsize, reduceCtorEq,
        if_false, if_true]
      rfl
  | kCached =>
      simp only [tierEntries, List.foldl_cons, List.foldl_nil, hsize, reduceCtorEq, if_false]
      rfl

theorem MetaScan.foldl_fields (s : MetaScan) (m : ObjectMeta)
    (hs : ∀ f ∈ stdMetaFields, f.get s.objMeta = []) : (fieldEntries m).foldl MetaScan.entry s =
      { s with objMeta := stdMetaFields.foldl (fun b f => f.set b (f.get m)) s.objMeta } := by
  rw [foldl_std, fieldEntries,
    foldl_fieldEntries m stdMetaFields_lawful stdMetaFields_independent s.objMeta hs]
  intro e he
  obtain ⟨f, hf, he⟩ := List.mem_flatMap.mp he
  unfold optEntry at he
  split_ifs at he
  · simp at he
  · rw [List.mem_singleton.mp he]
    exact List.mem_map_of_mem hf

/-- A checksum without a value is not written. -/
theorem MetaScan.foldl_checksum (s : MetaScan) (m : ObjectMeta) (hs : s.objMeta.checksumType = []) :
    (checksumEntries m).foldl MetaScan.entry s =
      if resolvedChecksumValue m = [] then s
      else { s with objMeta := { s.objMeta with
        checksumAlgorithm := m.checksumAlgorithm
        checksumValue := resolvedChecksumValue m
        checksumType := m.checksumType } } := by
  unfold checksumEntries optEntry
  split_ifs with hempty hnone
  · rfl
  · rw [hnone, ← hs]
    rfl
  · rfl

theorem MetaScan.foldl_parts (s : MetaScan) (m : ObjectMeta) (hs : s.objMeta.partSizes = []) :
    (partEntries m).foldl MetaScan.entry s =
      { s with objMeta := { s.objMeta with partSizes := m.partSizes } } := by
  unfold partEntries
  split_ifs with hempty
  · rw [hempty, ← hs]
    rfl
  · have hentry : s.entry (ascii "part_sizes", joinPartSizes m.partSizes) =
        { s with objMeta := { s.objMeta with
          partSizes := parsePartSizes (joinPartSizes m.partSizes) } } := rfl
    rw [List.foldl_cons, List.foldl_nil, hentry, parsePartSizes_join]

theorem foldl_fixedEntries (m : ObjectMeta) (t : TierInfo) :
    (fixedEntries m t).foldl MetaScan.entry {} =
      { objMeta := { (metaKv m t).objMeta with size := 0, userMeta := SortedMap.empty }
        tier := (metaKv m t).tier
        declaredSize := if t.tier = .kLocal then 0 else m.size } := by
  have hrest (tier : TierInfo) (size : UInt64) :
      (partEntries m).foldl MetaScan.entry ((checksumEntries m).foldl MetaScan.entry
        ((fieldEntries m).foldl MetaScan.entry
          ⟨{ etag := m.etag, contentType := m.contentType }, tier, size⟩)) =
      ⟨{ (metaKv m t).objMeta with size := 0, userMeta := SortedMap.empty }, tier, size⟩ := by
    rw [MetaScan.foldl_fields, MetaScan.foldl_checksum, MetaScan.foldl_parts]
    · unfold metaKv
      by_cases hvalue : resolvedChecksumValue m = []
      · simp only [hvalue, if_true]
        rfl
      · simp only [hvalue, if_false]
        rfl
    · split_ifs <;> rfl
    · rfl
    · simp [stdMetaFields]
  have htier :=
    MetaScan.foldl_tier { objMeta := { etag := m.etag, contentType := m.contentType } } m t
  have hhead : [(ascii "etag", m.etag), (ascii "content_type", m.contentType)].foldl MetaScan.entry
      {} = { objMeta := { etag := m.etag, contentType := m.contentType } } := rfl
  simp only [fixedEntries, List.foldl_append, hhead, htier]
  by_cases hlocal : t.tier = .kLocal
  · simp only [hlocal, if_true, hrest]
    simp only [metaKv, hlocal, if_true]
  · simp only [hlocal, if_false, hrest]
    simp only [metaKv, hlocal, if_false]

/-- What is found in the text of an object: the record that the file system keeps, with torn names.
-/
theorem parse_metaEntries {t : TierInfo} (hm : OneLineTexts m) (hv : PlainValues m t) :
    parseMetaTsv (write (metaEntries m t)) =
      { objMeta := { (metaKv m t).objMeta with
          size := 0
          userMeta := SortedMap.empty.insertAll (m.userMeta.entries.map tear) }
        tier := (metaKv m t).tier
        declaredSize := if t.tier = .kLocal then 0 else m.size } := by
  rw [parseMetaTsv, read_metaEntries hm hv, List.foldl_append, foldl_fixedEntries,
    MetaScan.foldl_user]

/-! ## Where the texts come from -/

/-- `HeaderMap::find`. -/
def headerFind (headers : HeaderMap) (name : String) : Option Bytes :=
  (headers.find? (fun e => ieq e.1 (ascii name))).map (·.2)

/-- The headers of `kStdMetaFields`, in table order. -/
def stdMetaHeaders : List String :=
  ["Cache-Control", "Content-Disposition", "Content-Encoding", "Content-Language", "Expires",
   "x-amz-website-redirect-location", "x-amz-tagging"]

def rejectControlChars (name : String) (v : Bytes) : Except S3Error Unit :=
  if 10 ∈ v ∨ 13 ∈ v then
    .error ⟨.InvalidArgument, "Header '" ++ name ++ "' must not contain line breaks.", []⟩
  else .ok ()

def invalidTags (why : String) : Except S3Error (List (Bytes × Bytes)) :=
  .error ⟨.InvalidArgument, "Invalid tag set: " ++ why, []⟩

def addTag (out : List (Bytes × Bytes)) (item : Bytes) : Except S3Error (List (Bytes × Bytes)) :=
  let k := percentDecode (item.takeWhile (· ≠ 61))
  let v := percentDecode (item.dropWhile (· ≠ 61)).tail
  if item = [] then invalidTags "empty tag entry"
  else if k = [] ∨ 128 < k.length then invalidTags "tag keys must be 1-128 characters"
  else if 256 < v.length then invalidTags "tag values must be at most 256 characters"
  else if out.any (·.1 = k) then invalidTags ("duplicate tag key '" ++ shown k ++ "'")
  else if 10 ≤ out.length then invalidTags "an object may carry at most 10 tags"
  else .ok (out ++ [(k, v)])

/-- `parse_tagging`; nothing has to follow the last separator. -/
def parseTagging (s : Bytes) : Except S3Error (List (Bytes × Bytes)) :=
  let items := s.splitOn 38
  (if items.getLast? = some [] then items.dropLast else items).foldlM addTag []

def encodeTagging (tags : List (Bytes × Bytes)) : Bytes :=
  tags.foldl (fun out e =>
    (if out ≠ [] then out ++ [38] else out) ++ awsUriEncode e.1 ++ [61] ++ awsUriEncode e.2) []

def setStdField (headers : HeaderMap) (m : ObjectMeta) (f : StdMetaField × String) :
    Except S3Error ObjectMeta :=
  match headerFind headers f.2 with
  | none => .ok m
  | some v => do
      rejectControlChars f.2 v
      return f.1.set m v

def addUserMeta (m : ObjectMeta) (e : Bytes × Bytes) : Except S3Error ObjectMeta :=
  if (ascii "x-amz-meta-").isPrefixOf (e.1.map lowerLetter) then do
    rejectControlChars (shown e.1) e.2
    return { m with userMeta := m.userMeta.insert ((e.1.map lowerLetter).drop 11) e.2 }
  else .ok m

def userMetaLength (m : ObjectMeta) : Nat :=
  (m.userMeta.entries.map (fun e => e.1.length + e.2.length)).sum

/-- `meta_from_headers`. -/
def metaFromHeaders (headers : HeaderMap) (maxUserMeta : Nat) : Except S3Error ObjectMeta := do
  let m : ObjectMeta := match headerFind headers "Content-Type" with
    | some v => { contentType := v }
    | none => {}
  let m ← (stdMetaFields.zip stdMetaHeaders).foldlM (setStdField headers) m
  let m ← headers.foldlM addUserMeta m
  if 0 < maxUserMeta ∧ maxUserMeta < userMetaLength m then
    .error ⟨.MetadataTooLarge,
      s!"Your metadata headers exceed the maximum allowed metadata size of {maxUserMeta} bytes ({userMetaLength m} sent).",
      []⟩
  else if m.websiteRedirect ≠ [] ∧ m.websiteRedirect.head? ≠ some 47 ∧
      ¬ ascii "http://" <+: m.websiteRedirect ∧ ¬ ascii "https://" <+: m.websiteRedirect then
    .error ⟨.InvalidArgument,
      "x-amz-website-redirect-location must start with '/', 'http://' or 'https://'.", []⟩
  else if m.tagging = [] then .ok m
  else do
    let tags ← parseTagging m.tagging
    return { m with tagging := encodeTagging tags }

theorem oneLineTexts_typed {v : Bytes} (hv : OneLine v) : OneLineTexts { contentType := v } := by
  have hnil : ∀ f ∈ stdMetaFields, f.get { contentType := v } = [] := by
    simp [stdMetaFields]
  exact ⟨hv, fun f hf => (hnil f hf).symm ▸ List.not_mem_nil,
    fun e he => absurd he List.not_mem_nil⟩

theorem OneLineTexts.set (h : OneLineTexts m) {f : StdMetaField} (hf : f ∈ stdMetaFields)
    {v : Bytes} (hv : OneLine v) : OneLineTexts (f.set m v) := by
  have hget : ∀ f ∈ stdMetaFields, (f.set m v).contentType = m.contentType ∧
      (f.set m v).userMeta = m.userMeta ∧
      ∀ g ∈ stdMetaFields, g.get (f.set m v) = v ∨ g.get (f.set m v) = g.get m := by
    simp [stdMetaFields]
  obtain ⟨hct, huser, hstd⟩ := hget f hf
  refine ⟨by rw [hct]; exact h.contentType, fun g hg => ?_, by rw [huser]; exact h.user⟩
  rcases hstd g hg with heq | heq
  · rwa [heq]
  · rw [heq]
    exact h.std g hg

theorem OneLineTexts.insert (h : OneLineTexts m) {k v : Bytes} (hk : OneLine k) (hv : OneLine v) :
    OneLineTexts { m with userMeta := m.userMeta.insert k v } := by
  have hget : ∀ f ∈ stdMetaFields, f.get { m with userMeta := m.userMeta.insert k v } =
      f.get m := by
    simp [stdMetaFields]
  refine ⟨h.contentType, fun f hf => (hget f hf).symm ▸ h.std f hf, fun e he => ?_⟩
  rcases SortedMap.get?_insert_cases (SortedMap.mem_entries.mp he) with ⟨hname, hvalue⟩ | ⟨-, hget⟩
  · rw [hname, hvalue]
    exact ⟨hk, hv⟩
  · exact h.user e (SortedMap.mem_entries.mpr hget)

theorem oneLine_awsUriEncode (s : Bytes) : OneLine (awsUriEncode s) := by
  have hall : ∀ n < 256, OneLine (awsUriEncode [UInt8.ofNat n]) := by decide +kernel
  intro h
  obtain ⟨c, -, hc⟩ := List.mem_flatMap.mp h
  have hone := hall c.toNat c.toNat_lt
  rw [UInt8.ofNat_toNat] at hone
  exact hone (List.mem_flatMap.mpr ⟨c, List.mem_singleton.mpr rfl, hc⟩)

theorem oneLine_encodeTagging (tags : List (Bytes × Bytes)) : OneLine (encodeTagging tags) := by
  unfold encodeTagging
  refine List.foldlRecOn tags _ List.not_mem_nil fun out hout e _ => ?_
  have hk := oneLine_awsUriEncode e.1
  have hv := oneLine_awsUriEncode e.2
  split_ifs <;> simp_all [OneLine]

theorem oneLine_lower {s : Bytes} (h : OneLine s) : OneLine (s.map lowerLetter) := by
  intro hmem
  obtain ⟨c, hc, hlower⟩ := List.mem_map.mp hmem
  have hall : ∀ n < 256, lowerLetter (UInt8.ofNat n) = 10 → UInt8.ofNat n = 10 := by decide +kernel
  have hten := hall c.toNat c.toNat_lt
  rw [UInt8.ofNat_toNat] at hten
  exact h (hten hlower ▸ hc)

theorem metaFromHeaders_texts {headers : HeaderMap} {maxUserMeta : Nat}
    (hheaders : ∀ e ∈ headers, OneLine e.1 ∧ OneLine e.2)
    (h : metaFromHeaders headers maxUserMeta = .ok m) : OneLineTexts m := by
  have hfind {name : String} {v : Bytes} (hv : headerFind headers name = some v) : OneLine v := by
    obtain ⟨e, he, rfl⟩ := Option.map_eq_some_iff.mp hv
    exact (hheaders e (List.mem_of_find?_eq_some he)).2
  obtain ⟨m₁, hfields, h⟩ := of_bind_ok h
  obtain ⟨m₂, huser, h⟩ := of_bind_ok h
  have hstart : OneLineTexts (match headerFind headers "Content-Type" with
      | some v => { contentType := v }
      | none => {}) := by
    split
    · next v hv => exact oneLineTexts_typed (hfind hv)
    · exact oneLineTexts_typed (by decide)
  have h₁ : OneLineTexts m₁ := by
    refine foldlM_ok_invariant (P := OneLineTexts) (fun m f hf m' hm hstep => ?_) hstart hfields
    unfold setStdField at hstep
    split at hstep
    · cases hstep
      exact hm
    · next v hv =>
        obtain ⟨u, -, hstep⟩ := of_bind_ok hstep
        cases hstep
        exact hm.set (List.of_mem_zip hf).1 (hfind hv)
  have h₂ : OneLineTexts m₂ := by
    refine foldlM_ok_invariant (P := OneLineTexts) (fun m e he m' hm hstep => ?_) h₁ huser
    unfold addUserMeta at hstep
    split_ifs at hstep
    · obtain ⟨u, -, hstep⟩ := of_bind_ok hstep
      cases hstep
      obtain ⟨hname, hvalue⟩ := hheaders e he
      exact hm.insert (fun h => oneLine_lower hname (List.mem_of_mem_drop h)) hvalue
    · cases hstep
      exact hm
  by_cases hsize : 0 < maxUserMeta ∧ maxUserMeta < userMetaLength m₂
  · rw [if_pos hsize] at h
    cases h
  rw [if_neg hsize] at h
  split_ifs at h with hredirect htags
  · cases h
    exact h₂
  · obtain ⟨tags, -, h⟩ := of_bind_ok h
    cases h
    have htagging :
      (⟨ascii "tagging", (·.tagging), fun m v => { m with tagging := v }⟩ : StdMetaField) ∈
        stdMetaFields := by
      simp [stdMetaFields]
    exact h₂.set htagging (oneLine_encodeTagging tags)

/-! ## The lines of a request -/

theorem oneLine_fieldOf {line : Bytes} (hline : OneLine line) :
    OneLine (fieldOf line).1 ∧ OneLine (fieldOf line).2 := by
  refine ⟨fun h => hline ((List.takeWhile_sublist _).subset h), fun h => hline ?_⟩
  have hvalue := (List.rdropWhile_prefix _ _).subset h
  exact (List.dropWhile_sublist _).subset
    (List.mem_of_mem_tail ((List.dropWhile_sublist _).subset hvalue))

theorem readHead_oneLine {cfg : HttpConfig} {r r' : ConnReader} {x : ReadHead}
    (h : readHead cfg r = .ok (x, r')) : ∀ e ∈ x.head.headers, OneLine e.1 ∧ OneLine e.2 := by
  obtain ⟨hheaders, hlines, -⟩ := readHead_lines h
  rw [hheaders]
  intro e he
  obtain ⟨line, hline, rfl⟩ := List.mem_map.mp he
  exact oneLine_fieldOf (hlines line hline).oneLine

/-! ## The manifest of an upload -/

/-- What `create_multipart` writes. -/
def manifestEntries (bucket key : Bytes) (m : ObjectMeta) : List (Bytes × Bytes) :=
  [(ascii "bucket", bucket), (ascii "key", key), (ascii "content_type", m.contentType)] ++
    optEntry (ascii "checksum_algorithm") m.checksumAlgorithm ++ fieldEntries m ++
    m.userMeta.entries.map userEntry

structure ManifestScan where
  bucket : Bytes := []
  key : Bytes := []
  objMeta : ObjectMeta := {}

def ManifestScan.entry (s : ManifestScan) (e : Bytes × Bytes) : ManifestScan :=
  if e.1 = ascii "bucket" then { s with bucket := e.2 }
  else if e.1 = ascii "key" then { s with key := e.2 }
  else if e.1 = ascii "content_type" then
    { s with objMeta := { s.objMeta with contentType := e.2 } }
  else if e.1 = ascii "checksum_algorithm" then
    { s with objMeta := { s.objMeta with checksumAlgorithm := e.2 } }
  else if (ascii "meta.").isPrefixOf e.1 then
    { s with objMeta := { s.objMeta with userMeta := s.objMeta.userMeta.insert (e.1.drop 5) e.2 } }
  else
    { s with objMeta :=
        stdMetaFields.foldl (fun m f => if e.1 = f.storeKey then f.set m e.2 else m) s.objMeta }

/-- `require_upload`, for the text of the manifest. -/
def uploadMeta (bucket key uploadId text : Bytes) : Except S3Error ObjectMeta :=
  let s := (read text).foldl ManifestScan.entry {}
  if read text = [] ∨ s.bucket ≠ bucket ∨ s.key ≠ key then
    .error ⟨.NoSuchUpload, "The specified multipart upload does not exist.", uploadId⟩
  else .ok s.objMeta

theorem ManifestScan.entry_texts {s : ManifestScan} (h : OneLineTexts s.objMeta) {e : Bytes × Bytes}
    (he : OneLine e.1 ∧ OneLine e.2) : OneLineTexts (s.entry e).objMeta := by
  have hchanged (m : ObjectMeta) (hct : OneLine m.contentType)
      (huser : m.userMeta = s.objMeta.userMeta)
      (hstd : ∀ f ∈ stdMetaFields, f.get m = f.get s.objMeta) : OneLineTexts m :=
    ⟨hct, fun f hf => (hstd f hf).symm ▸ h.std f hf, huser.symm ▸ h.user⟩
  unfold ManifestScan.entry
  split_ifs
  · exact h
  · exact h
  · exact hchanged _ he.2 rfl (by simp [stdMetaFields])
  · exact hchanged _ h.contentType rfl (by simp [stdMetaFields])
  · exact h.insert (fun hmem => he.1 (List.mem_of_mem_drop hmem)) he.2
  · dsimp only
    refine List.foldlRecOn (motive := OneLineTexts) stdMetaFields _ h fun m hm f hf => ?_
    split_ifs
    · exact hm.set hf he.2
    · exact hm

theorem uploadMeta_texts {bucket key uploadId text : Bytes}
    (h : uploadMeta bucket key uploadId text = .ok m) : OneLineTexts m := by
  unfold uploadMeta at h
  dsimp only at h
  split_ifs at h
  cases h
  refine List.foldlRecOn (motive := fun s => OneLineTexts (ManifestScan.objMeta s)) (read text) _
    (oneLineTexts_typed (by decide)) fun s hs e he => ?_
  exact ManifestScan.entry_texts hs (oneLine_of_mem_read he)

/-! ## Round trips -/

/-- The texts that an object has from headers. -/
def SameTexts (m m' : ObjectMeta) : Prop :=
  m.contentType = m'.contentType ∧ m.userMeta = m'.userMeta ∧ ∀ f ∈ stdMetaFields,
    f.get m = f.get m'

/-- The object was put by a request that the server and `meta_from_headers` accept, or it completes
an upload that such a request created. -/
inductive FromRequest (m : ObjectMeta) : Prop where
  | put {cfg : HttpConfig} {r r' : ConnReader} {x : ReadHead} {maxUserMeta : Nat} {m₀ : ObjectMeta}
      (hread : readHead cfg r = .ok (x, r'))
      (hmeta : metaFromHeaders x.head.headers maxUserMeta = .ok m₀) (hsame : SameTexts m m₀)
  | complete {cfg : HttpConfig} {r r' : ConnReader} {x : ReadHead} {maxUserMeta : Nat}
      {m₀ up : ObjectMeta} {bucket key bucket' key' uploadId algorithm : Bytes}
      (hread : readHead cfg r = .ok (x, r'))
      (hmeta : metaFromHeaders x.head.headers maxUserMeta = .ok m₀)
      (hup : uploadMeta bucket key uploadId
        (write (manifestEntries bucket' key' { m₀ with checksumAlgorithm := algorithm })) = .ok up)
      (hsame : SameTexts m up)

/-- What is read back is what was written. -/
structure RoundTrip (m : ObjectMeta) (t : TierInfo) (s : MetaScan) : Prop where
  etag : s.objMeta.etag = m.etag
  texts : SameTexts s.objMeta m
  algorithm : s.objMeta.checksumAlgorithm = m.checksumAlgorithm
  value : s.objMeta.checksumValue = resolvedChecksumValue m
  type : s.objMeta.checksumType = m.checksumType
  partSizes : s.objMeta.partSizes = m.partSizes
  tier : s.tier = t

theorem FromRequest.oneLine (h : FromRequest m) : OneLineTexts m := by
  have hsame {m₀ : ObjectMeta} (h₀ : OneLineTexts m₀) (hm : SameTexts m m₀) : OneLineTexts m := by
    obtain ⟨hct, huser, hstd⟩ := hm
    exact ⟨hct ▸ h₀.contentType, fun f hf => hstd f hf ▸ h₀.std f hf, huser ▸ h₀.user⟩
  cases h with
  | put hread hmeta hm => exact hsame (metaFromHeaders_texts (readHead_oneLine hread) hmeta) hm
  | complete hread hmeta hup hm => exact hsame (uploadMeta_texts hup) hm

theorem insertAll_tear_eq_self {um : SortedMap Bytes Bytes} :
    SortedMap.empty.insertAll (um.entries.map tear) = um ↔ ∀ k ∈ um.keys, 9 ∉ k := by
  constructor
  · intro heq k hk
    obtain ⟨v, hget⟩ := SortedMap.mem_keys.mp hk
    rw [← heq] at hget
    rcases SortedMap.mem_of_get?_insertAll hget with hmem | hmem
    · obtain ⟨e, -, he⟩ := List.mem_map.mp hmem
      have hcut := not_mem_tear_fst e
      rwa [he] at hcut
    · simp at hmem
  · intro hkeys
    have hself : um.entries.map tear = um.entries :=
      (List.map_congr_left fun e he => tear_eq_self (hkeys e.1 (List.mem_map_of_mem he))).trans
        (List.map_id _)
    rw [hself, SortedMap.insertAll_empty]

/-- An object comes back from its text exactly if no name of a user entry has a tab and no checksum
algorithm is without a value. Whatever the user entries are, the rest of what is read does not
depend on them. -/
theorem meta_text_round_trip {m : ObjectMeta} {t : TierInfo} (hm : FromRequest m)
    (hv : PlainValues m t) : (RoundTrip m t (parseMetaTsv (write (metaEntries m t))) ↔
      (∀ k ∈ m.userMeta.keys, 9 ∉ k) ∧
        (resolvedChecksumValue m = [] → m.checksumAlgorithm = [] ∧ m.checksumType = [])) ∧
    ∃ um, parseMetaTsv (write (metaEntries m t)) =
      let s := parseMetaTsv (write (metaEntries { m with userMeta := SortedMap.empty } t))
      { s with objMeta := { s.objMeta with userMeta := um } } := by
  have hone := hm.oneLine
  have hparse := parse_metaEntries hone hv
  have hstd : ∀ f ∈ stdMetaFields, f.get { m with userMeta := SortedMap.empty } = f.get m := by
    simp [stdMetaFields]
  have hbare : OneLineTexts { m with userMeta := SortedMap.empty } :=
    ⟨hone.contentType, fun f hf => (hstd f hf).symm ▸ hone.std f hf,
      fun e he => absurd he List.not_mem_nil⟩
  have hbareValues : PlainValues { m with userMeta := SortedMap.empty } t := { hv with }
  refine ⟨⟨fun h => ⟨?_, fun hvalue => ?_⟩, fun hplain => ?_⟩,
    SortedMap.empty.insertAll (m.userMeta.entries.map tear), ?_⟩
  · have huser := h.texts.2.1
    rw [hparse] at huser
    exact insertAll_tear_eq_self.mp huser
  · have halgorithm := h.algorithm
    have htype := h.type
    rw [hparse] at halgorithm htype
    simp only [metaKv, hvalue, if_true] at halgorithm htype
    exact ⟨halgorithm.symm, htype.symm⟩
  · obtain ⟨hkeys, hsum⟩ := hplain
    have htier : (metaKv m t).tier = t := by
      unfold metaKv
      split_ifs with hlocal
      · exact (hv.home hlocal).symm
      · rfl
    have hkept : (metaKv m t).objMeta.checksumAlgorithm = m.checksumAlgorithm ∧
        (metaKv m t).objMeta.checksumType = m.checksumType := by
      by_cases hvalue : resolvedChecksumValue m = []
      · simp [metaKv, hvalue, hsum hvalue]
      · simp [metaKv, hvalue]
    rw [hparse]
    refine ⟨rfl, ⟨rfl, insertAll_tear_eq_self.mpr hkeys, ?_⟩, hkept.1, rfl, hkept.2, rfl, htier⟩
    simp [stdMetaFields, metaKv]
  · rw [hparse, parse_metaEntries hbare hbareValues]
    rfl

/-- A request with this header. -/
def putRequest (header : String) : ConnReader where
  incoming := [ascii "PUT /b/k HTTP/1.1\r\n", ascii header, ascii "\r\n\r\n"]

/-- An object with one user entry. -/
def userMetaObject (name value : String) : ObjectMeta where
  userMeta := SortedMap.empty.insert (ascii name) (ascii value)

theorem meta_text_round_trip_color :
    RoundTrip (userMetaObject "color" "dark\tred") {}
      (parseMetaTsv (write (metaEntries (userMetaObject "color" "dark\tred") {}))) := by
  have hm : FromRequest (userMetaObject "color" "dark\tred") :=
    .put (rfl : readHead {} (putRequest "x-amz-meta-Color: dark\tred") = .ok (_, _))
      (rfl : metaFromHeaders _ 2048 = .ok (userMetaObject "color" "dark\tred"))
      ⟨rfl, rfl, fun _ _ => rfl⟩
  have hv : PlainValues (userMetaObject "color" "dark\tred") {} :=
    ⟨by decide, by decide, by decide, by decide, by decide, by decide, fun _ => rfl⟩
  exact (meta_text_round_trip hm hv).1.mpr ⟨by decide, fun _ => ⟨rfl, rfl⟩⟩

/-- A tab in the name of a header comes through, and the entry is read back under another name. -/
theorem user_meta_torn :
    FromRequest (userMetaObject "a\tb" "v") ∧ PlainValues (userMetaObject "a\tb" "v") {} ∧
      ¬ RoundTrip (userMetaObject "a\tb" "v") {}
        (parseMetaTsv (write (metaEntries (userMetaObject "a\tb" "v") {}))) ∧
      (parseMetaTsv (write (metaEntries (userMetaObject "a\tb" "v") {}))).objMeta.userMeta =
        (userMetaObject "a" "b\tv").userMeta := by
  have hread :
      (parseMetaTsv (write (metaEntries (userMetaObject "a\tb" "v") {}))).objMeta.userMeta =
      (userMetaObject "a" "b\tv").userMeta := by decide
  refine ⟨.put (rfl : readHead {} (putRequest "x-amz-meta-a\tb: v") = .ok (_, _))
    (rfl : metaFromHeaders _ 2048 = .ok (userMetaObject "a\tb" "v")) ⟨rfl, rfl, fun _ _ => rfl⟩,
    ⟨by decide, by decide, by decide, by decide, by decide, by decide, fun _ => rfl⟩,
    fun h => ?_, hread⟩
  have huser := h.texts.2.1
  rw [hread] at huser
  exact absurd huser (by decide)

end Lights3
