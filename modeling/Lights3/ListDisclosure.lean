import Lights3.ListObjects

/-!
# What a filtered listing discloses

A policy with prefixes is applied to a page after the backend has cut it off, and the cursor of the
page stays the last key that the backend went through. So the entries of an answer are confined to
the policy, and the answer as a whole is confined exactly if the page is not cut off at a key
outside. A request whose own prefix is below an allowed one sees the allowed keys only: it answers
the same for all buckets that agree on those.
-/
namespace Lights3
open ByteString Grouping SignedQuery

/-! ## Names in an answer -/

namespace ListBucketResult

/-- How a client reads a name of the answer. -/
def dec (page : ListBucketResult) (s : Bytes) : Bytes :=
  if page.encodingUrl then percentDecode s else s

def groupNames (page : ListBucketResult) : List Bytes := page.commonPrefixes.map page.dec

/-- The keys and group names of an answer: its entries and its cursor. -/
def names (page : ListBucketResult) : List Bytes :=
  (page.contents.map (fun o => page.dec o.key) ++ page.groupNames ++
    page.nextMarker.toList.map page.dec ++
    page.nextContinuationToken.toList.filterMap base64Decode).filter (· ≠ [])

end ListBucketResult

/-- What the client has sent: the values of its query and the key in its token. -/
def suppliedNames (req : HttpRequest) : List Bytes :=
  req.query.map (·.2) ++ (req.queryGet (ascii "continuation-token")).toList.filterMap base64Decode

/-- A name that may be in the answer. -/
def Disclosable (policy : CredentialPolicy) (req : HttpRequest) (page : ListBucketResult)
    (name : Bytes) : Prop :=
  name ∈ suppliedNames req ∨ policy.allowsKey name = true ∨
    name ∈ page.groupNames ∧ ∃ pre ∈ policy.prefixes, name <+: pre

instance (policy : CredentialPolicy) (req : HttpRequest) (page : ListBucketResult) (name : Bytes) :
    Decidable (Disclosable policy req page name) := inferInstanceAs (Decidable (_ ∨ _ ∨ _))

def ListingConfined (policy : CredentialPolicy) (req : HttpRequest)
    (page : ListBucketResult) : Prop :=
  ∀ name ∈ page.names, Disclosable policy req page name

theorem percentDecode_awsUriEncodePath (s : Bytes) : percentDecode (awsUriEncodePath s) = s := by
  have hk : Unambiguous fun c => unreserved c || c = 47 := by
    intro c hc
    refine ⟨?_, ?_, ?_⟩ <;> rintro rfl <;> simp [unreserved] at hc
  have hdef : awsUriEncodePath s = encodeKeeping (fun c => unreserved c || c = 47) s := rfl
  rw [hdef, percentDecode_encode hk]

section

variable {bucket : Bytes} {owner : Bytes × Bytes} {lr : ListRequest} {r : ListResult ObjectMeta}

theorem dec_enc (s : Bytes) : (listBucketResult bucket owner lr r).dec (lr.enc s) = s := by
  simp only [ListBucketResult.dec, listBucketResult, ListRequest.enc]
  split
  · exact percentDecode_awsUriEncodePath s
  · rfl

theorem groupNames_listBucketResult :
    (listBucketResult bucket owner lr r).groupNames = r.commonPrefixes := by
  rw [ListBucketResult.groupNames]
  refine (List.map_map ..).trans ((List.map_congr_left fun s _ => ?_).trans (List.map_id _))
  exact dec_enc s

/-- The cursor of either version is the backend's. -/
theorem mem_names {name : Bytes} :
    name ∈ (listBucketResult bucket owner lr r).names ↔
      name ≠ [] ∧ ((∃ o ∈ r.objects, o.key = name) ∨ name ∈ r.commonPrefixes ∨
        r.isTruncated = true ∧ name = r.nextToken) := by
  have hcontents : (listBucketResult bucket owner lr r).contents.map
      (fun o => (listBucketResult bucket owner lr r).dec o.key) = r.objects.map (·.key) := by
    refine (List.map_map ..).trans (List.map_congr_left fun o _ => ?_)
    exact dec_enc o.key
  have hnext : name ≠ [] → (name ∈ (listBucketResult bucket owner lr r).nextMarker.toList.map
        (listBucketResult bucket owner lr r).dec ∨
      name ∈ (listBucketResult bucket owner lr r).nextContinuationToken.toList.filterMap
        base64Decode ↔ r.isTruncated = true ∧ name = r.nextToken) := by
    intro hne
    have henc : (listBucketResult bucket owner lr r).dec (lr.enc r.nextToken) = r.nextToken :=
      dec_enc _
    cases htr : r.isTruncated with
    | false => simp [listBucketResult, htr]
    | true =>
        cases hv : lr.v2 with
        | false =>
            have hmarker : (listBucketResult bucket owner lr r).nextMarker =
                some (lr.enc r.nextToken) := by
              simp [listBucketResult, htr, hv]
            have htoken : (listBucketResult bucket owner lr r).nextContinuationToken = none := by
              simp [listBucketResult, hv]
            simp [hmarker, htoken, henc]
        | true =>
            have hmarker : (listBucketResult bucket owner lr r).nextMarker = none := by
              simp [listBucketResult, hv]
            have htoken : (listBucketResult bucket owner lr r).nextContinuationToken =
                some (base64Encode r.nextToken) := by
              simp [listBucketResult, htr, hv]
            rw [hmarker, htoken]
            by_cases hnil : r.nextToken = []
            · simp [hnil, base64Encode, base64Decode, hne]
            · simp [base64Decode_encode hnil, eq_comm]
  simp only [ListBucketResult.names, List.mem_filter, hcontents, groupNames_listBucketResult,
    List.mem_append, decide_eq_true_eq]
  constructor
  · rintro ⟨((hobj | hgroup) | hmarker) | htoken, hne⟩
    · exact ⟨hne, Or.inl (List.mem_map.mp hobj)⟩
    · exact ⟨hne, Or.inr (Or.inl hgroup)⟩
    · exact ⟨hne, Or.inr (Or.inr ((hnext hne).mp (Or.inl hmarker)))⟩
    · exact ⟨hne, Or.inr (Or.inr ((hnext hne).mp (Or.inr htoken)))⟩
  · rintro ⟨hne, hobj | hgroup | hcut⟩
    · exact ⟨Or.inl (Or.inl (Or.inl (List.mem_map.mpr hobj))), hne⟩
    · exact ⟨Or.inl (Or.inl (Or.inr hgroup)), hne⟩
    · rcases (hnext hne).mpr hcut with hmarker | htoken
      · exact ⟨Or.inl (Or.inr hmarker), hne⟩
      · exact ⟨Or.inr htoken, hne⟩

/-! ## The filter -/

variable {policy : CredentialPolicy} {req : HttpRequest} {content content' : BucketContent}

/-- A group that is shown is below an allowed prefix or above one. -/
theorem prefixMayContain_iff (hp : policy.prefixes ≠ []) {group : Bytes} :
    policy.prefixMayContain group = true ↔
      policy.allowsKey group = true ∨ ∃ pre ∈ policy.prefixes, group <+: pre := by
  have htake : ∀ pre : Bytes, pre.take (min pre.length group.length) =
      group.take (min pre.length group.length) ↔ pre <+: group ∨ group <+: pre := by
    intro pre
    rcases Nat.le_total pre.length group.length with hle | hle
    · rw [Nat.min_eq_left hle, List.take_length, ← List.prefix_iff_eq_take]
      refine ⟨Or.inl, fun h => h.elim id fun h => ?_⟩
      exact (h.eq_of_length (Nat.le_antisymm h.length_le hle)) ▸ List.prefix_refl _
    · rw [Nat.min_eq_right hle, List.take_length, eq_comm, ← List.prefix_iff_eq_take]
      refine ⟨Or.inr, fun h => h.elim (fun h => ?_) id⟩
      exact (h.eq_of_length (Nat.le_antisymm h.length_le hle)) ▸ List.prefix_refl _
  simp only [CredentialPolicy.prefixMayContain, CredentialPolicy.allowsKey, hp,
    decide_false, Bool.false_or, List.any_eq_true, decide_eq_true_eq, htake]
  constructor
  · rintro ⟨pre, hpre, hbelow | habove⟩
    · exact Or.inl ⟨pre, hpre, hbelow⟩
    · exact Or.inr ⟨pre, hpre, habove⟩
  · rintro (⟨pre, hpre, hbelow⟩ | ⟨pre, hpre, habove⟩)
    · exact ⟨pre, hpre, Or.inl hbelow⟩
    · exact ⟨pre, hpre, Or.inr habove⟩

/-- The filtered page of a request. -/
def listAnswer (bucket : Bytes) (owner : Bytes × Bytes) (content : BucketContent)
    (policy : CredentialPolicy) (lr : ListRequest) : ListBucketResult :=
  listBucketResult bucket owner lr (filterListing (some policy) (content.list lr.opt))

theorem listObjectsHandler_eq (hlr : parseListRequest req = .ok lr) :
    listObjectsHandler bucket owner content (some policy) req =
      .ok (listAnswer bucket owner content policy lr) := by
  rw [listObjectsHandler, hlr]
  rfl

/-- A page of the bucket is cut off behind the key: it is the last one of an entry with which the
page is full, and there are more entries. -/
def CutAt (content : BucketContent) (opt : ListOptions) (k : Bytes) : Prop :=
  ∃ front x rest, items (groupOf opt) (visible opt content.keys) = front ++ x :: rest ∧ rest ≠ [] ∧
    (front.length : Int) + 1 = opt.maxKeys ∧ x.last = k

variable {opt : ListOptions} {k : Bytes}

theorem cutAt_iff :
    CutAt content opt k ↔
      (content.list opt).isTruncated = true ∧ (content.list opt).nextToken = k := by
  unfold CutAt
  rw [BucketContent.list, applyListing_eq_pageOf _ _ content.keys_pairwise]
  generalize items (groupOf opt) (visible opt content.keys) = xs
  by_cases hmax : opt.maxKeys ≤ 0
  · simp only [pageOf, hmax, if_true, Bool.false_eq_true, false_and, iff_false]
    rintro ⟨front, x, rest, -, -, hlen, -⟩
    omega
  · obtain ⟨n, hn⟩ := Int.eq_ofNat_of_zero_le (show 0 ≤ opt.maxKeys by omega)
    rw [hn, pageOf_eq (by omega)]
    simp only [decide_eq_true_eq]
    constructor
    · rintro ⟨front, x, rest, rfl, hrest, hlen, rfl⟩
      obtain rfl : n = front.length + 1 := by omega
      have hlt : front.length + 1 < (front ++ x :: rest).length := by
        have := List.length_pos_iff.mpr hrest
        simp only [List.length_append, List.length_cons]
        omega
      rw [if_pos hlt, List.take_append]
      exact ⟨hlt, by simp⟩
    · rintro ⟨hlt, rfl⟩
      have hx : n - 1 < xs.length := by omega
      refine ⟨xs.take (n - 1), xs[n - 1], xs.drop n, ?_, ?_, ?_, ?_⟩
      · conv_lhs => rw [← List.take_append_drop (n - 1) xs]
        rw [List.drop_eq_getElem_cons hx, Nat.sub_add_cancel (by omega)]
      · rw [ne_eq, List.drop_eq_nil_iff]
        omega
      · rw [List.length_take]
        omega
      · rw [if_pos hlt, List.getLast?_take, if_neg (by omega), List.getElem?_eq_getElem hx]
        rfl

theorem CutAt.mem_visible (h : CutAt content opt k) : k ∈ visible opt content.keys := by
  obtain ⟨front, x, rest, hitems, -, -, rfl⟩ := h
  have hx : x ∈ items (groupOf opt) (visible opt content.keys) := by
    rw [hitems]
    exact List.mem_append_right _ List.mem_cons_self
  exact last_mem_of_mem_items hx

/-- Entries are confined; the cursor is what is left to ask for. -/
theorem listAnswer_confined_iff (hp : policy.prefixes ≠ []) :
    ListingConfined policy req (listAnswer bucket owner content policy lr) ↔
      ∀ k, CutAt content lr.opt k → k ≠ [] →
        Disclosable policy req (listAnswer bucket owner content policy lr) k := by
  have hfilter : filterListing (some policy) (content.list lr.opt) =
      { content.list lr.opt with
        objects := (content.list lr.opt).objects.filter fun o => policy.allowsKey o.key
        commonPrefixes :=
          (content.list lr.opt).commonPrefixes.filter policy.prefixMayContain } := by
    simp only [filterListing, if_neg hp]
  constructor
  · intro h k hcut hne
    obtain ⟨htr, rfl⟩ := cutAt_iff.mp hcut
    refine h _ (mem_names.mpr ⟨hne, Or.inr (Or.inr ?_)⟩)
    rw [hfilter]
    exact ⟨htr, rfl⟩
  · intro h name hname
    rw [listAnswer, mem_names] at hname
    obtain ⟨hne, hobj | hgroup | hcut⟩ := hname
    · obtain ⟨o, ho, rfl⟩ := hobj
      rw [hfilter] at ho
      exact Or.inr (Or.inl (List.mem_filter.mp ho).2)
    · rcases (prefixMayContain_iff hp).mp (List.mem_filter.mp (hfilter ▸ hgroup)).2
        with hallowed | habove
      · exact Or.inr (Or.inl hallowed)
      · refine Or.inr (Or.inr ⟨?_, habove⟩)
        rw [listAnswer, groupNames_listBucketResult]
        exact hgroup
    · rw [hfilter] at hcut
      obtain ⟨htr, rfl⟩ := hcut
      exact h _ (cutAt_iff.mpr ⟨htr, rfl⟩) hne

/-! ## Requests below an allowed prefix -/

theorem keyPrefix_parseListRequest (h : parseListRequest req = .ok lr) :
    lr.opt.keyPrefix = (req.queryGet (ascii "prefix")).getD [] := by
  unfold parseListRequest at h
  obtain ⟨maxKeys, -, h⟩ := of_bind_ok h
  dsimp only at h
  split at h
  · cases h
  split at h
  · cases h
  obtain ⟨⟨startAfter, startAfterParam⟩, -, h⟩ := of_bind_ok h
  rw [pure_eq_ok.mp h]

/-- Two buckets that agree on the keys with the prefix list alike. -/
theorem list_congr (h : ∀ k, opt.keyPrefix <+: k → content.get? k = content'.get? k) :
    content.list opt = content'.list opt := by
  have hvisible : visible opt content.keys = visible opt content'.keys := by
    refine List.Pairwise.eq_of_mem_iff (visible_pairwise opt content.keys_pairwise)
      (visible_pairwise opt content'.keys_pairwise) fun k => ?_
    simp only [mem_visible, SortedMap.mem_keys]
    constructor
    · rintro ⟨hk, hpre, hstart⟩
      exact ⟨h k hpre ▸ hk, hpre, hstart⟩
    · rintro ⟨hk, hpre, hstart⟩
      exact ⟨(h k hpre).symm ▸ hk, hpre, hstart⟩
  rw [BucketContent.list, BucketContent.list, applyListing_eq_pageOf _ _ content.keys_pairwise,
    applyListing_eq_pageOf _ _ content'.keys_pairwise, ← hvisible]
  by_cases hmax : opt.maxKeys ≤ 0
  · simp [pageOf, hmax]
  · obtain ⟨n, hn⟩ := Int.eq_ofNat_of_zero_le (show 0 ≤ opt.maxKeys by omega)
    rw [hn, pageOf_eq (by omega), pageOf_eq (by omega)]
    congr 1
    refine List.map_congr_left fun k hk => ?_
    have hmem : k ∈ (items (groupOf opt) (visible opt content.keys)).filterMap Item.single? := by
      obtain ⟨x, hx, hxk⟩ := List.mem_filterMap.mp hk
      exact List.mem_filterMap.mpr ⟨x, List.mem_of_mem_take hx, hxk⟩
    rw [singles_items, List.mem_filter] at hmem
    rw [h k (mem_visible.mp hmem.1).2.1]

/-- The prefix of the request is below an allowed one. -/
def AsksWithin (policy : CredentialPolicy) (req : HttpRequest) : Prop :=
  policy.allowsKey ((req.queryGet (ascii "prefix")).getD []) = true

theorem AsksWithin.allowsKey (h : AsksWithin policy req) (hlr : parseListRequest req = .ok lr)
    (hk : lr.opt.keyPrefix <+: k) : policy.allowsKey k = true := by
  rw [keyPrefix_parseListRequest hlr] at hk
  exact CredentialPolicy.allowsKey_mono hk h

theorem AsksWithin.confined (h : AsksWithin policy req) (hp : policy.prefixes ≠ [])
    (hlr : parseListRequest req = .ok lr) :
    ListingConfined policy req (listAnswer bucket owner content policy lr) := by
  refine (listAnswer_confined_iff hp).mpr fun k hcut _ => Or.inr (Or.inl ?_)
  exact h.allowsKey hlr (mem_visible.mp hcut.mem_visible).2.1

theorem AsksWithin.congr (h : AsksWithin policy req)
    (hagree : ∀ k, policy.allowsKey k = true → content.get? k = content'.get? k) :
    listObjectsHandler bucket owner content (some policy) req =
      listObjectsHandler bucket owner content' (some policy) req := by
  cases hlr : parseListRequest req with
  | error e => rw [listObjectsHandler, listObjectsHandler, hlr]; rfl
  | ok lr =>
      rw [listObjectsHandler_eq hlr, listObjectsHandler_eq hlr, listAnswer, listAnswer,
        list_congr fun k hk => hagree k (h.allowsKey hlr hk)]

end

/-- An answer is confined to the policy exactly if its page is not cut off at a key outside.
Requests below an allowed prefix are confined, and cannot tell apart two buckets that agree on the
allowed keys. -/
theorem listing_disclosure (bucket : Bytes) (owner : Bytes × Bytes) (policy : CredentialPolicy)
    (hp : policy.prefixes ≠ []) :
    (∀ (content : BucketContent) (req : HttpRequest) (lr : ListRequest) (page : ListBucketResult),
      parseListRequest req = .ok lr → listObjectsHandler bucket owner content
      (some policy) req = .ok page → (ListingConfined policy req page ↔
        ∀ k, CutAt content lr.opt k → k ≠ [] → Disclosable policy req page k)) ∧
    ∀ (content content' : BucketContent) (reqs : List HttpRequest),
      (∀ req ∈ reqs, AsksWithin policy req) →
      (∀ k, policy.allowsKey k = true → content.get? k = content'.get? k) →
      (∀ req ∈ reqs, ∀ page, listObjectsHandler bucket owner content (some policy) req = .ok page →
        ListingConfined policy req page) ∧
      reqs.map (listObjectsHandler bucket owner content (some policy)) =
        reqs.map (listObjectsHandler bucket owner content' (some policy)) := by
  constructor
  · intro content req lr page hlr hpage
    rw [listObjectsHandler_eq hlr] at hpage
    rw [← Except.ok.inj hpage]
    exact listAnswer_confined_iff hp
  · intro content content' reqs hwithin hagree
    refine ⟨fun req hreq page hpage => ?_, List.map_congr_left fun req hreq =>
      (hwithin req hreq).congr hagree⟩
    obtain ⟨lr, hlr, -⟩ := of_bind_ok hpage
    rw [listObjectsHandler_eq hlr] at hpage
    rw [← Except.ok.inj hpage]
    exact (hwithin req hreq).confined hp hlr

/-- One shared prefix. -/
def publicPolicy : CredentialPolicy := { prefixes := [ascii "pub/"] }

def listQuery (params : List (String × String)) : HttpRequest :=
  { method := ascii "GET", path := ascii "/b", query := params.map fun p => (ascii p.1, ascii p.2) }

def sharedBucket : BucketContent :=
  SortedMap.empty.insertAll [(ascii "a/secret", {}), (ascii "pub/x", {})]

/-- Two buckets that agree on the shared prefix, listed below it. -/
theorem listing_disclosure_public :
    [listQuery [("prefix", "pub/"), ("max-keys", "1")]].map
        (listObjectsHandler (ascii "b") ([], []) sharedBucket (some publicPolicy)) =
      [listQuery [("prefix", "pub/"), ("max-keys", "1")]].map
        (listObjectsHandler (ascii "b") ([], []) (sharedBucket.erase (ascii "a/secret"))
          (some publicPolicy)) := by
  refine ((listing_disclosure (ascii "b") ([], []) publicPolicy (by decide)).2
    sharedBucket _ _ ?_ ?_).2
  · intro req hreq
    rw [List.mem_singleton.mp hreq]
    show publicPolicy.allowsKey _ = true
    decide +kernel
  · intro k hk
    rw [SortedMap.get?_erase, if_neg]
    rintro rfl
    revert hk
    decide +kernel

/-- With one key a page, the cursor of a listing without a prefix is a key outside, and the answer
tells the two buckets apart. -/
theorem sharedBucket_cursor_leaks :
    (∃ page, listObjectsHandler (ascii "b") ([], []) sharedBucket (some publicPolicy)
        (listQuery [("max-keys", "1")]) = .ok page ∧
      page.contents = [] ∧ page.nextMarker = some (ascii "a/secret") ∧
        ascii "a/secret" ∈ page.names ∧
      ¬ Disclosable publicPolicy (listQuery [("max-keys", "1")]) page (ascii "a/secret")) ∧
    ∃ page, listObjectsHandler (ascii "b") ([], []) (sharedBucket.erase (ascii "a/secret"))
        (some publicPolicy)
        (listQuery [("max-keys", "1")]) = .ok page ∧ page.names = [ascii "pub/x"] := by
  refine ⟨⟨_, rfl, ?_⟩, _, rfl, ?_⟩ <;> decide +kernel

end Lights3
