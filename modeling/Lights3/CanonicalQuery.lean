import Lights3.BuiltinServer

/-!
# The signed query

`canonical_query` of `s3/auth/sigv4.cc`, which the signature covers, and `parse_target`, which the
handlers read. Both split the query in the same way, but the signature decodes without the rule for
plus signs, sorts, and skips parameters with an empty name. The queries with one canonical form give
one set of answers exactly if the signed parameters have no plus sign and no name with two values,
and no parameter without a name comes along.
-/
namespace Lights3
open ByteString

/-! ## The two readings -/

/-- `aws_uri_encode` with slashes encoded. -/
def awsUriEncode (s : Bytes) : Bytes :=
  s.flatMap fun c =>
    if unreserved c then [c] else
      [37, awsUriEncodePath.digit (c >>> 4), awsUriEncodePath.digit (c &&& 0xf)]

/-- The parameters of a query, undecoded. -/
def rawParams (raw : Bytes) : List (Bytes × Bytes) :=
  ((raw.splitOn 38).filter (· ≠ [])).map fun kv =>
    (kv.takeWhile (· ≠ 61), (kv.dropWhile (· ≠ 61)).tail)

/-- The parameters that `canonical_query` signs, decoded. -/
def signedParams (raw : Bytes) (exclude : Bytes := []) : List (Bytes × Bytes) :=
  ((rawParams raw).map fun p => (percentDecode p.1, percentDecode p.2)).filter (·.1 ≠ exclude)

/-- The encoded parameters, sorted as `std::pair<std::string, std::string>`. -/
def sortedParams (ps : List (Bytes × Bytes)) : List (Bytes × Bytes) :=
  ((ps.map fun p => toLex (awsUriEncode p.1, awsUriEncode p.2)).insertionSort (· ≤ ·)).map ofLex

/-- `canonical_query`. -/
def canonicalQuery (raw : Bytes) (exclude : Bytes := []) : Bytes :=
  (sortedParams (signedParams raw exclude)).foldl
    (fun out p => (if out ≠ [] then out ++ [38] else out) ++ p.1 ++ [61] ++ p.2) []

/-- The request that `parse_target` makes of a target with this query. -/
def queryRequest (raw : Bytes) : HttpRequest :=
  let head := parseTarget (ascii "GET") (ascii "/?" ++ raw) []
  { method := head.method, path := head.path, query := head.query }

theorem query_queryRequest (raw : Bytes) :
    (queryRequest raw).query = (rawParams raw).map fun p =>
      (percentDecodeQuery p.1, percentDecodeQuery p.2) := by
  have hraw : ((ascii "/?" ++ raw).dropWhile (· ≠ 63)).tail = raw := rfl
  simp only [queryRequest, parseTarget, hraw, rawParams, List.map_map]
  rfl

/-! ## Decoding -/

theorem percentDecode_cons {c : UInt8} (hc : c ≠ 37) (s : Bytes) :
    percentDecode (c :: s) = c :: percentDecode s := by
  match s with
  | [] => rfl
  | [_] => rfl
  | _ :: _ :: _ => simp [percentDecode, hc]

theorem percentDecodeQuery_cons {c : UInt8} (hc : c ≠ 37) (s : Bytes) :
    percentDecodeQuery (c :: s) = percentDecodeQuery.plus c :: percentDecodeQuery s := by
  match s with
  | [] => rfl
  | [_] => rfl
  | _ :: _ :: _ => simp [percentDecodeQuery, hc]

theorem hexVal_digit (c : UInt8) : hexVal (awsUriEncodePath.digit (c >>> 4)) = some (c >>> 4) ∧
    hexVal (awsUriEncodePath.digit (c &&& 0xf)) = some (c &&& 0xf) ∧
    (c >>> 4) * 16 + (c &&& 0xf) = c := by
  have hall : ∀ n < 256, hexVal (awsUriEncodePath.digit (UInt8.ofNat n >>> 4)) =
      some (UInt8.ofNat n >>> 4) ∧
      hexVal (awsUriEncodePath.digit (UInt8.ofNat n &&& 0xf)) = some (UInt8.ofNat n &&& 0xf) ∧
      (UInt8.ofNat n >>> 4) * 16 + (UInt8.ofNat n &&& 0xf) = UInt8.ofNat n := by
    decide +kernel
  simpa only [UInt8.ofNat_toNat] using hall c.toNat c.toNat_lt

theorem percentDecode_escape (c : UInt8) (s : Bytes) :
    percentDecode
      (37 :: awsUriEncodePath.digit (c >>> 4) :: awsUriEncodePath.digit (c &&& 0xf) :: s) =
      c :: percentDecode s := by
  obtain ⟨hhi, hlo, hbyte⟩ := hexVal_digit c
  simp only [percentDecode, if_pos, hhi, hlo, hbyte]

theorem percentDecodeQuery_escape (c : UInt8) (s : Bytes) :
    percentDecodeQuery
      (37 :: awsUriEncodePath.digit (c >>> 4) :: awsUriEncodePath.digit (c &&& 0xf) :: s) =
      c :: percentDecodeQuery s := by
  obtain ⟨hhi, hlo, hbyte⟩ := hexVal_digit c
  simp only [percentDecodeQuery, if_pos, hhi, hlo, hbyte]

theorem percentDecode_eq_nil {s : Bytes} : percentDecode s = [] ↔ s = [] := by
  fun_cases percentDecode s <;> simp_all

/-- A plus sign of the text is one of the decoded text, so without any the two decoders agree. -/
theorem percentDecodeQuery_eq {s : Bytes} (h : (43 : UInt8) ∉ percentDecode s) :
    percentDecodeQuery s = percentDecode s := by
  fun_induction percentDecode s with
  | case1 => rfl
  | case2 c =>
      have hc : c ≠ 43 := by rintro rfl; simp at h
      simp [percentDecodeQuery, percentDecodeQuery.plus, hc]
  | case3 c d =>
      have hc : c ≠ 43 ∧ d ≠ 43 := by constructor <;> rintro rfl <;> simp at h
      simp [percentDecodeQuery, percentDecodeQuery.plus, hc]
  | case4 c a b s hi lo hhi hlo ih =>
      rw [List.mem_cons, not_or] at h
      simp only [percentDecodeQuery, hhi, hlo, ih h.2]
  | case5 c a b s hno ih =>
      rw [List.mem_cons, not_or] at h
      have hplus : percentDecodeQuery.plus c = c := by
        rw [percentDecodeQuery.plus, if_neg (Ne.symm h.1)]
      have hstep : percentDecodeQuery (c :: a :: b :: s) =
          percentDecodeQuery.plus c :: percentDecodeQuery (a :: b :: s) := by
        rw [percentDecodeQuery]
        split
        next hi lo hhi hlo => exact absurd hlo (hno hi lo hhi)
        next => rfl
      rw [hstep, hplus, ih h.2]

namespace SignedQuery

/-! ## Encoding

A text is written with some bytes as they are and the others as escapes. -/

/-- An encoding that keeps these bytes as they are. -/
def encodeKeeping (keep : UInt8 → Bool) (s : Bytes) : Bytes :=
  s.flatMap fun c =>
    if keep c then [c] else
      [37, awsUriEncodePath.digit (c >>> 4), awsUriEncodePath.digit (c &&& 0xf)]

/-- The separators of a query and the escape sign are not kept. -/
def Unambiguous (keep : UInt8 → Bool) : Prop := ∀ c, keep c = true → c ≠ 37 ∧ c ≠ 38 ∧ c ≠ 61

theorem unambiguous_unreserved : Unambiguous unreserved := by
  intro c hc
  refine ⟨?_, ?_, ?_⟩ <;> rintro rfl <;> simp [unreserved] at hc

theorem unambiguous_plus : Unambiguous fun c => unreserved c || c = 43 := by
  intro c hc
  refine ⟨?_, ?_, ?_⟩ <;> rintro rfl <;> simp [unreserved] at hc

variable {keep : UInt8 → Bool}

theorem percentDecode_encode (hk : Unambiguous keep) (s : Bytes) :
    percentDecode (encodeKeeping keep s) = s := by
  induction s with
  | nil => rfl
  | cons c s ih =>
      rw [encodeKeeping, List.flatMap_cons]
      split_ifs with hc
      · rw [List.singleton_append, percentDecode_cons (hk c hc).1]
        exact congrArg _ ih
      · exact (percentDecode_escape c _).trans (congrArg _ ih)

theorem percentDecodeQuery_encode (hk : Unambiguous keep) (s : Bytes) :
    percentDecodeQuery (encodeKeeping keep s) = s.map fun c =>
      if keep c then percentDecodeQuery.plus c else c := by
  induction s with
  | nil => rfl
  | cons c s ih =>
      rw [encodeKeeping, List.flatMap_cons, List.map_cons]
      split_ifs with hc
      · rw [List.singleton_append, percentDecodeQuery_cons (hk c hc).1]
        exact congrArg _ ih
      · exact (percentDecodeQuery_escape c _).trans (congrArg _ ih)

theorem digit_ne_separator (c : UInt8) :
    (awsUriEncodePath.digit (c >>> 4) ≠ 38 ∧ awsUriEncodePath.digit (c >>> 4) ≠ 61) ∧
      awsUriEncodePath.digit (c &&& 0xf) ≠ 38 ∧ awsUriEncodePath.digit (c &&& 0xf) ≠ 61 := by
  obtain ⟨hhi, hlo, -⟩ := hexVal_digit c
  refine ⟨⟨?_, ?_⟩, ?_, ?_⟩ <;> intro h <;> simp [h, hexVal] at hhi hlo

theorem not_mem_encode (hk : Unambiguous keep) (s : Bytes) :
    (38 : UInt8) ∉ encodeKeeping keep s ∧ (61 : UInt8) ∉ encodeKeeping keep s := by
  have hne : ∀ x ∈ encodeKeeping keep s, x ≠ 38 ∧ x ≠ 61 := by
    intro x hx
    obtain ⟨c, -, hx⟩ := List.mem_flatMap.mp hx
    split_ifs at hx with hc
    · rw [List.mem_singleton.mp hx]
      exact (hk c hc).2
    · obtain ⟨hhi, hlo⟩ := digit_ne_separator c
      simp only [List.mem_cons, List.not_mem_nil, or_false] at hx
      rcases hx with rfl | rfl | rfl
      · decide
      · exact hhi
      · exact hlo
  exact ⟨fun h => (hne _ h).1 rfl, fun h => (hne _ h).2 rfl⟩

/-- A query of parameters that are written already. -/
def joinParams (ps : List (Bytes × Bytes)) : Bytes :=
  [38].intercalate (ps.map fun p => p.1 ++ 61 :: p.2)

/-- The separators of a query are not in the name and the value. -/
def Written (p : Bytes × Bytes) : Prop :=
  ((38 : UInt8) ∉ p.1 ∧ (61 : UInt8) ∉ p.1) ∧ (38 : UInt8) ∉ p.2

variable {ps : List (Bytes × Bytes)}

theorem rawParams_join (h : ∀ p ∈ ps, Written p) : rawParams (joinParams ps) = ps := by
  rcases eq_or_ne ps [] with rfl | hne
  · rfl
  · have hsep : ∀ l ∈ ps.map (fun p => p.1 ++ 61 :: p.2), (38 : UInt8) ∉ l := by
      intro l hl
      obtain ⟨p, hp, rfl⟩ := List.mem_map.mp hl
      simp only [List.mem_append, List.mem_cons, not_or]
      exact ⟨(h p hp).1.1, by decide, (h p hp).2⟩
    have hfull : ∀ l ∈ ps.map (fun p => p.1 ++ 61 :: p.2), decide (l ≠ []) = true := by
      intro l hl
      obtain ⟨p, -, rfl⟩ := List.mem_map.mp hl
      simp
    rw [rawParams, joinParams, List.splitOn_intercalate 38 hsep (by simpa using hne),
      List.filter_eq_self.mpr hfull, List.map_map]
    refine (List.map_congr_left fun p hp => ?_).trans (List.map_id ps)
    have hkey : ∀ x ∈ p.1, decide (x ≠ 61) = true := fun x hx => by
      simpa using ne_of_mem_of_not_mem hx (h p hp).1.2
    have htake : (p.1 ++ 61 :: p.2).takeWhile (· ≠ 61) = p.1 := by
      rw [List.takeWhile_append_of_pos hkey]
      simp
    have hdrop : (p.1 ++ 61 :: p.2).dropWhile (· ≠ 61) = 61 :: p.2 := by
      rw [List.dropWhile_append_of_pos hkey]
      simp
    simp only [Function.comp, htake, hdrop, List.tail_cons, id]

/-- The query with these parameters, in this order. -/
def renderQuery (keep : UInt8 → Bool) (ps : List (Bytes × Bytes)) : Bytes :=
  joinParams (ps.map fun p => (encodeKeeping keep p.1, encodeKeeping keep p.2))

theorem rawParams_render (hk : Unambiguous keep) (ps : List (Bytes × Bytes)) :
    rawParams (renderQuery keep ps) = ps.map fun p =>
      (encodeKeeping keep p.1, encodeKeeping keep p.2) := by
  refine rawParams_join fun p hp => ?_
  obtain ⟨q, -, rfl⟩ := List.mem_map.mp hp
  exact ⟨not_mem_encode hk q.1, (not_mem_encode hk q.2).1⟩

theorem signedParams_render (hk : Unambiguous keep) (h : ∀ p ∈ ps, p.1 ≠ []) :
    signedParams (renderQuery keep ps) = ps := by
  have hmap : (ps.map fun p => (encodeKeeping keep p.1, encodeKeeping keep p.2)).map
      (fun p => (percentDecode p.1, percentDecode p.2)) = ps := by
    rw [List.map_map]
    refine (List.map_congr_left fun p _ => ?_).trans (List.map_id ps)
    simp only [Function.comp, percentDecode_encode hk, id]
  rw [signedParams, rawParams_render hk, hmap]
  exact List.filter_eq_self.mpr fun p hp => decide_eq_true (h p hp)

theorem query_render (hk : Unambiguous keep) (ps : List (Bytes × Bytes)) :
    (queryRequest (renderQuery keep ps)).query = ps.map fun p =>
      (p.1.map fun c => if keep c then percentDecodeQuery.plus c else c,
        p.2.map fun c => if keep c then percentDecodeQuery.plus c else c) := by
  rw [query_queryRequest, rawParams_render hk, List.map_map]
  refine List.map_congr_left fun p _ => ?_
  simp only [Function.comp, percentDecodeQuery_encode hk]

/-! ## The canonical form -/

theorem awsUriEncode_eq (s : Bytes) : awsUriEncode s = encodeKeeping unreserved s := rfl

theorem foldl_params {out : Bytes} (hout : out ≠ []) :
    ps.foldl (fun out p => (if out ≠ [] then out ++ [38] else out) ++ p.1 ++ [61] ++ p.2) out =
      out ++ ps.flatMap fun p => 38 :: (p.1 ++ 61 :: p.2) := by
  induction ps generalizing out with
  | nil => simp
  | cons p ps ih =>
      rw [List.foldl_cons, if_pos hout, ih (by simp), List.flatMap_cons]
      simp

theorem joinParams_cons (p : Bytes × Bytes) (ps : List (Bytes × Bytes)) :
    joinParams (p :: ps) = p.1 ++ 61 :: p.2 ++ ps.flatMap fun p => 38 :: (p.1 ++ 61 :: p.2) := by
  induction ps generalizing p with
  | nil => simp [joinParams]
  | cons q ps ih =>
      have hq := ih q
      rw [joinParams, List.map_cons] at hq
      rw [joinParams, List.map_cons, List.map_cons, List.intercalate_cons_cons, hq,
        List.flatMap_cons]
      simp

theorem canonicalQuery_eq (raw exclude : Bytes) :
    canonicalQuery raw exclude = joinParams (sortedParams (signedParams raw exclude)) := by
  unfold canonicalQuery
  cases sortedParams (signedParams raw exclude) with
  | nil => rfl
  | cons p ps =>
      rw [List.foldl_cons, foldl_params (by simp), joinParams_cons]
      simp

theorem mem_sortedParams {p : Bytes × Bytes} (h : p ∈ sortedParams ps) : Written p := by
  simp only [sortedParams, List.mem_map, List.mem_insertionSort] at h
  obtain ⟨-, ⟨q, -, rfl⟩, rfl⟩ := h
  exact ⟨not_mem_encode unambiguous_unreserved q.1, (not_mem_encode unambiguous_unreserved q.2).1⟩

theorem sortedParams_perm (ps : List (Bytes × Bytes)) :
    (sortedParams ps).Perm (ps.map fun p => (awsUriEncode p.1, awsUriEncode p.2)) := by
  have h := (List.perm_insertionSort (· ≤ ·)
    (ps.map fun p => toLex (awsUriEncode p.1, awsUriEncode p.2))).map ofLex
  rw [List.map_map] at h
  exact h

/-- Queries have one canonical form exactly if they have the same signed parameters, in any order.
-/
theorem canonicalQuery_eq_iff {raw raw' exclude : Bytes} :
    canonicalQuery raw exclude = canonicalQuery raw' exclude ↔
      (signedParams raw exclude).Perm (signedParams raw' exclude) := by
  constructor
  · intro h
    rw [canonicalQuery_eq, canonicalQuery_eq] at h
    have hsorted := congrArg rawParams h
    rw [rawParams_join fun p => mem_sortedParams, rawParams_join fun p => mem_sortedParams]
      at hsorted
    have hperm := ((sortedParams_perm _).symm.trans (hsorted ▸ sortedParams_perm _)).map
      fun p => (percentDecode p.1, percentDecode p.2)
    have hdecode : ∀ ps : List (Bytes × Bytes),
        (ps.map fun p => (awsUriEncode p.1, awsUriEncode p.2)).map
        (fun p => (percentDecode p.1, percentDecode p.2)) = ps := by
      intro ps
      rw [List.map_map]
      refine (List.map_congr_left fun p _ => ?_).trans (List.map_id ps)
      simp only [Function.comp, awsUriEncode_eq, percentDecode_encode unambiguous_unreserved, id]
    rw [hdecode, hdecode] at hperm
    exact hperm.symm
  · intro h
    have hsort : sortedParams (signedParams raw exclude) =
        sortedParams (signedParams raw' exclude) := by
      refine congrArg (List.map ofLex) (List.Perm.eq_of_pairwise' (r := (· ≤ ·)) ?_ ?_ ?_)
      · exact List.pairwise_insertionSort _ _
      · exact List.pairwise_insertionSort _ _
      · exact (List.perm_insertionSort _ _).trans
          ((h.map _).trans (List.perm_insertionSort _ _).symm)
    rw [canonicalQuery_eq, canonicalQuery_eq, hsort]

/-! ## What the handlers see -/

/-- No parameter is without a name. -/
def Named (raw : Bytes) : Prop := ∀ p ∈ rawParams raw, p.1 ≠ []

/-- The signed parameters have no plus sign, and a name has one value. -/
structure Bound (raw : Bytes) : Prop where
  named : Named raw
  plain : ∀ p ∈ signedParams raw, (43 : UInt8) ∉ p.1 ∧ (43 : UInt8) ∉ p.2
  single : ∀ p ∈ signedParams raw, ∀ q ∈ signedParams raw, p.1 = q.1 → p.2 = q.2

theorem signedParams_of_named {raw : Bytes} (h : Named raw) :
    signedParams raw = (rawParams raw).map fun p => (percentDecode p.1, percentDecode p.2) := by
  refine List.filter_eq_self.mpr fun p hp => ?_
  obtain ⟨q, hq, rfl⟩ := List.mem_map.mp hp
  simpa [percentDecode_eq_nil] using h q hq

theorem query_eq_signedParams {raw : Bytes} (hn : Named raw)
    (hp : ∀ p ∈ signedParams raw, (43 : UInt8) ∉ p.1 ∧ (43 : UInt8) ∉ p.2) :
    (queryRequest raw).query = signedParams raw := by
  rw [signedParams_of_named hn] at hp ⊢
  rw [query_queryRequest]
  refine List.map_congr_left fun p hmem => ?_
  obtain ⟨hk, hv⟩ := hp _ (List.mem_map_of_mem hmem)
  exact Prod.ext (percentDecodeQuery_eq hk) (percentDecodeQuery_eq hv)

/-- In a query where a name has one value the order does not matter. -/
theorem queryGet_eq_some_iff {req : HttpRequest}
    (hsingle : ∀ p ∈ req.query, ∀ q ∈ req.query, p.1 = q.1 → p.2 = q.2) {k v : Bytes} :
    req.queryGet k = some v ↔ (k, v) ∈ req.query := by
  simp only [HttpRequest.queryGet, Option.map_eq_some_iff]
  constructor
  · rintro ⟨p, hp, rfl⟩
    have hk : p.1 = k := by simpa using List.find?_some hp
    exact hk ▸ List.mem_of_find?_eq_some hp
  · intro hmem
    cases hfind : req.query.find? (fun e => e.1 = k) with
    | none => simpa using List.find?_eq_none.mp hfind _ hmem
    | some p =>
        have hk : p.1 = k := by simpa using List.find?_some hfind
        exact ⟨p, rfl, hsingle p (List.mem_of_find?_eq_some hfind) (k, v) hmem hk⟩

theorem queryGet_cons (req : HttpRequest) {k v : Bytes} (h : req.query = (k, v) :: ps) :
    req.queryGet k = some v := by
  simp [HttpRequest.queryGet, h]

/-- Every signed query of its canonical form answers as it does. -/
def Binds (raw : Bytes) : Prop :=
  ∀ raw', canonicalQuery raw' = canonicalQuery raw → Named raw' →
    ∀ name, (queryRequest raw').queryGet name = (queryRequest raw).queryGet name

theorem Bound.binds {raw : Bytes} (h : Bound raw) : Binds raw := by
  intro raw' hcanon hnamed name
  have hperm := canonicalQuery_eq_iff.mp hcanon
  have hplain : ∀ p ∈ signedParams raw', (43 : UInt8) ∉ p.1 ∧ (43 : UInt8) ∉ p.2 :=
    fun p hp => h.plain p (hperm.mem_iff.mp hp)
  have hquery := query_eq_signedParams h.named h.plain
  have hquery' := query_eq_signedParams hnamed hplain
  ext v
  rw [queryGet_eq_some_iff, queryGet_eq_some_iff, hquery, hquery', hperm.mem_iff]
  · rw [hquery]
    exact h.single
  · rw [hquery']
    exact fun p hp q hq => h.single p (hperm.mem_iff.mp hp) q (hperm.mem_iff.mp hq)

theorem signedParams_ne_nil {raw : Bytes} {p : Bytes × Bytes} (h : p ∈ signedParams raw) :
    p.1 ≠ [] := by
  simpa using (List.mem_filter.mp h).2

/-- A query that binds its answers answers as every way to write its signed parameters. -/
theorem Binds.render {raw : Bytes} (h : Binds raw) (hk : Unambiguous keep)
    (hperm : ps.Perm (signedParams raw)) (name : Bytes) :
    (queryRequest (renderQuery keep ps)).queryGet name = (queryRequest raw).queryGet name := by
  have hne : ∀ p ∈ ps, p.1 ≠ [] := fun p hp => signedParams_ne_nil (hperm.mem_iff.mp hp)
  refine h _ ?_ ?_ name
  · rw [canonicalQuery_eq_iff, signedParams_render hk hne]
    exact hperm
  · rw [Named, rawParams_render hk]
    intro p hp
    obtain ⟨q, hq, rfl⟩ := List.mem_map.mp hp
    intro hnil
    have hdecode := percentDecode_encode hk q.1
    dsimp only at hnil
    rw [hnil] at hdecode
    exact hne q hq hdecode.symm

theorem map_unreserved (s : Bytes) :
    (s.map fun c => if unreserved c then percentDecodeQuery.plus c else c) = s := by
  refine (List.map_congr_left fun c _ => ?_).trans (List.map_id s)
  split_ifs with hc
  · have hplus : c ≠ 43 := by
      rintro rfl
      simp [unreserved] at hc
    rw [percentDecodeQuery.plus, if_neg hplus, id]
  · rfl

theorem map_plus (s : Bytes) :
    (s.map fun c => if unreserved c || c = 43 then percentDecodeQuery.plus c else c) =
      s.map percentDecodeQuery.plus := by
  refine List.map_congr_left fun c _ => ?_
  by_cases hc : c = 43
  · simp [hc]
  · simp [percentDecodeQuery.plus, hc]

theorem query_render_unreserved (ps : List (Bytes × Bytes)) :
    (queryRequest (renderQuery unreserved ps)).query = ps := by
  rw [query_render unambiguous_unreserved]
  simp only [map_unreserved, Prod.mk.eta, List.map_id']

theorem query_render_plus (ps : List (Bytes × Bytes)) :
    (queryRequest (renderQuery (fun c => unreserved c || c = 43) ps)).query =
      ps.map fun p => (p.1.map percentDecodeQuery.plus, p.2.map percentDecodeQuery.plus) := by
  rw [query_render unambiguous_plus]
  simp only [map_plus]

theorem plus_ne (c : UInt8) : percentDecodeQuery.plus c ≠ 43 := by
  unfold percentDecodeQuery.plus
  split_ifs with h
  · decide
  · exact h

theorem not_mem_of_map_plus {s : Bytes} (h : s.map percentDecodeQuery.plus = s) :
    (43 : UInt8) ∉ s := by
  rw [← h, List.mem_map]
  rintro ⟨c, -, hc⟩
  exact plus_ne c hc

variable {raw : Bytes} {p : Bytes × Bytes}

/-- The first of the parameters in some order is what the query answers. -/
theorem Binds.queryGet (h : Binds raw) (hp : p ∈ signedParams raw) :
    (queryRequest raw).queryGet p.1 = some p.2 := by
  rw [← h.render unambiguous_unreserved (List.perm_cons_erase hp).symm]
  exact queryGet_cons _ (query_render_unreserved _)

theorem Binds.named (h : Binds raw) : Named raw := by
  intro p hp hnil
  have hnone : (queryRequest raw).queryGet [] = none := by
    rw [← h.render unambiguous_unreserved (List.Perm.refl _), HttpRequest.queryGet,
      query_render_unreserved, Option.map_eq_none_iff, List.find?_eq_none]
    intro q hq
    simpa using signedParams_ne_nil hq
  rw [HttpRequest.queryGet, Option.map_eq_none_iff, List.find?_eq_none, query_queryRequest] at hnone
  have := hnone _ (List.mem_map_of_mem hp)
  simp [hnil, percentDecodeQuery] at this

theorem Binds.plain_name (h : Binds raw) (hp : p ∈ signedParams raw) : (43 : UInt8) ∉ p.1 := by
  intro hplus
  -- With every plus sign written as it is no name that the handlers see has one.
  have hget := h.queryGet hp
  rw [← h.render unambiguous_plus (List.Perm.refl _), HttpRequest.queryGet, query_render_plus,
    Option.map_eq_some_iff] at hget
  obtain ⟨q, hq, -⟩ := hget
  obtain ⟨q', -, rfl⟩ := List.mem_map.mp (List.mem_of_find?_eq_some hq)
  have hname : q'.1.map percentDecodeQuery.plus = p.1 := by simpa using List.find?_some hq
  rw [← hname] at hplus
  obtain ⟨c, -, hc⟩ := List.mem_map.mp hplus
  exact plus_ne c hc

theorem Binds.plain_value (h : Binds raw) (hp : p ∈ signedParams raw) : (43 : UInt8) ∉ p.2 := by
  have hget := h.queryGet hp
  have hname : p.1.map percentDecodeQuery.plus = p.1 := by
    refine (List.map_congr_left fun c hc => ?_).trans (List.map_id _)
    rw [percentDecodeQuery.plus, if_neg (ne_of_mem_of_not_mem hc (h.plain_name hp)), id]
  have hquery := query_render_plus (p :: (signedParams raw).erase p)
  rw [List.map_cons, hname] at hquery
  rw [← h.render unambiguous_plus (List.perm_cons_erase hp).symm, queryGet_cons _ hquery,
    Option.some.injEq] at hget
  exact not_mem_of_map_plus hget

theorem Binds.bound (h : Binds raw) : Bound raw where
  named := h.named
  plain := fun _ hp => ⟨h.plain_name hp, h.plain_value hp⟩
  single := fun p hp q hq hpq => by
    have hv := h.queryGet hp
    rw [hpq, h.queryGet hq] at hv
    exact (Option.some.inj hv).symm

/-- The signature binds what the handlers see of a query exactly if its signed parameters have no
plus sign and no name with two values, and no parameter without a name comes along. -/
theorem signature_binds_iff (raw : Bytes) : Binds raw ↔ Bound raw := ⟨Binds.bound, Bound.binds⟩

/-- A plus sign and its escape, two orders of one name, and a parameter without a name. -/
theorem canonicalQuery_ambiguous :
    (canonicalQuery (ascii "k=a+b") = canonicalQuery (ascii "k=a%2Bb") ∧
      (queryRequest (ascii "k=a+b")).queryGet (ascii "k") = some (ascii "a b") ∧
      (queryRequest (ascii "k=a%2Bb")).queryGet (ascii "k") = some (ascii "a+b")) ∧
    (canonicalQuery (ascii "k=1&k=2") = canonicalQuery (ascii "k=2&k=1") ∧
      (queryRequest (ascii "k=1&k=2")).queryGet (ascii "k") = some (ascii "1") ∧
      (queryRequest (ascii "k=2&k=1")).queryGet (ascii "k") = some (ascii "2")) ∧
    canonicalQuery (ascii "k=1") = canonicalQuery (ascii "k=1&=2") ∧
      (queryRequest (ascii "k=1")).queryGet [] = none ∧
      (queryRequest (ascii "k=1&=2")).queryGet [] = some (ascii "2") := by
  decide +kernel

/-- The canonical form of a query is its own canonical form. -/
theorem canonicalQuery_idem (raw : Bytes) :
    canonicalQuery (canonicalQuery raw) = canonicalQuery raw := by
  refine canonicalQuery_eq_iff.mpr ?_
  have hdecode : (rawParams (canonicalQuery raw)).map
      (fun p => (percentDecode p.1, percentDecode p.2)) |>.Perm (signedParams raw) := by
    rw [canonicalQuery_eq, rawParams_join fun p => mem_sortedParams]
    refine ((sortedParams_perm _).map _).trans (List.Perm.of_eq ?_)
    simp [awsUriEncode_eq, percentDecode_encode unambiguous_unreserved, Function.comp_def]
  exact (hdecode.filter _).trans (List.Perm.of_eq (by simp [signedParams, List.filter_filter]))

end SignedQuery

end Lights3
