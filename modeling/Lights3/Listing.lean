import Lights3.StorageTypes
import Lights3.Lib.Grouping
import Lights3.Lib.OrderedScan

/-!
# Reference listing

`apply_listing` of `storage/listing.cc`: prefix, delimiter grouping, start-after
and truncation over a sorted key list. Its result is a page of the grouped
items of the visible keys. `apply_uploads_page` does the same for the uploads in
the order of their key and upload id.
-/
namespace Lights3
open ByteString Grouping OrderedScan

variable {μ : Type}

/-- The part of a key up to and including the first delimiter after the prefix. -/
def groupOf (opt : ListOptions) (key : Bytes) : Option Bytes :=
  if opt.delimiter = [] then none
  else
    (indexOf opt.delimiter (key.drop opt.keyPrefix.length)).map fun i =>
      key.take (opt.keyPrefix.length + i + opt.delimiter.length)

/-- The inner loop: step over the keys of a group, keeping the last one. -/
def skipGroup (group : Bytes) : Bytes → List Bytes → Bytes × List Bytes
  | cur, [] => (cur, [])
  | cur, k :: ks => if group.isPrefixOf k then skipGroup group k ks else (cur, k :: ks)

/-- The main loop of `apply_listing` from the keys that are still ahead. Every
iteration consumes at least one key. -/
def applyListingLoop (opt : ListOptions) (fetch : Bytes → μ) :
    Nat → List Bytes → Int → Bytes → ListResult μ → ListResult μ
  | 0, _, _, _, out => out
  | _ + 1, [], _, _, out => out
  | fuel + 1, key :: ks, count, lastEmitted, out =>
      if !opt.keyPrefix.isPrefixOf key then out
      else if count ≥ opt.maxKeys then
        { out with isTruncated := true, nextToken := lastEmitted }
      else
        match groupOf opt key with
        | some group =>
            let (tail, rest) := skipGroup group key ks
            applyListingLoop opt fetch fuel rest (count + 1) tail
              { out with commonPrefixes := out.commonPrefixes ++ [group] }
        | none =>
            applyListingLoop opt fetch fuel ks (count + 1) key
              { out with objects := out.objects ++ [fetch key] }

/-- `apply_listing`. -/
def applyListing (keys : List Bytes) (opt : ListOptions) (fetch : Bytes → μ) : ListResult μ :=
  if opt.maxKeys ≤ 0 then {}
  else
    let it := keys.dropWhile (· < opt.keyPrefix)
    let it := if opt.startAfter ≠ [] then it.dropWhile (· ≤ opt.startAfter) else it
    applyListingLoop opt fetch it.length it 0 [] {}

/-! ## Groups -/

variable {opt : ListOptions}

theorem groupOf_spec {key g : Bytes} (h : groupOf opt key = some g) :
    opt.delimiter ≠ [] ∧ ∃ i, indexOf opt.delimiter (key.drop opt.keyPrefix.length) = some i ∧
      g = key.take (opt.keyPrefix.length + i + opt.delimiter.length) ∧
      opt.keyPrefix.length + i + opt.delimiter.length ≤ key.length := by
  unfold groupOf at h
  split_ifs at h with hd
  obtain ⟨i, hi, rfl⟩ := Option.map_eq_some_iff.mp h
  refine ⟨hd, i, hi, rfl, ?_⟩
  have hlen := (prefix_drop_of_indexOf hi).length_le
  have hpos := List.length_pos_iff.mpr hd
  rw [List.length_drop, List.length_drop] at hlen
  omega

theorem groupOf_ne_nil {key g : Bytes} (h : groupOf opt key = some g) : g ≠ [] := by
  obtain ⟨hd, i, -, rfl, hlen⟩ := groupOf_spec h
  have hpos := List.length_pos_iff.mpr hd
  exact List.ne_nil_of_length_pos (by rw [List.length_take]; omega)

theorem groupOf_isPrefix {key g : Bytes} (h : groupOf opt key = some g) : g <+: key := by
  obtain ⟨-, i, -, rfl, -⟩ := groupOf_spec h
  exact List.take_prefix _ _

theorem keyPrefix_isPrefix_groupOf {key g : Bytes} (h : groupOf opt key = some g)
    (hk : opt.keyPrefix <+: key) : opt.keyPrefix <+: g := by
  obtain ⟨-, i, -, rfl, -⟩ := groupOf_spec h
  exact List.prefix_take_iff.mpr ⟨hk, by omega⟩

/-- Every key that starts with a group name belongs to the group. -/
theorem groupOf_congr {key k g : Bytes} (h : groupOf opt key = some g) (hg : g <+: k) :
    groupOf opt k = some g := by
  obtain ⟨hd, i, hi, rfl, hlen⟩ := groupOf_spec h
  obtain ⟨t, rfl⟩ := hg
  have htake : (key.take (opt.keyPrefix.length + i + opt.delimiter.length)).length =
      opt.keyPrefix.length + i + opt.delimiter.length := by
    rw [List.length_take]
    omega
  have hdrop : (key.drop opt.keyPrefix.length).take (i + opt.delimiter.length) <+:
      (key.take (opt.keyPrefix.length + i + opt.delimiter.length) ++ t).drop
        opt.keyPrefix.length := by
    have hsub : opt.keyPrefix.length + i + opt.delimiter.length - opt.keyPrefix.length =
        i + opt.delimiter.length := by omega
    rw [List.drop_append_of_le_length (by omega), List.drop_take, hsub]
    exact List.prefix_append _ t
  have hidx := indexOf_congr hi hdrop
  unfold groupOf
  rw [if_neg hd, hidx, Option.map_some, List.take_left' htake]

theorem groupOf_contiguous (opt : ListOptions) : Contiguous (groupOf opt) (id : Bytes → Bytes) := by
  intro a b c g hab hbc ha hc
  exact groupOf_congr ha (prefix_of_le_of_le (groupOf_isPrefix ha) (groupOf_isPrefix hc) hab hbc)

/-! ## Pages of items -/

/-- A page filled from a list of items: what every listing loop computes. The
items still ahead are only looked at to decide truncation. -/
def pageFrom (maxKeys : Int) (fetch : Bytes → μ) :
    Int → Bytes → ListResult μ → List (Item Bytes Bytes) → ListResult μ
  | _, _, out, [] => out
  | count, lastEmitted, out, x :: xs =>
      if count ≥ maxKeys then { out with isTruncated := true, nextToken := lastEmitted }
      else
        match x with
        | .single key =>
            pageFrom maxKeys fetch (count + 1) key
              { out with objects := out.objects ++ [fetch key] } xs
        | .group group tail =>
            pageFrom maxKeys fetch (count + 1) tail
              { out with commonPrefixes := out.commonPrefixes ++ [group] } xs

/-- The page of a list of items. -/
def pageOf (maxKeys : Int) (fetch : Bytes → μ) (xs : List (Item Bytes Bytes)) : ListResult μ :=
  if maxKeys ≤ 0 then {} else pageFrom maxKeys fetch 0 [] {} xs

/-- A full page holds the first items and names the last key behind them. -/
theorem pageFrom_eq (fetch : Bytes → μ) (n : Nat) (xs : List (Item Bytes Bytes)) (count : Nat)
    (hc : count ≤ n) (lastEmitted : Bytes) (out : ListResult μ) (hout : out.isTruncated = false)
    (htok : out.nextToken = []) :
    pageFrom n fetch count lastEmitted out xs =
      { objects := out.objects ++ ((xs.take (n - count)).filterMap Item.single?).map fetch
        commonPrefixes := out.commonPrefixes ++ (xs.take (n - count)).filterMap Item.group?
        isTruncated := decide (n - count < xs.length)
        nextToken := if n - count < xs.length then
          (((xs.take (n - count)).getLast?).map Item.last).getD lastEmitted else [] } := by
  induction xs generalizing count lastEmitted out with
  | nil =>
      obtain ⟨os, cs, tr, tk⟩ := out
      simp only at hout htok
      simp [pageFrom, hout, htok]
  | cons x xs ih =>
      unfold pageFrom
      by_cases hfull : (count : Int) ≥ n
      · have hz : n - count = 0 := by omega
        rw [if_pos hfull]
        simp [hz]
      · rw [if_neg hfull]
        obtain ⟨m, hm⟩ : ∃ m, n - count = m + 1 := ⟨n - count - 1, by omega⟩
        have hm' : n - (count + 1) = m := by omega
        have hlast (y : Item Bytes Bytes) (d : Bytes) :
            ((((y :: xs.take m).getLast?).map Item.last).getD d) =
              (((xs.take m).getLast?).map Item.last).getD y.last := by
          cases hxs : xs.take m with
          | nil => rfl
          | cons z zs => simp [List.getLast?_eq_some_getLast]
        cases x with
        | single key =>
            have h := ih (count + 1) (by omega) key
              { out with objects := out.objects ++ [fetch key] } hout htok
            push_cast at h
            simp only [h, hm, hm', List.take_succ_cons, hlast, List.length_cons,
              Nat.add_lt_add_iff_right]
            simp [List.filterMap_cons, Item.single?, Item.group?, Item.last]
        | group g t =>
            have h := ih (count + 1) (by omega) t
              { out with commonPrefixes := out.commonPrefixes ++ [g] } hout htok
            push_cast at h
            simp only [h, hm, hm', List.take_succ_cons, hlast, List.length_cons,
              Nat.add_lt_add_iff_right]
            simp [List.filterMap_cons, Item.single?, Item.group?, Item.last]

/-! ## The reference loop fills a page -/

theorem skipGroup_length (group cur : Bytes) (ks : List Bytes) :
    (skipGroup group cur ks).2.length ≤ ks.length := by
  induction ks generalizing cur with
  | nil => simp [skipGroup]
  | cons k ks ih =>
      unfold skipGroup
      split_ifs with h
      · exact (ih k).trans (Nat.le_succ _)
      · exact le_rfl

/-- The keys that share the prefix of the first one. -/
def prefixRun (opt : ListOptions) (ks : List Bytes) : List Bytes :=
  ks.takeWhile (fun k => opt.keyPrefix.isPrefixOf k)

theorem prefixRun_cons {k : Bytes} (ks : List Bytes) (h : opt.keyPrefix <+: k) :
    prefixRun opt (k :: ks) = k :: prefixRun opt ks := by
  simp [prefixRun, h]

/-- Stepping over a group consumes exactly the keys of its item. -/
theorem items_skipGroup {key g : Bytes} (ks : List Bytes) (hk : opt.keyPrefix <+: key)
    (hg : groupOf opt key = some g) :
    items (groupOf opt) (prefixRun opt (key :: ks)) =
      .group g (skipGroup g key ks).1 ::
        items (groupOf opt) (prefixRun opt (skipGroup g key ks).2) := by
  induction ks generalizing key with
  | nil =>
      rw [prefixRun_cons [] hk, items_new hg (by simp [prefixRun, items])]
      rfl
  | cons k ks ih =>
      rw [prefixRun_cons (k :: ks) hk]
      unfold skipGroup
      split_ifs with hgk
      · have hgk' : g <+: k := by simpa using hgk
        exact items_merge hg (ih ((keyPrefix_isPrefix_groupOf hg hk).trans hgk')
          (groupOf_congr hg hgk'))
      · refine items_new hg ?_
        intro t rest hitems
        by_cases hpk : opt.keyPrefix <+: k
        · rw [prefixRun_cons ks hpk] at hitems
          have hhead := items_head hitems
          exact hgk (by simpa using groupOf_isPrefix hhead.symm)
        · simp [prefixRun, hpk, items] at hitems

theorem applyListingLoop_eq (opt : ListOptions) (fetch : Bytes → μ) (fuel : Nat) (ks : List Bytes)
    (hfuel : ks.length ≤ fuel) (count : Int) (lastEmitted : Bytes) (out : ListResult μ) :
    applyListingLoop opt fetch fuel ks count lastEmitted out =
      pageFrom opt.maxKeys fetch count lastEmitted out
        (items (groupOf opt) (prefixRun opt ks)) := by
  induction fuel generalizing ks count lastEmitted out with
  | zero =>
      have : ks = [] := List.length_eq_zero_iff.mp (by omega)
      subst this
      rfl
  | succ fuel ih =>
      cases ks with
      | nil => rfl
      | cons key ks =>
          rw [List.length_cons] at hfuel
          unfold applyListingLoop
          by_cases hk : opt.keyPrefix <+: key
          · have hcond : (!opt.keyPrefix.isPrefixOf key) = false := by simp [hk]
            simp only [hcond, Bool.false_eq_true, if_false]
            cases hg : groupOf opt key with
            | some g =>
                have hlen := skipGroup_length g key ks
                rw [items_skipGroup ks hk hg]
                unfold pageFrom
                split_ifs with hfull
                · rfl
                · exact ih _ (by omega) _ _ _
            | none =>
                rw [prefixRun_cons ks hk, items_none hg]
                unfold pageFrom
                split_ifs with hfull
                · rfl
                · exact ih _ (by omega) _ _ _
          · have hcond : (!opt.keyPrefix.isPrefixOf key) = true := by
              rwa [Bool.not_eq_true', ← Bool.not_eq_true, List.isPrefixOf_iff_prefix]
            have hnil : prefixRun opt (key :: ks) = [] := by simp [prefixRun, hk]
            rw [if_pos hcond, hnil]
            rfl

/-- The keys a request can see. -/
def visible (opt : ListOptions) (keys : List Bytes) : List Bytes :=
  keys.filter fun k =>
    opt.keyPrefix.isPrefixOf k && (opt.startAfter = [] || opt.startAfter < k)

/-- The keys from the start position of a request on. -/
def startList (opt : ListOptions) (keys : List Bytes) : List Bytes :=
  keys.filter fun k => !(k < opt.keyPrefix) && (opt.startAfter = [] || opt.startAfter < k)

theorem startList_eq (opt : ListOptions) {keys : List Bytes} (hs : keys.Pairwise (· < ·)) :
    (if opt.startAfter ≠ [] then
      (keys.dropWhile (· < opt.keyPrefix)).dropWhile (· ≤ opt.startAfter)
      else keys.dropWhile (· < opt.keyPrefix)) = startList opt keys := by
  have h1 : keys.dropWhile (· < opt.keyPrefix) = keys.filter (fun k => !(k < opt.keyPrefix)) :=
    dropWhile_eq_filter _ hs (fun a b hab hb => by
      simp only [decide_eq_true_eq] at hb ⊢
      exact hab.trans hb)
  have h2 : (keys.filter (fun k => !(k < opt.keyPrefix))).dropWhile (· ≤ opt.startAfter) =
      (keys.filter (fun k => !(k < opt.keyPrefix))).filter (fun k => !(k ≤ opt.startAfter)) :=
    dropWhile_eq_filter _ (hs.filter _) (fun a b hab hb => by
      simp only [decide_eq_true_eq] at hb ⊢
      exact (le_of_lt hab).trans hb)
  unfold startList
  split_ifs with hsa
  · rw [h1, h2, List.filter_filter]
    apply List.filter_congr
    intro k _
    simp [hsa, Bool.and_comm, ← not_le]
  · rw [h1]
    simp [not_not.mp hsa]

/-- On a sorted list the run of the prefix from the start position is the set of
visible keys. -/
theorem prefixRun_startList (opt : ListOptions) {keys : List Bytes}
    (hs : keys.Pairwise (· < ·)) : prefixRun opt (startList opt keys) = visible opt keys := by
  have hord : (startList opt keys).Pairwise (fun a b => a < b ∧ opt.keyPrefix ≤ a) := by
    refine (hs.filter _).imp_of_mem ?_
    intro a b ha _ hab
    have h := (List.mem_filter.mp ha).2
    simp only [Bool.and_eq_true, Bool.not_eq_true', decide_eq_false_iff_not, not_lt] at h
    exact ⟨hab, h.1⟩
  unfold prefixRun
  rw [takeWhile_eq_filter _ hord ?_]
  · unfold startList visible
    rw [List.filter_filter]
    apply List.filter_congr
    intro k _
    by_cases hk : opt.keyPrefix <+: k
    · simp [not_lt.mpr (prefix_le hk)]
    · have hf : opt.keyPrefix.isPrefixOf k = false := by
        rwa [← Bool.not_eq_true, List.isPrefixOf_iff_prefix]
      simp [hf]
  · rintro a b ⟨hab, hpa⟩ hb
    rw [List.isPrefixOf_iff_prefix] at hb ⊢
    exact prefix_of_le_of_le List.prefix_rfl hb hpa (le_of_lt hab)

/-- `apply_listing` returns the page of the items of the visible keys. -/
theorem applyListing_eq_pageOf (opt : ListOptions) (fetch : Bytes → μ) {keys : List Bytes}
    (hs : keys.Pairwise (· < ·)) :
    applyListing keys opt fetch =
      pageOf opt.maxKeys fetch (items (groupOf opt) (visible opt keys)) := by
  unfold applyListing pageOf
  by_cases hmax : opt.maxKeys ≤ 0
  · rw [if_pos hmax, if_pos hmax]
  · rw [if_neg hmax, if_neg hmax]
    simp only [startList_eq opt hs]
    rw [applyListingLoop_eq opt fetch _ _ le_rfl, prefixRun_startList opt hs]

/-! ## Listed keys -/

theorem skipGroup_sublist (group cur : Bytes) (ks : List Bytes) :
    (skipGroup group cur ks).2.Sublist ks := by
  induction ks generalizing cur with
  | nil => exact List.Sublist.refl _
  | cons k ks ih =>
      unfold skipGroup
      split_ifs
      · exact (ih k).cons k
      · exact List.Sublist.refl _

theorem applyListingLoop_objects (opt : ListOptions) (fetch : Bytes → μ) (fuel : Nat)
    (keys : List Bytes) (count : Int) (lastEmitted : Bytes) (out : ListResult μ) :
    ∃ ks : List Bytes, ks.Sublist keys ∧ (∀ k ∈ ks, opt.keyPrefix.isPrefixOf k = true) ∧
      (applyListingLoop opt fetch fuel keys count lastEmitted out).objects =
        out.objects ++ ks.map fetch := by
  induction fuel generalizing keys count lastEmitted out with
  | zero => exact ⟨[], List.nil_sublist _, by simp, by simp [applyListingLoop]⟩
  | succ fuel ih =>
      cases keys with
      | nil => exact ⟨[], List.nil_sublist _, by simp, by simp [applyListingLoop]⟩
      | cons key keys =>
          unfold applyListingLoop
          split_ifs with hprefix
          · exact ⟨[], List.nil_sublist _, by simp, by simp⟩
          · exact ⟨[], List.nil_sublist _, by simp, by simp⟩
          · cases groupOf opt key with
            | some group =>
                obtain ⟨ks, hsub, hall, hks⟩ := ih (skipGroup group key keys).2 (count + 1)
                  (skipGroup group key keys).1
                  { out with commonPrefixes := out.commonPrefixes ++ [group] }
                exact ⟨ks, (hsub.trans (skipGroup_sublist group key keys)).cons key, hall, hks⟩
            | none =>
                obtain ⟨ks, hsub, hall, hks⟩ := ih keys (count + 1) key
                  { out with objects := out.objects ++ [fetch key] }
                refine ⟨key :: ks, hsub.cons_cons key, ?_, by simpa using hks⟩
                exact List.forall_mem_cons.mpr ⟨by simpa using hprefix, hall⟩

/-- A page shows some of the keys that have the prefix, each once. -/
theorem applyListing_objects (keys : List Bytes) (opt : ListOptions) (fetch : Bytes → μ) :
    ∃ ks : List Bytes, ks.Sublist keys ∧ (∀ k ∈ ks, opt.keyPrefix.isPrefixOf k = true) ∧
      (applyListing keys opt fetch).objects = ks.map fetch := by
  unfold applyListing
  split_ifs
  · exact ⟨[], List.nil_sublist _, by simp, rfl⟩
  · obtain ⟨ks, hsub, hall, hks⟩ := applyListingLoop_objects opt fetch _
      ((keys.dropWhile (· < opt.keyPrefix)).dropWhile (· ≤ opt.startAfter)) 0 [] {}
    exact ⟨ks, hsub.trans ((List.dropWhile_sublist _).trans (List.dropWhile_sublist _)), hall,
      by simpa using hks⟩
  · obtain ⟨ks, hsub, hall, hks⟩ := applyListingLoop_objects opt fetch _
      (keys.dropWhile (· < opt.keyPrefix)) 0 [] {}
    exact ⟨ks, hsub.trans (List.dropWhile_sublist _), hall, by simpa using hks⟩

/-! ## Multipart uploads -/

/-- The place of an upload in the listing order. -/
def UploadInfo.pos (u : UploadInfo) : Bytes ×ₗ Bytes := toLex (u.key, u.uploadId)

/-- `upload_after_marker`: a marker without an upload id has paged past its whole key. -/
def uploadAfterMarker (u : UploadInfo) (opt : ListUploadsOptions) : Bool :=
  if opt.keyMarker = [] ∧ opt.uploadIdMarker = [] then true
  else if u.key ≠ opt.keyMarker then decide (opt.keyMarker < u.key)
  else if opt.uploadIdMarker = [] then false
  else decide (opt.uploadIdMarker < u.uploadId)

/-- The group of an upload, by its key. -/
def uploadGroup (opt : ListUploadsOptions) (u : UploadInfo) : Option Bytes :=
  groupOf { keyPrefix := opt.keyPrefix, delimiter := opt.delimiter } u.key

/-- The inner loop: step over the uploads of a group, keeping the last one. -/
def skipUploads (group : Bytes) : UploadInfo → List UploadInfo → UploadInfo × List UploadInfo
  | cur, [] => (cur, [])
  | cur, u :: us => if group.isPrefixOf u.key then skipUploads group u us else (cur, u :: us)

/-- The main loop of `apply_uploads_page` from the uploads that are still ahead. -/
def applyUploadsLoop (opt : ListUploadsOptions) :
    Nat → List UploadInfo → ListUploadsResult → ListUploadsResult
  | 0, _, out => { out with nextKeyMarker := [], nextUploadIdMarker := [] }
  | _ + 1, [], out => { out with nextKeyMarker := [], nextUploadIdMarker := [] }
  | fuel + 1, u :: us, out =>
      if !opt.keyPrefix.isPrefixOf u.key then applyUploadsLoop opt fuel us out
      else if !uploadAfterMarker u opt then applyUploadsLoop opt fuel us out
      else if out.uploads.length + out.commonPrefixes.length ≥ opt.maxUploads.toNat then
        { out with isTruncated := true }
      else
        match uploadGroup opt u with
        | some group =>
            let (tail, rest) := skipUploads group u us
            applyUploadsLoop opt fuel rest
              { out with
                commonPrefixes := out.commonPrefixes ++ [group]
                nextKeyMarker := tail.key
                nextUploadIdMarker := tail.uploadId }
        | none =>
            applyUploadsLoop opt fuel us
              { out with
                uploads := out.uploads ++ [u]
                nextKeyMarker := u.key
                nextUploadIdMarker := u.uploadId }

/-- `apply_uploads_page`. -/
def applyUploadsPage (sorted : List UploadInfo) (opt : ListUploadsOptions) : ListUploadsResult :=
  if opt.maxUploads ≤ 0 then {} else applyUploadsLoop opt sorted.length sorted {}

end Lights3
