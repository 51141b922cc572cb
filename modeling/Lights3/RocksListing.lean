import Lights3.RocksStore
import Lights3.Listing

/-!
# Listing on an ordered engine

`RocksMetaStore::list_objects_snap` walks the engine's iterator, seeks past whole
delimiter groups and steps back once for the group tail. It returns the page
that `apply_listing` computes from the sorted key list of the bucket.
-/
namespace Lights3
open ByteString Grouping OrderedScan

variable {β μ : Type}

/-- The user key of an engine entry of the bucket range. -/
def userKey (base : Bytes) (e : Bytes × β) : Bytes := e.1.drop base.length

/-- The loop of `list_objects_snap` over the entries `es` below the upper bound.
Every iteration consumes at least one entry. -/
def rocksListLoop (opt : ListOptions) (decode : Bytes → β → μ) (base : Bytes)
    (es : List (Bytes × β)) :
    Nat → Cursor (Bytes × β) → Int → Bytes → ListResult μ → ListResult μ
  | 0, _, _, _, out => out
  | fuel + 1, it, count, lastEmitted, out =>
      match it.ahead with
      | [] => out
      | e :: _ =>
          let uk := userKey base e
          if !opt.keyPrefix.isPrefixOf uk then out
          else if count ≥ opt.maxKeys then
            { out with isTruncated := true, nextToken := lastEmitted }
          else
            match groupOf opt uk with
            | some group =>
                let out := { out with commonPrefixes := out.commonPrefixes ++ [group] }
                match successor (base ++ group) with
                | none => out
                | some target =>
                    let it := Cursor.seek (fun x => decide (x.1 < target)) es
                    match it.ahead with
                    | [] => rocksListLoop opt decode base es fuel it (count + 1) lastEmitted out
                    | _ :: _ =>
                        let tail := (it.prev.ahead.head?.map (userKey base)).getD lastEmitted
                        rocksListLoop opt decode base es fuel it.prev.next (count + 1) tail out
            | none =>
                rocksListLoop opt decode base es fuel it.next (count + 1) uk
                  { out with objects := out.objects ++ [decode uk e.2] }

/-- The start position: `start_after` is stepped over when it is a key itself. -/
def rocksStart (opt : ListOptions) (base : Bytes) (es : List (Bytes × β)) :
    Cursor (Bytes × β) :=
  let start := base ++ max opt.keyPrefix opt.startAfter
  let it := Cursor.seek (fun e => decide (e.1 < start)) es
  if opt.startAfter ≠ [] ∧ it.ahead.head?.map Prod.fst = some (base ++ opt.startAfter)
  then it.next else it

/-- `list_objects_snap` behind the bucket check. -/
def listObjectsSnap (m : SortedMap Bytes β) (decode : Bytes → β → μ) (b : Bytes)
    (opt : ListOptions) : ListResult μ :=
  if opt.maxKeys ≤ 0 then {}
  else
    let base := b ++ [0]
    let upper := b ++ [1]
    let es := m.entries.takeWhile (fun e => decide (e.1 < upper))
    rocksListLoop opt decode base es es.length (rocksStart opt base es) 0 [] {}

/-- `decode_object_meta` on a stored record. -/
def decodeListed (uk : Bytes) (r : ObjectRec) : ObjectMeta := { r.objMeta with key := uk }

/-- `RocksMetaStore::list_objects`. -/
def Store.listObjects (s : Store) (b : Bytes) (opt : ListOptions) :
    Except S3Error (ListResult ObjectMeta) := do
  s.requireBucket b
  return listObjectsSnap s.objects decodeListed b opt

/-! ## The entries of a bucket -/

/-- Engine entries in key order, all within the range of `base`. -/
structure InRange (base : Bytes) (es : List (Bytes × β)) : Prop where
  sorted : es.Pairwise (fun x y => x.1 < y.1)
  aligned : ∀ e ∈ es, base <+: e.1

variable {e : Bytes × β} {base : Bytes} {es : List (Bytes × β)}

theorem InRange.tail (h : InRange base (e :: es)) : InRange base es :=
  ⟨(List.pairwise_cons.mp h.sorted).2, fun x hx => h.aligned x (List.mem_cons_of_mem e hx)⟩

theorem InRange.sublist {fs : List (Bytes × β)} (h : InRange base es) (hsub : fs.Sublist es) :
    InRange base fs :=
  ⟨h.sorted.sublist hsub, fun x hx => h.aligned x (hsub.subset hx)⟩

theorem append_userKey (h : base <+: e.1) : base ++ userKey base e = e.1 := by
  obtain ⟨t, ht⟩ := h
  simp [userKey, ← ht]

theorem isPrefix_append_iff {g : Bytes} (h : base <+: e.1) :
    base ++ g <+: e.1 ↔ g <+: userKey base e := by
  conv_lhs => rw [← append_userKey h]
  exact List.prefix_append_right_inj base

/-- From an entry of the group on, the entries below the bumped target are the group. -/
theorem below_target_iff {g t : Bytes} (h : InRange base (e :: es)) (hg : g <+: userKey base e)
    (ht : successor (base ++ g) = some t) :
    ∀ x ∈ e :: es, decide (x.1 < t) = g.isPrefixOf (userKey base x) := by
  intro x hx
  have hlow : base ++ g ≤ x.1 := by
    have he : base ++ g ≤ e.1 :=
      prefix_le ((isPrefix_append_iff (h.aligned e List.mem_cons_self)).mpr hg)
    rcases List.mem_cons.mp hx with rfl | hmem
    · exact he
    · exact he.trans (le_of_lt ((List.pairwise_cons.mp h.sorted).1 x hmem))
  rw [Bool.eq_iff_iff, decide_eq_true_iff, List.isPrefixOf_iff_prefix,
    ← isPrefix_append_iff (h.aligned x hx), ← lt_successor_iff ht]
  exact ⟨fun hlt => ⟨hlow, hlt⟩, fun hp => hp.2⟩

/-- The reference's inner loop in terms of the entries. -/
theorem skipGroup_map (base g cur : Bytes) (es : List (Bytes × β)) :
    skipGroup g cur (es.map (userKey base)) =
      ((((es.takeWhile (fun x => g.isPrefixOf (userKey base x))).getLast?).map
          (userKey base)).getD cur,
        (es.dropWhile (fun x => g.isPrefixOf (userKey base x))).map (userKey base)) := by
  induction es generalizing cur with
  | nil => rfl
  | cons e es ih =>
      rw [List.map_cons, skipGroup]
      by_cases hg : g.isPrefixOf (userKey base e) = true
      · rw [if_pos hg, ih, List.takeWhile_cons, List.dropWhile_cons, if_pos hg, if_pos hg]
        cases hlast : (es.takeWhile (fun x => g.isPrefixOf (userKey base x))).getLast? with
        | none =>
            rw [List.getLast?_eq_none_iff] at hlast
            simp [hlast]
        | some y => simp [List.getLast?_cons, hlast]
      · rw [if_neg hg, List.takeWhile_cons, List.dropWhile_cons, if_neg hg, if_neg hg]
        simp

/-- Where a group ends: its tail and the entries behind it. -/
theorem skipGroup_target {g t : Bytes} (h : InRange base (e :: es)) (hg : g <+: userKey base e)
    (ht : successor (base ++ g) = some t) :
    skipGroup g (userKey base e) (es.map (userKey base)) =
      ((((e :: es).takeWhile (fun x => decide (x.1 < t))).getLast?.map (userKey base)).getD [],
        ((e :: es).dropWhile (fun x => decide (x.1 < t))).map (userKey base)) := by
  have hbelow := below_target_iff h hg ht
  rw [skipGroup_map, takeWhile_congr hbelow, dropWhile_congr hbelow]
  have hge : g.isPrefixOf (userKey base e) = true := List.isPrefixOf_iff_prefix.mpr hg
  rw [List.takeWhile_cons, List.dropWhile_cons, if_pos hge, if_pos hge, List.getLast?_cons]
  cases (es.takeWhile (fun x => g.isPrefixOf (userKey base x))).getLast? <;> simp

/-! ## The loop fills the page -/

/-- Looking a listed key up gives what the engine decodes from its entry. -/
def Fetches (decode : Bytes → β → μ) (base : Bytes) (fetch : Bytes → μ)
    (es : List (Bytes × β)) : Prop :=
  ∀ e ∈ es, fetch (userKey base e) = decode (userKey base e) e.2

/-- Seeking past a group from one of its entries lands behind the group, with the
group tail as the entry just passed. -/
theorem seek_group {g t : Bytes} {passed rest : List (Bytes × β)}
    (hs : es.Pairwise (fun x y => x.1 < y.1)) (hes : passed.reverse ++ e :: rest = es)
    (hr : InRange base (e :: rest)) (hg : g <+: userKey base e)
    (ht : successor (base ++ g) = some t) :
    let it := Cursor.seek (fun x => decide (x.1 < t)) es
    let skip := skipGroup g (userKey base e) (rest.map (userKey base))
    it.ahead.Sublist rest ∧ it.ahead.map (userKey base) = skip.2 ∧
      it.passed.head?.map (userKey base) = some skip.1 := by
  have het : e.1 < t := by
    have h := below_target_iff hr hg ht e List.mem_cons_self
    rw [List.isPrefixOf_iff_prefix.mpr hg] at h
    exact of_decide_eq_true h
  have hpassed : ∀ x ∈ passed.reverse, decide (x.1 < t) = true := by
    intro x hx
    rw [← hes] at hs
    exact decide_eq_true
      (((List.pairwise_append.mp hs).2.2 x hx e List.mem_cons_self).trans het)
  have hdrop : es.dropWhile (fun x => decide (x.1 < t)) =
      (e :: rest).dropWhile (fun x => decide (x.1 < t)) := by
    rw [← hes, List.dropWhile_append_of_pos hpassed]
  have htake : es.takeWhile (fun x => decide (x.1 < t)) =
      passed.reverse ++ (e :: rest).takeWhile (fun x => decide (x.1 < t)) := by
    rw [← hes, List.takeWhile_append_of_pos hpassed]
  have hskip := skipGroup_target hr hg ht
  refine ⟨?_, ?_, ?_⟩
  · rw [Cursor.ahead_seek, hdrop, List.dropWhile_cons, if_pos (decide_eq_true het)]
    exact List.dropWhile_sublist _
  · rw [Cursor.ahead_seek, hdrop, hskip]
  · simp only [Cursor.seek, List.head?_reverse, htake, hskip]
    rw [List.takeWhile_cons, if_pos (decide_eq_true het),
      List.getLast?_append_of_ne_nil _ (by simp)]
    simp [List.getLast?_cons]

theorem rocksListLoop_eq (opt : ListOptions) (decode : Bytes → β → μ) (base : Bytes)
    (hbase : (0 : UInt8) ∈ base) (fetch : Bytes → μ) (hs : es.Pairwise (fun x y => x.1 < y.1))
    (fuel : Nat) (it : Cursor (Bytes × β)) (hit : it.passed.reverse ++ it.ahead = es)
    (hr : InRange base it.ahead) (hf : Fetches decode base fetch it.ahead)
    (hfuel : it.ahead.length ≤ fuel) (count : Int) (lastEmitted : Bytes) (out : ListResult μ) :
    rocksListLoop opt decode base es fuel it count lastEmitted out =
      pageFrom opt.maxKeys fetch count lastEmitted out
        (items (groupOf opt) (prefixRun opt (it.ahead.map (userKey base)))) := by
  induction fuel generalizing it count lastEmitted out with
  | zero =>
      have hnil : it.ahead = [] := List.length_eq_zero_iff.mp (by omega)
      simp only [rocksListLoop, hnil]
      rfl
  | succ fuel ih =>
      unfold rocksListLoop
      cases hah : it.ahead with
      | nil => rfl
      | cons e rest =>
          rw [hah] at hr hf hit hfuel
          rw [List.length_cons] at hfuel
          have hfrest : Fetches decode base fetch rest :=
            fun x hx => hf x (List.mem_cons_of_mem e hx)
          simp only [List.map_cons]
          by_cases hk : opt.keyPrefix <+: userKey base e
          · have hcond : (!opt.keyPrefix.isPrefixOf (userKey base e)) = false := by simp [hk]
            simp only [hcond, Bool.false_eq_true, if_false]
            cases hg : groupOf opt (userKey base e) with
            | none =>
                rw [prefixRun_cons _ hk, items_none hg]
                unfold pageFrom
                split_ifs with hfull
                · rfl
                · have hnext : it.next.ahead = rest := by
                    rw [Cursor.ahead_next, hah, List.tail_cons]
                  have hcontents : it.next.passed.reverse ++ it.next.ahead = es := by
                    rw [Cursor.contents_next, hah, hit]
                  simp only
                  rw [ih it.next hcontents (by rw [hnext]; exact hr.tail)
                    (by rw [hnext]; exact hfrest) (by rw [hnext]; omega), hnext,
                    hf e List.mem_cons_self]
            | some g =>
                obtain ⟨t, ht⟩ := successor_isSome_of_mem (List.mem_append_left g hbase)
                  (by decide)
                obtain ⟨hsub, hahead, htail⟩ := seek_group hs hit hr (groupOf_isPrefix hg) ht
                have hlen := hsub.length_le
                rw [items_skipGroup _ hk hg]
                unfold pageFrom
                simp only [ht]
                split_ifs with hfull
                · rfl
                · generalize hj : Cursor.seek (fun x => decide (x.1 < t)) es = j
                    at hsub hahead htail hlen
                  have hstep (tail : Bytes) (o : ListResult μ) := ih j
                    (by rw [← hj]; exact Cursor.contents_seek _ _) (hr.tail.sublist hsub)
                    (fun x hx => hfrest x (hsub.subset hx)) (by omega) (count + 1) tail o
                  rw [hahead] at hstep
                  cases hj2 : j.ahead with
                  | nil =>
                      rw [hj2, List.map_nil] at hahead
                      simp only [hstep, ← hahead]
                      rfl
                  | cons x xs =>
                      have hne : j.passed ≠ [] := by
                        rintro h
                        simp [h] at htail
                      simp only [Cursor.next_prev hne, Cursor.head_prev, htail, hstep]
                      rfl
          · simp [prefixRun, hk, items, pageFrom]

/-! ## The start position -/

/-- The entries of the range of `base`. -/
def rangeEntries (m : SortedMap Bytes β) (base : Bytes) : List (Bytes × β) :=
  m.entries.filter (fun e => base.isPrefixOf e.1)

/-- The sorted user keys of the range. -/
def rangeKeys (m : SortedMap Bytes β) (base : Bytes) : List Bytes :=
  (rangeEntries m base).map (userKey base)

theorem inRange_rangeEntries (m : SortedMap Bytes β) (base : Bytes) :
    InRange base (rangeEntries m base) where
  sorted := m.sorted.filter _
  aligned e he := by simpa [rangeEntries] using (List.mem_filter.mp he).2

theorem mem_rangeKeys {m : SortedMap Bytes β} {k : Bytes} :
    k ∈ rangeKeys m base ↔ (m.get? (base ++ k)).isSome := by
  simp only [rangeKeys, List.mem_map, Option.isSome_iff_exists]
  constructor
  · rintro ⟨e, he, rfl⟩
    rw [append_userKey ((inRange_rangeEntries m base).aligned e he)]
    exact ⟨e.2, SortedMap.mem_entries.mp (List.mem_filter.mp he).1⟩
  · rintro ⟨v, hv⟩
    refine ⟨(base ++ k, v), List.mem_filter.mpr ⟨SortedMap.mem_entries.mpr hv, ?_⟩, ?_⟩
    · simp
    · simp [userKey]

theorem rangeKeys_pairwise (m : SortedMap Bytes β) (base : Bytes) :
    (rangeKeys m base).Pairwise (· < ·) := by
  have hr := inRange_rangeEntries m base
  refine List.pairwise_map.mpr (hr.sorted.imp_of_mem ?_)
  intro x y hx hy hxy
  rwa [← append_userKey (hr.aligned x hx), ← append_userKey (hr.aligned y hy),
    append_lt_append_left] at hxy

/-- A sorted list with the right members is the key list of the range. -/
theorem eq_rangeKeys {m : SortedMap Bytes β} {keys : List Bytes} (hs : keys.Pairwise (· < ·))
    (hmem : ∀ k, k ∈ keys ↔ (m.get? (base ++ k)).isSome) : keys = rangeKeys m base := by
  have hnd {l : List Bytes} (h : l.Pairwise (· < ·)) : l.Nodup := h.imp (fun hlt => ne_of_lt hlt)
  have hp := rangeKeys_pairwise m base
  have hperm : keys.Perm (rangeKeys m base) :=
    (List.perm_ext_iff_of_nodup (hnd hs) (hnd hp)).mpr
      (fun k => (hmem k).trans mem_rangeKeys.symm)
  refine hperm.eq_of_pairwise ?_ hs hp
  intro a b _ _ hab hba
  exact absurd (hab.trans hba) (lt_irrefl _)

/-- The entries a request starts from. -/
def startEntries (m : SortedMap Bytes β) (base : Bytes) (opt : ListOptions) :
    List (Bytes × β) :=
  (rangeEntries m base).filter fun e =>
    !(userKey base e < opt.keyPrefix) && (opt.startAfter = [] || opt.startAfter < userKey base e)

theorem startEntries_map (m : SortedMap Bytes β) (base : Bytes) (opt : ListOptions) :
    (startEntries m base opt).map (userKey base) = startList opt (rangeKeys m base) := by
  unfold startEntries startList rangeKeys
  rw [List.filter_map]
  rfl

/-- The engine range from `start` on. -/
def spanEntries (m : SortedMap Bytes β) (start upper : Bytes) : List (Bytes × β) :=
  m.entries.filter (fun e => !decide (e.1 < start) && decide (e.1 < upper))

theorem spanEntries_sorted (m : SortedMap Bytes β) (start upper : Bytes) :
    (spanEntries m start upper).Pairwise (fun x y => x.1 < y.1) := m.sorted.filter _

/-- Above a start within the range, the span holds the range's entries only. -/
theorem mem_span_iff {upper start : Bytes} (hu : successor base = some upper) (e : Bytes × β) :
    (!decide (e.1 < base ++ start) && decide (e.1 < upper)) =
      (base.isPrefixOf e.1 && !decide (userKey base e < start)) := by
  rw [Bool.eq_iff_iff]
  simp only [Bool.and_eq_true, Bool.not_eq_true', decide_eq_false_iff_not, not_lt,
    decide_eq_true_iff, List.isPrefixOf_iff_prefix]
  constructor
  · rintro ⟨hlow, hup⟩
    have hpre : base <+: e.1 :=
      (lt_successor_iff hu).mp ⟨(prefix_le (List.prefix_append base start)).trans hlow, hup⟩
    rw [← append_userKey hpre, append_le_append_left] at hlow
    exact ⟨hpre, hlow⟩
  · rintro ⟨hpre, hlow⟩
    refine ⟨?_, ((lt_successor_iff hu).mpr hpre).2⟩
    rwa [← append_userKey hpre, append_le_append_left]

/-- Seeking to the larger of prefix and start-after and stepping over start-after
itself starts at the entries the reference starts from. -/
theorem startEntries_eq (m : SortedMap Bytes β) (opt : ListOptions) {upper : Bytes}
    (hu : successor base = some upper) :
    let span := spanEntries m (base ++ max opt.keyPrefix opt.startAfter) upper
    (if opt.startAfter ≠ [] ∧ span.head?.map Prod.fst = some (base ++ opt.startAfter)
      then span.tail else span) = startEntries m base opt := by
  intro span
  have hspan : span = (rangeEntries m base).filter
      (fun e => !decide (userKey base e < max opt.keyPrefix opt.startAfter)) := by
    simp only [span, spanEntries, rangeEntries, List.filter_filter]
    apply List.filter_congr
    intro e _
    rw [mem_span_iff hu, Bool.and_comm]
  by_cases hsa : opt.startAfter = []
  · have hmax : max opt.keyPrefix [] = opt.keyPrefix := max_eq_left (nil_le _)
    simp only [hsa, ne_eq, not_true_eq_false, false_and, if_false]
    rw [hspan, hsa, hmax]
    unfold startEntries
    simp [hsa]
  · have hge : ∀ e ∈ span, base ++ opt.startAfter ≤ e.1 := by
      intro e he
      have h := (List.mem_filter.mp he).2
      simp only [Bool.and_eq_true, Bool.not_eq_true', decide_eq_false_iff_not, not_lt] at h
      exact le_trans ((append_le_append_left _ _ _).mpr (le_max_right _ _)) h.1
    have hsorted : span.Pairwise (fun x y => x.1 < y.1) := spanEntries_sorted m _ _
    simp only [ne_eq, hsa, not_false_eq_true, true_and]
    rw [tail_eq_filter hsorted hge, hspan, List.filter_filter]
    unfold startEntries
    apply List.filter_congr
    intro e he
    have hal := (inRange_rangeEntries m base).aligned e he
    have heq : e.1 = base ++ opt.startAfter ↔ userKey base e = opt.startAfter := by
      rw [← append_userKey hal, List.append_right_inj]
    rw [Bool.eq_iff_iff]
    simp only [Bool.and_eq_true, Bool.not_eq_true', decide_eq_false_iff_not, heq, not_lt,
      max_le_iff, hsa, Bool.or_eq_true, decide_eq_true_iff, false_or]
    constructor
    · rintro ⟨hne, hp, hs⟩
      exact ⟨hp, lt_of_le_of_ne hs (Ne.symm hne)⟩
    · rintro ⟨hp, hs⟩
      exact ⟨ne_of_gt hs, hp, le_of_lt hs⟩

theorem rocksStart_contents (opt : ListOptions) (base : Bytes) (es : List (Bytes × β)) :
    (rocksStart opt base es).passed.reverse ++ (rocksStart opt base es).ahead = es := by
  simp only [rocksStart]
  split_ifs with h
  · rw [Cursor.contents_next, Cursor.contents_seek]
  · rw [Cursor.contents_seek]

theorem rocksStart_ahead (m : SortedMap Bytes β) (opt : ListOptions) {upper : Bytes}
    (hu : successor base = some upper) :
    (rocksStart opt base (m.entries.takeWhile (fun e => decide (e.1 < upper)))).ahead =
      startEntries m base opt := by
  have hspan (start : Bytes) :
      (m.entries.takeWhile (fun e => decide (e.1 < upper))).dropWhile
        (fun e => decide (e.1 < start)) = spanEntries m start upper := by
    rw [dropWhile_eq_filter _ (m.sorted.sublist (List.takeWhile_sublist _)) (lt_down start),
      takeWhile_eq_filter _ m.sorted (lt_down upper), List.filter_filter]
    rfl
  simp only [rocksStart]
  rw [apply_ite Cursor.ahead, Cursor.ahead_next, Cursor.ahead_seek, hspan]
  exact startEntries_eq m opt hu

/-- The engine loop returns the reference page of the key list of the bucket. -/
theorem listObjectsSnap_eq (m : SortedMap Bytes β) (decode : Bytes → β → μ) (b : Bytes)
    (opt : ListOptions) {fetch : Bytes → μ}
    (hf : Fetches decode (b ++ [0]) fetch (rangeEntries m (b ++ [0]))) :
    listObjectsSnap m decode b opt = applyListing (rangeKeys m (b ++ [0])) opt fetch := by
  rw [applyListing_eq_pageOf opt fetch (rangeKeys_pairwise m (b ++ [0]))]
  unfold listObjectsSnap pageOf
  by_cases hmax : opt.maxKeys ≤ 0
  · rw [if_pos hmax, if_pos hmax]
  · rw [if_neg hmax, if_neg hmax]
    have hahead := rocksStart_ahead m opt (successor_append_singleton b (c := 0) (by decide))
    rw [show (0 : UInt8) + 1 = 1 from rfl] at hahead
    have hcontents := rocksStart_contents opt (b ++ [0])
      (m.entries.takeWhile (fun e => decide (e.1 < b ++ [1])))
    have hs := m.sorted.sublist
      (List.takeWhile_sublist (fun e : Bytes × β => decide (e.1 < b ++ [1])))
    simp only
    generalize m.entries.takeWhile (fun e => decide (e.1 < b ++ [1])) = es at *
    have hsub : (startEntries m (b ++ [0]) opt).Sublist (rangeEntries m (b ++ [0])) :=
      List.filter_sublist
    have hlen : (rocksStart opt (b ++ [0]) es).ahead.length ≤ es.length := by
      conv_rhs => rw [← hcontents, List.length_append]
      exact Nat.le_add_left _ _
    rw [rocksListLoop_eq opt decode (b ++ [0]) (by simp) fetch hs _ _ hcontents
      (by rw [hahead]; exact (inRange_rangeEntries m _).sublist hsub)
      (by rw [hahead]; exact fun e he => hf e (hsub.subset he)) hlen, hahead, startEntries_map,
      prefixRun_startList opt (rangeKeys_pairwise m _)]

end Lights3
