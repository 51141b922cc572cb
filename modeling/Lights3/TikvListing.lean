import Lights3.RocksListing

/-!
# Listing on a paged engine

`TikvMetaStore::list_objects_at` reads a snapshot page by page, resolves the tail
of a delimiter group only when the page is truncated there, and otherwise is the
algorithm of the iterator engine. Rows of the other tables lie outside every
range it scans, and so the snapshot holds the bucket and object rows only.
-/
namespace Lights3
open ByteString Grouping OrderedScan

variable {β μ : Type}

/-- `TikvMetaStore::tkey`: the deployment prefix, a table tag and the composite key. -/
def tkey (deployment : Bytes) (tag : UInt8) (rest : Bytes) : Bytes := deployment ++ tag :: rest

/-- The rows of one snapshot, under their full keys. -/
structure TikvSnapshot where
  deployment : Bytes
  buckets : SortedMap Bytes Int64
  objects : SortedMap Bytes ObjectRec

/-- `TikvClient::scan`: at most `limit` entries of a key range. -/
def tikvScan (m : SortedMap Bytes β) (lo hi : Bytes) (limit : Nat) : List (Bytes × β) :=
  ((m.entries.dropWhile (fun e => decide (e.1 < lo))).takeWhile
    (fun e => decide (e.1 < hi))).take limit

/-- `TikvClient::last_key`: the greatest key of a key range. -/
def tikvLastKey (m : SortedMap Bytes β) (lo hi : Bytes) : Option Bytes :=
  ((m.entries.filter (fun e => !decide (e.1 < lo) && decide (e.1 < hi))).getLast?).map Prod.fst

/-- The page buffer of `list_objects_at`. -/
structure PageCursor (β : Type) where
  page : List (Bytes × β)
  idx : Nat
  eof : Bool

namespace PageCursor

/-- The lambda `seek`. -/
def seek (m : SortedMap Bytes β) (upper : Bytes) (pageSize : Nat) (start : Bytes) :
    PageCursor β :=
  let page := tikvScan m start upper pageSize
  ⟨page, 0, page.isEmpty⟩

/-- The lambda `advance`: a short page is the last one. -/
def advance (m : SortedMap Bytes β) (upper : Bytes) (pageSize : Nat) (c : PageCursor β) :
    PageCursor β :=
  if c.idx + 1 < c.page.length then { c with idx := c.idx + 1 }
  else if c.page.length < pageSize then { c with idx := c.idx + 1, eof := true }
  else
    match c.page.getLast? with
    | some e => seek m upper pageSize (e.1 ++ [0])
    | none => c

end PageCursor

/-- The token at a truncation: behind a group its last key is looked up. -/
def tikvToken (m : SortedMap Bytes β) (base lastEmitted lastGroup : Bytes) : Bytes :=
  if lastGroup ≠ [] then
    let glo := base ++ lastGroup
    ((tikvLastKey m glo ((successor glo).getD glo)).map (List.drop base.length)).getD lastEmitted
  else lastEmitted

/-- The loop of `list_objects_at`. -/
def tikvListLoop (opt : ListOptions) (decode : Bytes → β → μ) (m : SortedMap Bytes β)
    (base upper : Bytes) (pageSize : Nat) :
    Nat → PageCursor β → Int → Bytes → Bytes → ListResult μ → ListResult μ
  | 0, _, _, _, _, out => out
  | fuel + 1, c, count, lastEmitted, lastGroup, out =>
      if c.eof then out
      else
        match c.page[c.idx]? with
        | none => out
        | some e =>
            let uk := userKey base e
            if !opt.keyPrefix.isPrefixOf uk then out
            else if count ≥ opt.maxKeys then
              { out with isTruncated := true, nextToken := tikvToken m base lastEmitted lastGroup }
            else
              match groupOf opt uk with
              | some group =>
                  let out := { out with commonPrefixes := out.commonPrefixes ++ [group] }
                  match successor (base ++ group) with
                  | none => out
                  | some target =>
                      tikvListLoop opt decode m base upper pageSize fuel
                        (PageCursor.seek m upper pageSize target) (count + 1) lastEmitted group out
              | none =>
                  tikvListLoop opt decode m base upper pageSize fuel
                    (c.advance m upper pageSize) (count + 1) uk []
                    { out with objects := out.objects ++ [decode uk e.2] }

/-- The start position. -/
def tikvStart (opt : ListOptions) (m : SortedMap Bytes β) (base upper : Bytes) (pageSize : Nat) :
    PageCursor β :=
  let c := PageCursor.seek m upper pageSize (base ++ max opt.keyPrefix opt.startAfter)
  if opt.startAfter ≠ [] ∧ c.eof = false ∧
      (c.page[c.idx]?).map Prod.fst = some (base ++ opt.startAfter)
  then c.advance m upper pageSize else c

/-- `list_objects_at` behind the bucket check; `range_of` gives the bounds. -/
def listObjectsPaged (pageSize : Nat) (m : SortedMap Bytes β) (decode : Bytes → β → μ)
    (base : Bytes) (opt : ListOptions) : ListResult μ :=
  if opt.maxKeys ≤ 0 then {}
  else
    let upper := (successor base).getD base
    tikvListLoop opt decode m base upper pageSize m.entries.length
      (tikvStart opt m base upper pageSize) 0 [] [] {}

/-- `TikvMetaStore::list_objects_at`; `kScanPage` is a parameter. -/
def TikvSnapshot.listObjectsAt (pageSize : Nat) (s : TikvSnapshot) (b : Bytes)
    (opt : ListOptions) : Except S3Error (ListResult ObjectMeta) :=
  if (s.buckets.get? (tkey s.deployment 66 b)).isSome then
    .ok (listObjectsPaged pageSize s.objects decodeListed (tkey s.deployment 79 (b ++ [0])) opt)
  else .error (Store.noSuchBucket b)

/-! ## The page buffer shows the range -/

theorem tikvScan_eq (m : SortedMap Bytes β) (lo hi : Bytes) (limit : Nat) :
    tikvScan m lo hi limit = (spanEntries m lo hi).take limit := by
  unfold tikvScan spanEntries
  rw [takeWhile_eq_filter _ (m.sorted.sublist (List.dropWhile_sublist _)) (lt_down hi),
    dropWhile_eq_filter _ m.sorted (lt_down lo), List.filter_filter]
  congr 2
  funext e
  exact Bool.and_comm _ _

/-- What a buffer position stands for: the entries from there to the upper bound. -/
structure PageCursor.At (m : SortedMap Bytes β) (upper : Bytes) (pageSize : Nat)
    (c : PageCursor β) (ahead : List (Bytes × β)) : Prop where
  span : ∃ start, c.page = (spanEntries m start upper).take pageSize ∧
    ahead = (spanEntries m start upper).drop c.idx
  eof_iff : c.eof = true ↔ ahead = []
  inPage : ahead ≠ [] → c.idx < c.page.length

variable {e : Bytes × β} {upper : Bytes} {pageSize : Nat}

theorem PageCursor.at_seek (m : SortedMap Bytes β) (upper : Bytes) (hp : 1 ≤ pageSize)
    (start : Bytes) :
    (PageCursor.seek m upper pageSize start).At m upper pageSize (spanEntries m start upper) := by
  have hpage : (PageCursor.seek m upper pageSize start).page =
      (spanEntries m start upper).take pageSize := tikvScan_eq m start upper pageSize
  refine ⟨⟨start, hpage, rfl⟩, ?_, ?_⟩
  · show (tikvScan m start upper pageSize).isEmpty = true ↔ _
    rw [tikvScan_eq, List.isEmpty_iff, List.take_eq_nil_iff]
    exact or_iff_right (by omega)
  · intro hne
    have hpos := List.length_pos_iff.mpr hne
    show 0 < (PageCursor.seek m upper pageSize start).page.length
    rw [hpage, List.length_take]
    exact lt_min (by omega) hpos

/-- Raising the start of a range filters its entries. -/
theorem spanEntries_raise (m : SortedMap Bytes β) (upper : Bytes) {start next : Bytes}
    (h : start ≤ next) :
    spanEntries m next upper = (spanEntries m start upper).filter
    (fun x => !decide (x.1 < next)) := by
  unfold spanEntries
  rw [List.filter_filter]
  apply List.filter_congr
  intro x _
  by_cases hx : x.1 < next
  · simp [hx]
  · simp [hx, not_lt.mpr (h.trans (not_lt.mp hx))]

/-- The entries behind an entry of a range are the range from just above its key on. -/
theorem span_tail {m : SortedMap Bytes β} {start : Bytes} {n : Nat} {rest : List (Bytes × β)}
    (h : (spanEntries m start upper).drop n = e :: rest) :
    e :: rest = spanEntries m e.1 upper ∧ rest = spanEntries m (e.1 ++ [0]) upper := by
  have hsplit : spanEntries m start upper = (spanEntries m start upper).take n ++ e :: rest := by
    rw [← h, List.take_append_drop]
  have hs := spanEntries_sorted m start upper
  have hmem : e ∈ spanEntries m start upper := List.mem_of_mem_drop (h ▸ List.mem_cons_self)
  have hstart : start ≤ e.1 := by
    have h := (List.mem_filter.mp hmem).2
    simp only [Bool.and_eq_true, Bool.not_eq_true', decide_eq_false_iff_not, not_lt] at h
    exact h.1
  have hself : e.1 < e.1 ++ [0] := append_zero_le_iff.mp le_rfl
  rw [hsplit] at hs
  obtain ⟨-, hcons, hbefore⟩ := List.pairwise_append.mp hs
  have hbelow : ∀ x ∈ (spanEntries m start upper).take n, x.1 < e.1 :=
    fun x hx => hbefore x hx e List.mem_cons_self
  have habove := (List.pairwise_cons.mp hcons).1
  rw [spanEntries_raise m upper hstart, spanEntries_raise m upper (hstart.trans hself.le),
    hsplit, List.filter_append, List.filter_append]
  have hnil (next : Bytes) (hn : e.1 ≤ next) :
      ((spanEntries m start upper).take n).filter (fun x => !decide (x.1 < next)) = [] := by
    refine List.filter_eq_nil_iff.mpr (fun x hx => ?_)
    simp [(hbelow x hx).trans_le hn]
  have hrest (next : Bytes) (hn : next ≤ e.1 ++ [0]) :
      rest.filter (fun x => !decide (x.1 < next)) = rest := by
    refine List.filter_eq_self.mpr (fun x hx => ?_)
    simpa using hn.trans (append_zero_le_iff.mpr (habove x hx))
  rw [hnil _ le_rfl, hnil _ hself.le, List.filter_cons, List.filter_cons, hrest _ hself.le,
    hrest _ le_rfl]
  simp [hself]

theorem PageCursor.At.current {m : SortedMap Bytes β} {c : PageCursor β} {rest : List (Bytes × β)}
    (h : c.At m upper pageSize (e :: rest)) : c.eof = false ∧ c.page[c.idx]? = some e := by
  obtain ⟨start, hpage, hahead⟩ := h.span
  have hlt := h.inPage (by simp)
  refine ⟨?_, ?_⟩
  · rw [← Bool.not_eq_true, h.eof_iff]
    simp
  · rw [hpage, List.length_take] at hlt
    rw [hpage, List.getElem?_take_of_lt (by omega), ← List.head?_drop, ← hahead]
    rfl

/-- Advancing moves to the next entry of the range, within the page or to a new one. -/
theorem PageCursor.At.advance {m : SortedMap Bytes β} (hp : 1 ≤ pageSize) {c : PageCursor β}
    {rest : List (Bytes × β)} (h : c.At m upper pageSize (e :: rest)) :
    (c.advance m upper pageSize).At m upper pageSize rest := by
  obtain ⟨start, hpage, hahead⟩ := h.span
  obtain ⟨heof, hcur⟩ := h.current
  have hlt := h.inPage (by simp)
  have hlen : c.page.length = min pageSize (spanEntries m start upper).length := by
    rw [hpage, List.length_take]
  have hrest : rest = (spanEntries m start upper).drop (c.idx + 1) := by
    rw [← List.drop_drop, ← hahead]
    rfl
  unfold PageCursor.advance
  split_ifs with h1 h2
  · refine ⟨⟨start, hpage, hrest⟩, ?_, fun _ => h1⟩
    rw [heof, hrest, List.drop_eq_nil_iff]
    simp only [Bool.false_eq_true, false_iff]
    omega
  · have hnil : rest = [] := by
      rw [hrest, List.drop_eq_nil_iff]
      omega
    refine ⟨⟨start, hpage, hrest⟩, ?_, fun hne => absurd hnil hne⟩
    simp [hnil]
  · have hidx : c.idx = c.page.length - 1 := by omega
    have hlast : c.page.getLast? = some e := by
      rw [List.getLast?_eq_getElem?, ← hidx, hcur]
    rw [hlast]
    simp only
    rw [(span_tail hahead.symm).2]
    exact PageCursor.at_seek m upper hp (e.1 ++ [0])

/-! ## The loop fills the page -/

/-- Seeking past a group from one of its entries, and the group tail that a
truncation right behind the group looks up. -/
theorem tikv_group {m : SortedMap Bytes β} {base g t : Bytes} {rest : List (Bytes × β)}
    (lastEmitted : Bytes) (hspan : e :: rest = spanEntries m e.1 upper)
    (hr : InRange base (e :: rest)) (hg : g <+: userKey base e) (hne : g ≠ []) (hu : t ≤ upper)
    (ht : successor (base ++ g) = some t) :
    let skip := skipGroup g (userKey base e) (rest.map (userKey base))
    (spanEntries m t upper).Sublist rest ∧
      (spanEntries m t upper).map (userKey base) = skip.2 ∧
      tikvToken m base lastEmitted g = skip.1 := by
  have het : e.1 < t := by
    have h := below_target_iff hr hg ht e List.mem_cons_self
    rw [List.isPrefixOf_iff_prefix.mpr hg] at h
    exact of_decide_eq_true h
  have hdrop : spanEntries m t upper = (e :: rest).dropWhile (fun x => decide (x.1 < t)) := by
    rw [spanEntries_raise m upper het.le, ← hspan, dropWhile_eq_filter _ hr.sorted (lt_down t)]
  have hskip := skipGroup_target hr hg ht
  refine ⟨?_, ?_, ?_⟩
  · rw [hdrop, List.dropWhile_cons, if_pos (decide_eq_true het)]
    exact List.dropWhile_sublist _
  · rw [hdrop, hskip]
  · have hlow : base ++ g ≤ e.1 :=
      prefix_le ((isPrefix_append_iff (hr.aligned e List.mem_cons_self)).mpr hg)
    have htake : (e :: rest).takeWhile (fun x => decide (x.1 < t)) =
        spanEntries m e.1 t := by
      rw [takeWhile_eq_filter _ hr.sorted (lt_down t), hspan]
      unfold spanEntries
      rw [List.filter_filter]
      apply List.filter_congr
      intro x _
      by_cases hx : x.1 < t
      · simp [hx, hx.trans_le hu]
      · simp [hx]
    have hmem : e ∈ spanEntries m e.1 t := by
      rw [← htake, List.takeWhile_cons, if_pos (decide_eq_true het)]
      exact List.mem_cons_self
    obtain ⟨x, hx⟩ : ∃ x, (spanEntries m e.1 t).getLast? = some x := by
      rw [← Option.isSome_iff_exists, List.getLast?_isSome]
      exact List.ne_nil_of_mem hmem
    have hlast : (spanEntries m (base ++ g) t).getLast? = some x := by
      rw [getLast?_eq_iff (spanEntries_sorted m _ _)]
      rw [getLast?_eq_iff (spanEntries_sorted m _ _)] at hx
      have hraise := spanEntries_raise m t hlow
      rw [hraise] at hx
      refine ⟨(List.mem_filter.mp hx.1).1, fun y hy => ?_⟩
      by_cases hye : y.1 < e.1
      · rw [hraise] at hmem
        exact hye.le.trans (hx.2 e hmem)
      · exact hx.2 y (List.mem_filter.mpr ⟨hy, by simpa using hye⟩)
    rw [hskip, htake, hx]
    simp only [tikvToken, tikvLastKey, ne_eq, hne, not_false_eq_true, if_true, ht, Option.getD_some]
    rw [show m.entries.filter (fun e => !decide (e.1 < base ++ g) && decide (e.1 < t)) =
      spanEntries m (base ++ g) t from rfl, hlast]
    rfl

/-- A group of the range ends within the range. -/
theorem target_le_upper {base g t : Bytes} (hu : successor base = some upper)
    (ht : successor (base ++ g) = some t) : t ≤ upper := by
  by_contra hlt
  rw [not_le] at hlt
  have hbase : base ++ g ≤ upper := by
    have h := (lt_successor_iff hu).mpr (List.prefix_append base g)
    exact h.2.le
  have hpre : base <+: upper :=
    (List.prefix_append base g).trans ((lt_successor_iff ht).mp ⟨hbase, hlt⟩)
  exact absurd ((lt_successor_iff hu).mpr hpre).2 (lt_irrefl _)

theorem tikvListLoop_eq (opt : ListOptions) (decode : Bytes → β → μ) (m : SortedMap Bytes β)
    {base : Bytes} (hbase : ∃ c ∈ base, c ≠ 0xff) (hu : successor base = some upper)
    (hp : 1 ≤ pageSize) (fetch : Bytes → μ) (fuel : Nat) (c : PageCursor β)
    (ahead : List (Bytes × β)) (hc : c.At m upper pageSize ahead) (hr : InRange base ahead)
    (hf : Fetches decode base fetch ahead) (hfuel : ahead.length ≤ fuel) (count : Int)
    (lastEmitted lastGroup : Bytes) (out : ListResult μ) :
    tikvListLoop opt decode m base upper pageSize fuel c count lastEmitted lastGroup out =
      pageFrom opt.maxKeys fetch count (tikvToken m base lastEmitted lastGroup) out
        (items (groupOf opt) (prefixRun opt (ahead.map (userKey base)))) := by
  induction fuel generalizing c ahead count lastEmitted lastGroup out with
  | zero =>
      have hnil : ahead = [] := List.length_eq_zero_iff.mp (by omega)
      rw [hnil]
      rfl
  | succ fuel ih =>
      unfold tikvListLoop
      cases ahead with
      | nil =>
          rw [if_pos (hc.eof_iff.mpr rfl)]
          rfl
      | cons e rest =>
          obtain ⟨heof, hcur⟩ := hc.current
          rw [List.length_cons] at hfuel
          have hfrest : Fetches decode base fetch rest :=
            fun x hx => hf x (List.mem_cons_of_mem e hx)
          simp only [heof, Bool.false_eq_true, if_false, hcur, List.map_cons]
          by_cases hk : opt.keyPrefix <+: userKey base e
          · have hcond : (!opt.keyPrefix.isPrefixOf (userKey base e)) = false := by simp [hk]
            simp only [hcond, Bool.false_eq_true, if_false]
            cases hg : groupOf opt (userKey base e) with
            | none =>
                rw [prefixRun_cons _ hk, items_none hg]
                unfold pageFrom
                split_ifs with hfull
                · rfl
                · simp only
                  rw [ih _ rest (hc.advance hp) hr.tail hfrest (by omega), hf e List.mem_cons_self]
                  rfl
            | some g =>
                obtain ⟨x, hx, hxne⟩ := hbase
                obtain ⟨t, ht⟩ := successor_isSome_of_mem (List.mem_append_left g hx) hxne
                obtain ⟨start, -, hahead⟩ := hc.span
                obtain ⟨hsub, hmap, htok⟩ := tikv_group lastEmitted
                  (span_tail hahead.symm).1 hr (groupOf_isPrefix hg) (groupOf_ne_nil hg)
                  (target_le_upper hu ht) ht
                have hlen := hsub.length_le
                rw [items_skipGroup _ hk hg]
                unfold pageFrom
                simp only [ht]
                split_ifs with hfull
                · rfl
                · rw [ih _ _ (PageCursor.at_seek m upper hp t) (hr.tail.sublist hsub)
                    (fun y hy => hfrest y (hsub.subset hy)) (by omega), hmap, htok]
          · simp [prefixRun, hk, items, pageFrom]

theorem tikvStart_at (opt : ListOptions) (m : SortedMap Bytes β) {base : Bytes}
    (hu : successor base = some upper) (hp : 1 ≤ pageSize) :
    (tikvStart opt m base upper pageSize).At m upper pageSize (startEntries m base opt) := by
  have hseek := PageCursor.at_seek m upper hp (base ++ max opt.keyPrefix opt.startAfter)
  have hstart := startEntries_eq m opt hu
  simp only [tikvStart]
  generalize PageCursor.seek m upper pageSize (base ++ max opt.keyPrefix opt.startAfter) = c at *
  simp only at hstart
  generalize spanEntries m (base ++ max opt.keyPrefix opt.startAfter) upper = span at *
  cases span with
  | nil =>
      have heof := hseek.eof_iff.mpr rfl
      rw [← hstart]
      simpa [heof] using hseek
  | cons e rest =>
      obtain ⟨heof, hcur⟩ := hseek.current
      have hcond : (opt.startAfter ≠ [] ∧ c.eof = false ∧
          (c.page[c.idx]?).map Prod.fst = some (base ++ opt.startAfter)) ↔
          (opt.startAfter ≠ [] ∧ (e :: rest).head?.map Prod.fst =
            some (base ++ opt.startAfter)) := by
        simp [heof, hcur]
      by_cases h : opt.startAfter ≠ [] ∧
          (e :: rest).head?.map Prod.fst = some (base ++ opt.startAfter)
      · rw [if_pos h] at hstart
        rw [if_pos (hcond.mpr h), ← hstart]
        exact hseek.advance hp
      · rw [if_neg h] at hstart
        rw [if_neg (fun hc => h (hcond.mp hc)), ← hstart]
        exact hseek

/-- The paged loop returns the reference page of the key list of the range. -/
theorem listObjectsPaged_eq (hp : 1 ≤ pageSize) (m : SortedMap Bytes β) (decode : Bytes → β → μ)
    {base : Bytes} (hbase : ∃ c ∈ base, c ≠ 0xff) (opt : ListOptions) {fetch : Bytes → μ}
    (hf : Fetches decode base fetch (rangeEntries m base)) :
    listObjectsPaged pageSize m decode base opt = applyListing (rangeKeys m base) opt fetch := by
  rw [applyListing_eq_pageOf opt fetch (rangeKeys_pairwise m base)]
  unfold listObjectsPaged pageOf
  by_cases hmax : opt.maxKeys ≤ 0
  · rw [if_pos hmax, if_pos hmax]
  · rw [if_neg hmax, if_neg hmax]
    obtain ⟨upper, hu⟩ : ∃ upper, successor base = some upper := by
      obtain ⟨c, hc, hne⟩ := hbase
      exact successor_isSome_of_mem hc hne
    have hsub : (startEntries m base opt).Sublist (rangeEntries m base) := List.filter_sublist
    have hlen : (startEntries m base opt).length ≤ m.entries.length :=
      (hsub.trans List.filter_sublist).length_le
    simp only [hu, Option.getD_some]
    rw [tikvListLoop_eq opt decode m hbase hu hp fetch _ _ _ (tikvStart_at opt m hu hp)
      ((inRange_rangeEntries m base).sublist hsub) (fun e he => hf e (hsub.subset he)) hlen,
      startEntries_map, prefixRun_startList opt (rangeKeys_pairwise m base)]
    rfl

/-! ## Both engines return the reference page -/

/-- The metadata listed for a key of a bucket. -/
def Store.listedMeta (s : Store) (b k : Bytes) : ObjectMeta :=
  ((s.objects.get? (objectKeyBytes b k)).map (decodeListed k)).getD {}

def TikvSnapshot.listedMeta (s : TikvSnapshot) (b k : Bytes) : ObjectMeta :=
  ((s.objects.get? (tkey s.deployment 79 (objectKeyBytes b k))).map (decodeListed k)).getD {}

/-- Looking the listed keys up in the table itself. -/
theorem fetches_get (m : SortedMap Bytes ObjectRec) (base : Bytes) :
    Fetches decodeListed base (fun k => ((m.get? (base ++ k)).map (decodeListed k)).getD {})
      (rangeEntries m base) := by
  intro e he
  have hget : m.get? e.1 = some e.2 := SortedMap.mem_entries.mp (List.mem_filter.mp he).1
  simp only [append_userKey ((inRange_rangeEntries m base).aligned e he), hget]
  rfl

theorem append_zero_append (b k : Bytes) : b ++ [0] ++ k = objectKeyBytes b k := by
  simp [objectKeyBytes]

/-- A bucket `p` with a group `a/` of two keys and the single key `b`. -/
def listedStore : Store :=
  { buckets := SortedMap.empty.insert (ascii "p") 0
    objects := SortedMap.empty.insertAll
      [(objectKeyBytes (ascii "p") (ascii "a/1"), {}),
       (objectKeyBytes (ascii "p") (ascii "a/2"), {}),
       (objectKeyBytes (ascii "p") (ascii "b"), {})] }

def listedSnapshot : TikvSnapshot :=
  { deployment := ascii "l3"
    buckets := SortedMap.empty.insert (tkey (ascii "l3") 66 (ascii "p")) 0
    objects := SortedMap.empty.insertAll
      [(tkey (ascii "l3") 79 (objectKeyBytes (ascii "p") (ascii "a/1")), {}),
       (tkey (ascii "l3") 79 (objectKeyBytes (ascii "p") (ascii "a/2")), {}),
       (tkey (ascii "l3") 79 (objectKeyBytes (ascii "p") (ascii "b")), {})] }

end Lights3
