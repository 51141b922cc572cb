import Lights3.Listing

/-!
# Pagination of the reference listing

A client repeats the request with the returned token as `start_after` until the
page is not truncated. The pages list every key and every group exactly once.
-/
namespace Lights3
open ByteString Grouping

variable {μ : Type}

/-- The pages a client sees when it follows the tokens from `token` on. -/
abbrev ListingPages (keys : List Bytes) (opt : ListOptions) (fetch : Bytes → μ) :
    Bytes → List (ListResult μ) → Prop :=
  Follows (fun token => applyListing keys { opt with startAfter := token } fetch)
    ListResult.isTruncated ListResult.nextToken

/-- The keys with the requested prefix. -/
def withPrefix (opt : ListOptions) (keys : List Bytes) : List Bytes :=
  keys.filter (fun k => opt.keyPrefix.isPrefixOf k)

variable {n : Nat} {opt : ListOptions}

theorem pageOf_eq (hn : 0 < n) (fetch : Bytes → μ) (xs : List (Item Bytes Bytes)) :
    pageOf n fetch xs =
      { objects := ((xs.take n).filterMap Item.single?).map fetch
        commonPrefixes := (xs.take n).filterMap Item.group?
        isTruncated := decide (n < xs.length)
        nextToken := if n < xs.length then
          (((xs.take n).getLast?).map Item.last).getD [] else [] } := by
  unfold pageOf
  rw [if_neg (by omega)]
  have h := pageFrom_eq fetch n xs 0 (Nat.zero_le n) [] {} rfl rfl
  simpa using h

/-- Every page but the last is full. -/
theorem pageOf_entries (hn : 0 < n) (fetch : Bytes → μ) (xs : List (Item Bytes Bytes)) :
    (pageOf n fetch xs).objects.length + (pageOf n fetch xs).commonPrefixes.length =
      min n xs.length := by
  rw [pageOf_eq hn]
  simp only [List.length_map]
  rw [length_singles_add_groups, List.length_take]

theorem listingPage_eq (opt : ListOptions) (fetch : Bytes → μ) {keys : List Bytes}
    (hs : keys.Pairwise (· < ·)) (hmax : opt.maxKeys = n) (token : Bytes) :
    applyListing keys { opt with startAfter := token } fetch =
      pageOf n fetch
        (items (groupOf opt) (visible { opt with startAfter := token } keys)) := by
  rw [← hmax]
  exact applyListing_eq_pageOf { opt with startAfter := token } fetch hs

theorem listing_shows (opt : ListOptions) (fetch : Bytes → μ) {keys : List Bytes}
    (hs : keys.Pairwise (· < ·)) (hn : 0 < n) (hmax : opt.maxKeys = n) :
    Shows (groupOf opt) (fun token => applyListing keys { opt with startAfter := token } fetch)
      ListResult.isTruncated ListResult.nextToken
      (fun token => visible { opt with startAfter := token } keys) id n where
  truncated_iff t := by
    rw [listingPage_eq opt fetch hs hmax, pageOf_eq hn]
    exact decide_eq_true_iff
  next_eq t x hlen hx := by
    rw [listingPage_eq opt fetch hs hmax, pageOf_eq hn]
    simp only [if_pos hlen, List.getLast?_take, if_neg (Nat.pos_iff_ne_zero.mp hn), hx]
    rfl

theorem withPrefix_pairwise (opt : ListOptions) {keys : List Bytes} (hs : keys.Pairwise (· < ·)) :
    (withPrefix opt keys).Pairwise (fun a b => (id a : Bytes) < id b) := hs.filter _

theorem visible_nil (opt : ListOptions) (keys : List Bytes) :
    visible { opt with startAfter := [] } keys = withPrefix opt keys := by
  simp [visible, withPrefix]

theorem mem_visible {keys : List Bytes} {k : Bytes} :
    k ∈ visible opt keys ↔
      k ∈ keys ∧ opt.keyPrefix <+: k ∧ (opt.startAfter = [] ∨ opt.startAfter < k) := by
  simp [visible]

theorem visible_pairwise (opt : ListOptions) {keys : List Bytes} (hs : keys.Pairwise (· < ·)) :
    (visible opt keys).Pairwise (fun a b => (id a : Bytes) < id b) := hs.filter _

/-- An item that can end a page never leaves the empty token, which would restart
the listing. -/
theorem pageEnd_ne_nil {keys : List Bytes} (hs : keys.Pairwise (· < ·)) (hne : [] ∉ keys ∨ 2 ≤ n)
    {m : Nat} {x : Item Bytes Bytes} (hx : (items (groupOf opt) (withPrefix opt keys))[m]? = some x)
    (hm : n ≤ m + 1) : x.last ≠ [] := by
  intro hnil
  rcases hne with hne | hn
  · have hmem := last_mem_of_mem_items (List.mem_of_getElem? hx)
    rw [hnil] at hmem
    exact hne (List.mem_filter.mp hmem).1
  · have hlen := (List.getElem?_eq_some_iff.mp hx).1
    obtain ⟨y, hy⟩ : ∃ y, (items (groupOf opt) (withPrefix opt keys))[0]? = some y :=
      ⟨_, List.getElem?_eq_getElem (by omega)⟩
    have hafter := items_after (withPrefix_pairwise opt hs) hy rfl
    obtain ⟨k, rfl⟩ : ∃ k, m = k + 1 := ⟨m - 1, by omega⟩
    have hx' : x ∈ (items (groupOf opt) (withPrefix opt keys)).drop (0 + 1) := by
      refine List.mem_of_getElem? (i := k) ?_
      rw [List.getElem?_drop, ← hx]
      congr 1
      omega
    rw [← hafter] at hx'
    have hlt := (List.mem_filter.mp (last_mem_of_mem_items hx')).2
    simp [hnil] at hlt

theorem visible_behind (opt : ListOptions) {keys : List Bytes} {token u : Bytes}
    (hmem : u ∈ visible { opt with startAfter := token } keys) (hu : u ≠ []) :
    visible { opt with startAfter := u } keys =
      (visible { opt with startAfter := token } keys).filter (fun k => u < k) := by
  have htoken : token = [] ∨ token < u := (mem_visible.mp hmem).2.2
  unfold visible
  rw [List.filter_filter]
  apply List.filter_congr
  intro k _
  rcases htoken with rfl | hlt
  · simp [hu, Bool.and_comm]
  · by_cases huk : u < k
    · simp [hu, huk, hlt.trans huk]
    · simp [hu, huk]

/-- From every token the pages list the items of the keys behind it, and all pages but the last
are full. -/
theorem listing_from {keys : List Bytes} (hs : keys.Pairwise (· < ·)) (opt : ListOptions)
    (fetch : Bytes → μ) (hpos : 0 < n) (hn : opt.maxKeys = n) (token : Bytes)
    (hne : token ≠ [] ∨ [] ∉ keys ∨ 2 ≤ n) :
    ∃ pages, ListingPages keys opt fetch token pages ∧ pages.length ≤ keys.length + 1 ∧
      pages.flatMap (·.objects) = ((items (groupOf opt)
        (visible { opt with startAfter := token } keys)).filterMap Item.single?).map fetch ∧
      pages.flatMap (·.commonPrefixes) = (items (groupOf opt)
        (visible { opt with startAfter := token } keys)).filterMap Item.group? ∧
      ∀ p ∈ pages.dropLast, p.objects.length + p.commonPrefixes.length = n := by
  have hend (m : Nat) (x : Item Bytes Bytes) (hx : (items (groupOf opt)
      (visible { opt with startAfter := token } keys))[m]? = some x) (hm : n ≤ m + 1) :
      x.last ≠ [] := by
    by_cases htoken : token = []
    · subst htoken
      rw [visible_nil] at hx
      exact pageEnd_ne_nil hs (hne.resolve_left (by simp)) hx hm
    · have hmem := last_mem_of_mem_items (List.mem_of_getElem? hx)
      have hlt : token < x.last := (mem_visible.mp hmem).2.2.resolve_left htoken
      rintro hnil
      simp [hnil] at hlt
  obtain ⟨ts, hfol, hflat, hfull⟩ :=
    follows_all hpos (visible_pairwise { opt with startAfter := token } hs)
      (listing_shows opt fetch hs hpos hn)
      (fun m x hx hm => (visible_behind opt (last_mem_of_mem_items (List.mem_of_getElem? hx))
        (hend m x hx hm)).trans (List.filter_congr (fun b _ => decide_eq_decide.mpr Iff.rfl))) rfl
  have hpage (t : Bytes) := (listingPage_eq opt fetch hs hn t).trans (pageOf_eq hpos fetch _)
  refine ⟨_, hfol, ?_, ?_, ?_, ?_⟩
  · have hshown (t : Bytes) (ht : t ∈ ts.dropLast) :
        (items (groupOf opt) (visible { opt with startAfter := t } keys)).take n ≠ [] := by
      intro hnil
      have hlt := hfull t ht
      have hlen := congrArg List.length hnil
      rw [List.length_take, List.length_nil] at hlen
      omega
    have hlen := length_le_of_dropLast hshown
    rw [hflat] at hlen
    have hitems := length_items_le (groupOf opt) (visible { opt with startAfter := token } keys)
    have hkeys : (visible { opt with startAfter := token } keys).length ≤ keys.length :=
      List.length_filter_le _ _
    rw [List.length_map]
    omega
  · rw [← hflat, List.filterMap_flatMap, List.map_flatMap, List.flatMap_map]
    simp only [hpage]
  · rw [← hflat, List.filterMap_flatMap, List.flatMap_map]
    simp only [hpage]
  · intro p hp
    rw [← List.map_dropLast, List.mem_map] at hp
    obtain ⟨t, ht, rfl⟩ := hp
    have hentries := pageOf_entries hpos fetch
      (items (groupOf opt) (visible { opt with startAfter := t } keys))
    rw [listingPage_eq opt fetch hs hn t]
    have := hfull t ht
    omega

/-- Pagination neither loses nor repeats. Following the tokens from the empty
one ends after a unique sequence of pages; they list the ungrouped keys in
order, every group once, and all pages but the last are full. -/
theorem listing_pagination {keys : List Bytes} (hs : keys.Pairwise (· < ·)) (opt : ListOptions)
    (fetch : Bytes → μ) (hmax : 1 ≤ opt.maxKeys) (hne : [] ∉ keys ∨ 2 ≤ opt.maxKeys) :
    ∃ pages, ListingPages keys opt fetch [] pages ∧
      (∀ ps, ListingPages keys opt fetch [] ps → ps = pages) ∧
      pages.flatMap (·.objects) =
        ((withPrefix opt keys).filter (fun k => (groupOf opt k).isNone)).map fetch ∧
      (pages.flatMap (·.commonPrefixes)).Nodup ∧
      (∀ g, g ∈ pages.flatMap (·.commonPrefixes) ↔
        ∃ k ∈ withPrefix opt keys, groupOf opt k = some g) ∧
      ∀ p ∈ pages.dropLast, (p.objects.length + p.commonPrefixes.length : Int) = opt.maxKeys := by
  obtain ⟨n, hn⟩ : ∃ n : Nat, opt.maxKeys = n := ⟨opt.maxKeys.toNat, by omega⟩
  have hne' : [] ∉ keys ∨ 2 ≤ n := hne.imp_right (fun h => by omega)
  obtain ⟨pages, hpages, -, hobjects, hgroups, hfull⟩ :=
    listing_from hs opt fetch (by omega) hn [] (Or.inr hne')
  rw [visible_nil] at hobjects hgroups
  refine ⟨pages, hpages, fun ps hps => hps.unique hpages, ?_, ?_, ?_, ?_⟩
  · rw [hobjects, singles_items]
  · rw [hgroups]
    exact groups_nodup (groupOf_contiguous opt) (withPrefix_pairwise opt hs)
  · intro g
    rw [hgroups]
    exact mem_groups_items
  · intro p hp
    rw [hn]
    exact_mod_cast hfull p hp

/-- Three keys in two items, one item a page. -/
theorem listing_pagination_example :
    ∃ pages, ListingPages [ascii "a/1", ascii "a/2", ascii "b"]
        { delimiter := ascii "/", maxKeys := 1 } id [] pages ∧
      pages.flatMap (·.objects) = [ascii "b"] ∧
      ascii "a/" ∈ pages.flatMap (·.commonPrefixes) := by
  obtain ⟨pages, hpages, -, hobj, -, hgrp, -⟩ :=
    listing_pagination (show [ascii "a/1", ascii "a/2", ascii "b"].Pairwise (· < ·) by decide)
      { delimiter := ascii "/", maxKeys := 1 } id (by decide) (Or.inl (by decide))
  refine ⟨pages, hpages, ?_, (hgrp _).mpr ⟨ascii "a/1", by decide, by decide⟩⟩
  rw [hobj]
  decide

/-- With the empty key in the list and one entry a page, the first page returns
the empty token and the listing restarts for ever. -/
theorem listing_emptyKey_loops :
    ¬ ∃ pages, ListingPages [[], ascii "a"] { maxKeys := 1 } (id : Bytes → Bytes) [] pages := by
  have hpage : applyListing [[], ascii "a"] { maxKeys := 1, startAfter := [] }
      (id : Bytes → Bytes) = { objects := [[]], isTruncated := true, nextToken := [] } := by decide
  have hnever : ∀ t pages, ListingPages [[], ascii "a"] { maxKeys := 1 } (id : Bytes → Bytes)
      t pages → t ≠ [] := by
    intro t pages h
    induction h with
    | last hlast =>
        rintro rfl
        rw [hpage] at hlast
        cases hlast
    | more _ _ ih =>
        rintro rfl
        rw [hpage] at ih
        exact ih rfl
  rintro ⟨pages, h⟩
  exact hnever [] pages h rfl

end Lights3
