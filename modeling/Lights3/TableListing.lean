import Lights3.Lib.PagedSweep
import Lights3.ListObjects
import Lights3.TableEntities

/-!
# The listing of a namespace and the loading of its tables

`Catalog::list_tables` goes over the pages of the store and leaves out tables that were dropped; the
REST handler then leaves out the names that the policy of the credential does not cover. A table is
loaded if its key or its directory is covered. The listing is compared with that over all pages that
a client gets when it follows the tokens.
-/
namespace Lights3
open ByteString

/-- The key of an entry in the directory of its namespace. -/
def jsonKey (name : Bytes) : Bytes := name ++ ascii ".json"

/-- The table entries below a namespace, in the order of their keys. -/
structure NamespaceTables where
  levels : Levels
  rows : List (TablePath × TableState)
  within : ∀ r ∈ rows, r.1.levels = levels
  sorted : rows.Pairwise fun x y => jsonKey x.1.name < jsonKey y.1.name

structure NamespaceTables.PageCursor where
  after : Bytes := []
  limit : Nat

structure ListPage where
  items : List Bytes
  nextAfter : Bytes := []

namespace NamespaceTables

variable (t : NamespaceTables)

def names : List Bytes := t.rows.map (·.1.name)

/-- What `get_table` says about a name: there is an entry, and it is no tombstone. -/
def live (name : Bytes) : Bool := t.rows.any fun r => r.1.name = name && r.2 ≠ .Deleted

/-- The names after a cursor. -/
def above (after : Bytes) : List Bytes :=
  t.names.filter fun n => after = [] || jsonKey after < jsonKey n

/-- `list_json_names` of the store. -/
def listJsonNames (c : PageCursor) : ListPage :=
  let rest := t.above c.after
  let items := rest.take c.limit
  { items, nextAfter := if c.limit < rest.length then items.getLastD [] else [] }

/-- The names of one page of the store that are no tombstones, behind `out`. A further one behind a
full page ends the page, with the cursor that continues it. -/
def takeLive (limit : Nat) (out : List Bytes) : List Bytes → List Bytes × Option Bytes
  | [] => (out, none)
  | n :: ns =>
      if t.live n then
        if limit ≤ out.length then (out, some (out.getLastD [])) else takeLive limit (out ++ [n]) ns
      else takeLive limit out ns

/-- The loop of `Catalog::list_tables`. -/
def listLoop (limit : Nat) : Nat → List Bytes → Bytes → ListPage
  | 0, out, _ => { items := out }
  | fuel + 1, out, after =>
      if out.length < limit then
        let page := t.listJsonNames { after, limit }
        match t.takeLive limit out page.items with
        | (out, some next) => { items := out, nextAfter := next }
        | (out, none) =>
            if page.nextAfter = [] then { items := out } else listLoop limit fuel out page.nextAfter
      else { items := out }

/-- `Catalog::list_tables`. -/
def listTables (c : PageCursor) : ListPage := t.listLoop c.limit (t.rows.length + 1) [] c.after

/-- The key under which the handler looks a name up in the policy. -/
def listKey (name : Bytes) : Bytes := nsPath t.levels ++ [slash] ++ name

/-- `RestApi::list_tables`: the names of the answer. The token holds `nextAfter` of the page. -/
def identifiers (p : CredentialPolicy) (c : PageCursor) : List Bytes :=
  (t.listTables c).items.filter fun n => p.allowsKey (t.listKey n)

/-- The cursors of a client that follows the tokens, with the page size of each of its requests. -/
def requests (size : Nat → Nat) : Nat → Nat → Bytes → List PageCursor
  | 0, _, _ => []
  | fuel + 1, i, after =>
      let next := (t.listTables { after, limit := size i }).nextAfter
      { after, limit := size i } :: if next = [] then [] else requests size fuel (i + 1) next

/-- All requests. No name is listed twice, so there are at most as many as names and one more. -/
def sweep (size : Nat → Nat) : List PageCursor := t.requests size (t.rows.length + 1) 0 []

end NamespaceTables

/-- The check of `dispatch` for the listing of a namespace. -/
def CredentialPolicy.mayList (fnmatch : Bytes → Bytes → Bool) (p : CredentialPolicy)
    (bucket : Bytes) (levels : Levels) : Bool :=
  p.allowsBucket fnmatch bucket && p.allowsAction .Read &&
    p.prefixMayContain (nsPath levels ++ [slash])

/-! ## One page -/

namespace NamespaceTables

variable {t : NamespaceTables} {limit : Nat} {out : List Bytes} {after n : Bytes} {c : PageCursor}

theorem names_sorted (t : NamespaceTables) : t.names.Pairwise fun x y => jsonKey x < jsonKey y :=
  List.pairwise_map.mpr t.sorted

theorem above_sorted (t : NamespaceTables) (after : Bytes) :
    (t.above after).Pairwise fun x y => jsonKey x < jsonKey y := t.names_sorted.filter _

theorem ne_nil_of_mem_names (h : n ∈ t.names) : n ≠ [] := by
  obtain ⟨r, -, rfl⟩ := List.mem_map.mp h
  refine validSegment_ne_nil (r.1.property.2 _ ?_)
  rw [← r.1.levels_append_name]
  exact List.mem_append_right _ List.mem_cons_self

theorem mem_names_of_mem_above (h : n ∈ t.above after) : n ∈ t.names := (List.mem_filter.mp h).1

/-- The names after one that comes after a cursor. -/
theorem above_of_mem (h : n ∈ t.above after) :
    t.above n = (t.above after).filter fun m => jsonKey n < jsonKey m := by
  have hn := ne_nil_of_mem_names (mem_names_of_mem_above h)
  have hlt := (List.mem_filter.mp h).2
  simp only [Bool.or_eq_true, decide_eq_true_eq] at hlt
  unfold above
  rw [List.filter_filter]
  refine List.filter_congr fun m _ => ?_
  rw [Bool.eq_iff_iff]
  simp only [hn, decide_false, Bool.false_or, Bool.and_eq_true, Bool.or_eq_true, decide_eq_true_eq]
  exact ⟨fun hm => ⟨hm, hlt.imp_right fun ha => ha.trans hm⟩, fun hm => hm.1⟩

/-- The names after the last one of a page are those that were left out of it. -/
theorem above_last (h : ((t.above after).take limit).getLast? = some n) :
    t.above n = (t.above after).drop limit := by
  rw [above_of_mem (List.mem_of_mem_take (List.mem_of_getLast? h)),
    ← SortedMap.filter_getLast_take (t.above_sorted after) h]
  exact List.filter_congr fun m _ => decide_eq_decide.mpr Iff.rfl

theorem above_length_lt (h : n ∈ t.above after) : (t.above n).length < (t.above after).length := by
  rw [above_of_mem h]
  exact List.length_filter_lt_length_iff_exists.mpr ⟨n, h, by simp⟩

theorem takeLive_eq (ns : List Bytes) (hout : out.length ≤ limit) :
    t.takeLive limit out ns =
      if (out ++ ns.filter t.live).length ≤ limit then (out ++ ns.filter t.live, none)
      else ((out ++ ns.filter t.live).take limit,
        some (((out ++ ns.filter t.live).take limit).getLastD [])) := by
  induction ns generalizing out with
  | nil => simp [takeLive, hout]
  | cons n ns ih =>
      rw [takeLive]
      by_cases hlive : t.live n = true
      · rw [if_pos hlive, List.filter_cons_of_pos hlive]
        split_ifs with hfull hlen hlen
        · simp only [List.length_append, List.length_cons] at hlen
          omega
        · obtain rfl : limit = out.length := by omega
          simp
        · rw [ih (by simp; omega), if_pos (by simpa using hlen)]
          simp
        · rw [ih (by simp; omega), if_neg (by simpa using hlen)]
          simp
      · rw [if_neg hlive, List.filter_cons_of_neg hlive, ih hout]

/-- After the pages of the store that were read there are exactly as many tables as the page can
hold. -/
def FullAt (t : NamespaceTables) (limit : Nat) (out ns : List Bytes) (j : Nat) : Prop :=
  (out ++ (ns.take (j * limit)).filter t.live).length = limit

/-- What the loop of the catalog returns, if it has come to `out` and `ns` is ahead. -/
structure PageSpec (t : NamespaceTables) (limit : Nat) (out ns : List Bytes)
    (page : ListPage) : Prop where
  items : page.items = (out ++ ns.filter t.live).take limit
  token : page.nextAfter ≠ [] → page.items.getLast? = some page.nextAfter ∧
    limit < (out ++ ns.filter t.live).length ∧ ∀ j, ¬ t.FullAt limit out ns j
  last : page.nextAfter = [] → (out ++ ns.filter t.live).length ≤ limit ∨ ∃ j,
    t.FullAt limit out ns j

theorem fullAt_succ (t : NamespaceTables) (limit : Nat) (out ns : List Bytes) (j : Nat) :
    t.FullAt limit out ns (j + 1) ↔
      t.FullAt limit (out ++ (ns.take limit).filter t.live) (ns.drop limit) j := by
  unfold FullAt
  rw [List.append_assoc, ← List.filter_append, Nat.succ_mul, Nat.add_comm, List.take_add]

theorem listLoop_spec (hlimit : 0 < limit) (fuel : Nat) (hfuel : (t.above after).length < fuel)
    (hout : out.length ≤ limit) (hnames : ∀ n ∈ out, n ≠ []) :
    PageSpec t limit out (t.above after) (t.listLoop limit fuel out after) := by
  induction fuel generalizing out after with
  | zero => omega
  | succ fuel ih =>
      rw [listLoop]
      split_ifs with hlt
      · -- The page of the store is the next `limit` names.
        have htotal : out ++ (t.above after).filter t.live =
            (out ++ ((t.above after).take limit).filter t.live) ++
            ((t.above after).drop limit).filter t.live := by
          rw [List.append_assoc, ← List.filter_append, List.take_append_drop]
        have hne (n : Bytes) (hn : n ∈ out ++ ((t.above after).take limit).filter t.live) : n ≠
            [] := by
          rcases List.mem_append.mp hn with hn | hn
          · exact hnames n hn
          · exact ne_nil_of_mem_names
              (mem_names_of_mem_above (List.mem_of_mem_take (List.mem_filter.mp hn).1))
        simp only [listJsonNames, takeLive_eq _ hout]
        by_cases hroom : (out ++ ((t.above after).take limit).filter t.live).length ≤ limit
        · rw [if_pos hroom]
          dsimp only
          by_cases hmore : limit < (t.above after).length
          · obtain ⟨x, hx⟩ : ∃ x, ((t.above after).take limit).getLast? = some x := by
              refine Option.ne_none_iff_exists'.mp fun h => ?_
              rw [List.getLast?_eq_none_iff, List.take_eq_nil_iff, ← List.length_eq_zero_iff] at h
              omega
            have hmem : x ∈ t.above after := List.mem_of_mem_take (List.mem_of_getLast? hx)
            have hdrop := above_last hx
            rw [if_pos hmore, List.getLastD_eq_getLast?, hx, Option.getD_some,
              if_neg (ne_nil_of_mem_names (mem_names_of_mem_above hmem))]
            have hspec :=
              ih (Nat.lt_of_lt_of_le (above_length_lt hmem) (Nat.le_of_lt_succ hfuel)) hroom hne
            rw [hdrop] at hspec
            refine ⟨htotal ▸ hspec.items, fun h => ?_, fun h => ?_⟩
            · obtain ⟨hlast, hlen, hfull⟩ := hspec.token h
              refine ⟨hlast, htotal ▸ hlen, fun j => ?_⟩
              cases j with
              | zero => simp [FullAt, Nat.ne_of_lt hlt]
              | succ j => exact fun hj => hfull j ((fullAt_succ t limit out _ j).mp hj)
            · rw [htotal]
              exact (hspec.last h).imp_right fun ⟨j, hj⟩ =>
                ⟨j + 1, (fullAt_succ t limit out _ j).mpr hj⟩
          · rw [if_neg hmore, if_pos rfl]
            rw [List.take_of_length_le (Nat.le_of_not_lt hmore)] at hroom ⊢
            exact ⟨(List.take_of_length_le hroom).symm, fun h => absurd rfl h, fun _ => .inl hroom⟩
        · rw [if_neg hroom]
          have hlen : limit < (out ++ (t.above after).filter t.live).length := by
            rw [htotal, List.length_append]
            omega
          obtain ⟨x, hx⟩ : ∃ x, ((out ++ ((t.above after).take limit).filter t.live).take
              limit).getLast? = some x := by
            refine Option.ne_none_iff_exists'.mp fun h => ?_
            rw [List.getLast?_eq_none_iff, List.take_eq_nil_iff, ← List.length_eq_zero_iff] at h
            omega
          refine ⟨?_, fun _ => ⟨?_, hlen, fun j => ?_⟩, fun h => ?_⟩
          · rw [htotal]
            exact (List.take_append_of_le_length (by omega)).symm
          · simp [List.getLastD_eq_getLast?, hx]
          · cases j with
            | zero => simp [FullAt, Nat.ne_of_lt hlt]
            | succ j =>
                rw [fullAt_succ, FullAt, List.length_append]
                omega
          · rw [List.getLastD_eq_getLast?, hx, Option.getD_some] at h
            exact absurd h (hne x (List.mem_of_mem_take (List.mem_of_getLast? hx)))
      · have hlen : out.length = limit := by omega
        refine ⟨?_, fun h => absurd rfl h, fun _ => .inr ⟨0, by simp [FullAt, hlen]⟩⟩
        rw [← hlen, List.take_left']
        rfl

theorem listTables_spec (hlimit : 0 < c.limit) :
    PageSpec t c.limit [] (t.above c.after) (t.listTables c) := by
  refine listLoop_spec hlimit _ ?_ (Nat.zero_le _) (by simp)
  have := List.length_filter_le (fun n => c.after = [] || jsonKey c.after < jsonKey n) t.names
  rw [names, List.length_map] at this
  exact Nat.lt_succ_of_le this

/-! ## All pages -/

/-- A page that ends where a page of the store ends holds the tables up to there. -/
theorem FullAt.take_eq {ns : List Bytes} {j : Nat} (h : t.FullAt limit [] ns j) :
    (ns.filter t.live).take limit = (ns.take (j * limit)).filter t.live := by
  unfold FullAt at h
  nth_rewrite 1 [← List.take_append_drop (j * limit) ns]
  rw [List.filter_append]
  exact List.take_left' h

theorem items_below {x : Bytes} (hlimit : 0 < c.limit)
    (hx : (t.listTables c).items.getLast? = some x)
    (hn : n ∈ (t.listTables c).items) : n ∉ t.above x := by
  have hitems := (listTables_spec (t := t) hlimit).items
  rw [List.nil_append] at hitems
  have hxmem : x ∈ t.above c.after :=
    (List.mem_filter.mp (List.mem_of_mem_take (hitems ▸ List.mem_of_getLast? hx))).1
  obtain ⟨front, hfront⟩ := List.getLast?_eq_some_iff.mp hx
  have hsorted : (t.listTables c).items.Pairwise fun x y => jsonKey x < jsonKey y := by
    rw [hitems]
    exact ((t.above_sorted c.after).filter _).sublist (List.take_sublist _ _)
  rw [above_of_mem hxmem, List.mem_filter, decide_eq_true_eq]
  rintro ⟨-, hlt⟩
  rw [hfront, List.mem_append] at hn
  rw [hfront, List.pairwise_append] at hsorted
  rcases hn with hn | hn
  · exact lt_asymm hlt (hsorted.2.2 n hn x List.mem_cons_self)
  · rw [List.mem_singleton.mp hn] at hlt
    exact lt_irrefl _ hlt

/-- What the requests of a client bring from a cursor on. -/
structure SweepSpec (t : NamespaceTables) (after : Bytes) (cs : List PageCursor) : Prop where
  positive : ∀ c ∈ cs, 0 < c.limit
  ahead : ∀ c ∈ cs, ∀ n ∈ t.above c.after, n ∈ t.above after
  /-- Tables that no page leaves behind are listed. -/
  complete : ∀ P : Bytes → Prop, (∀ c ∈ cs, ∀ j, t.FullAt c.limit [] (t.above c.after) j →
      ∀ n ∈ (t.above c.after).drop (j * c.limit), t.live n = true → ¬ P n) →
    ∀ n ∈ t.above after, t.live n = true → P n → ∃ c ∈ cs, n ∈ (t.listTables c).items
  /-- Tables behind the end of a page without a token are not listed. -/
  lost : ∀ c ∈ cs, ∀ j, t.FullAt c.limit [] (t.above c.after) j →
    ∀ n ∈ (t.above c.after).drop (j * c.limit), ∀ c' ∈ cs, n ∉ (t.listTables c').items

theorem mem_items_or_fullAt (hlimit : 0 < c.limit) (hlast : (t.listTables c).nextAfter = [])
    (hn : n ∈ t.above c.after) (hlive : t.live n = true) :
    n ∈ (t.listTables c).items ∨
      ∃ j, t.FullAt c.limit [] (t.above c.after) j ∧ n ∈ (t.above c.after).drop (j * c.limit) := by
  obtain ⟨hitems, -, hend⟩ := listTables_spec (t := t) hlimit
  rw [List.nil_append] at hitems hend
  rcases hend hlast with hlen | ⟨j, hj⟩
  · rw [hitems, List.take_of_length_le hlen]
    exact .inl (List.mem_filter.mpr ⟨hn, hlive⟩)
  · rw [← List.take_append_drop (j * c.limit) (t.above c.after), List.mem_append] at hn
    refine hn.imp (fun hn => ?_) fun hn => ⟨j, hj, hn⟩
    rw [hitems, hj.take_eq]
    exact List.mem_filter.mpr ⟨hn, hlive⟩

theorem not_mem_items_of_fullAt (hlimit : 0 < c.limit) {j : Nat}
    (hj : t.FullAt c.limit [] (t.above c.after) j)
    (hn : n ∈ (t.above c.after).drop (j * c.limit)) : n ∉ (t.listTables c).items := by
  rw [(listTables_spec (t := t) hlimit).items, List.nil_append, hj.take_eq]
  intro hmem
  have hsorted := t.above_sorted c.after
  rw [← List.take_append_drop (j * c.limit) (t.above c.after), List.pairwise_append] at hsorted
  exact lt_irrefl _ (hsorted.2.2 n (List.mem_filter.mp hmem).1 n hn)

theorem requests_spec {size : Nat → Nat} (hsize : ∀ i, 0 < size i) (fuel i : Nat) (after : Bytes)
    (hfuel : (t.above after).length < fuel) : SweepSpec t after (t.requests size fuel i after) := by
  induction fuel generalizing i after with
  | zero => omega
  | succ fuel ih =>
      set c : PageCursor := { after, limit := size i } with hc
      have hlimit : 0 < c.limit := hsize i
      obtain ⟨hitems, htoken, -⟩ := listTables_spec (t := t) hlimit
      rw [List.nil_append] at hitems htoken
      rw [requests, ← hc]
      split_ifs with hlast
      · refine ⟨by simpa using hlimit, by simp [hc], fun P hP n hn hlive hPn => ?_,
          fun c' hc' j hj n hn c'' hc'' => ?_⟩
        · rcases mem_items_or_fullAt hlimit hlast hn hlive with hmem | ⟨j, hj, hdrop⟩
          · exact ⟨c, List.mem_cons_self, hmem⟩
          · exact absurd hPn (hP c List.mem_cons_self j hj n hdrop hlive)
        · rw [List.mem_singleton.mp hc'] at hj hn
          rw [List.mem_singleton.mp hc'']
          exact not_mem_items_of_fullAt hlimit hj hn
      · obtain ⟨hx, hlen, hfull⟩ := htoken hlast
        have hxmem : (t.listTables c).nextAfter ∈ t.above after :=
          (List.mem_filter.mp (List.mem_of_mem_take (hitems ▸ List.mem_of_getLast? hx))).1
        have hspec :=
          ih (i + 1) _ (Nat.lt_of_lt_of_le (above_length_lt hxmem) (Nat.le_of_lt_succ hfuel))
        have hsub (n : Bytes) (hn : n ∈ t.above (t.listTables c).nextAfter) : n ∈ t.above after :=
          (List.mem_filter.mp (above_of_mem hxmem ▸ hn)).1
        refine ⟨?_, ?_, fun P hP n hn hlive hPn => ?_, fun c' hc' j hj n hn c'' hc'' => ?_⟩
        · exact List.forall_mem_cons.mpr ⟨hlimit, hspec.positive⟩
        · exact List.forall_mem_cons.mpr ⟨fun n hn => hn, fun c' hc' n hn =>
            hsub n (hspec.ahead c' hc' n hn)⟩
        · by_cases hmem : n ∈ (t.listTables c).items
          · exact ⟨c, List.mem_cons_self, hmem⟩
          · have hdrop : n ∈ ((t.above after).filter t.live).drop c.limit := by
              have hL := List.mem_filter.mpr ⟨hn, hlive⟩
              rw [← List.take_append_drop c.limit ((t.above after).filter t.live), List.mem_append]
                at hL
              exact hL.resolve_left (hitems ▸ hmem)
            rw [hitems] at hx
            have hsorted := (t.above_sorted after).filter t.live
            rw [← List.take_append_drop c.limit ((t.above after).filter t.live),
              List.pairwise_append] at hsorted
            have hlt := hsorted.2.2 _ (List.mem_of_getLast? hx) n hdrop
            have hnext : n ∈ t.above (t.listTables c).nextAfter := by
              rw [above_of_mem hxmem]
              exact List.mem_filter.mpr ⟨hn, decide_eq_true hlt⟩
            obtain ⟨c', hc', hn'⟩ :=
              hspec.complete P (fun c' hc' => hP c' (List.mem_cons_of_mem c hc')) n hnext hlive hPn
            exact ⟨c', List.mem_cons_of_mem c hc', hn'⟩
        · rcases List.mem_cons.mp hc' with rfl | hc'
          · exact absurd hj (hfull j)
          · rcases List.mem_cons.mp hc'' with rfl | hc''
            · exact fun hmem =>
                items_below hlimit hx hmem (hspec.ahead c' hc' n (List.mem_of_mem_drop hn))
            · exact hspec.lost c' hc' j hj n hn c'' hc''

theorem sweep_spec {size : Nat → Nat} (hsize : ∀ i, 0 < size i) :
    SweepSpec t [] (t.sweep size) := by
  refine requests_spec hsize _ 0 [] ?_
  have := List.length_filter_le (fun n => ([] : Bytes) = [] || jsonKey [] < jsonKey n) t.names
  rw [names, List.length_map] at this
  exact Nat.lt_succ_of_le this

/-! ## Where pages are cut -/

/-- A page of this size ends behind a table and is continued: the table is the last one that it can
hold, there are more, and no page of the store ends where the page is full. -/
structure CutBehind (t : NamespaceTables) (limit : Nat) (front : List Bytes) (n : Bytes)
    (rest : List Bytes) : Prop where
  live : t.live n = true
  count : (front.filter t.live).length + 1 = limit
  more : ∃ m ∈ rest, t.live m = true
  unfilled : ∀ j, ¬ t.FullAt limit [] (front ++ n :: rest) j

/-- The names that are ahead of a client at a request, if others are ahead at an earlier one. -/
inductive Ahead (t : NamespaceTables) (size : Nat → Nat) : Nat → List Bytes → Nat →
    List Bytes → Prop
  | here (i : Nat) (ns : List Bytes) : Ahead t size i ns i ns
  | next {i k : Nat} {front rest ns : List Bytes} {n : Bytes}
      (cut : t.CutBehind (size i) front n rest) (further : Ahead t size (i + 1) rest k ns) :
      Ahead t size i (front ++ n :: rest) k ns

theorem above_split {front rest : List Bytes} (h : t.above after = front ++ n :: rest) :
    t.above n = rest := by
  have hlast : ((t.above after).take (front.length + 1)).getLast? = some n := by
    rw [h, List.take_append]
    simp
  rw [above_last hlast, h, List.drop_append]
  simp

theorem ne_nil_of_above {front rest : List Bytes} (h : t.above after = front ++ n :: rest) :
    n ≠ [] := by
  have hn : n ∈ t.above after := by
    rw [h]
    exact List.mem_append_right _ List.mem_cons_self
  exact ne_nil_of_mem_names (mem_names_of_mem_above hn)

/-- A page is continued behind the table where it is cut. -/
theorem nextAfter_of_cutBehind (hlimit : 0 < c.limit) {front rest : List Bytes}
    (h : t.above c.after = front ++ n :: rest) (hcut : t.CutBehind c.limit front n rest) :
    (t.listTables c).nextAfter = n := by
  obtain ⟨hitems, htoken, hend⟩ := listTables_spec (t := t) hlimit
  rw [List.nil_append, h] at hend hitems
  have hlive : (front ++ n :: rest).filter t.live =
      front.filter t.live ++ [n] ++ rest.filter t.live := by
    simp [hcut.live]
  have hne : (t.listTables c).nextAfter ≠ [] := by
    intro hnil
    rcases hend hnil with hlen | ⟨j, hj⟩
    · obtain ⟨m, hm, hmore⟩ := hcut.more
      have hpos := List.length_pos_of_mem (List.mem_filter.mpr ⟨hm, hmore⟩)
      simp only [hlive, List.length_append, List.length_singleton, hcut.count] at hlen
      omega
    · exact hcut.unfilled j hj
  have hlast := (htoken hne).1
  rw [hitems, hlive, List.take_left' (by simp [hcut.count])] at hlast
  simpa using hlast.symm

/-- A page that is continued is cut there. -/
theorem cutBehind_of_nextAfter (hlimit : 0 < c.limit) (hne : (t.listTables c).nextAfter ≠ []) :
    ∃ front, t.above c.after =
        front ++ (t.listTables c).nextAfter :: t.above (t.listTables c).nextAfter ∧
      t.CutBehind c.limit front (t.listTables c).nextAfter
        (t.above (t.listTables c).nextAfter) := by
  obtain ⟨hitems, htoken, -⟩ := listTables_spec (t := t) hlimit
  obtain ⟨hlast, hlen, hfull⟩ := htoken hne
  generalize (t.listTables c).nextAfter = n at hlast ⊢
  rw [hitems] at hlast
  rw [List.nil_append] at hlast hlen
  obtain ⟨hmem, hlive⟩ := List.mem_filter.mp (List.mem_of_mem_take (List.mem_of_getLast? hlast))
  obtain ⟨front, rest, hsplit⟩ := List.append_of_mem hmem
  obtain rfl := above_split hsplit
  have hfilter : (t.above c.after).filter t.live =
      front.filter t.live ++ n :: (t.above n).filter t.live := by
    rw [hsplit]
    simp [hlive]
  -- Behind the table there are as many as behind the page.
  have hdrop : ((t.above c.after).filter t.live).drop c.limit =
      ((t.above c.after).filter t.live).drop ((front.filter t.live).length + 1) := by
    have hsorted := (t.above_sorted c.after).filter t.live
    have hfront : (((t.above c.after).filter t.live).take
        ((front.filter t.live).length + 1)).getLast? = some n := by
      rw [hfilter, List.take_append]
      simp
    rw [← SortedMap.filter_getLast_take hsorted hlast,
      ← SortedMap.filter_getLast_take hsorted hfront]
  have hcount := congrArg List.length hdrop
  simp only [hfilter, List.length_drop, List.length_append, List.length_cons] at hcount hlen
  refine ⟨front, hsplit, hlive, by omega, ?_, hsplit ▸ hfull⟩
  obtain ⟨m, hm⟩ := List.exists_mem_of_length_pos (l := (t.above n).filter t.live) (by omega)
  exact ⟨m, List.mem_filter.mp hm⟩

/-- The requests of a client, by what is ahead of it. -/
theorem requests_ahead {size : Nat → Nat} (hsize : ∀ i, 0 < size i) (fuel i : Nat) (after : Bytes)
    (hfuel : (t.above after).length < fuel) :
    (∀ c ∈ t.requests size fuel i after,
      ∃ k, Ahead t size i (t.above after) k (t.above c.after) ∧ c.limit = size k) ∧
    ∀ {k ns}, Ahead t size i (t.above after) k ns →
      ∃ c ∈ t.requests size fuel i after, c.limit = size k ∧ t.above c.after = ns := by
  induction fuel generalizing i after with
  | zero => omega
  | succ fuel ih =>
      have hlimit : 0 < ({ after, limit := size i } : PageCursor).limit := hsize i
      have hnext (hne : (t.listTables { after, limit := size i }).nextAfter ≠ []) :
          (t.above (t.listTables { after, limit := size i }).nextAfter).length < fuel := by
        obtain ⟨front, hsplit, -⟩ := cutBehind_of_nextAfter (t := t) hlimit hne
        have hlen := congrArg List.length hsplit
        simp only [List.length_append, List.length_cons] at hlen
        omega
      rw [requests]
      constructor
      · refine List.forall_mem_cons.mpr ⟨⟨i, .here .., rfl⟩, fun c hc => ?_⟩
        split_ifs at hc with hlast
        · cases hc
        · obtain ⟨k, hahead, hk⟩ := (ih (i + 1) _ (hnext hlast)).1 c hc
          obtain ⟨front, hsplit, hcut⟩ := cutBehind_of_nextAfter (t := t) hlimit hlast
          exact ⟨k, hsplit ▸ .next hcut hahead, hk⟩
      · intro k ns hahead
        generalize hns : t.above after = first at hahead
        cases hahead with
        | here => exact ⟨_, List.mem_cons_self, rfl, hns⟩
        | next hcut hfurther =>
            have htoken := nextAfter_of_cutBehind (t := t) hlimit hns hcut
            have hne : (t.listTables { after, limit := size i }).nextAfter ≠ [] := by
              rw [htoken]
              exact ne_nil_of_above hns
            rw [if_neg hne]
            obtain ⟨c, hc, hfound⟩ := (ih (i + 1) _ (hnext hne)).2
              (by rw [htoken, above_split hns]; exact hfurther)
            exact ⟨c, List.mem_cons_of_mem _ hc, hfound⟩

theorem above_nil (t : NamespaceTables) : t.above [] = t.names := by simp [above]

theorem sweep_ahead {size : Nat → Nat} (hsize : ∀ i, 0 < size i) :
    (∀ c ∈ t.sweep size, ∃ k, Ahead t size 0 t.names k (t.above c.after) ∧ c.limit = size k) ∧
    ∀ {k ns}, Ahead t size 0 t.names k ns →
      ∃ c ∈ t.sweep size, c.limit = size k ∧ t.above c.after = ns := by
  rw [← above_nil]
  exact requests_ahead hsize _ 0 [] (by simp [above_nil, names])

/-! ## The listing and the policy -/

theorem live_iff : t.live n = true ↔ ∃ r ∈ t.rows, r.1.name = n ∧ r.2 ≠ .Deleted := by
  simp [live, List.any_eq_true]

variable {fnmatch : Bytes → Bytes → Bool} {p : CredentialPolicy} {bucket : Bytes}

/-- A live table with this name that the credential may load. -/
def Loadable (t : NamespaceTables) (fnmatch : Bytes → Bytes → Bool) (p : CredentialPolicy)
    (bucket name : Bytes) :
    Prop :=
  ∃ r ∈ t.rows, r.1.name = name ∧ r.2 ≠ .Deleted ∧ p.allowsTable fnmatch bucket r.1 .Read = true

theorem loadable_of_allowsKey (hlist : p.mayList fnmatch bucket t.levels = true)
    (hlive : t.live n = true)
    (hkey : p.allowsKey (t.listKey n) = true) : t.Loadable fnmatch p bucket n := by
  simp only [CredentialPolicy.mayList, Bool.and_eq_true] at hlist
  obtain ⟨r, hr, rfl, hstate⟩ := live_iff.mp hlive
  refine ⟨r, hr, rfl, hstate, ?_⟩
  have hallows : p.allows fnmatch bucket (t.listKey r.1.name) .Read = true :=
    (CredentialPolicy.allows_iff (by simp [listKey])).mpr ⟨hlist.1.2, hlist.1.1, hkey⟩
  rw [listKey, ← t.within r hr] at hallows
  exact Bool.or_eq_true_iff.mpr (.inl hallows)

/-- The listing of a namespace over all pages and the tokens in it agree with what the credential
may load exactly when no live table is covered by its directory only, no page that is filled up by
the end of a page of the store leaves a covered table behind, and pages are cut behind covered
tables. -/
theorem listing_agrees_with_loading (fnmatch : Bytes → Bytes → Bool) (p : CredentialPolicy)
    (bucket : Bytes) (t : NamespaceTables) (size : Nat → Nat) (hsize : ∀ i, 0 < size i)
    (hlist : p.mayList fnmatch bucket t.levels = true) :
    ((∀ n, (∃ c ∈ t.sweep size, n ∈ t.identifiers p c) ↔ t.Loadable fnmatch p bucket n) ∧
      ∀ c ∈ t.sweep size, (t.listTables c).nextAfter ≠ [] →
        t.Loadable fnmatch p bucket (t.listTables c).nextAfter) ↔
    (∀ n, t.Loadable fnmatch p bucket n → p.allowsKey (t.listKey n) = true) ∧
    (∀ i ns, Ahead t size 0 t.names i ns → ∀ j, t.FullAt (size i) [] ns j →
      ∀ n ∈ ns.drop (j * size i), t.live n = true → ¬ p.allowsKey (t.listKey n) = true) ∧
    ∀ i front n rest, Ahead t size 0 t.names i (front ++ n :: rest) →
      t.CutBehind (size i) front n rest → p.allowsKey (t.listKey n) = true := by
  have hspec := sweep_spec (t := t) hsize
  obtain ⟨hahead, hsweep⟩ := sweep_ahead (t := t) hsize
  have hlive {c : PageCursor} (hc : c ∈ t.sweep size) {n : Bytes}
      (hn : n ∈ (t.listTables c).items) : t.live n = true := by
    rw [(listTables_spec (t := t) (hspec.positive c hc)).items] at hn
    exact (List.mem_filter.mp (List.mem_of_mem_take hn)).2
  constructor
  · rintro ⟨hlisted, htokens⟩
    have hkeys (n : Bytes) (hn : t.Loadable fnmatch p bucket n) : p.allowsKey (t.listKey n) =
        true := by
      obtain ⟨c, -, hmem⟩ := (hlisted n).mpr hn
      exact (List.mem_filter.mp hmem).2
    refine ⟨hkeys, fun i ns hns j hj n hn hl hkey => ?_, fun i front n rest hns hcut => ?_⟩
    · obtain ⟨c, hc, hlimit, rfl⟩ := hsweep hns
      obtain ⟨c', hc', hmem⟩ := (hlisted n).mpr (loadable_of_allowsKey hlist hl hkey)
      rw [← hlimit] at hj hn
      exact hspec.lost c hc j hj n hn c' hc' (List.mem_filter.mp hmem).1
    · obtain ⟨c, hc, hlimit, hsplit⟩ := hsweep hns
      have htoken := nextAfter_of_cutBehind (hspec.positive c hc) hsplit (hlimit ▸ hcut)
      have hne := ne_nil_of_above hsplit
      rw [← htoken] at hne ⊢
      exact hkeys _ (htokens c hc hne)
  · rintro ⟨hkeys, hlost, hcuts⟩
    refine ⟨fun n => ⟨fun ⟨c, hc, hmem⟩ => ?_, fun hn => ?_⟩, fun c hc hne => ?_⟩
    · obtain ⟨hitem, hkey⟩ := List.mem_filter.mp hmem
      exact loadable_of_allowsKey hlist (hlive hc hitem) hkey
    · have hkey := hkeys n hn
      obtain ⟨r, hr, rfl, hstate, -⟩ := hn
      have habove : r.1.name ∈ t.above [] := List.mem_filter.mpr ⟨List.mem_map_of_mem hr, rfl⟩
      obtain ⟨c, hc, hmem⟩ := hspec.complete (fun n => p.allowsKey (t.listKey n) = true)
        (fun c hc j hj n hn => by
          obtain ⟨k, hk, hlimit⟩ := hahead c hc
          rw [hlimit] at hj hn
          exact hlost k _ hk j hj n hn)
        _ habove (live_iff.mpr ⟨r, hr, rfl, hstate⟩) hkey
      exact ⟨c, hc, List.mem_filter.mpr ⟨hmem, hkey⟩⟩
    · obtain ⟨k, hk, hlimit⟩ := hahead c hc
      obtain ⟨front, hsplit, hcut⟩ := cutBehind_of_nextAfter (hspec.positive c hc) hne
      exact loadable_of_allowsKey hlist hcut.live
        (hcuts k front _ _ (hsplit ▸ hk) (hlimit ▸ hcut))

instance (t : NamespaceTables) (fnmatch : Bytes → Bytes → Bool) (p : CredentialPolicy)
    (bucket name : Bytes) :
    Decidable (t.Loadable fnmatch p bucket name) :=
  inferInstanceAs (Decidable (∃ r ∈ t.rows, _))

/-- Three tables. -/
def threeTables : NamespaceTables where
  levels := [ascii "sales"]
  rows := [(⟨[ascii "sales", ascii "a"], by decide⟩, .Active),
    (⟨[ascii "sales", ascii "b"], by decide⟩, .Active),
    (⟨[ascii "sales", ascii "c"], by decide⟩, .Active)]
  within := by decide
  sorted := by decide

/-- Four tables, of which the second was dropped. -/
def fourTables : NamespaceTables where
  levels := [ascii "sales"]
  rows := [(⟨[ascii "sales", ascii "a"], by decide⟩, .Active),
    (⟨[ascii "sales", ascii "b"], by decide⟩, .Deleted),
    (⟨[ascii "sales", ascii "c"], by decide⟩, .Active),
    (⟨[ascii "sales", ascii "d"], by decide⟩, .Active)]
  within := by decide
  sorted := by decide

/-- Two pages of two tables at most. -/
theorem listing_agrees_with_loading_dropped :
    (fourTables.sweep fun _ => 2).map (fourTables.identifiers { prefixes := [ascii "sales/"] }) =
      [[ascii "a", ascii "c"], [ascii "d"]] ∧
    ∀ n, (∃ c ∈ fourTables.sweep fun _ => 2,
        n ∈ fourTables.identifiers { prefixes := [ascii "sales/"] } c) ↔
      fourTables.Loadable (fun _ _ => true) { prefixes := [ascii "sales/"] } (ascii "lake") n := by
  have hcovered : ∀ r ∈ fourTables.rows, CredentialPolicy.allowsKey { prefixes := [ascii "sales/"] }
      (fourTables.listKey r.1.name) = true := by
    decide +kernel
  have hsweep : ∀ {k ns}, Ahead fourTables (fun _ => 2) 0 fourTables.names k ns →
      ∃ c ∈ fourTables.sweep (fun _ => 2), c.limit = 2 ∧ fourTables.above c.after = ns :=
    (sweep_ahead (fun _ => by decide)).2
  have hcounts : ∀ c ∈ fourTables.sweep fun _ => 2,
      ¬ fourTables.FullAt 2 [] (fourTables.above c.after) 0 ∧
      ¬ fourTables.FullAt 2 [] (fourTables.above c.after) 1 ∧
      (fourTables.above c.after).length ≤ 4 := by
    unfold FullAt
    decide +kernel
  refine ⟨by decide +kernel, ((listing_agrees_with_loading (fun _ _ => true)
    { prefixes := [ascii "sales/"] } (ascii "lake") fourTables (fun _ => 2) (fun _ => by decide)
    (by decide +kernel)).mpr ⟨fun n ⟨r, hr, heq, _⟩ => heq ▸ hcovered r hr, ?_, ?_⟩).1⟩
  · intro i ns hns j hj n hn
    obtain ⟨c, hc, -, rfl⟩ := hsweep hns
    obtain ⟨h₀, h₁, hlen⟩ := hcounts c hc
    match j with
    | 0 => exact absurd hj h₀
    | 1 => exact absurd hj h₁
    | j + 2 =>
        rw [List.drop_eq_nil_of_le (by omega)] at hn
        cases hn
  · intro i front n rest _ hcut
    obtain ⟨r, hr, rfl, -⟩ := live_iff.mp hcut.live
    exact hcovered r hr

/-- A table that is covered by its own directory can be loaded and is not listed; a page without
tombstones has no token though there are more tables; and a token holds the name of a table that is
not covered. -/
theorem listing_disagrees_with_loading :
    (threeTables.Loadable (fun _ _ => true) { prefixes := [ascii "sales/a/"] } (ascii "lake")
      (ascii "a") ∧
      ¬ ∃ c ∈ threeTables.sweep fun _ =>
        3, ascii "a" ∈ threeTables.identifiers { prefixes := [ascii "sales/a/"] } c) ∧
    (threeTables.Loadable (fun _ _ => true) {} (ascii "lake") (ascii "c") ∧
      ¬ ∃ c ∈ threeTables.sweep fun _ => 2, ascii "c" ∈ threeTables.identifiers {} c) ∧
    ∃ c ∈ fourTables.sweep fun _ => 2, (fourTables.listTables c).nextAfter = ascii "c" ∧
      ¬ fourTables.Loadable (fun _ _ => true) { prefixes := [ascii "sales/a"] }
      (ascii "lake") (ascii "c") := by
  decide +kernel

end NamespaceTables

end Lights3
