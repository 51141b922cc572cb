import Mathlib.Tactic

/-!
# Grouped pagination of a sorted list

Neighbours of a sorted list that belong to the same group are shown as one
item. A page holds a bounded number of items, and the position of the last
element behind the last item is where the next page starts. Following the
positions visits every item once.
-/
namespace Grouping

variable {α γ κ : Type}

/-- A listed element, or a group together with its last element. -/
inductive Item (α γ : Type) where
  | single (a : α)
  | group (g : γ) (tail : α)

namespace Item

/-- The last element behind an item. -/
def last : Item α γ → α
  | single a => a
  | group _ t => t

def single? : Item α γ → Option α
  | single a => some a
  | group _ _ => none

def group? : Item α γ → Option γ
  | single _ => none
  | group g _ => some g

end Item

variable [DecidableEq γ] (grp : α → Option γ)

/-- The items of a list: neighbours with the same group are merged. -/
def items : List α → List (Item α γ)
  | [] => []
  | a :: as =>
      match grp a with
      | none => .single a :: items as
      | some g =>
          match items as with
          | .group g' t :: rest =>
              if g' = g then .group g t :: rest else .group g a :: .group g' t :: rest
          | rest => .group g a :: rest

variable {grp}

section

attribute [local simp] items

variable {as : List α}

theorem items_none {a : α} (h : grp a = none) :
    items grp (a :: as) = .single a :: items grp as := by
  simp [h]

theorem items_merge {a t : α} {g : γ} {rest : List (Item α γ)} (h : grp a = some g)
    (has : items grp as = .group g t :: rest) : items grp (a :: as) = .group g t :: rest := by
  simp [h, has]

theorem items_new {a : α} {g : γ} (h : grp a = some g)
    (has : ∀ t rest, items grp as ≠ .group g t :: rest) :
    items grp (a :: as) = .group g a :: items grp as := by
  simp only [items, h]
  split
  · rename_i g' t rest heq
    have hne : g' ≠ g := by
      rintro rfl
      exact has t rest heq
    rw [if_neg hne, heq]
  · rfl

end

/-- The first item belongs to the first element. -/
theorem items_head {a : α} {as : List α} {x : Item α γ} {xs : List (Item α γ)}
    (h : items grp (a :: as) = x :: xs) : x.group? = grp a := by
  cases hg : grp a with
  | none =>
      rw [items_none hg] at h
      cases h
      rfl
  | some g =>
      by_cases hm : ∃ t rest, items grp as = .group g t :: rest
      · obtain ⟨t, rest, has⟩ := hm
        rw [items_merge hg has] at h
        cases h
        rfl
      · rw [items_new hg (fun t rest has => hm ⟨t, rest, has⟩)] at h
        cases h
        rfl

variable (grp) in
theorem items_ne_nil (a : α) (as : List α) : items grp (a :: as) ≠ [] := by
  cases hg : grp a with
  | none => simp [items_none hg]
  | some g =>
      by_cases hm : ∃ t rest, items grp as = .group g t :: rest
      · obtain ⟨t, rest, has⟩ := hm
        simp [items_merge hg has]
      · simp [items_new hg (fun t rest has => hm ⟨t, rest, has⟩)]

/-- The single items are the ungrouped elements, in order. -/
theorem singles_items (l : List α) :
    (items grp l).filterMap Item.single? = l.filter (fun a => (grp a).isNone) := by
  induction l with
  | nil => rfl
  | cons a as ih =>
      cases hg : grp a with
      | none => simp [items_none hg, ih, hg, Item.single?]
      | some g =>
          by_cases hm : ∃ t rest, items grp as = .group g t :: rest
          · obtain ⟨t, rest, has⟩ := hm
            rw [items_merge hg has, ← has, ih]
            simp [hg]
          · rw [items_new hg (fun t rest has => hm ⟨t, rest, has⟩)]
            simp only [List.filterMap_cons, Item.single?, ih]
            simp [hg]

/-- The listed groups are the groups of the elements. -/
theorem mem_groups_items {l : List α} {g : γ} :
    g ∈ (items grp l).filterMap Item.group? ↔ ∃ a ∈ l, grp a = some g := by
  induction l with
  | nil => simp [items]
  | cons a as ih =>
      rw [List.exists_mem_cons_iff, ← ih]
      cases hg : grp a with
      | none => simp [items_none hg, Item.group?]
      | some g' =>
          by_cases hm : ∃ t rest, items grp as = .group g' t :: rest
          · obtain ⟨t, rest, has⟩ := hm
            rw [items_merge hg has, has]
            simp only [Item.group?, List.filterMap_cons, List.mem_cons, Option.some.injEq]
            constructor
            · exact Or.inr
            · rintro (rfl | h)
              · exact Or.inl rfl
              · exact h
          · rw [items_new hg (fun t rest has => hm ⟨t, rest, has⟩)]
            simp only [Item.group?, List.filterMap_cons, List.mem_cons, Option.some.injEq]
            exact or_congr_left eq_comm

omit [DecidableEq γ] in
theorem length_singles_add_groups (xs : List (Item α γ)) :
    (xs.filterMap Item.single?).length + (xs.filterMap Item.group?).length = xs.length := by
  induction xs with
  | nil => rfl
  | cons x xs ih =>
      cases x <;>
        simp only [List.filterMap_cons, Item.single?, Item.group?, List.length_cons] <;> omega

variable (grp) in
theorem length_items_le (l : List α) : (items grp l).length ≤ l.length := by
  induction l with
  | nil => simp [items]
  | cons a as ih =>
      cases hg : grp a with
      | none => simpa [items_none hg] using ih
      | some g =>
          by_cases hm : ∃ t rest, items grp as = .group g t :: rest
          · obtain ⟨t, rest, has⟩ := hm
            rw [items_merge hg has, ← has]
            exact ih.trans (Nat.le_succ _)
          · rw [items_new hg (fun t rest has => hm ⟨t, rest, has⟩)]
            simpa using ih

section Sorted

variable [LinearOrder κ] {pos : α → κ}

/-- Groups are intervals of the order. -/
def Contiguous (grp : α → Option γ) (pos : α → κ) : Prop :=
  ∀ ⦃a b c g⦄, pos a ≤ pos b → pos b ≤ pos c → grp a = some g → grp c = some g → grp b = some g

variable {l : List α}

/-- No group is listed twice. -/
theorem groups_nodup (hc : Contiguous grp pos) (hs : l.Pairwise (fun a b => pos a < pos b)) :
    ((items grp l).filterMap Item.group?).Nodup := by
  induction l with
  | nil => exact List.nodup_nil
  | cons a as ih =>
      obtain ⟨ha, hs⟩ := List.pairwise_cons.mp hs
      cases hg : grp a with
      | none =>
          rw [items_none hg]
          simpa only [List.filterMap_cons, Item.group?] using ih hs
      | some g =>
          by_cases hm : ∃ t rest, items grp as = .group g t :: rest
          · obtain ⟨t, rest, has⟩ := hm
            have h := ih hs
            rwa [items_merge hg has, ← has]
          · rw [items_new hg (fun t rest has => hm ⟨t, rest, has⟩)]
            simp only [List.filterMap_cons, Item.group?, List.nodup_cons]
            refine ⟨?_, ih hs⟩
            intro hmem
            obtain ⟨c, hcm, hcg⟩ := mem_groups_items.mp hmem
            cases as with
            | nil => simp at hcm
            | cons b bs =>
                have hbc : pos b ≤ pos c := by
                  rcases List.mem_cons.mp hcm with rfl | hmem
                  · exact le_rfl
                  · exact le_of_lt ((List.pairwise_cons.mp hs).1 c hmem)
                have hb := hc (le_of_lt (ha b List.mem_cons_self)) hbc hg hcg
                obtain ⟨x, xs, hx⟩ := List.exists_cons_of_ne_nil (items_ne_nil grp b bs)
                have hhead := items_head hx
                rw [hb] at hhead
                cases x with
                | single c => simp [Item.group?] at hhead
                | group g' t =>
                    simp only [Item.group?, Option.some.injEq] at hhead
                    subst hhead
                    exact hm ⟨t, xs, hx⟩

variable (grp) in
/-- What follows the first item are the items of the elements behind it. -/
theorem items_cons {a : α} {as : List α} (hs : (a :: as).Pairwise (fun x y => pos x < pos y)) :
    ∃ x t, x.last = t ∧ items grp (a :: as) = x :: items grp (as.filter (fun b => pos t < pos b)) ∧
      t ∈ a :: as ∧ pos a ≤ pos t := by
  induction as generalizing a with
  | nil =>
      cases hg : grp a with
      | none => exact ⟨.single a, a, rfl, by rw [items_none hg]; rfl, List.mem_cons_self, le_rfl⟩
      | some g =>
          refine ⟨.group g a, a, rfl, ?_, List.mem_cons_self, le_rfl⟩
          rw [items_new hg (by simp [items])]
          rfl
  | cons b bs ih =>
      obtain ⟨ha, hs'⟩ := List.pairwise_cons.mp hs
      have hkeep : (b :: bs).filter (fun c => pos a < pos c) = b :: bs :=
        List.filter_eq_self.mpr (fun c hc => decide_eq_true (ha c hc))
      cases hg : grp a with
      | none =>
          refine ⟨.single a, a, rfl, ?_, List.mem_cons_self, le_rfl⟩
          rw [items_none hg, hkeep]
      | some g =>
          by_cases hm : ∃ t rest, items grp (b :: bs) = .group g t :: rest
          · obtain ⟨x, t, hlast, hx, hmem, hle⟩ := ih hs'
            obtain ⟨t', rest, has⟩ := hm
            rw [has, List.cons.injEq] at hx
            obtain ⟨rfl, hrest⟩ := hx
            have hlt : pos a < pos t := ha t hmem
            refine ⟨.group g t', t, hlast, ?_, List.mem_cons_of_mem a hmem, le_of_lt hlt⟩
            rw [items_merge hg has, hrest, List.filter_cons_of_neg (by simpa using hle)]
          · refine ⟨.group g a, a, rfl, ?_, List.mem_cons_self, le_rfl⟩
            rw [items_new hg (fun t rest has => hm ⟨t, rest, has⟩), hkeep]

theorem last_mem_of_mem_items {x : Item α γ} (hx : x ∈ items grp l) : x.last ∈ l := by
  induction l with
  | nil => simp [items] at hx
  | cons a as ih =>
      cases hg : grp a with
      | none =>
          rw [items_none hg] at hx
          rcases List.mem_cons.mp hx with rfl | hx
          · exact List.mem_cons_self
          · exact List.mem_cons_of_mem a (ih hx)
      | some g =>
          by_cases hm : ∃ t rest, items grp as = .group g t :: rest
          · obtain ⟨t, rest, has⟩ := hm
            rw [items_merge hg has, ← has] at hx
            exact List.mem_cons_of_mem a (ih hx)
          · rw [items_new hg (fun t rest has => hm ⟨t, rest, has⟩)] at hx
            rcases List.mem_cons.mp hx with rfl | hx
            · exact List.mem_cons_self
            · exact List.mem_cons_of_mem a (ih hx)

/-- Restarting behind the item at index `n` gives the remaining items. -/
theorem items_after (hs : l.Pairwise (fun x y => pos x < pos y)) {n : Nat} {y : Item α γ} {u : α}
    (hy : (items grp l)[n]? = some y) (hu : y.last = u) :
    items grp (l.filter (fun b => pos u < pos b)) = (items grp l).drop (n + 1) := by
  induction n generalizing l with
  | zero =>
      cases l with
      | nil => simp [items] at hy
      | cons a as =>
          obtain ⟨x, t, hlast, hx, -, hle⟩ := items_cons grp hs
          rw [hx] at hy ⊢
          simp only [List.getElem?_cons_zero, Option.some.injEq] at hy
          subst hy
          rw [← hlast, hu] at hle
          rw [List.filter_cons_of_neg (by simpa using hle), ← hlast, hu]
          rfl
  | succ n ih =>
      cases l with
      | nil => simp [items] at hy
      | cons a as =>
          obtain ⟨x, t, hlast, hx, -, hle⟩ := items_cons grp hs
          rw [hx] at hy ⊢
          simp only [List.getElem?_cons_succ] at hy
          have hs' := (List.pairwise_cons.mp hs).2.filter (fun b => decide (pos t < pos b))
          have hmem := last_mem_of_mem_items (List.mem_of_getElem? hy)
          rw [hu] at hmem
          have hxy : pos t < pos u := by
            simpa using (List.mem_filter.mp hmem).2
          rw [List.drop_succ_cons, ← ih hs' hy, List.filter_filter,
            List.filter_cons_of_neg (by simpa using le_of_lt (lt_of_le_of_lt hle hxy))]
          congr 1
          apply List.filter_congr
          intro b _
          rw [Bool.eq_iff_iff, Bool.and_eq_true, decide_eq_true_iff, decide_eq_true_iff]
          exact ⟨fun h => ⟨h, hxy.trans h⟩, fun h => h.1⟩

end Sorted

section Follow

variable {τ ρ : Type}

/-- Request a page, and while it says that more follows request the page at the
token it returned. -/
inductive Follows (page : τ → ρ) (truncated : ρ → Bool) (next : ρ → τ) : τ → List ρ → Prop
  | last {t : τ} (h : truncated (page t) = false) : Follows page truncated next t [page t]
  | more {t : τ} {rest : List ρ} (h : truncated (page t) = true)
      (hrest : Follows page truncated next (next (page t)) rest) :
      Follows page truncated next t (page t :: rest)

variable {page : τ → ρ} {truncated : ρ → Bool} {next : ρ → τ}

theorem Follows.unique {t : τ} {ps qs : List ρ} (hp : Follows page truncated next t ps)
    (hq : Follows page truncated next t qs) : ps = qs := by
  induction hp generalizing qs with
  | last h =>
      cases hq with
      | last => rfl
      | more h' => rw [h] at h'; cases h'
  | more h _ ih =>
      cases hq with
      | last h' => rw [h] at h'; cases h'
      | more _ hrest => rw [ih hrest]

variable [LinearOrder κ] {pos : α → κ} {view : τ → List α} {tok : α → τ} {n : Nat} {l : List α}

/-- What a page shows of the elements it can see: at most `n` items, and when there
are more the token of the last element behind the last item. -/
structure Shows (grp : α → Option γ) (page : τ → ρ) (truncated : ρ → Bool) (next : ρ → τ)
    (view : τ → List α) (tok : α → τ) (n : Nat) : Prop where
  truncated_iff : ∀ t, truncated (page t) = true ↔ n < (items grp (view t)).length
  next_eq : ∀ t x, n < (items grp (view t)).length →
    (items grp (view t))[n - 1]? = some x → next (page t) = tok x.last

/-- Following the tokens ends, and the pages show every item exactly once. The
token of an item that ends a page must start behind that item. -/
theorem follows_all (hn : 0 < n) (hs : l.Pairwise (fun x y => pos x < pos y))
    (hshow : Shows grp page truncated next view tok n)
    (hview : ∀ m x, (items grp l)[m]? = some x → n ≤ m + 1 →
      view (tok x.last) = l.filter (fun b => pos x.last < pos b))
    {start : τ} (hstart : view start = l) :
    ∃ ts : List τ, Follows page truncated next start (ts.map page) ∧
      ts.flatMap (fun t => (items grp (view t)).take n) = items grp l ∧
      ∀ t ∈ ts.dropLast, n < (items grp (view t)).length := by
  have key : ∀ d k t, (items grp l).length - k ≤ d → items grp (view t) = (items grp l).drop k →
      ∃ ts : List τ, Follows page truncated next t (ts.map page) ∧
        ts.flatMap (fun t => (items grp (view t)).take n) = (items grp l).drop k ∧
        ∀ t ∈ ts.dropLast, n < (items grp (view t)).length := by
    intro d
    induction d with
    | zero =>
        intro k t hd ht
        have hlen : (items grp (view t)).length ≤ n := by
          rw [ht, List.length_drop]
          omega
        have hfalse : truncated (page t) = false := by
          rw [← Bool.not_eq_true, hshow.truncated_iff]
          omega
        refine ⟨[t], Follows.last hfalse, ?_, by simp⟩
        rw [List.flatMap_singleton, List.take_of_length_le hlen, ht]
    | succ d ih =>
        intro k t hd ht
        by_cases hlen : n < (items grp (view t)).length
        · have hkn : k + n < (items grp l).length := by
            rw [ht, List.length_drop] at hlen
            omega
          obtain ⟨x, hx⟩ : ∃ x, (items grp l)[k + n - 1]? = some x :=
            ⟨_, List.getElem?_eq_getElem (by omega)⟩
          have hx' : (items grp (view t))[n - 1]? = some x := by
            rw [ht, List.getElem?_drop, ← hx]
            congr 1
            omega
          have hnext := hshow.next_eq t x hlen hx'
          have hrest : items grp (view (tok x.last)) = (items grp l).drop (k + n) := by
            rw [hview (k + n - 1) x hx (by omega), items_after hs hx rfl]
            congr 1
            omega
          obtain ⟨ts, hfol, hflat, hfull⟩ := ih (k + n) (tok x.last) (by omega) hrest
          refine ⟨t :: ts, ?_, ?_, ?_⟩
          · rw [List.map_cons]
            refine Follows.more ((hshow.truncated_iff t).mpr hlen) ?_
            rwa [hnext]
          · rw [List.flatMap_cons, hflat, ht, ← List.drop_drop, List.take_append_drop]
          · cases ts with
            | nil => simp
            | cons u us =>
                rw [List.dropLast_cons_of_ne_nil (by simp)]
                exact List.forall_mem_cons.mpr ⟨hlen, hfull⟩
        · have hfalse : truncated (page t) = false := by
            rwa [← Bool.not_eq_true, hshow.truncated_iff]
          refine ⟨[t], Follows.last hfalse, ?_, by simp⟩
          rw [List.flatMap_singleton, List.take_of_length_le (by omega), ht]
  have h := key (items grp l).length 0 start (by omega) (by rw [hstart, List.drop_zero])
  rwa [List.drop_zero] at h

/-- When every page but the last shows something there are at most as many pages. -/
theorem length_le_of_dropLast {β : Type} {f : τ → List β} {ts : List τ}
    (h : ∀ t ∈ ts.dropLast, f t ≠ []) : ts.length ≤ (ts.flatMap f).length + 1 := by
  induction ts with
  | nil => simp
  | cons t ts ih =>
      cases ts with
      | nil => simp
      | cons u us =>
          rw [List.dropLast_cons_of_ne_nil (by simp), List.forall_mem_cons] at h
          have hpos := List.length_pos_iff.mpr h.1
          have hrest := ih h.2
          rw [List.flatMap_cons, List.length_append, List.length_cons]
          omega

end Follow

end Grouping
