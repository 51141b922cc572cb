import Lights3.Lib.SortedMap

/-!
# Sweeps over a table in pages

A sweep lists the selected entries of a table page by page and erases those that are due. The pages
are cut out of the table as it is by then, after the last key of the page before.
-/
namespace SortedMap

variable {κ α : Type*} [LinearOrder κ]

/-- The entries above the last one of a page are the ones that were left out of the page. -/
theorem filter_getLast_take {key : α → κ} {xs : List α} {x : α} {n : Nat}
    (hs : xs.Pairwise fun x y => key x < key y) (hx : (xs.take n).getLast? = some x) :
    xs.filter (key x < key ·) = xs.drop n := by
  obtain ⟨front, hfront⟩ := List.getLast?_eq_some_iff.mp hx
  rw [← List.take_append_drop n xs, hfront, List.pairwise_append, List.pairwise_append] at hs
  nth_rewrite 1 [← List.take_append_drop n xs]
  rw [hfront, List.filter_append, List.filter_eq_nil_iff.mpr, List.filter_eq_self.mpr,
    List.nil_append]
  · intro y hy
    exact decide_eq_true (hs.2.2 x (by simp) y hy)
  · intro y hy
    rcases List.mem_append.mp hy with hy | hy
    · simpa using le_of_lt (hs.1.2.2 y hy x (by simp))
    · simp [List.mem_singleton.mp hy]

/-- The selected entries above a key. -/
def ahead (sel : κ → Bool) (after : Option κ) (m : SortedMap κ α) : List (κ × α) :=
  m.entries.filter fun e => sel e.1 && after.all (· < e.1)

/-- One page. -/
def sweepPage (due : κ → α → Bool) (m : SortedMap κ α) (page : List (κ × α)) : SortedMap κ α :=
  page.foldl (fun m e => if due e.1 e.2 then m.erase e.1 else m) m

def sweepPages (n : Nat) (sel : κ → Bool) (due : κ → α → Bool) :
    Nat → Option κ → SortedMap κ α → SortedMap κ α
  | 0, _, m => m
  | fuel + 1, after, m =>
      let rest := m.ahead sel after
      let page := rest.take n
      if n < rest.length then sweepPages n sel due fuel (page.getLast?.map Prod.fst)
        (m.sweepPage due page)
      else m.sweepPage due page

/-- All pages of at most `n` entries. -/
def sweep (n : Nat) (sel : κ → Bool) (due : κ → α → Bool) (m : SortedMap κ α) : SortedMap κ α :=
  sweepPages n sel due (m.entries.length + 1) none m

variable {sel : κ → Bool} {due : κ → α → Bool} {n : Nat} {m : SortedMap κ α} {after : Option κ}
  {k : κ} {v : α} {page : List (κ × α)}

theorem mem_ahead :
    (k, v) ∈ m.ahead sel after ↔ m.get? k = some v ∧ sel k = true ∧ ∀ a ∈ after, a < k := by
  simp only [ahead, List.mem_filter, mem_entries, Bool.and_eq_true, Option.all_eq_true,
    decide_eq_true_eq]
  rfl

theorem ahead_sorted (sel : κ → Bool) (after : Option κ) (m : SortedMap κ α) :
    (m.ahead sel after).Pairwise fun x y => x.1 < y.1 := m.sorted.filter _

theorem sweepPage_sublist (due : κ → α → Bool) (m : SortedMap κ α) (page : List (κ × α)) :
    (m.sweepPage due page).entries.Sublist m.entries := by
  induction page generalizing m with
  | nil => exact List.Sublist.refl _
  | cons e page ih =>
      refine (ih _).trans ?_
      dsimp only
      split_ifs
      · exact List.filter_sublist
      · exact List.Sublist.refl _

/-- The entries above the last one of a page are fewer. -/
theorem ahead_sweepPage_length (due : κ → α → Bool) (hn : 0 < n) {last : κ × α}
    (hlast : ((m.ahead sel after).take n).getLast? = some last) (page : List (κ × α)) :
    ((m.sweepPage due page).ahead sel (some last.1)).length < (m.ahead sel after).length := by
  have hmem : last ∈ m.ahead sel after := List.mem_of_mem_take (List.mem_of_getLast? hlast)
  have hafter := (mem_ahead.mp hmem).2.2
  have hdrop : m.ahead sel (some last.1) = (m.ahead sel after).drop n := by
    rw [← filter_getLast_take (m.ahead_sorted sel after) hlast, ahead, ahead, List.filter_filter]
    refine List.filter_congr fun x _ => ?_
    rw [Bool.eq_iff_iff]
    simp only [Option.all_some, Bool.and_eq_true, decide_eq_true_eq, Option.all_eq_true]
    exact ⟨fun h => ⟨h.2, h.1, fun a ha => (hafter a ha).trans h.2⟩, fun h => ⟨h.2.1, h.1⟩⟩
  have hlen : _ ≤ (m.ahead sel (some last.1)).length :=
    ((sweepPage_sublist due m page).filter _).length_le
  have hpos := List.length_pos_of_mem hmem
  rw [hdrop, List.length_drop] at hlen
  unfold ahead at hlen hpos ⊢
  omega

theorem sweepPage_get? (due : κ → α → Bool) (m : SortedMap κ α) (page : List (κ × α))
    (k : κ) (v : α) :
    (m.sweepPage due page).get? k = some v ↔ m.get? k = some v ∧ ∀ e ∈ page,
    e.1 = k → due e.1 e.2 = false := by
  induction page generalizing m with
  | nil => simp [sweepPage]
  | cons e page ih =>
      refine (ih _).trans ?_
      rw [List.forall_mem_cons, ← and_assoc]
      refine and_congr_left fun _ => ?_
      dsimp only
      cases hdue : due e.1 e.2 with
      | false => simp
      | true =>
          rw [if_pos rfl, get?_erase]
          split_ifs with hk
          · simp [hk]
          · simp [Ne.symm hk]

/-- Below a bound, the pages erase what is due. -/
theorem sweepPages_get? (hn : 0 < n) (fuel : Nat) (hfuel : (m.ahead sel after).length < fuel) :
    (sweepPages n sel due fuel after m).get? k = some v ↔
      m.get? k = some v ∧ (sel k = true → (∀ a ∈ after, a < k) → due k v = false) := by
  induction fuel generalizing after m with
  | zero => omega
  | succ fuel ih =>
      -- What one page does, in terms of the entry under `k`.
      have hpage : (m.sweepPage due ((m.ahead sel after).take n)).get? k = some v ↔
          m.get? k = some v ∧ ((k, v) ∈ (m.ahead sel after).take n → due k v = false) := by
        rw [sweepPage_get?]
        refine and_congr_right fun hv => ⟨fun h hmem => h _ hmem rfl, ?_⟩
        rintro h ⟨j, w⟩ hmem rfl
        obtain rfl := Option.some.inj (hv.symm.trans (mem_ahead.mp (List.mem_of_mem_take hmem)).1)
        exact h hmem
      have hmem (hv : m.get? k = some v) :
          (k, v) ∈ m.ahead sel after ↔ sel k = true ∧ ∀ a ∈ after, a < k := by
        rw [mem_ahead, hv, eq_self, true_and]
      rw [sweepPages]
      split_ifs with hlen
      · obtain ⟨last, hlast⟩ : ∃ e, ((m.ahead sel after).take n).getLast? = some e := by
          refine Option.ne_none_iff_exists'.mp fun h => ?_
          rw [List.getLast?_eq_none_iff, List.take_eq_nil_iff, ← List.length_eq_zero_iff] at h
          omega
        have hshort := ahead_sweepPage_length due hn hlast ((m.ahead sel after).take n)
        have hdrop := filter_getLast_take (m.ahead_sorted sel after) hlast
        have hafter := (mem_ahead.mp (List.mem_of_mem_take (List.mem_of_getLast? hlast))).2.2
        rw [hlast, Option.map_some, ih (by omega), hpage, and_assoc]
        refine and_congr_right fun hv =>
          ⟨fun ⟨hin, hout⟩ hsel ha => ?_, fun h => ⟨fun hin => ?_, ?_⟩⟩
        · have hsplit := (hmem hv).mpr ⟨hsel, ha⟩
          rw [← List.take_append_drop n (m.ahead sel after), List.mem_append, ← hdrop,
            List.mem_filter] at hsplit
          rcases hsplit with hsplit | hsplit
          · exact hin hsplit
          · refine hout hsel fun a ha => ?_
            obtain rfl := Option.some.inj ha
            simpa using hsplit.2
        · have := (hmem hv).mp (List.mem_of_mem_take hin)
          exact h this.1 this.2
        · exact fun hsel ha => h hsel fun a haft => (hafter a haft).trans (ha _ rfl)
      · rw [hpage, List.take_of_length_le (not_lt.mp hlen)]
        refine and_congr_right fun hv => ?_
        rw [hmem hv, and_imp]

/-- A sweep erases the selected entries that are due, and nothing else. -/
theorem sweep_get? (hn : 0 < n) : (m.sweep n sel due).get? k = some v ↔
    m.get? k = some v ∧ (sel k = true → due k v = false) := by
  have hlen : (m.ahead sel none).length < m.entries.length + 1 :=
    Nat.lt_succ_of_le (List.length_filter_le _ _)
  rw [sweep, sweepPages_get? hn _ hlen]
  simp

/-- Several sweeps, each under a condition. -/
theorem sweeps_get? {ι : Type*} (on : ι → Prop) [DecidablePred on] (sel : ι → κ → Bool)
    (due : ι → κ → α → Bool) (hn : 0 < n) (xs : List ι) :
    (xs.foldl (fun m x => if on x then m.sweep n (sel x) (due x) else m) m).get? k = some v ↔
      m.get? k = some v ∧ ∀ x ∈ xs, on x → sel x k = true → due x k v = false := by
  induction xs generalizing m with
  | nil => simp
  | cons x xs ih =>
      rw [List.foldl_cons, ih, List.forall_mem_cons, ← and_assoc]
      refine and_congr_left fun _ => ?_
      split_ifs with hx
      · simp [sweep_get? hn, hx]
      · simp [hx]

end SortedMap
