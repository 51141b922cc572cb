import Lights3.TimeWheel

/-!
# Completeness of the time wheel

An object that could be demoted has a line in the slot of its access record. Touches, flushes and
deletions keep this, up to touches that are not flushed yet. A scan keeps it if the demotions that
it picks succeed and no object that is still hot is read from an older slot than the due one of its
record.
-/
namespace Lights3
namespace TimeWheel

variable {c : WheelConfig} {w w' : TimeWheel} {n m : ObjectName}

/-- The slot file has a line for the object. -/
def Listed (w : TimeWheel) (slot : Int) (n : ObjectName) : Prop := n ∈ (w.slots.get? slot).getD []

instance (w : TimeWheel) (slot : Int) (n : ObjectName) : Decidable (w.Listed slot n) :=
  inferInstanceAs (Decidable (_ ∈ _))

/-- An unpinned object with local bytes and a tier other than remote. -/
def Eligible (c : WheelConfig) (w : TimeWheel) (n : ObjectName) : Prop :=
  0 ≤ c.coldAfter n ∧ ∃ o, w.objects.get? n = some o ∧ 0 < o.localBytes ∧ o.tier ≠ .kRemote

instance (c : WheelConfig) (w : TimeWheel) (n : ObjectName) : Decidable (w.Eligible c n) :=
  decidable_of_iff (0 ≤ c.coldAfter n ∧
      (w.objects.get? n).any (fun o => decide (0 < o.localBytes ∧ o.tier ≠ .kRemote)) = true) (by
    simp [Eligible, Option.any_eq_true])

/-- A line in the slot of the access record. -/
def Enrolled (c : WheelConfig) (w : TimeWheel) (n : ObjectName) : Prop :=
  ∃ r, w.loadAccess c n = some r ∧ w.Listed r.enrolled n

instance (c : WheelConfig) (w : TimeWheel) (n : ObjectName) : Decidable (w.Enrolled c n) :=
  decidable_of_iff ((w.loadAccess c n).any (fun r => decide (w.Listed r.enrolled n)) = true) (by
    simp [Enrolled, Option.any_eq_true])

def Complete (c : WheelConfig) (w : TimeWheel) : Prop := ∀ n, w.Eligible c n → w.Enrolled c n

theorem Eligible.mem_keys (h : w.Eligible c n) : n ∈ w.objects.keys := by
  obtain ⟨-, o, hget, -⟩ := h
  exact SortedMap.mem_keys.mpr ⟨o, hget⟩

instance (c : WheelConfig) (w : TimeWheel) : Decidable (w.Complete c) :=
  decidable_of_iff (∀ n ∈ w.objects.keys, w.Eligible c n → w.Enrolled c n)
    ⟨fun h n hn => h n hn.mem_keys hn, fun h n _ hn => h n hn⟩

/-! ## What the other objects keep -/

/-- Nothing happens to the object, and its lines stay. -/
structure Frame (c : WheelConfig) (n : ObjectName) (w w' : TimeWheel) : Prop where
  objects : w'.objects.get? n = w.objects.get? n
  access : w'.loadAccess c n = w.loadAccess c n
  dirty : w'.dirty.get? n = w.dirty.get? n
  listed : ∀ slot, w.Listed slot n → w'.Listed slot n

theorem Frame.refl (c : WheelConfig) (n : ObjectName) (w : TimeWheel) : Frame c n w w :=
  ⟨rfl, rfl, rfl, fun _ h => h⟩

theorem Frame.trans {w'' : TimeWheel} (h : Frame c n w w') (h' : Frame c n w' w'') :
    Frame c n w w'' :=
  ⟨h'.objects.trans h.objects, h'.access.trans h.access, h'.dirty.trans h.dirty,
    fun slot hl => h'.listed slot (h.listed slot hl)⟩

theorem Frame.eligible (h : Frame c n w w') : w'.Eligible c n ↔ w.Eligible c n := by
  unfold Eligible
  rw [h.objects]

theorem Frame.enrolled (h : Frame c n w w') (he : w.Enrolled c n) : w'.Enrolled c n := by
  obtain ⟨r, hr, hl⟩ := he
  exact ⟨r, h.access.trans hr, h.listed _ hl⟩

/-- Folding steps that all leave the object alone. -/
theorem Frame.foldl {α : Type} {f : TimeWheel → α → TimeWheel} {xs : List α}
    (h : ∀ w, ∀ x ∈ xs, Frame c n w (f w x)) (w : TimeWheel) : Frame c n w (xs.foldl f w) := by
  induction xs generalizing w with
  | nil => exact Frame.refl c n w
  | cons x xs ih =>
      exact (h w x List.mem_cons_self).trans
        (ih (fun w y hy => h w y (List.mem_cons_of_mem x hy)) _)

variable {now : Nat} {slot : Int}

theorem listed_wheelAppend (h : w.Listed slot n) (slot' : Int) (m : ObjectName) :
    (w.wheelAppend slot' m).Listed slot n := by
  unfold wheelAppend
  split_ifs
  · unfold Listed at h ⊢
    by_cases hs : slot = slot'
    · subst hs
      simp [h]
    · simpa [hs] using h
  · exact h

theorem wheelAppend_listed (hn : Encodable n) (w : TimeWheel) (slot : Int) :
    (w.wheelAppend slot n).Listed slot n := by
  simp [wheelAppend, hn, Listed]

theorem loadAccess_storeAccess (w : TimeWheel) (n : ObjectName) (r : AccessRec) :
    (w.storeAccess c n r).loadAccess c n = some r := by
  cases hres : c.resident <;> cases hobj : w.objects.get? n <;>
    simp [storeAccess, loadAccess, hres, hobj]

theorem listed_storeAccess {r : AccessRec} :
    (w.storeAccess c m r).Listed slot n ↔ w.Listed slot n := by
  unfold storeAccess
  split <;> exact Iff.rfl

theorem dirty_storeAccess (w : TimeWheel) (n : ObjectName) (r : AccessRec) :
    (w.storeAccess c n r).dirty = w.dirty := by
  unfold storeAccess
  split <;> rfl

/-- An access record changes no object. -/
theorem eligible_storeAccess (w : TimeWheel) (m : ObjectName) (r : AccessRec) :
    (w.storeAccess c m r).Eligible c n ↔ w.Eligible c n := by
  unfold storeAccess
  split
  · rename_i o hobj
    unfold Eligible
    by_cases hn : n = m
    · subst hn
      simp [hobj]
    · simp [hn]
  · exact Iff.rfl

theorem frame_storeAccess (hne : n ≠ m) (w : TimeWheel) (r : AccessRec) :
    Frame c n w (w.storeAccess c m r) := by
  unfold storeAccess
  split
  · exact ⟨by simp [hne], by simp [loadAccess, hne], rfl, fun _ h => h⟩
  · exact ⟨rfl, by simp [loadAccess, hne], rfl, fun _ h => h⟩

theorem frame_wheelAppend (w : TimeWheel) (slot : Int) (m : ObjectName) :
    Frame c n w (w.wheelAppend slot m) := by
  have hkeep : (w.wheelAppend slot m).objects = w.objects ∧ (w.wheelAppend slot m).table = w.table ∧
      (w.wheelAppend slot m).dirty = w.dirty := by
    unfold wheelAppend
    split_ifs <;> exact ⟨rfl, rfl, rfl⟩
  obtain ⟨ho, ht, hd⟩ := hkeep
  exact ⟨by rw [ho], by rw [loadAccess, loadAccess, ho, ht], by rw [hd],
    fun slot' h => listed_wheelAppend h slot m⟩

theorem frame_persistAccess (hne : n ≠ m) (w : TimeWheel) (r : AccessRec) :
    Frame c n w (w.persistAccess c m r) := by
  unfold persistAccess
  dsimp only
  split_ifs
  · exact (frame_wheelAppend w _ m).trans (frame_storeAccess hne _ _)
  · exact frame_storeAccess hne w r
  · exact frame_storeAccess hne w r

theorem frame_demote (hne : n ≠ m) (w : TimeWheel) : Frame c n w (w.demote m) := by
  unfold demote
  split
  · exact Frame.refl c n w
  · dsimp only
    split_ifs
    · exact ⟨by simp [hne], by simp [loadAccess, hne], rfl, fun _ h => h⟩
    · exact Frame.refl c n w
    · exact ⟨by simp [forgetAccess, hne], by simp [forgetAccess, loadAccess, hne],
        by simp [forgetAccess, hne], fun _ h => h⟩

/-! ## Flushes -/

/-- A record is enrolled unless its slot is taken to be known without a line. -/
theorem enrolled_persistAccess (hca : 0 ≤ c.coldAfter n) (hn : Encodable n) {r : AccessRec}
    (h : wheelSlotFor r.atime (c.coldAfter n) = r.enrolled → w.Listed r.enrolled n) :
    (w.persistAccess c n r).Enrolled c n := by
  unfold persistAccess
  dsimp only
  rw [if_pos hca]
  split_ifs with hslot
  · exact ⟨_, loadAccess_storeAccess _ n _, listed_storeAccess.mpr (wheelAppend_listed hn w _)⟩
  · exact ⟨r, loadAccess_storeAccess w n r, listed_storeAccess.mpr (h (not_not.mp hslot))⟩

theorem eligible_persistAccess (w : TimeWheel) (m : ObjectName) (r : AccessRec) :
    (w.persistAccess c m r).Eligible c n ↔ w.Eligible c n := by
  unfold persistAccess
  dsimp only
  split_ifs
  · exact (eligible_storeAccess _ m _).trans (frame_wheelAppend w _ m).eligible
  · exact eligible_storeAccess w m r
  · exact eligible_storeAccess w m r

/-- A pending touch whose record seems to be in its slot already finds its line there. -/
def Flushable (c : WheelConfig) (w : TimeWheel) : Prop :=
  ∀ n t, w.Eligible c n → w.dirty.get? n = some t →
    wheelSlotFor (w.flushed c n t).atime (c.coldAfter n) = (w.flushed c n t).enrolled →
      w.Listed (w.flushed c n t).enrolled n

/-- Objects without a line have a touch that is not flushed. -/
def Pending (c : WheelConfig) (w : TimeWheel) : Prop :=
  ∀ n, w.Eligible c n → w.Enrolled c n ∨ (w.dirty.get? n).isSome

theorem Complete.pending (h : w.Complete c) : w.Pending c := fun n hn => Or.inl (h n hn)

/-- Keys of objects can be written on a line. -/
def Writable (c : WheelConfig) (w : TimeWheel) : Prop := ∀ n, w.Eligible c n → Encodable n

theorem flushed_congr (h : w'.loadAccess c n = w.loadAccess c n) (t : Touch) :
    w'.flushed c n t = w.flushed c n t := by
  unfold flushed
  rw [h]

/-- The loop of a flush, up to the entry of the object and after it. -/
theorem flush_entries (hca : 0 ≤ c.coldAfter n) (hn : Encodable n) (es : List (ObjectName × Touch))
    (hes : es.Pairwise (fun x y => x.1 < y.1)) (hflush : ∀ t, (n, t) ∈ es →
      wheelSlotFor (w.flushed c n t).atime (c.coldAfter n) = (w.flushed c n t).enrolled →
        w.Listed (w.flushed c n t).enrolled n) (h : w.Enrolled c n ∨ ∃ t, (n, t) ∈ es) :
    (es.foldl (fun w e => w.persistAccess c e.1 (w.flushed c e.1 e.2)) w).Enrolled c n := by
  induction es generalizing w with
  | nil => simpa using h
  | cons e es ih =>
      obtain ⟨hlt, hes⟩ := List.pairwise_cons.mp hes
      rw [List.foldl_cons]
      by_cases hne : n = e.1
      · -- its own entry: nothing after it touches the object
        have hlater : ∀ x ∈ es, n ≠ x.1 := fun x hx heq => ne_of_lt (hlt x hx) (hne.symm.trans heq)
        refine (Frame.foldl (fun w x hx => frame_persistAccess (hlater x hx) w _) _).enrolled ?_
        subst hne
        exact enrolled_persistAccess hca hn (hflush e.2 List.mem_cons_self)
      · have hframe := frame_persistAccess (c := c) hne w (w.flushed c e.1 e.2)
        have hflushed (t : Touch) : (w.persistAccess c e.1 (w.flushed c e.1 e.2)).flushed c n t =
            w.flushed c n t := flushed_congr hframe.access t
        refine ih hes (fun t ht hslot => ?_) ?_
        · rw [hflushed] at hslot ⊢
          exact hframe.listed _ (hflush t (List.mem_cons_of_mem e ht) hslot)
        · rcases h with h | ⟨t, ht⟩
          · exact Or.inl (hframe.enrolled h)
          · refine Or.inr ⟨t, (List.mem_cons.mp ht).resolve_left fun heq => hne ?_⟩
            rw [← heq]

theorem eligible_flush_entries (es : List (ObjectName × Touch)) (w : TimeWheel) :
    (es.foldl (fun w e => w.persistAccess c e.1 (w.flushed c e.1 e.2)) w).Eligible c n ↔
      w.Eligible c n := by
  induction es generalizing w with
  | nil => exact Iff.rfl
  | cons e es ih => exact (ih _).trans (eligible_persistAccess w e.1 _)

theorem eligible_flushAccess : (w.flushAccess c).Eligible c n ↔ w.Eligible c n :=
  eligible_flush_entries w.dirty.entries w

theorem complete_flushAccess (h : w.Pending c) (hf : w.Flushable c) (hw : w.Writable c) :
    (w.flushAccess c).Complete c := by
  intro n hn
  have hn' := eligible_flushAccess.mp hn
  refine flush_entries hn'.1 (hw n hn') w.dirty.entries w.dirty.sorted (fun t ht => ?_) ?_
  · exact hf n t hn' (SortedMap.mem_entries.mp ht)
  · refine (h n hn').imp id fun hsome => ?_
    obtain ⟨t, ht⟩ := Option.isSome_iff_exists.mp hsome
    exact ⟨t, SortedMap.mem_entries.mpr ht⟩

/-! ## Visits -/

theorem eligible_of_demote (h : (w.demote m).Eligible c n) : w.Eligible c n ∧ n ≠ m := by
  by_cases hne : n = m
  · subst hne
    obtain ⟨-, o, hget, hbytes, htier⟩ := h
    unfold demote at hget
    split at hget
    · rename_i hnone
      rw [hnone] at hget
      cases hget
    · rename_i o' hsome
      dsimp only at hget
      split_ifs at hget with hremote hpos
      · simp only [SortedMap.get?_insert, if_pos, Option.some.injEq] at hget
        exact absurd (hget ▸ rfl) htier
      · rw [hsome, Option.some.injEq] at hget
        exact absurd (hget ▸ hremote) htier
      · simp only [forgetAccess, SortedMap.get?_insert, if_pos, Option.some.injEq] at hget
        exact absurd (hget ▸ rfl) htier
  · exact ⟨(frame_demote hne w).eligible.mp h, hne⟩

theorem dirty_persistAccess (w : TimeWheel) (n : ObjectName) (r : AccessRec) :
    (w.persistAccess c n r).dirty = w.dirty := by
  have happend (slot : Int) : (w.wheelAppend slot n).dirty = w.dirty := by
    unfold wheelAppend
    split_ifs <;> rfl
  unfold persistAccess
  dsimp only
  split_ifs
  · rw [dirty_storeAccess, happend]
  · exact dirty_storeAccess w n r
  · exact dirty_storeAccess w n r

namespace ScanCtx

variable {demoted : ObjectName → Bool} {now : Nat} {cx : ScanCtx} {line : Int × ObjectName}
  {fromSlot : Int}

/-- What every visit keeps: no touch is pending, demotions that are not started belong to picked
keys, and a picked key whose demotion has been started, with success, is not eligible. -/
structure Tidy (c : WheelConfig) (demoted : ObjectName → Bool) (cx : ScanCtx) : Prop where
  dirty : cx.wheel.dirty = SortedMap.empty
  batch : ∀ n ∈ cx.batch, n ∈ cx.chosen
  chosen : ∀ n ∈ cx.chosen, demoted n = true → cx.wheel.Eligible c n → n ∈ cx.batch

theorem eligible_drained (ns : List ObjectName)
    (h : (ns.foldl (fun w n => if demoted n then w.demote n else w) w).Eligible c n) :
    w.Eligible c n ∧ (n ∈ ns → demoted n = false) := by
  induction ns generalizing w with
  | nil => exact ⟨h, nofun⟩
  | cons m ns ih =>
      rw [List.foldl_cons] at h
      obtain ⟨hel, hrest⟩ := ih h
      cases hm : demoted m with
      | false =>
          rw [hm] at hel
          refine ⟨hel, fun hn => ?_⟩
          rcases List.mem_cons.mp hn with rfl | hn
          · exact hm
          · exact hrest hn
      | true =>
          rw [hm] at hel
          obtain ⟨hel, hne⟩ := eligible_of_demote hel
          exact ⟨hel, fun hn => hrest ((List.mem_cons.mp hn).resolve_left hne)⟩

theorem frame_drained {ns : List ObjectName} (hn : n ∉ ns) (w : TimeWheel) :
    Frame c n w (ns.foldl (fun w n => if demoted n then w.demote n else w) w) := by
  refine Frame.foldl (fun w m hm => ?_) w
  split_ifs
  · exact frame_demote (fun heq => hn (by rwa [heq])) w
  · exact Frame.refl c n w

theorem dirty_drained (ns : List ObjectName) (h : w.dirty = SortedMap.empty) :
    (ns.foldl (fun w n => if demoted n then w.demote n else w) w).dirty = SortedMap.empty := by
  induction ns generalizing w with
  | nil => exact h
  | cons m ns ih =>
      refine ih ?_
      dsimp only
      split_ifs
      · unfold demote
        split
        · exact h
        · dsimp only
          split_ifs
          · exact h
          · exact h
          · rw [forgetAccess, h]
            rfl
      · exact h

theorem Tidy.drain (h : cx.Tidy c demoted) : (cx.drain demoted).Tidy c demoted := by
  refine ⟨dirty_drained cx.batch h.dirty, fun n hn => ?_, fun n hn hd hel => ?_⟩
  · cases hn
  · obtain ⟨hel, hbatch⟩ := eligible_drained cx.batch hel
    have hfalse := hbatch (h.chosen n hn hd hel)
    rw [hd] at hfalse
    cases hfalse

theorem Tidy.drainFull (h : cx.Tidy c demoted) : (cx.drainFull demoted).Tidy c demoted := by
  unfold ScanCtx.drainFull
  split_ifs
  · exact h.drain
  · exact h

theorem Tidy.pick (h : cx.Tidy c demoted) (n : ObjectName) : (cx.pick n).Tidy c demoted := by
  unfold ScanCtx.pick
  split_ifs with hn
  · exact h
  · refine ⟨h.dirty, fun m hm => ?_, fun m hm hd hel => ?_⟩
    · rcases List.mem_append.mp hm with hm | hm
      · exact List.mem_cons_of_mem _ (h.batch m hm)
      · rw [List.mem_singleton.mp hm]
        exact List.mem_cons_self
    · rcases List.mem_cons.mp hm with rfl | hm
      · exact List.mem_append_right _ List.mem_cons_self
      · exact List.mem_append_left _ (h.chosen m hm hd hel)

theorem Tidy.persist (h : cx.Tidy c demoted) (n : ObjectName) (r : AccessRec) :
    ({ cx with wheel := cx.wheel.persistAccess c n r } : ScanCtx).Tidy c demoted :=
  ⟨(dirty_persistAccess cx.wheel n r).trans h.dirty, h.batch,
    fun m hm hd hel => h.chosen m hm hd ((eligible_persistAccess cx.wheel n r).mp hel)⟩

/-- What considering a key does to the context. -/
theorem consider_cases (cx : ScanCtx) (n : ObjectName) (fromSlot : Int) :
    cx.consider c demoted now n fromSlot = cx ∨ cx.consider c demoted now n fromSlot = cx.pick n ∨
      cx.consider c demoted now n fromSlot = (cx.pick n).drainFull demoted ∨
      cx.consider c demoted now n fromSlot = cx.drainFull demoted ∨
      ∃ r, cx.consider c demoted now n fromSlot =
        ({ cx with wheel := cx.wheel.persistAccess c n r } : ScanCtx).drainFull demoted := by
  unfold ScanCtx.consider
  split
  · exact Or.inl rfl
  · dsimp only
    split_ifs
    · exact Or.inr (Or.inl rfl)
    · exact Or.inl rfl
    · exact Or.inl rfl
    · exact Or.inr (Or.inr (Or.inl rfl))
    all_goals first | exact Or.inr (Or.inr (Or.inr (Or.inl rfl))) |
      exact Or.inr (Or.inr (Or.inr (Or.inr ⟨_, rfl⟩)))

theorem Tidy.consider (h : cx.Tidy c demoted) (n : ObjectName) (fromSlot : Int) :
    (cx.consider c demoted now n fromSlot).Tidy c demoted := by
  obtain heq | heq | heq | heq | ⟨r, heq⟩ := consider_cases cx n fromSlot <;> rw [heq]
  · exact h
  · exact h.pick n
  · exact (h.pick n).drainFull
  · exact h.drainFull
  · exact (h.persist n r).drainFull

theorem Tidy.visit (h : cx.Tidy c demoted) (line : Int × ObjectName) :
    (cx.visit c demoted now line).Tidy c demoted := by
  unfold ScanCtx.visit
  split_ifs
  · exact h
  · have hseen : ({ cx with seen := line.2 :: cx.seen } : ScanCtx).Tidy c demoted :=
      ⟨h.dirty, h.batch, h.chosen⟩
    exact hseen.consider _ _

/-- A key that is not picked, while other keys are visited. -/
structure Aside (c : WheelConfig) (n : ObjectName) (cx cx' : ScanCtx) : Prop where
  frame : Frame c n cx.wheel cx'.wheel
  seen : n ∈ cx'.seen ↔ n ∈ cx.seen
  chosen : n ∈ cx'.chosen ↔ n ∈ cx.chosen

theorem Aside.refl (c : WheelConfig) (n : ObjectName) (cx : ScanCtx) : Aside c n cx cx :=
  ⟨Frame.refl c n cx.wheel, Iff.rfl, Iff.rfl⟩

theorem Aside.trans {cx' cx'' : ScanCtx} (h : Aside c n cx cx') (h' : Aside c n cx' cx'') :
    Aside c n cx cx'' :=
  ⟨h.frame.trans h'.frame, h'.seen.trans h.seen, h'.chosen.trans h.chosen⟩

theorem Tidy.aside_drainFull (h : cx.Tidy c demoted) (hn : n ∉ cx.chosen) :
    Aside c n cx (cx.drainFull demoted) := by
  unfold ScanCtx.drainFull
  split_ifs
  · exact ⟨frame_drained (fun hmem => hn (h.batch n hmem)) cx.wheel, Iff.rfl, Iff.rfl⟩
  · exact Aside.refl c n cx

theorem mem_pick (cx : ScanCtx) (m : ObjectName) :
    n ∈ (cx.pick m).chosen ↔ n = m ∨ n ∈ cx.chosen := by
  unfold ScanCtx.pick
  split_ifs with hm
  · constructor
    · exact Or.inr
    · rintro (rfl | h)
      · exact hm
      · exact h
  · exact List.mem_cons

theorem pick_eq (cx : ScanCtx) (m : ObjectName) :
    (cx.pick m).wheel = cx.wheel ∧ (cx.pick m).seen = cx.seen := by
  unfold ScanCtx.pick
  split_ifs <;> exact ⟨rfl, rfl⟩

theorem drainFull_eq (cx : ScanCtx) :
    (cx.drainFull demoted).seen = cx.seen ∧ (cx.drainFull demoted).chosen = cx.chosen := by
  unfold ScanCtx.drainFull
  split_ifs <;> exact ⟨rfl, rfl⟩

theorem Tidy.aside_consider (h : cx.Tidy c demoted) (hn : n ∉ cx.chosen) (hne : n ≠ m)
    (fromSlot : Int) :
    Aside c n cx (cx.consider c demoted now m fromSlot) := by
  have hpick : Aside c n cx (cx.pick m) :=
    ⟨by rw [(pick_eq cx m).1]; exact Frame.refl c n cx.wheel, by rw [(pick_eq cx m).2],
      by rw [mem_pick]; simp [hne]⟩
  have hpersist (r : AccessRec) : Aside c n cx { cx with wheel := cx.wheel.persistAccess c m r } :=
    ⟨frame_persistAccess hne cx.wheel r, Iff.rfl, Iff.rfl⟩
  obtain heq | heq | heq | heq | ⟨r, heq⟩ := consider_cases cx m fromSlot <;> rw [heq]
  · exact Aside.refl c n cx
  · exact hpick
  · exact hpick.trans ((h.pick m).aside_drainFull (mt hpick.chosen.mp hn))
  · exact h.aside_drainFull hn
  · exact (hpersist r).trans ((h.persist m r).aside_drainFull hn)

/-- Considering a key may pick it. -/
theorem seen_consider (cx : ScanCtx) (m : ObjectName) (fromSlot : Int) :
    (cx.consider c demoted now m fromSlot).seen = cx.seen ∧
      ((cx.consider c demoted now m fromSlot).chosen = cx.chosen ∨
        (cx.consider c demoted now m fromSlot).chosen = (cx.pick m).chosen) := by
  obtain heq | heq | heq | heq | ⟨r, heq⟩ := consider_cases cx m fromSlot <;> rw [heq]
  · exact ⟨rfl, Or.inl rfl⟩
  · exact ⟨(pick_eq cx m).2, Or.inr rfl⟩
  · exact ⟨(drainFull_eq _).1.trans (pick_eq cx m).2, Or.inr (drainFull_eq _).2⟩
  · exact ⟨(drainFull_eq _).1, Or.inl (drainFull_eq _).2⟩
  · exact ⟨(drainFull_eq _).1, Or.inl (drainFull_eq _).2⟩

theorem chosen_consider (hn : n ∈ cx.chosen) (m : ObjectName) (fromSlot : Int) :
    n ∈ (cx.consider c demoted now m fromSlot).chosen := by
  have hcases : (cx.consider c demoted now m fromSlot).chosen = cx.chosen ∨
      (cx.consider c demoted now m fromSlot).chosen = (cx.pick m).chosen :=
      (seen_consider cx m fromSlot).2
  obtain heq | heq := hcases <;> rw [heq]
  · exact hn
  · exact (mem_pick cx m).mpr (Or.inr hn)

/-- The key itself is picked if its record is cold, and enrolled otherwise, unless the record names
the slot of the deadline, this slot has no line any more and the key was read from another one. -/
theorem Tidy.consider_own (h : cx.Tidy c demoted) (hel : cx.wheel.Eligible c n) (hn : Encodable n)
    (hpicked : n ∉ cx.chosen) {r : AccessRec} (hr : cx.wheel.loadAccess c n = some r)
    (hslot : r.enrolled ≠ fromSlot → wheelSlotFor r.atime (c.coldAfter n) = r.enrolled →
      (now : Int) - r.atime < c.coldAfter n → cx.wheel.Listed r.enrolled n) :
    (n ∈ (cx.consider c demoted now n fromSlot).chosen ∧ c.coldAfter n ≤ now - r.atime) ∨
      (n ∉ (cx.consider c demoted now n fromSlot).chosen ∧
        (cx.consider c demoted now n fromSlot).wheel.Enrolled c n) := by
  obtain ⟨hca, o, hget, hbytes, htier⟩ := hel
  have hacc : cx.wheel.accessOf c n o.mtime = r := by
    simp [accessOf, hr, h.dirty]
  have hdrain {cx' : ScanCtx} (ht : cx'.Tidy c demoted) (hn' : n ∉ cx'.chosen)
      (he : cx'.wheel.Enrolled c n) :
      n ∉ (cx'.drainFull demoted).chosen ∧ (cx'.drainFull demoted).wheel.Enrolled c n :=
    ⟨mt (ht.aside_drainFull hn').chosen.mp hn', (ht.aside_drainFull hn').frame.enrolled he⟩
  have hpersist {a : AccessRec} (ha : wheelSlotFor a.atime (c.coldAfter n) ≠ a.enrolled) :
      n ∉ (({ cx with wheel := cx.wheel.persistAccess c n a } : ScanCtx).drainFull demoted).chosen ∧
      (({ cx with wheel := cx.wheel.persistAccess c n a } : ScanCtx).drainFull
        demoted).wheel.Enrolled c n :=
    hdrain (h.persist n a) hpicked (enrolled_persistAccess hca hn fun heq => absurd heq ha)
  unfold ScanCtx.consider
  rw [hget]
  dsimp only
  rw [if_neg htier, if_neg (by omega), hacc]
  split_ifs with hcold hfrom hsame hsame
  · left
    rw [(drainFull_eq _).2]
    exact ⟨(mem_pick cx n).mpr (Or.inl rfl), hcold⟩
  · -- the deadline is after the epoch, so its slot is not -1
    exact Or.inr (hpersist (Ne.symm hsame))
  · exfalso
    have hpos : 0 ≤ wheelSlotFor r.atime (c.coldAfter n) :=
      Int.tdiv_nonneg (by omega) (by decide)
    rw [← not_not.mp hsame] at hpos
    simp at hpos
  · exact Or.inr (hpersist (Ne.symm hsame))
  · have hlisted := hslot hfrom (not_not.mp hsame).symm (by omega)
    exact Or.inr (hdrain h hpicked ⟨r, hr, hlisted⟩)

theorem Tidy.aside_visit (h : cx.Tidy c demoted) (hn : n ∉ cx.chosen) (hne : n ≠ line.2) :
    Aside c n cx (cx.visit c demoted now line) := by
  unfold ScanCtx.visit
  split_ifs
  · exact Aside.refl c n cx
  · have ht : ({ cx with seen := line.2 :: cx.seen } : ScanCtx).Tidy c demoted :=
      ⟨h.dirty, h.batch, h.chosen⟩
    have hseen : Aside c n cx { cx with seen := line.2 :: cx.seen } :=
      ⟨Frame.refl c n cx.wheel, by simp [hne], Iff.rfl⟩
    exact hseen.trans (ht.aside_consider hn hne line.1)

theorem seen_visit (hn : n ∈ cx.seen ∨ n = line.2 ∧ n ∉ cx.chosen) :
    n ∈ (cx.visit c demoted now line).seen := by
  unfold ScanCtx.visit
  split_ifs with hskip
  · rcases hn with hn | ⟨rfl, hn⟩
    · exact hn
    · exact hskip.resolve_left hn
  · rw [(seen_consider _ _ _).1]
    rcases hn with hn | ⟨rfl, -⟩
    · exact List.mem_cons_of_mem _ hn
    · exact List.mem_cons_self

theorem chosen_visit (hn : n ∈ cx.chosen) : n ∈ (cx.visit c demoted now line).chosen := by
  unfold ScanCtx.visit
  split_ifs
  · exact hn
  · have hseen : n ∈ ({ cx with seen := line.2 :: cx.seen } : ScanCtx).chosen := hn
    exact chosen_consider hseen _ _

theorem visit_of_seen (hn : line.2 ∈ cx.seen) : cx.visit c demoted now line = cx := by
  unfold ScanCtx.visit
  rw [if_pos (Or.inr hn)]

/-- Picked keys were seen. -/
theorem chosen_seen_visit (h : ∀ n ∈ cx.chosen, n ∈ cx.seen) :
    ∀ n ∈ (cx.visit c demoted now line).chosen, n ∈ (cx.visit c demoted now line).seen := by
  intro n hn
  unfold ScanCtx.visit at hn ⊢
  split_ifs at hn ⊢
  · exact h n hn
  · obtain ⟨hseen, heq | heq⟩ :=
      seen_consider (c := c) { cx with seen := line.2 :: cx.seen } line.2 line.1
    all_goals
      rw [heq] at hn
      rw [hseen]
    · exact List.mem_cons_of_mem _ (h n hn)
    · rcases (mem_pick _ _).mp hn with rfl | hn
      · exact List.mem_cons_self
      · exact List.mem_cons_of_mem _ (h n hn)

theorem eligible_of_consider (h : (cx.consider c demoted now m fromSlot).wheel.Eligible c n) :
    cx.wheel.Eligible c n := by
  have hdrain {cx : ScanCtx} (h : (cx.drainFull demoted).wheel.Eligible c n) :
      cx.wheel.Eligible c n := by
    unfold ScanCtx.drainFull at h
    split_ifs at h
    · exact (eligible_drained cx.batch h).1
    · exact h
  obtain heq | heq | heq | heq | ⟨r, heq⟩ := consider_cases cx m fromSlot <;> rw [heq] at h
  · exact h
  · rwa [(pick_eq cx m).1] at h
  · have hpick := hdrain h
    rwa [(pick_eq cx m).1] at hpick
  · exact hdrain h
  · exact (eligible_persistAccess cx.wheel m r).mp (hdrain h)

theorem eligible_of_visit (h : (cx.visit c demoted now line).wheel.Eligible c n) :
    cx.wheel.Eligible c n := by
  unfold ScanCtx.visit at h
  split_ifs at h
  · exact h
  · have hseen : ({ cx with seen := line.2 :: cx.seen } : ScanCtx).wheel.Eligible c n :=
      eligible_of_consider h
    exact hseen

/-! ## Lines of a scan -/

@[simp] theorem visitAll_cons (cx : ScanCtx) (line : Int × ObjectName)
    (lines : List (Int × ObjectName)) : cx.visitAll c demoted now (line :: lines) =
      (cx.visit c demoted now line).visitAll c demoted now lines := rfl

theorem visitAll_append (cx : ScanCtx) (pre post : List (Int × ObjectName)) :
    cx.visitAll c demoted now (pre ++ post) =
      (cx.visitAll c demoted now pre).visitAll c demoted now post := List.foldl_append

theorem Tidy.visitAll (h : cx.Tidy c demoted) (lines : List (Int × ObjectName)) :
    (cx.visitAll c demoted now lines).Tidy c demoted := by
  induction lines generalizing cx with
  | nil => exact h
  | cons line lines ih => exact ih (h.visit line)

theorem Tidy.aside_visitAll (h : cx.Tidy c demoted) (hn : n ∉ cx.chosen)
    {lines : List (Int × ObjectName)}
    (hlines : ∀ line ∈ lines, n ≠ line.2) : Aside c n cx (cx.visitAll c demoted now lines) := by
  induction lines generalizing cx with
  | nil => exact Aside.refl c n cx
  | cons line lines ih =>
      obtain ⟨hline, hlines⟩ := List.forall_mem_cons.mp hlines
      have hfirst : Aside c n cx (cx.visit c demoted now line) := h.aside_visit hn hline
      exact hfirst.trans (ih (h.visit line) (mt hfirst.chosen.mp hn) hlines)

/-- Once a key has been seen, it stays picked or enrolled. -/
theorem Tidy.visitAll_of_seen {P : Prop} (h : cx.Tidy c demoted) (hseen : n ∈ cx.seen)
    (hn : (n ∈ cx.chosen ∧ P) ∨ (n ∉ cx.chosen ∧ cx.wheel.Enrolled c n))
    (lines : List (Int × ObjectName)) :
    (n ∈ (cx.visitAll c demoted now lines).chosen ∧ P) ∨
      (n ∉ (cx.visitAll c demoted now lines).chosen ∧
        (cx.visitAll c demoted now lines).wheel.Enrolled c n) := by
  induction lines generalizing cx with
  | nil => exact hn
  | cons line lines ih =>
      rw [visitAll_cons]
      refine ih (h.visit line) (seen_visit (Or.inl hseen)) ?_
      refine hn.imp (fun hp => ⟨chosen_visit hp.1, hp.2⟩) fun ⟨hpicked, he⟩ => ?_
      by_cases hne : n = line.2
      · rw [visit_of_seen (hne ▸ hseen)]
        exact ⟨hpicked, he⟩
      · have haside : Aside c n cx (cx.visit c demoted now line) := h.aside_visit hpicked hne
        exact ⟨mt haside.chosen.mp hpicked, haside.frame.enrolled he⟩

theorem eligible_of_visitAll (lines : List (Int × ObjectName))
    (h : (cx.visitAll c demoted now lines).wheel.Eligible c n) : cx.wheel.Eligible c n := by
  induction lines generalizing cx with
  | nil => exact h
  | cons line lines ih => exact eligible_of_visit (ih h)

/-- Every line is seen. -/
theorem seen_visitAll (lines : List (Int × ObjectName)) (hchosen : ∀ n ∈ cx.chosen, n ∈ cx.seen)
    (hn : n ∈ cx.seen ∨ ∃ line ∈ lines, line.2 = n) :
    n ∈ (cx.visitAll c demoted now lines).seen := by
  induction lines generalizing cx with
  | nil => simpa [visitAll] using hn
  | cons line lines ih =>
      rw [visitAll_cons]
      refine ih (chosen_seen_visit hchosen) ?_
      rcases hn with hn | ⟨line', hmem, rfl⟩
      · exact Or.inl (seen_visit (Or.inl hn))
      · rcases List.mem_cons.mp hmem with rfl | hmem
        · refine Or.inl (seen_visit ?_)
          by_cases hc : line'.2 ∈ cx.chosen
          · exact Or.inl (hchosen _ hc)
          · exact Or.inr ⟨rfl, hc⟩
        · exact Or.inr ⟨line', hmem, rfl⟩

end ScanCtx

/-! ## Scans -/

theorem dueLines_sorted (w : TimeWheel) (now : Nat) :
    (w.dueLines now).Pairwise (fun x y => x.1 ≤ y.1) := by
  unfold dueLines
  rw [List.pairwise_flatMap]
  constructor
  · intro e he
    rw [List.pairwise_map]
    exact List.pairwise_of_forall (fun _ _ => le_rfl)
  · refine (w.slots.sorted.filter _).imp fun {x y} hlt a ha b hb => ?_
    obtain ⟨n, -, rfl⟩ := List.mem_map.mp ha
    obtain ⟨m, -, rfl⟩ := List.mem_map.mp hb
    exact hlt.le

theorem mem_dueLines :
    (slot, n) ∈ w.dueLines now ↔ slot ≤ (now : Int).tdiv kWheelSlotSec ∧ w.Listed slot n := by
  unfold dueLines Listed
  constructor
  · intro h
    obtain ⟨⟨s, ns⟩, he, hm⟩ := List.mem_flatMap.mp h
    obtain ⟨hentry, hdue⟩ := List.mem_filter.mp he
    obtain ⟨m, hmem, heq⟩ := List.mem_map.mp hm
    simp only [Prod.mk.injEq] at heq
    obtain ⟨rfl, rfl⟩ := heq
    exact ⟨of_decide_eq_true hdue, by rw [SortedMap.mem_entries.mp hentry]; exact hmem⟩
  · rintro ⟨hdue, hm⟩
    cases hget : w.slots.get? slot with
    | none =>
        rw [hget] at hm
        cases hm
    | some ns =>
        rw [hget] at hm
        exact List.mem_flatMap.mpr ⟨(slot, ns), List.mem_filter.mpr
          ⟨SortedMap.mem_entries.mpr hget, decide_eq_true hdue⟩, List.mem_map.mpr ⟨n, hm, rfl⟩⟩

/-- No object that is still hot and enrolled in the due slot of its deadline has a line in an older
slot. -/
def Undoubled (c : WheelConfig) (w : TimeWheel) (now : Nat) : Prop :=
  ∀ n r, w.Eligible c n → w.loadAccess c n = some r → (now : Int) - r.atime < c.coldAfter n →
    wheelSlotFor r.atime (c.coldAfter n) = r.enrolled →
      r.enrolled ≤ (now : Int).tdiv kWheelSlotSec → ∀ slot < r.enrolled, ¬ w.Listed slot n

/-- The lines of a key up to its first one. -/
theorem first_line {lines : List (Int × ObjectName)} (h : (slot, n) ∈ lines) :
    ∃ pre first post, lines = pre ++ (first, n) :: post ∧ ∀ line ∈ pre, n ≠ line.2 := by
  obtain ⟨⟨first, m⟩, hfind⟩ : ∃ line, lines.find? (fun line => line.2 = n) = some line :=
    Option.isSome_iff_exists.mp (List.find?_isSome.mpr ⟨(slot, n), h, by simp⟩)
  obtain ⟨hm, pre, post, heq, hpre⟩ := List.find?_eq_some_iff_append.mp hfind
  obtain rfl : m = n := by simpa using hm
  exact ⟨pre, first, post, heq, fun line hline heq' => by simpa [heq'] using hpre line hline⟩

/-- The object has a line in a slot that is due, and its record is cold. -/
def Cold (c : WheelConfig) (w : TimeWheel) (now : Nat) (n : ObjectName) : Prop :=
  ∃ r slot, w.loadAccess c n = some r ∧ c.coldAfter n ≤ now - r.atime ∧
    slot ≤ (now : Int).tdiv kWheelSlotSec ∧ w.Listed slot n

/-- After the slots are read, every eligible object is picked, if it is cold, or enrolled. -/
theorem scanIncremental_spec (demoted : ObjectName → Bool) (hw : w.Complete c)
    (hdirty : w.dirty = SortedMap.empty) (hwrite : w.Writable c) (hu : w.Undoubled c now) :
    (w.scanIncremental c now demoted).Tidy c demoted ∧ ∀ n, w.Eligible c n →
      (n ∈ (w.scanIncremental c now demoted).chosen ∧ w.Cold c now n) ∨
        (n ∉ (w.scanIncremental c now demoted).chosen ∧
          (w.scanIncremental c now demoted).wheel.Enrolled c n) := by
  have htidy : ScanCtx.Tidy c demoted
      { wheel := { w with
          slots := w.slots.keep (fun slot => (now : Int).tdiv kWheelSlotSec < slot) } } :=
    ⟨hdirty, fun n hn => by simp at hn, fun n hn => by simp at hn⟩
  have hkept {slot : Int} {n : ObjectName} (hslot : (now : Int).tdiv kWheelSlotSec < slot)
      (hl : w.Listed slot n) :
      ({ w with slots := w.slots.keep (fun slot => (now : Int).tdiv kWheelSlotSec < slot) } :
        TimeWheel).Listed slot n := by
    unfold Listed
    rwa [SortedMap.get?_keep, if_pos (decide_eq_true hslot)]
  refine ⟨htidy.visitAll _, fun n hel => ?_⟩
  obtain ⟨r, hr, hlisted⟩ := hw n hel
  unfold scanIncremental
  by_cases hline : ∃ slot, (slot, n) ∈ w.dueLines now
  · obtain ⟨slot, hmem⟩ := hline
    obtain ⟨pre, first, post, heq, hpre⟩ := first_line hmem
    rw [heq, ScanCtx.visitAll_append, ScanCtx.visitAll_cons]
    obtain ⟨cx, hcx⟩ : ∃ cx, cx = ScanCtx.visitAll c demoted { wheel := { w with
      slots := w.slots.keep (fun slot => (now : Int).tdiv kWheelSlotSec < slot) } } now pre :=
        ⟨_, rfl⟩
    have haside := hcx ▸ htidy.aside_visitAll (n := n) (by simp) hpre
    have ht : cx.Tidy c demoted := hcx ▸ htidy.visitAll pre
    have hnot : n ∉ cx.chosen := mt haside.chosen.mp (by simp)
    have hunseen : n ∉ cx.seen := mt haside.seen.mp (by simp)
    rw [← hcx]
    refine (ht.visit (first, n)).visitAll_of_seen (ScanCtx.seen_visit (Or.inr ⟨rfl, hnot⟩)) ?_ post
    rw [ScanCtx.visit, if_neg (not_or.mpr ⟨hnot, hunseen⟩)]
    have hseen : ({ cx with seen := n :: cx.seen } : ScanCtx).Tidy c demoted :=
      ⟨ht.dirty, ht.batch, ht.chosen⟩
    have hdue := mem_dueLines.mp hmem
    refine (hseen.consider_own (haside.frame.eligible.mpr hel) (hwrite n hel) hnot
      (haside.frame.access.trans hr) fun hne hslot hhot => ?_).imp_left
      fun ⟨hpicked, hcold⟩ => ⟨hpicked, r, slot, hr, hcold, hdue.1, hdue.2⟩
    -- the record names a slot that is not due: the lines of the due slots are read in their order
    refine haside.frame.listed _ (hkept ?_ hlisted)
    by_contra hdue
    have hother := mem_dueLines.mpr ⟨not_lt.mp hdue, hlisted⟩
    have hle : first ≤ r.enrolled := by
      have hsorted := w.dueLines_sorted now
      rw [heq] at hother hsorted
      have hpost := (List.pairwise_append.mp hsorted).2.1
      rcases List.mem_append.mp hother with hin | hin
      · exact absurd rfl (hpre _ hin)
      · rcases List.mem_cons.mp hin with hin | hin
        · exact le_of_eq (congrArg Prod.fst hin).symm
        · exact (List.pairwise_cons.mp hpost).1 _ hin
    have hfirst : w.Listed first n :=
      (mem_dueLines.mp (heq ▸ List.mem_append_right pre List.mem_cons_self)).2
    exact hu n r hel hr hhot hslot (not_lt.mp hdue) first (lt_of_le_of_ne hle (Ne.symm hne)) hfirst
  · right
    have hpre : ∀ line ∈ w.dueLines now, n ≠ line.2 :=
      fun line hmem heq => hline ⟨line.1, heq ▸ hmem⟩
    have hslot : (now : Int).tdiv kWheelSlotSec < r.enrolled := by
      by_contra hdue
      exact hline ⟨r.enrolled, mem_dueLines.mpr ⟨not_lt.mp hdue, hlisted⟩⟩
    have haside : ScanCtx.Aside c n _ (ScanCtx.visitAll c demoted _ now _) :=
      htidy.aside_visitAll (by simp) hpre
    exact ⟨mt haside.chosen.mp (by simp), haside.frame.enrolled ⟨r, hr, hkept hslot hlisted⟩⟩

theorem flushAccess_of_clean (h : w.dirty = SortedMap.empty) : w.flushAccess c = w := by
  obtain ⟨objects, table, dirty, slots⟩ := w
  subst h
  rfl

/-- A round keeps the wheel complete if the demotions of the cold objects succeed. -/
theorem complete_scanOnce {demoted : ObjectName → Bool} (hp : w.Pending c) (hf : w.Flushable c)
    (hwrite : w.Writable c) (hu : (w.flushAccess c).Undoubled c now)
    (hcold : ∀ n, (w.flushAccess c).Eligible c n → (w.flushAccess c).Cold c now n →
      demoted n = true) : (w.scanOnce c now demoted).Complete c := by
  have hwrite' : (w.flushAccess c).Writable c := fun n hn => hwrite n (eligible_flushAccess.mp hn)
  obtain ⟨ht, hall⟩ :=
    scanIncremental_spec demoted (complete_flushAccess hp hf hwrite) rfl hwrite' hu
  rw [scanOnce, flushAccess_of_clean ht.drain.dirty]
  intro n hel
  obtain ⟨hscan, hdone⟩ := ScanCtx.eligible_drained _ hel
  have hbefore := ScanCtx.eligible_of_visitAll _ hscan
  obtain ⟨hnot, henrolled⟩ := (hall n hbefore).resolve_left fun ⟨hmem, hn⟩ => by
    have hdemoted := hcold n hbefore hn
    cases hdemoted.symm.trans (hdone (ht.chosen n hmem hdemoted hscan))
  exact (ScanCtx.frame_drained (fun hmem => hnot (ht.batch n hmem)) _).enrolled henrolled

/-! ## Runs -/

/-- What the events of a run must meet: keys can be written on a line, a flush that takes the slot
of a record to be known finds the line there, the demotions of the objects that are cold at a scan
succeed, and no hot object is read from an older slot than the due one of its record. -/
def Sure (c : WheelConfig) (w : TimeWheel) : WheelEvent → Prop
  | .flush => w.Flushable c ∧ w.Writable c
  | .scan now demoted => (w.Flushable c ∧ w.Writable c) ∧ (w.flushAccess c).Undoubled c now ∧
      ∀ n, (w.flushAccess c).Eligible c n → (w.flushAccess c).Cold c now n → demoted n = true
  | _ => True

theorem pending_step {e : WheelEvent} (he : w.Sure c e) (h : w.Pending c) :
    (w.step c e).Pending c := by
  have hframe {w' : TimeWheel} {n : ObjectName} (hf : Frame c n w w') (hel : w'.Eligible c n) :
      w'.Enrolled c n ∨ (w'.dirty.get? n).isSome :=
    (h n (hf.eligible.mp hel)).imp hf.enrolled fun hd => by rwa [hf.dirty]
  cases e with
  | touch now n =>
      intro m hel
      refine (h m hel).imp id fun hd => ?_
      exact SortedMap.isSome_insert hd
  | flush => exact (complete_flushAccess h he.1 he.2).pending
  | create now n tier localBytes =>
      intro m hel
      by_cases hm : m = n
      · subst hm
        right
        simp [step, create, touch]
      · refine hframe ⟨?_, ?_, ?_, fun _ hl => hl⟩ hel <;>
          simp [step, create, touch, loadAccess, hm]
  | delete n =>
      intro m hel
      have hm : m ≠ n := by
        rintro rfl
        obtain ⟨-, o, hget, -⟩ := hel
        simp [step, delete, forgetAccess] at hget
      refine hframe ⟨?_, ?_, ?_, fun _ hl => hl⟩ hel <;>
        simp [step, delete, forgetAccess, loadAccess, hm]
  | scan now demoted => exact (complete_scanOnce h he.1.1 he.1.2 he.2.1 he.2.2).pending

end TimeWheel

/-- After every scan of a run in which the demotions of cold objects succeed and no line is dropped,
every object that could be demoted has a line in the slot of its record, so the first scan for which
this slot is due considers it. -/
theorem wheel_complete {c : WheelConfig} {w : TimeWheel} (h : w.Complete c) (es : List WheelEvent)
    (now : Nat) (demoted : ObjectName → Bool)
    (hrun : Along (TimeWheel.step c) (TimeWheel.Sure c) w (es ++ [.scan now demoted])) :
    let w' := (es ++ [WheelEvent.scan now demoted]).foldl (TimeWheel.step c) w
    w'.Complete c ∧ ∀ n, w'.Eligible c n → ∃ r, w'.loadAccess c n = some r ∧
      ∀ (later : Nat) demoted', r.enrolled ≤ (later : Int).tdiv kWheelSlotSec →
        n ∈ (w'.scanIncremental c later demoted').seen := by
  intro w'
  have hpending : (es.foldl (TimeWheel.step c) w).Pending c :=
    (Along.append.mp hrun).1.invariant h.pending fun w e => TimeWheel.pending_step
  have hlast := hrun.last
  have hcomplete : w'.Complete c := by
    show ((es ++ [WheelEvent.scan now demoted]).foldl (TimeWheel.step c) w).Complete c
    rw [List.foldl_append]
    exact TimeWheel.complete_scanOnce hpending hlast.1.1 hlast.1.2 hlast.2.1 hlast.2.2
  refine ⟨hcomplete, fun n hel => ?_⟩
  obtain ⟨r, hr, hlisted⟩ := hcomplete n hel
  refine ⟨r, hr, fun later demoted' hdue => ?_⟩
  exact TimeWheel.ScanCtx.seen_visitAll _ (by simp)
    (Or.inr ⟨(r.enrolled, n), TimeWheel.mem_dueLines.mpr ⟨hdue, hlisted⟩, rfl⟩)

/-- An object of five bytes that was used at the given time, with the slot of its record and its
lines. -/
def wheelOf (atime enrolled : Int) (slots : List Int) : TimeWheel where
  objects := SortedMap.empty.insert (toLex ([98], [107]))
    { localBytes := 5, mtime := 0, xattr := some { atime, enrolled } }
  slots := SortedMap.empty.insertAll (slots.map (fun slot => (slot, [toLex ([98], [107])])))

/-- Objects are cold after two hours. -/
def twoHours : WheelConfig := ⟨fun _ => 7200, false⟩

/-- The object is touched after it was enrolled; the scan reads its line in the older slot. -/
theorem wheel_complete_touched :
    (([.touch 6000 (toLex ([98], [107])), .scan 7300 (fun _ => true)] : List WheelEvent).foldl
      (TimeWheel.step twoHours) (wheelOf 5000 3 [2, 3])).Complete twoHours := by
  have hname {w : TimeWheel} {n : ObjectName} (hkeys : w.objects.keys = [toLex ([98], [107])])
      (hn : w.Eligible twoHours n) : n = toLex ([98], [107]) := by
    have hmem := hn.mem_keys
    rwa [hkeys, List.mem_singleton] at hmem
  refine (wheel_complete (by decide +kernel) [.touch 6000 (toLex ([98], [107]))] 7300
    (fun _ => true) ⟨trivial, ⟨⟨?_, ?_⟩, ?_, ?_⟩, trivial⟩).1
  · intro n t hn ht _
    obtain rfl := hname (by decide +kernel) hn
    obtain rfl : (⟨6000, 1⟩ : Touch) = t := by simpa [TimeWheel.step, TimeWheel.touch, wheelOf]
      using ht
    decide +kernel
  · intro n hn
    obtain rfl := hname (by decide +kernel) hn
    decide
  · intro n r hn hr _ _ hdue
    obtain rfl := hname (by decide +kernel) hn
    have hrec : (((wheelOf 5000 3 [2, 3]).touch 6000 (toLex ([98], [107]))).flushAccess
      twoHours).loadAccess twoHours (toLex ([98], [107])) = some ⟨6000, 1, 3⟩ := by decide +kernel
    obtain rfl := Option.some.inj (hrec.symm.trans hr)
    exact absurd hdue (by decide)
  · exact fun _ _ _ => rfl

/-- One object is cold and its demotion fails, the other is hot and has a line in an older slot too:
after the scan neither has a line in the slot of its record. -/
theorem scannedSlots_unlisted :
    (wheelOf 0 2 [2]).Complete twoHours ∧
      ¬ ((wheelOf 0 2 [2]).scanOnce twoHours 8000 (fun _ => false)).Complete twoHours ∧
      (wheelOf 500 2 [1, 2]).Complete twoHours ∧
      ¬ ((wheelOf 500 2 [1, 2]).scanOnce twoHours 7300 (fun _ => true)).Complete twoHours := by
  decide +kernel

end Lights3
