import Lights3.WheelCompleteness

/-!
# Access counts across flushes

`touch` and the steps of `flush_access_sync` of `tiered/tiered_backend.cc` as they concern one key:
a round takes a snapshot of the pending touch, loads the access record, persists the sum, and drops
the pending touch if it has not moved. Rounds and touches interleave in any way. What a round does
for the other keys does not concern the key.

A touch between the snapshot and the drop leaves the part that was persisted in the pending touch,
and so do two rounds that take the same touch. The counts are exact in the runs without either.
-/
namespace Lights3

/-- How far a round is with the key. -/
inductive FlushPhase where
  /-- The key was not pending. -/
  | absent
  | took (t : Touch)
  | loaded (t : Touch) (r : AccessRec)
  | persisted (t : Touch)
  deriving DecidableEq

structure AccessRounds where
  wheel : TimeWheel
  rounds : SortedMap Nat FlushPhase := .empty
  /-- History: how often the key was touched, and when last. -/
  touches : Nat := 0
  last : Int := 0

inductive AccessEvent where
  | touch (now : Nat)
  | snapshot (r : Nat)
  | load (r : Nat)
  | persist (r : Nat)
  | drop (r : Nat)

/-- A counter of touches stops at the largest `uint32_t`. -/
def saturated (touches : Nat) : Nat := min touches (2 ^ 32 - 1)

namespace AccessRounds

section Steps

variable (c : WheelConfig) (n : ObjectName) (s : AccessRounds)

def stored : AccessRec := (s.wheel.loadAccess c n).getD {}

def touch (now : Nat) : AccessRounds :=
  { s with wheel := s.wheel.touch now n, touches := s.touches + 1, last := now }

def snapshot (r : Nat) : AccessRounds :=
  match s.rounds.get? r with
  | some _ => s
  | none => { s with rounds := s.rounds.insert r (((s.wheel.dirty.get? n).map .took).getD .absent) }

def load (r : Nat) : AccessRounds :=
  match s.rounds.get? r with
  | some (.took t) => { s with rounds := s.rounds.insert r (.loaded t (s.stored c n)) }
  | _ => s

def persist (r : Nat) : AccessRounds :=
  match s.rounds.get? r with
  | some (.loaded t a) =>
      { s with
        wheel := s.wheel.persistAccess c n
          { a with atime := max a.atime t.atime, hits := addHits a.hits t.hits }
        rounds := s.rounds.insert r (.persisted t) }
  | _ => s

/-- The round ends; the pending touch is dropped if it is still the one of the snapshot. -/
def drop (r : Nat) : AccessRounds :=
  match s.rounds.get? r with
  | some .absent => { s with rounds := s.rounds.erase r }
  | some (.persisted t) =>
      let same := (s.wheel.dirty.get? n).any (fun t' => t'.atime = t.atime && t'.hits = t.hits)
      { s with
        wheel := if same then { s.wheel with dirty := s.wheel.dirty.erase n } else s.wheel
        rounds := s.rounds.erase r }
  | _ => s

def step : AccessEvent → AccessRounds
  | .touch now => s.touch n now
  | .snapshot r => s.snapshot n r
  | .load r => s.load c n r
  | .persist r => s.persist c n r
  | .drop r => s.drop n r

/-- No round has the key in its snapshot. -/
def Idle : Prop := ∀ r q, s.rounds.get? r = some q → q = .absent

/-- The record that a flush would leave. -/
def settled : AccessRec :=
  match s.wheel.dirty.get? n with
  | none => s.stored c n
  | some t => s.wheel.flushed c n t

/-- The stored and the pending hits are the touches, and the last touch is stored or pending. -/
structure Exact : Prop where
  hits : (s.settled c n).hits = saturated s.touches
  time : 0 < s.touches →
    (s.stored c n).atime = s.last ∨ ∃ t ∈ s.wheel.dirty.get? n, t.atime = s.last

/-- A round that has the key in its snapshot ends before the next touch and the next round, and the
clock does not go back. -/
def Undisturbed (s : AccessRounds) : AccessEvent → Prop
  | .touch now => s.Idle ∧ s.last ≤ now
  | .snapshot _ => s.Idle
  | _ => True

end Steps

variable {c : WheelConfig} {n : ObjectName} {s : AccessRounds}

/-! ## The books of one key -/

theorem addHits_saturated (a b : Nat) :
    addHits (saturated a) (saturated b) = saturated (a + b) := by
  simp only [addHits, saturated]
  omega

theorem saturated_succ (b : Nat) : saturated (b + 1) =
    if saturated b < 2 ^ 32 - 1 then saturated b + 1 else saturated b := by
  unfold saturated
  split_ifs with h <;> omega

/-- The hits are stored in part and pending in part. -/
structure Split (c : WheelConfig) (n : ObjectName) (s : AccessRounds) : Prop where
  hits : ∃ a b, a + b = s.touches ∧ (s.stored c n).hits = saturated a ∧
    ((s.wheel.dirty.get? n).map Touch.hits).getD 0 = saturated b
  early : (s.stored c n).atime ≤ s.last
  pending : ∀ t ∈ s.wheel.dirty.get? n, t.atime = s.last
  clean : s.wheel.dirty.get? n = none → 0 < s.touches → (s.stored c n).atime = s.last

theorem Split.setRounds (h : s.Split c n) (rounds : SortedMap Nat FlushPhase) :
    Split c n { s with rounds } := { h with }

theorem Split.exact (h : s.Split c n) : s.Exact c n := by
  obtain ⟨⟨a, b, hsum, hstored, hpending⟩, -, htime, hclean⟩ := h
  unfold AccessRounds.stored at hstored
  cases hd : s.wheel.dirty.get? n with
  | none =>
      refine ⟨?_, fun hpos => Or.inl (hclean hd hpos)⟩
      have hb : b = 0 := by simpa [hd, saturated] using hpending.symm
      rw [settled, hd, AccessRounds.stored, hstored, ← hsum, hb, Nat.add_zero]
  | some t =>
      refine ⟨?_, fun _ => Or.inr ⟨t, hd, htime t hd⟩⟩
      have hb : t.hits = saturated b := by simpa [hd] using hpending
      simp only [settled, hd, TimeWheel.flushed]
      rw [hstored, hb, addHits_saturated, hsum]

/-- What holds while the round that has the key is in a phase. -/
def PhaseOk (c : WheelConfig) (n : ObjectName) (s : AccessRounds) : FlushPhase → Prop
  | .absent => s.Split c n
  | .took t => s.wheel.dirty.get? n = some t ∧ s.Split c n
  | .loaded t a => s.wheel.dirty.get? n = some t ∧ a = s.stored c n ∧ s.Split c n
  | .persisted t => s.wheel.dirty.get? n = some t ∧
      (s.stored c n).hits = saturated s.touches ∧ (s.stored c n).atime = s.last

/-- At most one round has the key, and the books fit its phase. -/
def Inv (c : WheelConfig) (n : ObjectName) (s : AccessRounds) : Prop :=
  ∃ r p, (p = .absent ∨ s.rounds.get? r = some p) ∧ s.PhaseOk c n p ∧
    ∀ r' q, s.rounds.get? r' = some q → q = .absent ∨ r' = r ∧ q = p

theorem Inv.split (h : s.Inv c n) (hidle : s.Idle) : s.Split c n := by
  obtain ⟨r, p, hp, hok, -⟩ := h
  rcases hp with rfl | hp
  · exact hok
  · obtain rfl := hidle r p hp
    exact hok

/-- The round of a phase other than `absent` is the one of the invariant. -/
theorem Inv.phaseOk (h : s.Inv c n) {r : Nat} {p : FlushPhase} (hr : s.rounds.get? r = some p)
    (hp : p ≠ .absent) :
    s.PhaseOk c n p ∧ ∀ r' q, s.rounds.get? r' = some q → q = .absent ∨ r' = r ∧ q = p := by
  obtain ⟨r₀, p₀, -, hok, hone⟩ := h
  obtain ⟨rfl, rfl⟩ := (hone r p hr).resolve_left hp
  exact ⟨hok, hone⟩

/-- The round of the key goes to its next phase. -/
theorem inv_insert {s' : AccessRounds} {r : Nat} {p p' : FlushPhase}
    (hone : ∀ r' q, s.rounds.get? r' = some q → q = .absent ∨ r' = r ∧ q = p)
    (hrounds : s'.rounds = s.rounds.insert r p') (hok : s'.PhaseOk c n p') : s'.Inv c n := by
  refine ⟨r, p', Or.inr (by simp [hrounds]), hok, fun r' q hq => ?_⟩
  rw [hrounds] at hq
  rcases SortedMap.get?_insert_cases hq with ⟨rfl, rfl⟩ | ⟨hne, hq⟩
  · exact Or.inr ⟨rfl, rfl⟩
  · exact (hone r' q hq).imp_right (fun h => absurd h.1 hne)

theorem inv_erase {s' : AccessRounds} {r : Nat} {p : FlushPhase}
    (hone : ∀ r' q, s.rounds.get? r' = some q → q = .absent ∨ r' = r ∧ q = p)
    (hrounds : s'.rounds = s.rounds.erase r) (hok : s'.Split c n) : s'.Inv c n := by
  refine ⟨r, .absent, Or.inl rfl, hok, fun r' q hq => ?_⟩
  rw [hrounds] at hq
  obtain ⟨hne, hq⟩ := SortedMap.get?_erase_some hq
  exact Or.inl ((hone r' q hq).resolve_right (fun h => hne h.1))

theorem Inv.erase_absent (h : s.Inv c n) {r : Nat} (hr : s.rounds.get? r = some .absent) :
    Inv c n { s with rounds := s.rounds.erase r } := by
  obtain ⟨r₀, p, hp, hok, hone⟩ := h
  refine ⟨r₀, p, ?_, ?_, fun r' q hq => ?_⟩
  · by_cases habs : p = .absent
    · exact Or.inl habs
    · have hget := hp.resolve_left habs
      refine Or.inr ?_
      rw [SortedMap.get?_erase, if_neg, hget]
      rintro rfl
      exact habs (Option.some.inj (hget.symm.trans hr))
  · cases p with
    | absent => exact Split.setRounds hok _
    | took t => exact ⟨hok.1, hok.2.setRounds _⟩
    | loaded t a => exact ⟨hok.1, hok.2.1, hok.2.2.setRounds _⟩
    | persisted t => exact hok
  · exact hone r' q (SortedMap.get?_erase_some hq).2

theorem loadAccess_persistAccess (w : TimeWheel) (n : ObjectName) (r : AccessRec) :
    ∃ enrolled, (w.persistAccess c n r).loadAccess c n = some { r with enrolled } := by
  unfold TimeWheel.persistAccess
  dsimp only
  split_ifs
  · exact ⟨_, TimeWheel.loadAccess_storeAccess _ n _⟩
  · exact ⟨r.enrolled, TimeWheel.loadAccess_storeAccess w n r⟩
  · exact ⟨r.enrolled, TimeWheel.loadAccess_storeAccess w n r⟩

/-! ## Steps -/

theorem Split.touch (h : s.Split c n) {now : Nat} (hlast : s.last ≤ now) :
    (s.touch n now).Split c n := by
  obtain ⟨a, b, hsum, hstored, hpending⟩ := h.hits
  have hdirty : (s.touch n now).wheel.dirty.get? n = some
      ⟨now, if ((s.wheel.dirty.get? n).getD {}).hits < 2 ^ 32 - 1 then
        ((s.wheel.dirty.get? n).getD {}).hits + 1 else ((s.wheel.dirty.get? n).getD {}).hits⟩ := by
    simp [AccessRounds.touch, TimeWheel.touch]
  have hhits : ((s.wheel.dirty.get? n).getD {}).hits = saturated b := by
    rw [← hpending]
    cases s.wheel.dirty.get? n <;> rfl
  refine ⟨⟨a, b + 1, ?_, hstored, ?_⟩, h.early.trans hlast, ?_, ?_⟩
  · rw [← Nat.add_assoc, hsum]
    rfl
  · rw [hdirty, hhits]
    exact (saturated_succ b).symm
  · rw [hdirty]
    rintro t ⟨⟩
    rfl
  · simp [hdirty]

theorem Inv.step (h : s.Inv c n) {e : AccessEvent} (hq : s.Undisturbed e) :
    (s.step c n e).Inv c n := by
  cases e with
  | touch now =>
      exact ⟨0, .absent, Or.inl rfl, (h.split hq.1).touch hq.2, fun r q hr => Or.inl (hq.1 r q hr)⟩
  | snapshot r =>
      have hsplit := h.split hq
      simp only [AccessRounds.step, AccessRounds.snapshot]
      split
      · exact h
      · refine inv_insert (p := .absent) (fun r' q hr => Or.inl (hq r' q hr)) rfl ?_
        cases hd : s.wheel.dirty.get? n with
        | none => exact hsplit.setRounds _
        | some t => exact ⟨hd, hsplit.setRounds _⟩
  | load r =>
      simp only [AccessRounds.step, AccessRounds.load]
      split
      · rename_i t hr
        obtain ⟨⟨hd, hsplit⟩, hone⟩ := h.phaseOk hr nofun
        exact inv_insert hone rfl ⟨hd, rfl, hsplit.setRounds _⟩
      · exact h
  | persist r =>
      simp only [AccessRounds.step, AccessRounds.persist]
      split
      · rename_i t a hr
        obtain ⟨⟨hd, rfl, hsplit⟩, hone⟩ := h.phaseOk hr nofun
        refine inv_insert hone rfl ?_
        obtain ⟨enrolled, hload⟩ := loadAccess_persistAccess s.wheel n
          { s.stored c n with
            atime := max (s.stored c n).atime t.atime
            hits := addHits (s.stored c n).hits t.hits }
        obtain ⟨a, b, hsum, hstored, hpending⟩ := hsplit.hits
        have htime := hsplit.pending t hd
        have hb : t.hits = saturated b := by simpa [hd] using hpending
        refine ⟨by rw [TimeWheel.dirty_persistAccess, hd], ?_, ?_⟩
        · rw [AccessRounds.stored, hload, Option.getD_some]
          simp only [hstored, hb, addHits_saturated, hsum]
        · rw [AccessRounds.stored, hload, Option.getD_some]
          simp only [htime, max_eq_right hsplit.early]
      · exact h
  | drop r =>
      simp only [AccessRounds.step, AccessRounds.drop]
      split
      · rename_i hr
        exact h.erase_absent hr
      · rename_i t hr
        obtain ⟨⟨hd, hhits, htime⟩, hone⟩ := h.phaseOk hr nofun
        refine inv_erase hone rfl ?_
        simp only [hd, Option.any_some, decide_true, Bool.and_self, if_true]
        refine ⟨⟨s.touches, 0, rfl, hhits, by simp [saturated]⟩, htime.le, by simp,
          fun _ _ => htime⟩
      · exact h

/-! ## Runs -/

/-- A key that was not touched yet. -/
def Untouched (c : WheelConfig) (n : ObjectName) (w : TimeWheel) : Prop :=
  w.loadAccess c n = none ∧ w.dirty.get? n = none

theorem inv_start {w : TimeWheel} (h : Untouched c n w) : Inv c n { wheel := w } := by
  refine ⟨0, .absent, Or.inl rfl, ⟨⟨0, 0, rfl, ?_, ?_⟩, ?_, ?_, ?_⟩, ?_⟩
  · simp [AccessRounds.stored, h.1, saturated]
  · simp [h.2, saturated]
  · simp [AccessRounds.stored, h.1]
  · simp [h.2]
  · simp
  · simp

/-- In a run in which no touch and no other round comes between the snapshot and the drop of a round
that has the key, the counts are exact whenever no round has the key. -/
theorem access_exact (c : WheelConfig) (n : ObjectName) (w : TimeWheel) (hw : Untouched c n w)
    (events : List AccessEvent) (h : Along (step c n) Undisturbed { wheel := w } events)
    (hidle : (events.foldl (step c n) { wheel := w }).Idle) :
    (events.foldl (step c n) { wheel := w }).Exact c n :=
  ((h.invariant (inv_start hw) (fun _ _ hq hi => hi.step hq)).split hidle).exact

def someKey : ObjectName := toLex ([98], [107])

def wheelConfig : WheelConfig := ⟨fun _ => 0, true⟩

/-- Two touches, with a round after each. -/
def twoRounds : List AccessEvent :=
  [.touch 5, .snapshot 0, .load 0, .persist 0, .drop 0, .touch 7, .snapshot 1, .load 1,
    .persist 1, .drop 1]

instance (s : AccessRounds) : Decidable s.Idle :=
  decidable_of_iff (∀ e ∈ s.rounds.entries, e.2 = .absent)
    ⟨fun h r q hr => h (r, q) (SortedMap.mem_entries.mpr hr),
      fun h e he => h e.1 e.2 (SortedMap.mem_entries.mp he)⟩

instance (s : AccessRounds) (e : AccessEvent) : Decidable (s.Undisturbed e) :=
  match e with
  | .touch _ => inferInstanceAs (Decidable (_ ∧ _))
  | .snapshot _ => inferInstanceAs (Decidable (Idle _))
  | .load _ | .persist _ | .drop _ => inferInstanceAs (Decidable True)

theorem access_exact_twice :
    (twoRounds.foldl (step wheelConfig someKey) { wheel := {} }).touches = 2 ∧
      (twoRounds.foldl (step wheelConfig someKey) { wheel := {} }).Exact wheelConfig someKey :=
  ⟨by decide +kernel, access_exact wheelConfig someKey {}
    ⟨by decide +kernel, by decide +kernel⟩ twoRounds (by decide +kernel) (by decide +kernel)⟩

def overtakenRound : List AccessEvent :=
  [.touch 5, .snapshot 0, .load 0, .persist 0, .touch 7, .drop 0]

/-- A touch comes between the snapshot and the drop, and the first touch is counted twice. -/
theorem touch_counted_twice :
    let s := overtakenRound.foldl (step wheelConfig someKey) { wheel := {} }
    s.Idle ∧ s.touches = 2 ∧ (s.settled wheelConfig someKey).hits = 3 := by
  decide +kernel

end AccessRounds

end Lights3
