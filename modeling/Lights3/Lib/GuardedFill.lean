import Mathlib.Data.Set.Insert
import Mathlib.Data.List.Basic

/-!
# Caches filled under a generation guard

A cache in front of a log of commits. A reader takes the generation of its
shard, reads the authoritative record later and stores a view of it later
still; the fill is refused when the generation has moved. Retiring keys drops
their entries and moves the generation of their shard. Every entry is then a
view of the record at some time since its key was last retired, whatever the
interleaving.
-/
namespace GuardedFill

variable {K S R C : Type} [DecidableEq K]

/-- The record of a key after the commits of a log; `none` is an absent record. -/
def recordOf (log : List (K × Option R)) (key : K) : Option R :=
  log.foldl (fun r e => if e.1 = key then e.2 else r) none

theorem recordOf_append (log log' : List (K × Option R)) (key : K) :
    recordOf (log ++ log') key =
      log'.foldl (fun r e => if e.1 = key then e.2 else r) (recordOf log key) :=
  List.foldl_append

/-- Commits of other keys do not change a record. -/
theorem recordOf_append_of_ne {log log' : List (K × Option R)} {key : K}
    (h : ∀ e ∈ log', e.1 ≠ key) : recordOf (log ++ log') key = recordOf log key := by
  rw [recordOf_append]
  generalize recordOf log key = r
  induction log' with
  | nil => rfl
  | cons e log' ih =>
      rw [List.foldl_cons, if_neg (h e List.mem_cons_self)]
      exact ih (fun x hx => h x (List.mem_cons_of_mem e hx))

/-- A reader with the generation of its token and the record it has read. -/
structure Reader (K R : Type) where
  key : K
  gen : Nat
  got : Option R

/-- Entries, generations, commits, readers in flight, and for every key the time up
to which its commits have been retired. -/
structure State (K S R C : Type) where
  entry : K → Option C
  gen : S → Nat
  log : List (K × Option R)
  readers : Set (Reader K R)
  floor : K → Nat

/-- Nothing cached, nothing committed. -/
def State.initial : State K S R C := ⟨fun _ => none, fun _ => 0, [], ∅, fun _ => 0⟩

variable (shardOf : K → S) (view : C → R → Prop)

/-- A view of the record of the key at a time since it was last retired. -/
def Since (s : State K S R C) (key : K) (r : R) : Prop :=
  ∃ n, s.floor key ≤ n ∧ n ≤ s.log.length ∧ recordOf (s.log.take n) key = some r

/-- Entries and the records of readers whose token is current are fresh. -/
structure Inv (s : State K S R C) : Prop where
  floor_le : ∀ key, s.floor key ≤ s.log.length
  entry : ∀ key c, s.entry key = some c → ∃ r, Since s key r ∧ view c r
  gen_le : ∀ rd ∈ s.readers, rd.gen ≤ s.gen (shardOf rd.key)
  got : ∀ rd ∈ s.readers, ∀ r, rd.got = some r → rd.gen = s.gen (shardOf rd.key) →
    Since s rd.key r

theorem inv_initial : Inv shardOf view (State.initial : State K S R C) where
  floor_le _ := le_rfl
  entry _ _ h := by simp [State.initial] at h
  gen_le _ h := by simp [State.initial] at h
  got _ h := by simp [State.initial] at h

variable {shardOf view} {s s' : State K S R C}

/-- Later commits do not change what was read at an earlier time. -/
theorem Since.commit {key : K} {r : R} (h : Since s key r) (e : K × Option R) :
    Since { s with log := s.log ++ [e] } key r := by
  obtain ⟨n, hfloor, hn, hr⟩ := h
  refine ⟨n, hfloor, ?_, ?_⟩
  · show n ≤ (s.log ++ [e]).length
    rw [List.length_append]
    omega
  · show recordOf ((s.log ++ [e]).take n) key = some r
    rw [List.take_append_of_le_length hn]
    exact hr

/-- When all commits of a key have been retired, its entry is a view of the latest record. -/
theorem Inv.entry_current (h : Inv shardOf view s) {key : K} {c : C} (hc : s.entry key = some c)
    (hfloor : ∀ t r, s.log[t]? = some (key, r) → t < s.floor key) :
    ∃ r, recordOf s.log key = some r ∧ view c r := by
  obtain ⟨r, ⟨n, hn, hlen, hrec⟩, hv⟩ := h.entry key c hc
  refine ⟨r, ?_, hv⟩
  rw [← List.take_append_drop n s.log, recordOf_append_of_ne, hrec]
  intro e he heq
  obtain ⟨i, hi⟩ := List.mem_iff_getElem?.mp he
  rw [List.getElem?_drop] at hi
  have hlt := hfloor (n + i) e.2 (by rw [hi, ← heq])
  omega

/-! ## Steps -/

variable [DecidableEq S]

variable (shardOf view) in
/-- One atomic step of any party. -/
inductive Step : State K S R C → State K S R C → Prop where
  /-- Entries are evicted and readers give up. -/
  | quiet {s : State K S R C} (entry : K → Option C) (readers : Set (Reader K R)) :
      (∀ key c, entry key = some c → s.entry key = some c) → readers ⊆ s.readers →
      Step s { s with entry, readers }
  | token {s : State K S R C} (key : K) (gen : Nat) : gen ≤ s.gen (shardOf key) →
      Step s { s with readers := insert ⟨key, gen, none⟩ s.readers }
  | read {s : State K S R C} (rd : Reader K R) (r : R) : rd ∈ s.readers →
      recordOf s.log rd.key = some r →
      Step s { s with readers := insert { rd with got := some r } s.readers }
  | fill {s : State K S R C} (rd : Reader K R) (r : R) (c : C) (entry : K → Option C) :
      rd ∈ s.readers → rd.got = some r → rd.gen = s.gen (shardOf rd.key) → view c r →
      (∀ key c', entry key = some c' → s.entry key = some c' ∨ key = rd.key ∧ c' = c) →
      Step s { s with entry }
  | commit {s : State K S R C} (key : K) (r : Option R) :
      Step s { s with log := s.log ++ [(key, r)] }
  /-- Keys of one shard are dropped and its generation moves. -/
  | retire {s : State K S R C} (shard : S) (keys : K → Bool) (entry : K → Option C) :
      (∀ key, keys key = true → shardOf key = shard) →
      (∀ key c, entry key = some c → s.entry key = some c ∧ keys key = false) →
      Step s { s with
        entry
        gen := Function.update s.gen shard (s.gen shard + 1)
        floor := fun key => if keys key then s.log.length else s.floor key }

theorem Inv.step (h : Inv shardOf view s) (hstep : Step shardOf view s s') :
    Inv shardOf view s' := by
  cases hstep with
  | quiet entry readers he hr =>
      exact ⟨h.floor_le, fun key c hc => h.entry key c (he key c hc),
        fun rd hrd => h.gen_le rd (hr hrd), fun rd hrd => h.got rd (hr hrd)⟩
  | token key gen hgen =>
      refine ⟨h.floor_le, h.entry, fun rd hrd => ?_, fun rd hrd => ?_⟩
      · rcases hrd with rfl | hrd
        · exact hgen
        · exact h.gen_le rd hrd
      · rcases hrd with rfl | hrd
        · intro r hr
          cases hr
        · exact h.got rd hrd
  | read rd r hmem hrec =>
      refine ⟨h.floor_le, h.entry, fun rd' hrd' => ?_, fun rd' hrd' => ?_⟩
      · rcases hrd' with rfl | hrd'
        · exact h.gen_le rd hmem
        · exact h.gen_le rd' hrd'
      · rcases hrd' with rfl | hrd'
        · intro r' hr' _
          cases hr'
          exact ⟨s.log.length, h.floor_le _, le_rfl, by rwa [List.take_length]⟩
        · exact h.got rd' hrd'
  | fill rd r c entry hmem hgot hgen hview he =>
      refine ⟨h.floor_le, fun key c' hc' => ?_, h.gen_le, h.got⟩
      rcases he key c' hc' with hold | ⟨rfl, rfl⟩
      · exact h.entry key c' hold
      · exact ⟨r, h.got rd hmem r hgot hgen, hview⟩
  | commit key r =>
      refine ⟨fun key' => ?_, fun key' c hc => ?_, h.gen_le, fun rd hrd r' hr' hgen => ?_⟩
      · show s.floor key' ≤ (s.log ++ [(key, r)]).length
        rw [List.length_append]
        exact (h.floor_le key').trans (Nat.le_add_right _ _)
      · obtain ⟨r', hr', hv⟩ := h.entry key' c hc
        exact ⟨r', hr'.commit _, hv⟩
      · exact (h.got rd hrd r' hr' hgen).commit _
  | retire shard keys entry hkeys he =>
      have hgen (rd : Reader K R) (hrd : rd ∈ s.readers) :
          rd.gen ≤ Function.update s.gen shard (s.gen shard + 1) (shardOf rd.key) := by
        by_cases hs : shardOf rd.key = shard
        · rw [hs, Function.update_self]
          exact (hs ▸ h.gen_le rd hrd).trans (Nat.le_succ _)
        · rw [Function.update_of_ne hs]
          exact h.gen_le rd hrd
      refine ⟨fun key => ?_, fun key c hc => ?_, hgen, fun rd hrd r hr hcur => ?_⟩
      · show (if keys key then s.log.length else s.floor key) ≤ s.log.length
        split_ifs
        · exact le_rfl
        · exact h.floor_le key
      · obtain ⟨hold, hkey⟩ := he key c hc
        obtain ⟨r, ⟨n, hfloor, hn, hrec⟩, hv⟩ := h.entry key c hold
        refine ⟨r, ⟨n, ?_, hn, hrec⟩, hv⟩
        show (if keys key then s.log.length else s.floor key) ≤ n
        rw [hkey]
        exact hfloor
      · by_cases hs : shardOf rd.key = shard
        · have hcur' : rd.gen = s.gen shard + 1 := by
            refine hcur.trans ?_
            show Function.update s.gen shard (s.gen shard + 1) (shardOf rd.key) = _
            rw [hs, Function.update_self]
          have hle := hs ▸ h.gen_le rd hrd
          omega
        · have hcur' : rd.gen = s.gen (shardOf rd.key) :=
            hcur.trans (Function.update_of_ne hs _ _)
          obtain ⟨n, hfloor, hn, hrec⟩ := h.got rd hrd r hr hcur'
          refine ⟨n, ?_, hn, hrec⟩
          show (if keys rd.key then s.log.length else s.floor rd.key) ≤ n
          rw [if_neg (fun hk => hs (hkeys rd.key hk))]
          exact hfloor

/-- The invariant holds in every reachable state. -/
theorem Inv.steps (h : Inv shardOf view s)
    (hsteps : Relation.ReflTransGen (Step shardOf view) s s') : Inv shardOf view s' := by
  induction hsteps with
  | refl => exact h
  | tail _ hstep ih => exact ih.step hstep

end GuardedFill
