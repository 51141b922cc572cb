import Lights3.Lib.ShortestPrefix
import Lights3.TimeWheel
import Mathlib.Data.UInt

/-!
# Space-watermark eviction

`scan_evict` of `tiered/tiered_backend.cc`. Candidates come from the slots of the wheel in order and
are kept in a ranking that is cut off behind the need each time a candidate arrives; then what is
left is evicted. The counters are 64-bit words. The score of a candidate is of any linear order.
-/
namespace Lights3
open ByteString

/-- `Evict`. -/
structure Evict (σ : Type) where
  name : ObjectName
  /-- Cached objects and range caches before local objects. -/
  rank : Nat
  /-- Higher first within a rank. -/
  score : σ
  size : UInt64
  rcache : Bool
  deriving DecidableEq

/-- What the scan reads beside the wheel, at the time of the scan. -/
structure EvictInputs (σ : Type) where
  rangeCacheBytes : ObjectName → UInt64
  /-- `evict_score`. -/
  evictScore : AccessRec → UInt64 → σ

/-- The variables of the scan. -/
structure EvictScan (σ : Type) where
  evict : List (Evict σ) := []
  evictBytes : UInt64 := 0
  collected : UInt64 := 0
  seen : List ObjectName := []
  done : Bool := false
  /-- The candidates so far, which the scan does not keep. -/
  read : List (Evict σ) := []

/-- The variables of the launch loop. -/
structure Launch where
  cx : TimeWheel.ScanCtx
  need : UInt64
  /-- The range caches that were dropped. -/
  dropped : List ObjectName := []
  evicted : Nat := 0
  evictedBytes : UInt64 := 0

variable {σ : Type} [LinearOrder σ]

/-- The order of the candidates. -/
def Evict.place (e : Evict σ) : ℕ ×ₗ σᵒᵈ ×ₗ ObjectName :=
  toLex (e.rank, toLex (OrderDual.toDual e.score, e.name))

def Evict.bytes (e : Evict σ) : ℕ := e.size.toNat

namespace TimeWheel

/-- The candidate of a line: nothing if the object is gone, pinned or holds no local bytes. -/
def candidate (c : WheelConfig) (x : EvictInputs σ) (w : TimeWheel) (n : ObjectName) :
    Option (Evict σ) :=
  match w.objects.get? n with
  | none => none
  | some o =>
      if c.coldAfter n < 0 then none
      else
        let size := if o.tier = .kRemote then x.rangeCacheBytes n else .ofNat o.localBytes
        if size = 0 then none
        else some
          { name := n
            rank := if o.tier = .kLocal then 1 else 0
            score := x.evictScore (w.accessOf c n o.mtime) size
            size
            rcache := o.tier = .kRemote }

end TimeWheel

namespace EvictScan

/-- The kept candidates from the last one on, and their bytes. -/
def trim (need : UInt64) : List (Evict σ) → UInt64 → List (Evict σ) × UInt64
  | [], bytes => ([], bytes)
  | e :: rest, bytes =>
      if need ≤ bytes - e.size then trim need rest (bytes - e.size) else (e :: rest, bytes)

def enough (need : UInt64) : UInt64 := max (need * 4) (need + (64 : UInt64) <<< 20)

/-- A candidate arrives. -/
def take (need : UInt64) (st : EvictScan σ) (e : Evict σ) : EvictScan σ :=
  let (kept, bytes) :=
    trim need (st.evict.orderedInsert (fun a b => a.place ≤ b.place) e).reverse
      (st.evictBytes + e.size)
  { st with
    evict := kept.reverse
    evictBytes := bytes
    collected := st.collected + e.size
    done := enough need ≤ st.collected + e.size && need ≤ bytes
    read := st.read ++ [e] }

/-- A line of a slot. -/
def visit (candidate : ObjectName → Option (Evict σ)) (chosen : List ObjectName) (need : UInt64)
    (st : EvictScan σ) (n : ObjectName) : EvictScan σ :=
  if st.done = true ∨ n ∈ chosen ∨ n ∈ st.seen then st
  else
    match candidate n with
    | none => { st with seen := n :: st.seen }
    | some e => { st with seen := n :: st.seen }.take need e

def visitAll (candidate : ObjectName → Option (Evict σ)) (chosen : List ObjectName)
    (need : UInt64) (lines : List ObjectName) : EvictScan σ :=
  lines.foldl (visit candidate chosen need) {}

end EvictScan

namespace Launch

/-- One candidate of the launch loop; the loop ends when nothing is needed any more. -/
def launch (demoted : ObjectName → Bool) (s : Launch) (e : Evict σ) : Launch :=
  if s.need = 0 then s
  else
    { cx := (if e.rcache then s.cx else s.cx.pick e.name).drainFull demoted
      need := s.need - min s.need e.size
      dropped := if e.rcache then s.dropped ++ [e.name] else s.dropped
      evicted := s.evicted + 1
      evictedBytes := s.evictedBytes + e.size }

def launchAll (demoted : ObjectName → Bool) (s : Launch) (kept : List (Evict σ)) : Launch :=
  let s := kept.foldl (launch demoted) s
  { s with cx := s.cx.drain demoted }

end Launch

namespace TimeWheel

/-- The candidate loop of `scan_evict`. -/
def evictScan (c : WheelConfig) (x : EvictInputs σ) (cx : ScanCtx) (need : UInt64) : EvictScan σ :=
  EvictScan.visitAll (cx.wheel.candidate c x) cx.chosen need (cx.wheel.slots.entries.flatMap (·.2))

/-- `scan_evict`. -/
def scanEvict (c : WheelConfig) (x : EvictInputs σ) (demoted : ObjectName → Bool) (cx : ScanCtx)
    (need : UInt64) : Launch :=
  Launch.launchAll demoted { cx, need } (evictScan c x cx need).evict

end TimeWheel

/-! ## The candidate loop -/

section Loop

open ShortestPrefix

variable {need : UInt64} {st : EvictScan σ} {chosen : List ObjectName}
  {candidate : ObjectName → Option (Evict σ)}

namespace EvictScan

omit [LinearOrder σ] in
/-- Cutting off from the end leaves the shortest prefix if the sum has not overflowed. -/
theorem trim_eq (need : UInt64) {l : List (Evict σ)} {bytes : UInt64}
    (h : bytes.toNat = total Evict.bytes l) :
    (trim need l.reverse bytes).1.reverse = shortest Evict.bytes need.toNat l ∧
      (trim need l.reverse bytes).2.toNat = total Evict.bytes
      (shortest Evict.bytes need.toNat l) := by
  induction l using List.reverseRecOn generalizing bytes with
  | nil => simpa [trim] using h
  | append_singleton l e ih =>
      have hsum : bytes.toNat = total Evict.bytes l + e.size.toNat := by
        simpa [total_append, Evict.bytes] using h
      have hrest : (bytes - e.size).toNat = total Evict.bytes l := by
        rw [UInt64.toNat_sub_of_le _ _ (UInt64.le_iff_toNat_le.mpr (by omega))]
        omega
      rw [List.reverse_concat, trim]
      split_ifs with hneed
      · rw [UInt64.le_iff_toNat_le, hrest] at hneed
        rw [shortest_append_of_le hneed]
        exact ih hrest
      · rw [UInt64.le_iff_toNat_le, hrest, Nat.not_le] at hneed
        rw [shortest_concat_of_lt hneed]
        simp [h]

instance : Std.Total (fun a b : Evict σ => a.place ≤ b.place) := ⟨fun _ _ => le_total _ _⟩

instance : IsTrans (Evict σ) (fun a b => a.place ≤ b.place) := ⟨fun _ _ _ => le_trans⟩

/-- The candidates of the lines in their order, each object where it first occurs. -/
def stream (candidate : ObjectName → Option (Evict σ)) (chosen lines : List ObjectName) :
    List (Evict σ) :=
  (lines.filter (· ∉ chosen)).reverse.dedup.reverse.filterMap candidate

/-- The order of candidates that have arrived in this order. -/
def ranked (read : List (Evict σ)) : List (Evict σ) :=
  read.reverse.insertionSort (fun a b => a.place ≤ b.place)

/-- The scan stops when it has read enough candidates and they cover the need. -/
def Stops (need : UInt64) (read : List (Evict σ)) : Prop :=
  enough need ≤ (read.map Evict.size).sum ∧ need.toNat ≤ total Evict.bytes read

instance (need : UInt64) (read : List (Evict σ)) : Decidable (Stops need read) :=
  inferInstanceAs (Decidable (_ ∧ _))

/-- Whenever a candidate arrives, its size and those of the best ones before it that cover the need
add up to less than `2 ^ 64`. -/
def Fits (need : UInt64) (stream : List (Evict σ)) : Prop :=
  ∀ k (hk : k < stream.length), Stops need (stream.take k) ∨
    total Evict.bytes (shortest Evict.bytes need.toNat (ranked (stream.take k))) +
      stream[k].bytes < 2 ^ 64

instance (need : UInt64) (stream : List (Evict σ)) : Decidable (Fits need stream) :=
  inferInstanceAs (Decidable (∀ k (_ : k < stream.length), _ ∨ _))

omit [LinearOrder σ] in
theorem stream_concat (lines : List ObjectName) (n : ObjectName) :
    stream candidate chosen (lines ++ [n]) =
      stream candidate chosen lines ++
        if n ∈ chosen ∨ n ∈ lines then [] else (candidate n).toList := by
  unfold stream
  by_cases hchosen : n ∈ chosen
  · simp [hchosen]
  · by_cases hmem : n ∈ lines
    · simp [hchosen, hmem]
    · cases hc : candidate n <;> simp [hchosen, hmem, hc]

theorem ranked_concat (read : List (Evict σ)) (e : Evict σ) :
    ranked (read ++ [e]) = (ranked read).orderedInsert (fun a b => a.place ≤ b.place) e := by
  rw [ranked, List.reverse_append]
  rfl

theorem ranked_perm (read : List (Evict σ)) : (ranked read).Perm read :=
  (List.perm_insertionSort _ _).trans read.reverse_perm

omit [LinearOrder σ] in
theorem not_stops_nil (need : UInt64) : ¬ Stops need ([] : List (Evict σ)) := by
  rintro ⟨henough, hneed⟩
  obtain rfl : need = 0 := UInt64.toNat_inj.mp (by simpa using hneed)
  exact absurd henough (by decide : ¬ enough 0 ≤ 0)

/-- What the scan knows after some lines: the best candidates that it has read, and that there was
no earlier point to stop. Until it stops it has read them all. -/
structure Scanned (candidate : ObjectName → Option (Evict σ)) (chosen : List ObjectName)
    (need : UInt64) (lines : List ObjectName) (st : EvictScan σ) : Prop where
  kept : st.evict = shortest Evict.bytes need.toNat (ranked st.read)
  bytes : st.evictBytes.toNat = total Evict.bytes st.evict
  collected : st.collected = (st.read.map Evict.size).sum
  stopped : st.done = true ↔ Stops need st.read
  earlier : ∀ read, read <+: st.read → read ≠ st.read → ¬ Stops need read
  read : st.read <+: stream candidate chosen lines
  all : st.done = false → st.read = stream candidate chosen lines ∧
    ∀ n, n ∈ st.seen ↔ n ∈ lines ∧ n ∉ chosen

theorem Scanned.take {lines : List ObjectName} (h : Scanned candidate chosen need lines st)
    (hgoing : st.done = false) {n : ObjectName} {e : Evict σ} (hn : n ∉ chosen ∧ n ∉ lines)
    (hc : candidate n = some e) (hsum : total Evict.bytes st.evict + e.bytes < 2 ^ 64) :
    Scanned candidate chosen need (lines ++ [n])
      ({ st with seen := n :: st.seen }.take need e) := by
  obtain ⟨hall, hseen⟩ := h.all hgoing
  have hread : stream candidate chosen (lines ++ [n]) = st.read ++ [e] := by
    rw [stream_concat, if_neg (by simp [hn]), hc, hall]
    rfl
  have hbytes : (st.evictBytes + e.size).toNat =
      total Evict.bytes (st.evict.orderedInsert (fun a b => a.place ≤ b.place) e) := by
    have hsize : e.size.toNat = e.bytes := rfl
    rw [total_perm (List.perm_orderedInsert _ e st.evict), total_cons, UInt64.toNat_add, h.bytes,
      hsize, Nat.mod_eq_of_lt hsum, Nat.add_comm]
  obtain ⟨htrim, hleft⟩ := trim_eq need hbytes
  rw [h.kept, shortest_orderedInsert, ← ranked_concat, ← h.kept] at htrim hleft
  have hcollected : st.collected + e.size = ((st.read ++ [e]).map Evict.size).sum := by
    simp [h.collected]
  have hcovers : need.toNat ≤ total Evict.bytes
      (shortest Evict.bytes need.toNat (ranked (st.read ++ [e]))) ↔
      need.toNat ≤ total Evict.bytes (st.read ++ [e]) := by
    rw [← total_perm (ranked_perm (st.read ++ [e]))]
    refine ⟨fun h => h.trans total_shortest_le, fun h => ?_⟩
    rcases (selects_shortest Evict.bytes need.toNat (ranked (st.read ++ [e]))).reaches with hr | hr
    · exact hr
    · rwa [hr]
  refine ⟨htrim, hleft.trans (congrArg _ htrim.symm), hcollected, ?_, ?_, ?_,
    fun _ => ⟨hread.symm, ?_⟩⟩
  · simp only [EvictScan.take, Bool.and_eq_true, decide_eq_true_eq, Stops, ← hcovers, ← hcollected]
    rw [UInt64.le_iff_toNat_le (a := need), hleft]
  · intro read hpre hne
    rcases List.prefix_concat_iff.mp hpre with heq | hpre
    · exact absurd heq hne
    · by_cases heq : read = st.read
      · rw [heq, ← h.stopped, hgoing]
        exact Bool.false_ne_true
      · exact h.earlier read hpre heq
  · exact hread ▸ List.prefix_refl _
  · intro m
    simp only [EvictScan.take, List.mem_cons, List.mem_append, hseen]
    constructor
    · rintro (rfl | ⟨hm, hnot⟩)
      · exact ⟨.inr (.inl rfl), hn.1⟩
      · exact ⟨.inl hm, hnot⟩
    · rintro ⟨hm | hm | hm, hnot⟩
      · exact .inr ⟨hm, hnot⟩
      · exact .inl hm
      · cases hm

theorem Scanned.visit {lines : List ObjectName} (h : Scanned candidate chosen need lines st)
    {n : ObjectName} (hfits : Fits need (stream candidate chosen (lines ++ [n]))) :
    Scanned candidate chosen need (lines ++ [n]) (st.visit candidate chosen need n) := by
  have hmore : stream candidate chosen _ = _ := stream_concat lines n
  unfold EvictScan.visit
  by_cases hdone : st.done = true
  · rw [if_pos (.inl hdone)]
    exact ⟨h.kept, h.bytes, h.collected, h.stopped, h.earlier,
      h.read.trans (hmore ▸ List.prefix_append _ _), fun hnot => by simp [hdone] at hnot⟩
  · rw [Bool.not_eq_true] at hdone
    obtain ⟨hall, hseen⟩ := h.all hdone
    have hskip : (st.done = true ∨ n ∈ chosen ∨ n ∈ st.seen) ↔ (n ∈ chosen ∨ n ∈ lines) := by
      rw [hseen, hdone]
      tauto
    simp only [hskip]
    -- A line without a candidate leaves the stream as it is.
    have hsame (hnil : stream candidate chosen (lines ++ [n]) = stream candidate chosen lines)
        (seen : List ObjectName) (hseen : ∀ m, m ∈ seen ↔ m ∈ lines ++ [n] ∧ m ∉ chosen) :
        Scanned candidate chosen need (lines ++ [n]) { st with seen } :=
      ⟨h.kept, h.bytes, h.collected, h.stopped, h.earlier, hnil ▸ h.read,
        fun _ => ⟨hall.trans hnil.symm, hseen⟩⟩
    split_ifs with hn
    · rw [if_pos hn, List.append_nil] at hmore
      refine hsame hmore st.seen fun m => ?_
      rw [hseen, List.mem_append, List.mem_singleton]
      refine ⟨fun ⟨hm, hnot⟩ => ⟨.inl hm, hnot⟩, fun ⟨hm, hnot⟩ => ⟨?_, hnot⟩⟩
      rcases hm with hm | rfl
      · exact hm
      · exact hn.resolve_left hnot
    · rw [not_or] at hn
      cases hc : candidate n with
      | none =>
          rw [if_neg (not_or.mpr hn), hc, Option.toList_none, List.append_nil] at hmore
          refine hsame hmore _ fun m => ?_
          rw [List.mem_cons, hseen, List.mem_append, List.mem_singleton]
          refine ⟨?_, fun ⟨hm, hnot⟩ => hm.elim (fun hm => .inr ⟨hm, hnot⟩) .inl⟩
          rintro (rfl | ⟨hm, hnot⟩)
          · exact ⟨.inr rfl, hn.1⟩
          · exact ⟨.inl hm, hnot⟩
      | some e =>
          rw [if_neg (not_or.mpr hn), hc, Option.toList_some, ← hall] at hmore
          refine h.take hdone hn hc ?_
          rw [hmore] at hfits
          have hlast := hfits st.read.length (by simp)
          rw [List.take_left' rfl, ← h.stopped, hdone, ← h.kept] at hlast
          simpa using hlast

theorem Fits.append {first more : List (Evict σ)} (h : Fits need (first ++ more)) :
    Fits need first := by
  intro k hk
  have hfit := h k (by rw [List.length_append]; omega)
  rwa [List.take_append_of_le_length hk.le, List.getElem_append_left hk] at hfit

/-- The loop over all lines. -/
theorem scanned_visitAll (lines : List ObjectName)
    (hfits : Fits need (stream candidate chosen lines)) :
    Scanned candidate chosen need lines (visitAll candidate chosen need lines) := by
  induction lines using List.reverseRecOn with
  | nil =>
      refine ⟨by simp [visitAll, ranked], by simp [visitAll], by simp [visitAll], ?_, ?_, ?_, ?_⟩
      · simpa [visitAll] using not_stops_nil need
      · intro read hpre hne
        exact absurd (List.prefix_nil.mp hpre) hne
      · simp [visitAll]
      · simp [visitAll, stream]
  | append_singleton lines n ih =>
      have hbefore := hfits
      rw [stream_concat] at hbefore
      have hscanned := (ih hbefore.append).visit hfits
      simpa only [visitAll, List.foldl_append, List.foldl_cons, List.foldl_nil] using hscanned

omit [LinearOrder σ] in
/-- The candidates are different objects, none of which was chosen before. -/
theorem stream_names (hname : ∀ n e, candidate n = some e → e.name = n) (lines : List ObjectName) :
    ((stream candidate chosen lines).map Evict.name).Nodup ∧
      ∀ e ∈ stream candidate chosen lines, e.name ∉ chosen := by
  have hsub : ∀ ns : List ObjectName, ((ns.filterMap candidate).map Evict.name).Sublist ns := by
    intro ns
    induction ns with
    | nil => simp
    | cons n ns ih =>
        cases hc : candidate n with
        | none => simpa [hc] using ih.cons n
        | some e => simpa [hc, hname n e hc] using ih.cons_cons n
  refine ⟨(hsub _).nodup (List.nodup_reverse.mpr (List.nodup_dedup _)), fun e he => ?_⟩
  have hmem := (hsub _).subset (List.mem_map_of_mem he)
  rw [List.mem_reverse, List.mem_dedup, List.mem_reverse, List.mem_filter] at hmem
  simpa using hmem.2

end EvictScan

/-! ## The launch loop -/

namespace Launch

variable {demoted : ObjectName → Bool} {s : Launch}

/-- The names that the launch loop demotes. -/
def demotions (kept : List (Evict σ)) : List ObjectName :=
  (kept.filter (fun e => !e.rcache)).map Evict.name

def rangeCaches (kept : List (Evict σ)) : List ObjectName :=
  (kept.filter (fun e => e.rcache)).map Evict.name

theorem chosen_drainFull (cx : TimeWheel.ScanCtx) : (cx.drainFull demoted).chosen = cx.chosen := by
  unfold TimeWheel.ScanCtx.drainFull
  split_ifs <;> rfl

theorem chosen_pick {cx : TimeWheel.ScanCtx} {n : ObjectName} (h : n ∉ cx.chosen) :
    (cx.pick n).chosen = n :: cx.chosen := by
  rw [TimeWheel.ScanCtx.pick, if_neg h]

/-- The loop evicts the candidates, and `need` is what they do not cover. -/
structure Evicts (s s' : Launch) (kept : List (Evict σ)) : Prop where
  chosen : s'.cx.chosen = (demotions kept).reverse ++ s.cx.chosen
  dropped : s'.dropped = s.dropped ++ rangeCaches kept
  need : s'.need.toNat = s.need.toNat - total Evict.bytes kept

omit [LinearOrder σ] in
theorem launch_evicts {e : Evict σ} (hne : s.need ≠ 0) (he : e.name ∉ s.cx.chosen) :
    Evicts s (s.launch demoted e) [e] := by
  rw [launch, if_neg hne]
  refine ⟨?_, ?_, ?_⟩
  · rw [chosen_drainFull]
    cases hr : e.rcache with
    | true => simp [demotions, hr]
    | false => simpa [demotions, hr] using chosen_pick he
  · cases hr : e.rcache <;> simp [rangeCaches, hr]
  · rw [UInt64.toNat_sub_of_le _ _ (min_le_left _ _), total_cons, total_nil,
      Nat.add_zero, Evict.bytes]
    rcases le_total s.need e.size with h | h
    · rw [min_eq_left h]
      have := UInt64.le_iff_toNat_le.mp h
      omega
    · rw [min_eq_right h]

omit [LinearOrder σ] in
theorem Evicts.cons {s' s'' : Launch} {e : Evict σ} {kept : List (Evict σ)}
    (h : Evicts s s' [e]) (h' : Evicts s' s'' kept) : Evicts s s'' (e :: kept) := by
  refine ⟨?_, ?_, ?_⟩
  · rw [h'.chosen, h.chosen]
    cases hr : e.rcache <;> simp [demotions, hr]
  · rw [h'.dropped, h.dropped]
    cases hr : e.rcache <;> simp [rangeCaches, hr]
  · rw [h'.need, h.need, total_cons, total_cons, total_nil]
    omega

omit [LinearOrder σ] in
/-- The loop does not end before the last candidate of the shortest prefix. -/
theorem foldl_launch (demoted : ObjectName → Bool) {l : List (Evict σ)}
    (hnodup : (l.map Evict.name).Nodup) (hfresh : ∀ e ∈ l, e.name ∉ s.cx.chosen) :
    Evicts s ((shortest Evict.bytes s.need.toNat l).foldl (launch demoted) s)
      (shortest Evict.bytes s.need.toNat l) := by
  induction l generalizing s with
  | nil => exact ⟨by simp [demotions], by simp [rangeCaches], by simp⟩
  | cons e l ih =>
      rcases Nat.eq_zero_or_pos s.need.toNat with hzero | hpos
      · rw [hzero, shortest_zero]
        exact ⟨by simp [demotions], by simp [rangeCaches], by simp [hzero]⟩
      · rw [List.map_cons, List.nodup_cons] at hnodup
        obtain ⟨he, hfresh⟩ := List.forall_mem_cons.mp hfresh
        have hne : s.need ≠ 0 := by
          intro h
          simp [h] at hpos
        have hfirst : Evicts s (s.launch demoted e) [e] := launch_evicts hne he
        have hnext : ∀ f ∈ l, f.name ∉ (s.launch demoted e).cx.chosen := by
          intro f hf hmem
          have hname : f.name ≠ e.name := fun heq => hnodup.1 (heq ▸ List.mem_map_of_mem hf)
          rw [hfirst.chosen, List.mem_append] at hmem
          rcases hmem with hmem | hmem
          · cases hr : e.rcache <;> simp [demotions, hr, hname] at hmem
          · exact hfresh f hf hmem
        have hneed : (s.launch demoted e).need.toNat = s.need.toNat - e.bytes := by
          simpa using hfirst.need
        rw [shortest_cons hpos, ← hneed]
        exact hfirst.cons (ih hnodup.2 hnext)

end Launch

/-! ## The scan -/

namespace TimeWheel

omit [LinearOrder σ] in
theorem name_of_candidate {c : WheelConfig} {x : EvictInputs σ} {w : TimeWheel} {n : ObjectName}
    {e : Evict σ} (h : w.candidate c x n = some e) : e.name = n := by
  unfold TimeWheel.candidate at h
  split at h
  · cases h
  · dsimp only at h
    split_ifs at h
    all_goals
      cases h
      rfl

/-- The candidates of `scan_evict`, in the order of the wheel. -/
def candidates (c : WheelConfig) (x : EvictInputs σ) (cx : ScanCtx) : List (Evict σ) :=
  EvictScan.stream (cx.wheel.candidate c x) cx.chosen (cx.wheel.slots.entries.flatMap (·.2))

def blob (i : UInt8) : ObjectName := toLex (ascii "b", [i])

/-- Four local objects, older ones later, in one slot. -/
def fourBlobs (size : UInt8 → Nat) : ScanCtx :=
  let object (i : UInt8) : LocalObject := { localBytes := size i, mtime := i.toNat }
  { wheel :=
      { objects := [1, 2, 3, 4].foldl (fun m i => m.insert (blob i) (object i)) .empty
        slots := SortedMap.empty.insert 0 [blob 4, blob 3, blob 1, blob 2] } }

def byTime : EvictInputs Int := ⟨fun _ => 0, fun a _ => a.atime⟩

def plainWheel : WheelConfig := ⟨fun _ => 0, false⟩

/-- The bytes of the kept candidates overflow when the fourth candidate arrives. -/
def hugeBlobs : ScanCtx := fourBlobs (fun i => if i = 1 then 1 else if i = 3 then 2 else 2 ^ 63 - 1)

end TimeWheel

end Loop

end Lights3
