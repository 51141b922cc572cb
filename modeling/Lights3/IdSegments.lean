import Lights3.RocksStore
import Lights3.Lib.Intervals

/-!
# File ids

`alloc_file_run` hands out runs of ids from a segment in memory. A segment is reserved
by moving a durable counter ahead. The RocksDB engine reserves under the lock; the TiKV
engine reserves outside of it, in a transaction of its own, and the late segment of a
thread is thrown away when another one that suffices is in place.
-/
namespace Lights3
open Intervals

/-- The counters of the file ids. -/
inductive FileIds where
  | chunk | pack
  deriving DecidableEq

/-- The counter that `alloc_file_run` takes: rados objects share that of the chunks, as
the refs table has bare file ids. -/
def FileIds.of : ExtentKind → FileIds
  | .chunk | .rados => .chunk
  | .pack => .pack

/-- `std::clamp<uint32_t>(n, 1, kMaxIdRun)`. -/
def runLength (n : UInt32) : UInt64 := UInt64.ofNat (max 1 (min n.toNat kMaxIdRun))

/-- `IdRange`. -/
structure IdRange where
  next : UInt64 := 0
  limit : UInt64 := 0

namespace IdRange

/-- The test of `alloc_id`, in 64-bit arithmetic. -/
def short (r : IdRange) (n : UInt64) : Bool := r.limit - r.next < n

/-- The segment that ends at the counter value `hi`. -/
def segment (hi : UInt64) : IdRange := ⟨hi - UInt64.ofNat kIdSegment, hi⟩

def take (r : IdRange) (n : UInt64) : IdRange := { r with next := r.next + n }

def span (r : IdRange) : Nat × Nat := (r.next.toNat, r.limit.toNat)

end IdRange

/-- The ids that one call returned. -/
structure IdRun where
  first : UInt64
  count : UInt64

def IdRun.span (x : IdRun) : Nat × Nat := (x.first.toNat, x.first.toNat + x.count.toNat)

/-! ## Words without overflow -/

theorem runLength_toNat (n : UInt32) :
    1 ≤ (runLength n).toNat ∧ (runLength n).toNat ≤ kMaxIdRun := by
  unfold runLength kMaxIdRun
  rw [UInt64.toNat_ofNat_of_lt' (show max 1 (min n.toNat 64) < 2 ^ 64 by omega)]
  omega

namespace IdRange

variable {r : IdRange} {n hi : UInt64}

theorem short_iff (h : r.next.toNat ≤ r.limit.toNat) :
    r.short n = true ↔ r.limit.toNat - r.next.toNat < n.toNat := by
  unfold short
  rw [decide_eq_true_eq, UInt64.lt_iff_toNat_lt,
    UInt64.toNat_sub_of_le _ _ (UInt64.le_iff_toNat_le.mpr h)]

theorem span_take (h : r.next.toNat + n.toNat ≤ r.limit.toNat) :
    (r.take n).span = (r.next.toNat + n.toNat, r.limit.toNat) := by
  have := r.limit.toNat_lt
  simp only [span, take, UInt64.toNat_add]
  rw [Nat.mod_eq_of_lt (by omega)]

theorem span_segment (hi : UInt64) (h : kIdSegment ≤ hi.toNat) :
    (segment hi).span = (hi.toNat - kIdSegment, hi.toNat) := by
  have hseg : (UInt64.ofNat kIdSegment).toNat = kIdSegment := rfl
  simp only [span, segment]
  rw [UInt64.toNat_sub_of_le _ _ (UInt64.le_iff_toNat_le.mpr (hseg ▸ h)), hseg]

end IdRange

/-- The counter after one more segment. -/
theorem toNat_counter_add {counter : UInt64} (h : counter.toNat + kIdSegment < 2 ^ 64) :
    (counter + UInt64.ofNat kIdSegment).toNat = counter.toNat + kIdSegment := by
  have hseg : (UInt64.ofNat kIdSegment).toNat = kIdSegment := rfl
  rw [UInt64.toNat_add, hseg]
  exact Nat.mod_eq_of_lt h

section Steps

variable {σ ε : Type} {Inv : σ → Prop} {counter : σ → UInt64} {m : Nat} {s : FileIds → σ}

/-- An invariant of both counters, which have not moved further than `m` segments. -/
def WithinSteps (Inv : σ → Prop) (counter : σ → UInt64) (m : Nat) (s : FileIds → σ) : Prop :=
  ∀ ids, Inv (s ids) ∧ (counter (s ids)).toNat ≤ kIdSegment * m

/-- There is room for one more segment. -/
theorem WithinSteps.room (h : WithinSteps Inv counter m s) (hm : m + 1 < 2 ^ 52)
    (ids : FileIds) : (counter (s ids)).toNat + kIdSegment < 2 ^ 64 := by
  have hle := (h ids).2
  unfold kIdSegment at hle ⊢
  omega

theorem WithinSteps.mono (h : WithinSteps Inv counter m s) : WithinSteps Inv counter (m + 1) s :=
  fun ids => ⟨(h ids).1, (h ids).2.trans (Nat.mul_le_mul_left _ (Nat.le_succ m))⟩

/-- A step of one counter. -/
theorem WithinSteps.update (h : WithinSteps Inv counter m s) {ids : FileIds} {p : σ}
    (hp : Inv p ∧ (counter p).toNat ≤ (counter (s ids)).toNat + kIdSegment) :
    WithinSteps Inv counter (m + 1) (Function.update s ids p) := by
  intro ids'
  by_cases hids : ids' = ids
  · have hle := (h ids).2
    have hmul : kIdSegment * (m + 1) = kIdSegment * m + kIdSegment := Nat.mul_succ _ _
    rw [hids, Function.update_self]
    exact ⟨hp.1, by omega⟩
  · rw [Function.update_of_ne hids]
    exact h.mono ids'

theorem WithinSteps.run {step : (FileIds → σ) → ε → FileIds → σ}
    (hstep : ∀ {m s}, m + 1 < 2 ^ 52 → WithinSteps Inv counter m s →
      ∀ e, WithinSteps Inv counter (m + 1) (step s e))
    (es : List ε) (hm : m + es.length < 2 ^ 52) (h : WithinSteps Inv counter m s) :
    WithinSteps Inv counter (m + es.length) (es.foldl step s) := by
  induction es generalizing s m with
  | nil => exact h
  | cons e es ih =>
      rw [List.length_cons] at hm ⊢
      have hrun := ih (m := m + 1) (by omega) (hstep (by omega) h e)
      rwa [Nat.add_assoc, Nat.add_comm 1] at hrun

end Steps

/-! ## The RocksDB engine -/

/-- One counter: the committed row, the range in memory, and the runs returned so far. -/
structure RocksFileIds where
  counter : UInt64 := 0
  range : IdRange := {}
  issued : List IdRun := []

namespace RocksFileIds

/-- The segment is committed before ids of it are handed out. -/
def reserve (p : RocksFileIds) : RocksFileIds :=
  let hi := p.counter + UInt64.ofNat kIdSegment
  { p with counter := hi, range := .segment hi }

/-- `RocksMetaStore::alloc_id`. -/
def allocId (p : RocksFileIds) (n : UInt32) : UInt64 × RocksFileIds :=
  let n := runLength n
  let p := if p.range.short n then p.reserve else p
  (p.range.next, { p with range := p.range.take n, issued := p.issued ++ [⟨p.range.next, n⟩] })

/-- A reservation that is committed and then lost with its call. -/
def burn (p : RocksFileIds) : RocksFileIds :=
  { p with counter := p.counter + UInt64.ofNat kIdSegment }

/-- A restart keeps the committed row only. -/
def crash (p : RocksFileIds) : RocksFileIds := { p with range := {} }

end RocksFileIds

inductive RocksIdOp where
  | alloc (kind : ExtentKind) (n : UInt32)
  | burn (ids : FileIds)
  | crash

/-- `RocksMetaStore::alloc_file_run` and what may happen between two calls. -/
def rocksIdStep (s : FileIds → RocksFileIds) : RocksIdOp → FileIds → RocksFileIds
  | .alloc kind n => Function.update s (.of kind) ((s (.of kind)).allocId n).2
  | .burn ids => Function.update s ids (s ids).burn
  | .crash => fun ids => (s ids).crash

namespace RocksFileIds

variable {p : RocksFileIds}

/-- All runs lie below the counter, and below the range in memory unless it is empty. -/
structure Inv (p : RocksFileIds) : Prop where
  ordered : p.range.next.toNat ≤ p.range.limit.toNat
  limit : p.range.limit.toNat ≤ p.counter.toNat
  increasing : p.issued.Pairwise (fun a b => a.span.2 ≤ b.first.toNat)
  behind : ∀ x ∈ p.issued, x.span.2 ≤ p.counter.toNat ∧
    (p.range.next.toNat < p.range.limit.toNat → x.span.2 ≤ p.range.next.toNat)

theorem Inv.crash (h : p.Inv) : p.crash.Inv :=
  ⟨le_rfl, Nat.zero_le _, h.increasing,
    fun x hx => ⟨(h.behind x hx).1, fun hlt => absurd hlt (lt_irrefl _)⟩⟩

theorem Inv.burn (h : p.Inv) (hroom : p.counter.toNat + kIdSegment < 2 ^ 64) : p.burn.Inv := by
  have hcounter : p.burn.counter.toNat = p.counter.toNat + kIdSegment := toNat_counter_add hroom
  have hle : p.counter.toNat ≤ p.burn.counter.toNat := by omega
  have hissued : p.burn.issued = p.issued := by unfold RocksFileIds.burn; rfl
  refine ⟨h.ordered, h.limit.trans hle, by rw [hissued]; exact h.increasing, fun x hx => ?_⟩
  rw [hissued] at hx
  exact ⟨(h.behind x hx).1.trans hle, (h.behind x hx).2⟩

/-- A reserved segment starts where the counter was. -/
theorem Inv.reserve (h : p.Inv) (hroom : p.counter.toNat + kIdSegment < 2 ^ 64) :
    p.reserve.Inv ∧ p.reserve.counter.toNat = p.counter.toNat + kIdSegment ∧
      p.reserve.range.span = (p.counter.toNat, p.counter.toNat + kIdSegment) := by
  have hcounter : p.reserve.counter.toNat = p.counter.toNat + kIdSegment :=
    toNat_counter_add hroom
  have hspan : p.reserve.range.span = (p.counter.toNat, p.counter.toNat + kIdSegment) := by
    have hseg := IdRange.span_segment p.reserve.counter (by omega)
    rwa [hcounter, Nat.add_sub_cancel] at hseg
  have hissued : p.reserve.issued = p.issued := by unfold RocksFileIds.reserve; rfl
  obtain ⟨hnext, hlimit⟩ := Prod.mk.inj hspan
  refine ⟨⟨by omega, by omega, by rw [hissued]; exact h.increasing, fun x hx => ?_⟩,
    hcounter, hspan⟩
  rw [hissued] at hx
  have hx := (h.behind x hx).1
  exact ⟨by omega, fun _ => by omega⟩

/-- A run from a range that holds it. -/
theorem Inv.take (h : p.Inv) {n : UInt64} (hpos : 1 ≤ n.toNat)
    (hfits : p.range.next.toNat + n.toNat ≤ p.range.limit.toNat) :
    Inv { p with range := p.range.take n, issued := p.issued ++ [⟨p.range.next, n⟩] } := by
  obtain ⟨hnext, hlimit⟩ := Prod.mk.inj (IdRange.span_take hfits)
  have hle := h.limit
  have hspan : (⟨p.range.next, n⟩ : IdRun).span.2 = p.range.next.toNat + n.toNat := rfl
  have hall : ∀ x ∈ p.issued ++ [⟨p.range.next, n⟩],
      x.span.2 ≤ p.range.next.toNat + n.toNat := by
    intro x hx
    rcases List.mem_append.mp hx with hx | hx
    · have := (h.behind x hx).2 (by omega)
      omega
    · obtain rfl := List.mem_singleton.mp hx
      exact hspan.le
  refine ⟨?_, ?_, List.pairwise_append.mpr ⟨h.increasing, List.pairwise_singleton ..,
    fun x hx y hy => ?_⟩, fun x hx => ?_⟩
  · show (p.range.take n).next.toNat ≤ (p.range.take n).limit.toNat
    omega
  · show (p.range.take n).limit.toNat ≤ p.counter.toNat
    omega
  · obtain rfl := List.mem_singleton.mp hy
    exact (h.behind x hx).2 (by omega)
  · have hx := hall x hx
    refine ⟨hx.trans (by dsimp only; omega), fun _ => ?_⟩
    show x.span.2 ≤ (p.range.take n).next.toNat
    omega

/-- A call reserves one segment at most. -/
theorem Inv.allocId (h : p.Inv) (hroom : p.counter.toNat + kIdSegment < 2 ^ 64) (n : UInt32) :
    (p.allocId n).2.Inv ∧
      (p.allocId n).2.counter.toNat ≤ p.counter.toNat + kIdSegment := by
  obtain ⟨hpos, hmax⟩ := runLength_toNat n
  have hseg : kMaxIdRun ≤ kIdSegment := by decide
  unfold RocksFileIds.allocId
  by_cases hshort : p.range.short (runLength n) = true
  · obtain ⟨hinv, hcounter, hspan⟩ := h.reserve hroom
    obtain ⟨hnext, hlimit⟩ := Prod.mk.inj hspan
    simp only [if_pos hshort]
    exact ⟨hinv.take hpos (by omega), hcounter.le⟩
  · simp only [if_neg hshort]
    rw [IdRange.short_iff h.ordered] at hshort
    exact ⟨h.take hpos (by omega), Nat.le_add_right _ _⟩

end RocksFileIds

theorem rocksIdStep_within {s : FileIds → RocksFileIds} {m : Nat} (hm : m + 1 < 2 ^ 52)
    (h : WithinSteps RocksFileIds.Inv RocksFileIds.counter m s) (op : RocksIdOp) :
    WithinSteps RocksFileIds.Inv RocksFileIds.counter (m + 1) (rocksIdStep s op) := by
  cases op with
  | alloc kind n => exact h.update ((h (.of kind)).1.allocId (h.room hm _) n)
  | burn ids =>
      exact h.update ⟨(h ids).1.burn (h.room hm _), (toNat_counter_add (h.room hm ids)).le⟩
  | crash => exact fun ids => ⟨(h ids).1.crash, (h.mono ids).2⟩

/-! ## The TiKV engine -/

/-- A call that found the range of its gateway too short, with the end of the segment
that its transaction committed. -/
structure TikvIdCall where
  gateway : Nat
  count : UInt64
  reserved : Option UInt64 := none

/-- One counter: the committed value, the ranges of the gateways, the calls on their way
through a reservation, and the runs returned so far. -/
structure TikvFileIds where
  counter : UInt64 := 0
  ranges : List IdRange
  calls : List TikvIdCall := []
  issued : List IdRun := []

namespace TikvFileIds

/-- Hand out `n` ids of a range, which becomes that of the gateway. -/
def take (p : TikvFileIds) (g : Nat) (r : IdRange) (n : UInt64) : TikvFileIds :=
  { p with ranges := p.ranges.set g (r.take n), issued := p.issued ++ [⟨r.next, n⟩] }

/-- The first lock of `TikvMetaStore::alloc_id`. -/
def call (p : TikvFileIds) (g : Nat) (n : UInt32) : TikvFileIds :=
  match p.ranges[g]? with
  | none => p
  | some r =>
      if r.short (runLength n) then { p with calls := p.calls ++ [⟨g, runLength n, none⟩] }
      else p.take g r (runLength n)

/-- The transaction of a call commits; a conflict has no effect and is tried again. -/
def reserve (p : TikvFileIds) (i : Nat) : TikvFileIds :=
  match p.calls[i]? with
  | some ⟨g, n, none⟩ =>
      let hi := p.counter + UInt64.ofNat kIdSegment
      { p with counter := hi, calls := p.calls.set i ⟨g, n, some hi⟩ }
  | _ => p

/-- The transaction of a call fails, or its outcome stays unknown. -/
def fail (p : TikvFileIds) (i : Nat) (committed : Bool) : TikvFileIds :=
  { p with
    counter := if committed then p.counter + UInt64.ofNat kIdSegment else p.counter
    calls := p.calls.eraseIdx i }

/-- The second lock: a range that suffices by now is used, and the own segment discarded. -/
def finish (p : TikvFileIds) (i : Nat) : TikvFileIds :=
  match p.calls[i]? with
  | some ⟨g, n, some hi⟩ =>
      match p.ranges[g]? with
      | none => p
      | some r => take { p with calls := p.calls.eraseIdx i } g
          (if r.short n then .segment hi else r) n
  | _ => p

/-- A gateway goes down with its range and its calls. -/
def crash (p : TikvFileIds) (g : Nat) : TikvFileIds :=
  { p with ranges := p.ranges.set g {}, calls := p.calls.filter (fun c => c.gateway ≠ g) }

end TikvFileIds

inductive TikvIdEvent where
  | call (gateway : Nat) (kind : ExtentKind) (n : UInt32)
  | reserve (ids : FileIds) (i : Nat)
  | fail (ids : FileIds) (i : Nat) (committed : Bool)
  | finish (ids : FileIds) (i : Nat)
  | crash (gateway : Nat)

/-- `TikvMetaStore::alloc_file_run` on any number of gateways, in atomic steps. -/
def tikvIdStep (s : FileIds → TikvFileIds) : TikvIdEvent → FileIds → TikvFileIds
  | .call g kind n => Function.update s (.of kind) ((s (.of kind)).call g n)
  | .reserve ids i => Function.update s ids ((s ids).reserve i)
  | .fail ids i committed => Function.update s ids ((s ids).fail i committed)
  | .finish ids i => Function.update s ids ((s ids).finish i)
  | .crash g => fun ids => (s ids).crash g

namespace TikvFileIds

variable {p : TikvFileIds}

/-- The segment that a call has reserved. -/
def spansOf (c : TikvIdCall) : List (Nat × Nat) :=
  match c.reserved with
  | none => []
  | some hi => [(IdRange.segment hi).span]

/-- All ids that were returned or may still be. -/
def holdings (p : TikvFileIds) : List (Nat × Nat) :=
  p.ranges.map IdRange.span ++ (p.calls.flatMap spansOf ++ p.issued.map IdRun.span)

structure Inv (p : TikvFileIds) : Prop where
  ordered : ∀ r ∈ p.ranges, r.next.toNat ≤ r.limit.toNat
  whole : ∀ c ∈ p.calls, ∀ hi, c.reserved = some hi → kIdSegment ≤ hi.toNat
  short : ∀ c ∈ p.calls, 1 ≤ c.count.toNat ∧ c.count.toNat ≤ kMaxIdRun
  packed : Packed p.counter.toNat p.holdings

theorem holdings_ranges (p : TikvFileIds) {g : Nat} {r : IdRange} (hg : p.ranges[g]? = some r) :
    p.holdings.Perm (r.span :: ((p.ranges.eraseIdx g).map IdRange.span ++
      (p.calls.flatMap spansOf ++ p.issued.map IdRun.span))) := by
  obtain ⟨hlt, hget⟩ := List.getElem?_eq_some_iff.mp hg
  have hperm := (List.getElem_cons_eraseIdx_perm hlt).symm
  rw [hget] at hperm
  exact (hperm.map IdRange.span).append_right _

theorem calls_perm {calls : List TikvIdCall} {i : Nat} {c : TikvIdCall} (hi : calls[i]? = some c) :
    (calls.flatMap spansOf).Perm (spansOf c ++ (calls.eraseIdx i).flatMap spansOf) := by
  obtain ⟨hlt, hget⟩ := List.getElem?_eq_some_iff.mp hi
  have hperm := (List.getElem_cons_eraseIdx_perm hlt).symm
  rw [hget] at hperm
  exact hperm.flatMap_right spansOf

/-- Calls may go and the counter may move ahead. -/
theorem Inv.sublist (h : p.Inv) {calls : List TikvIdCall} (hs : calls.Sublist p.calls)
    {counter : UInt64} (hle : p.counter.toNat ≤ counter.toNat) : Inv { p with counter, calls } where
  ordered := h.ordered
  whole c hc := h.whole c (hs.subset hc)
  short c hc := h.short c (hs.subset hc)
  packed := (h.packed.sublist ((List.Sublist.refl _).append
    ((hs.flatMap spansOf).append (List.Sublist.refl _)))).mono hle

/-- Handing out the front of a range that the gateway holds, or gets. -/
theorem Inv.take (h : p.Inv) {g : Nat} {r : IdRange} {n : UInt64} (hg : g < p.ranges.length)
    (hfits : r.next.toNat + n.toNat ≤ r.limit.toNat)
    (hpacked : Packed p.counter.toNat (r.span :: ((p.ranges.eraseIdx g).map IdRange.span ++
      (p.calls.flatMap spansOf ++ p.issued.map IdRun.span)))) : (p.take g r n).Inv where
  ordered := by
    intro r' hr'
    rcases List.mem_or_eq_of_mem_set hr' with hr' | rfl
    · exact h.ordered r' hr'
    · obtain ⟨hnext, hlimit⟩ := Prod.mk.inj (IdRange.span_take hfits)
      omega
  whole := h.whole
  short := h.short
  packed := by
    have hsplit := hpacked.split (Nat.le_add_right _ n.toNat) hfits
    rw [← IdRange.span_take hfits] at hsplit
    refine hsplit.perm ?_
    have hset := ((List.set_perm_cons_eraseIdx hg (r.take n)).map IdRange.span).symm
    show List.Perm _ ((p.ranges.set g (r.take n)).map IdRange.span ++
      (p.calls.flatMap spansOf ++ (p.issued ++ [(⟨r.next, n⟩ : IdRun)]).map IdRun.span))
    rw [List.map_append, ← List.append_assoc (p.calls.flatMap spansOf),
      ← List.append_assoc ((p.ranges.set g (r.take n)).map IdRange.span)]
    refine (List.perm_append_singleton _ _).symm.trans ?_
    exact (hset.append_right _).append_right _

theorem Inv.call (h : p.Inv) (g : Nat) (n : UInt32) : (p.call g n).Inv := by
  unfold TikvFileIds.call
  split
  · exact h
  · rename_i r hr
    obtain ⟨hlt, hget⟩ := List.getElem?_eq_some_iff.mp hr
    have hordered := h.ordered r (List.mem_of_getElem? hr)
    split_ifs with hshort
    · have hnew : spansOf ⟨g, runLength n, none⟩ = [] := rfl
      refine ⟨h.ordered, fun c hc hi hres => ?_, fun c hc => ?_, ?_⟩
      · rcases List.mem_append.mp hc with hc | hc
        · exact h.whole c hc hi hres
        · rw [List.mem_singleton.mp hc] at hres
          exact absurd hres nofun
      · rcases List.mem_append.mp hc with hc | hc
        · exact h.short c hc
        · rw [List.mem_singleton.mp hc]
          exact runLength_toNat n
      · have hpacked := h.packed
        unfold holdings at hpacked ⊢
        rwa [List.flatMap_append, List.flatMap_singleton, hnew, List.append_nil]
    · rw [IdRange.short_iff hordered] at hshort
      exact h.take hlt (by omega) (h.packed.perm (p.holdings_ranges hr))

theorem Inv.reserve (h : p.Inv) (hroom : p.counter.toNat + kIdSegment < 2 ^ 64) (i : Nat) :
    (p.reserve i).Inv ∧ (p.reserve i).counter.toNat ≤ p.counter.toNat + kIdSegment := by
  have hcounter := toNat_counter_add hroom
  unfold TikvFileIds.reserve
  split
  · rename_i g n hi
    obtain ⟨hlt, hget⟩ := List.getElem?_eq_some_iff.mp hi
    have hmem := List.mem_of_getElem? hi
    have hspan : spansOf ⟨g, n, some (p.counter + UInt64.ofNat kIdSegment)⟩ =
        [(p.counter.toNat, p.counter.toNat + kIdSegment)] := by
      have hseg := IdRange.span_segment (p.counter + UInt64.ofNat kIdSegment) (by omega)
      rw [hcounter, Nat.add_sub_cancel] at hseg
      exact congrArg (fun s => [s]) hseg
    refine ⟨⟨h.ordered, fun c hc hi hres => ?_, fun c hc => ?_, ?_⟩, hcounter.le⟩
    · rcases List.mem_or_eq_of_mem_set hc with hc | rfl
      · exact h.whole c hc hi hres
      · rw [← Option.some.inj hres]
        omega
    · rcases List.mem_or_eq_of_mem_set hc with hc | rfl
      · exact h.short c hc
      · exact (h.short _ hmem :)
    · have hgrow := h.packed.grow (Nat.le_add_right _ kIdSegment)
      rw [← hcounter] at hgrow
      refine hgrow.perm ?_
      -- The new segment is that of the call, which had none.
      have hset := (List.set_perm_cons_eraseIdx hlt
        ⟨g, n, some (p.counter + UInt64.ofNat kIdSegment)⟩).flatMap_right spansOf
      rw [List.flatMap_cons, hspan] at hset
      have hold := calls_perm hi
      rw [show spansOf ⟨g, n, none⟩ = [] from rfl, List.nil_append] at hold
      unfold holdings
      rw [hcounter]
      refine List.perm_middle.symm.trans (List.Perm.append_left _ ?_)
      exact ((hold.cons _).trans hset.symm).append_right _
  · exact ⟨h, Nat.le_add_right _ _⟩

theorem Inv.fail (h : p.Inv) (hroom : p.counter.toNat + kIdSegment < 2 ^ 64) (i : Nat)
    (committed : Bool) : (p.fail i committed).Inv ∧
      (p.fail i committed).counter.toNat ≤ p.counter.toNat + kIdSegment := by
  have hcounter := toNat_counter_add hroom
  have herase : (p.calls.eraseIdx i).Sublist p.calls := List.eraseIdx_sublist p.calls i
  unfold TikvFileIds.fail
  cases committed with
  | false => exact ⟨h.sublist herase le_rfl, Nat.le_add_right _ _⟩
  | true => exact ⟨h.sublist herase (by rw [if_pos rfl]; omega), hcounter.le⟩

theorem Inv.finish (h : p.Inv) (i : Nat) : (p.finish i).Inv := by
  unfold TikvFileIds.finish
  split
  · rename_i g n hi hcall
    have hmem := List.mem_of_getElem? hcall
    have hwhole := h.whole _ hmem hi rfl
    obtain ⟨hpos, hmax⟩ := h.short _ hmem
    have herase := h.sublist (List.eraseIdx_sublist p.calls i) le_rfl
    split
    · exact h
    · rename_i r hr
      obtain ⟨hlt, hget⟩ := List.getElem?_eq_some_iff.mp hr
      have hordered := h.ordered r (List.mem_of_getElem? hr)
      split_ifs with hshort
      · -- The range in place is given up for the reserved segment.
        have hspan := IdRange.span_segment _ hwhole
        obtain ⟨hnext, hlimit⟩ := Prod.mk.inj hspan
        have hseg : kMaxIdRun ≤ kIdSegment := by decide
        have hpacked := (h.packed.perm (p.holdings_ranges hr)).sublist (List.sublist_cons_self _ _)
        refine herase.take hlt (by dsimp only at hpos hmax; omega) (hpacked.perm ?_)
        have hcalls := (calls_perm hcall).append_right (p.issued.map IdRun.span)
        refine (hcalls.append_left _).trans ?_
        exact List.perm_middle
      · rw [IdRange.short_iff hordered] at hshort
        refine herase.take hlt (by omega) (herase.packed.perm (holdings_ranges _ hr))
  · exact h

theorem Inv.crash (h : p.Inv) (g : Nat) : (p.crash g).Inv := by
  have hcalls := h.sublist (List.filter_sublist (p := fun c => c.gateway ≠ g) (l := p.calls)) le_rfl
  unfold TikvFileIds.crash
  refine ⟨fun r hr => ?_, hcalls.whole, hcalls.short, ?_⟩
  · rcases List.mem_or_eq_of_mem_set hr with hr | rfl
    · exact h.ordered r hr
    · exact le_rfl
  · by_cases hg : g < p.ranges.length
    · have hperm := (List.set_perm_cons_eraseIdx hg ({} : IdRange)).map IdRange.span
      have hrest := (hcalls.packed.perm (holdings_ranges _ (List.getElem?_eq_getElem hg))).sublist
        (List.sublist_cons_self _ _)
      exact hrest.cons_empty.perm (hperm.symm.append_right _)
    · have hpacked := hcalls.packed
      unfold holdings at hpacked ⊢
      rwa [List.set_eq_of_length_le (by omega)]

end TikvFileIds

theorem tikvIdStep_within {s : FileIds → TikvFileIds} {m : Nat} (hm : m + 1 < 2 ^ 52)
    (h : WithinSteps TikvFileIds.Inv TikvFileIds.counter m s) (e : TikvIdEvent) :
    WithinSteps TikvFileIds.Inv TikvFileIds.counter (m + 1) (tikvIdStep s e) := by
  cases e with
  | call g kind n =>
      have hcounter : ((s (.of kind)).call g n).counter = (s (.of kind)).counter := by
        unfold TikvFileIds.call
        split
        · rfl
        · split_ifs <;> rfl
      exact h.update ⟨(h _).1.call g n, hcounter ▸ Nat.le_add_right _ _⟩
  | reserve ids i => exact h.update ((h ids).1.reserve (h.room hm ids) i)
  | fail ids i committed => exact h.update ((h ids).1.fail (h.room hm ids) i committed)
  | finish ids i =>
      have hcounter : ((s ids).finish i).counter = (s ids).counter := by
        unfold TikvFileIds.finish
        split
        · split <;> rfl
        · rfl
      exact h.update ⟨(h ids).1.finish i, hcounter ▸ Nat.le_add_right _ _⟩
  | crash g => exact fun ids => ⟨(h ids).1.crash g, (h.mono ids).2⟩

/-! ## Whole runs -/

/-- The RocksDB engine from an empty store. -/
def rocksIdRun (ops : List RocksIdOp) : FileIds → RocksFileIds :=
  ops.foldl rocksIdStep (fun _ => {})

/-- The TiKV engine from an empty store, with any number of gateways. -/
def tikvIdRun (gateways : Nat) (events : List TikvIdEvent) : FileIds → TikvFileIds :=
  events.foldl tikvIdStep (fun _ => { ranges := List.replicate gateways {} })

/-- File ids are not issued twice before a counter has gone through all 64-bit values: on
RocksDB the runs of a counter increase, on TiKV they have no id in common. -/
theorem file_ids_issued_once :
    (∀ ops : List RocksIdOp, ops.length < 2 ^ 51 → ∀ ids,
      (rocksIdRun ops ids).issued.Pairwise (fun a b => a.span.2 ≤ b.span.1)) ∧
    ∀ (gateways : Nat) (events : List TikvIdEvent), events.length < 2 ^ 52 → ∀ ids,
      ((tikvIdRun gateways events ids).issued.map IdRun.span).Pairwise Apart := by
  constructor
  · intro ops hlen ids
    have hinit : WithinSteps RocksFileIds.Inv RocksFileIds.counter 0 (fun _ => {}) := fun _ =>
      ⟨⟨le_rfl, le_rfl, List.Pairwise.nil, nofun⟩, Nat.zero_le _⟩
    exact (hinit.run rocksIdStep_within ops (by omega) ids).1.increasing
  · intro gateways events hlen ids
    have hranges (n : Nat) : Packed 0 ((List.replicate n ({} : IdRange)).map IdRange.span) := by
      induction n with
      | zero => exact Packed.nil 0
      | succ n ih => exact ih.cons_empty
    have hinit : WithinSteps TikvFileIds.Inv TikvFileIds.counter 0
        (fun _ => { ranges := List.replicate gateways {} }) := by
      refine fun _ => ⟨⟨fun r hr => ?_, nofun,
        nofun, ?_⟩, Nat.zero_le _⟩
      · rw [List.eq_of_mem_replicate hr]
      · show Packed 0 (_ ++ ([] ++ []))
        rw [List.append_nil, List.append_nil]
        exact hranges gateways
    have hpacked := (hinit.run tikvIdStep_within events (by omega) ids).1.packed
    exact hpacked.apart.sublist ((List.sublist_append_right ..).trans
      (List.sublist_append_right ..))

/-- Two gateways renew at once; the second one to finish installs an older segment. -/
def twoGateways : List TikvIdEvent :=
  [.call 0 .chunk 64, .call 1 .rados 0, .reserve .chunk 0, .reserve .chunk 1, .finish .chunk 1,
    .finish .chunk 0, .call 1 .chunk 3]

theorem file_ids_two_gateways :
    (tikvIdRun 2 twoGateways .chunk).issued.map IdRun.span =
      [(4096, 4097), (0, 64), (4097, 4100)] ∧
    ((tikvIdRun 2 twoGateways .chunk).issued.map IdRun.span).Pairwise Apart ∧
    (rocksIdRun [.alloc .chunk 5, .crash, .alloc .rados 1] .chunk).issued.Pairwise
      (fun a b => a.span.2 ≤ b.span.1) :=
  ⟨by decide +kernel, file_ids_issued_once.2 2 twoGateways (by decide) .chunk,
    file_ids_issued_once.1 [.alloc .chunk 5, .crash, .alloc .rados 1] (by decide) .chunk⟩

/-- A gateway that restarts after each id it hands out. -/
def restartRound : List TikvIdEvent :=
  [.call 0 .chunk 1, .reserve .chunk 0, .finish .chunk 0, .crash 0]

theorem restartRound_chunk (s : FileIds → TikvFileIds) (counter : UInt64) (issued : List IdRun)
    (hs : s .chunk = ⟨counter, [{}], [], issued⟩) :
    restartRound.foldl tikvIdStep s .chunk =
      ⟨counter + UInt64.ofNat kIdSegment, [{}], [], issued ++ [⟨counter, 1⟩]⟩ := by
  have hchunk : restartRound.foldl tikvIdStep s .chunk =
      ((((s .chunk).call 0 1).reserve 0).finish 0).crash 0 := by
    simp only [restartRound, List.foldl_cons, List.foldl_nil, tikvIdStep, FileIds.of,
      Function.update_self]
  have hcancel := UInt64.add_sub_cancel counter (UInt64.ofNat kIdSegment)
  rw [hchunk, hs]
  show TikvFileIds.mk (counter + UInt64.ofNat kIdSegment) [{}] []
    (issued ++ [⟨counter + UInt64.ofNat kIdSegment - UInt64.ofNat kIdSegment, 1⟩]) = _
  rw [hcancel]

theorem restartRounds_issued (n : Nat) :
    tikvIdRun 1 (List.replicate n restartRound).flatten .chunk =
      ⟨UInt64.ofNat (kIdSegment * n), [{}], [],
        (List.range n).map fun j => ⟨UInt64.ofNat (kIdSegment * j), 1⟩⟩ := by
  induction n with
  | zero => rfl
  | succ n ih =>
      have hflat : (List.replicate (n + 1) restartRound).flatten =
          (List.replicate n restartRound).flatten ++ restartRound := by
        rw [List.replicate_succ', List.flatten_append, List.flatten_singleton]
      rw [tikvIdRun, hflat, List.foldl_append]
      rw [tikvIdRun] at ih
      rw [restartRound_chunk _ _ _ ih, List.range_succ, List.map_append, ← UInt64.ofNat_add,
        ← Nat.mul_succ]
      rfl

/-- After `2 ^ 52` reservations the counter is back at 0 and the first id is issued again. -/
theorem file_ids_wrap : ∃ gateways events, ¬ ((tikvIdRun gateways events .chunk).issued.map
    IdRun.span).Pairwise Apart := by
  obtain ⟨n, hn⟩ : ∃ n, n = 2 ^ 52 := ⟨_, rfl⟩
  refine ⟨1, (List.replicate (n + 1) restartRound).flatten, fun hapart => ?_⟩
  rw [restartRounds_issued, List.map_map, List.range_succ, List.map_append] at hapart
  have hfirst : (0, 1) ∈ (List.range n).map
      (IdRun.span ∘ fun j => ⟨UInt64.ofNat (kIdSegment * j), 1⟩) :=
    List.mem_map.mpr ⟨0, List.mem_range.mpr (by omega), rfl⟩
  have hlast : (0, 1) ∈ [n].map (IdRun.span ∘ fun j => ⟨UInt64.ofNat (kIdSegment * j), 1⟩) := by
    have hzero : UInt64.ofNat (kIdSegment * n) = 0 := by
      apply UInt64.toNat_inj.mp
      rw [UInt64.toNat_ofNat', hn]
      rfl
    refine List.mem_map.mpr ⟨n, List.mem_singleton_self n, ?_⟩
    show IdRun.span ⟨UInt64.ofNat (kIdSegment * n), 1⟩ = _
    rw [hzero]
    rfl
  exact absurd ((List.pairwise_append.mp hapart).2.2 _ hfirst _ hlast) (by decide)

end Lights3
