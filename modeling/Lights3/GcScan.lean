import Lights3.Lib.Runs
import Lights3.RocksStore

/-!
# The scan watermark of the garbage collector

`run_gc_once` consumes the reclaim queue in rounds. A round starts at 0, at the
earliest skipped entry or at the high watermark, depending on what earlier rounds
left, and the entries it skips decide where later rounds start. Other gateways
commit entries between any two steps of a round. The steps are the calls of the
store and the verdicts on single entries; clock readings, the lease floor, pins
and remove failures are inputs.
-/
namespace Lights3

/-! ## Peeking -/

/-- `peek_reclaims` over the queue itself. -/
def peekQueue (q : SortedMap Nat Reclaim) (max minSeq maxExtents : Nat) : List (Nat × Reclaim) :=
  Store.peekLoop max maxExtents (q.entries.dropWhile (fun e => e.1 < minSeq)) 0 0

theorem peekLoop_isPrefix (max maxExtents : Nat) (es : List (Nat × Reclaim)) (taken n : Nat) :
    Store.peekLoop max maxExtents es taken n <+: es := by
  induction es generalizing taken n with
  | nil => exact List.prefix_rfl
  | cons x xs ih =>
      unfold Store.peekLoop
      simp only
      split_ifs
      · exact ⟨xs, rfl⟩
      · exact List.prefix_cons_inj x |>.mpr (ih _ _)
      · exact List.nil_prefix

theorem peekLoop_ne_nil {max maxExtents : Nat} {es : List (Nat × Reclaim)} {n : Nat}
    (hmax : 0 < max) (hes : es ≠ []) : Store.peekLoop max maxExtents es 0 n ≠ [] := by
  cases es with
  | nil => exact absurd rfl hes
  | cons x xs =>
      unfold Store.peekLoop
      simp only [hmax, if_true]
      split_ifs <;> exact List.cons_ne_nil _ _

section Peek

variable {q : SortedMap Nat Reclaim} {max lo maxExtents : Nat} {rc : Reclaim}

/-- Dropping the entries below a number leaves those at or above it. -/
theorem mem_dropWhile_seq {seq : Nat} :
    (seq, rc) ∈ q.entries.dropWhile (fun e => e.1 < lo) ↔ q.get? seq = some rc ∧ lo ≤ seq := by
  rw [OrderedScan.dropWhile_eq_filter _ q.sorted (fun x y hxy hy => ?_), List.mem_filter,
    SortedMap.mem_entries]
  · simp
  · simp only [decide_eq_true_eq] at hy ⊢
    omega

/-- What a peeked batch holds. -/
theorem mem_peekQueue {seq : Nat} (h : (seq, rc) ∈ peekQueue q max lo maxExtents) :
    q.get? seq = some rc ∧ lo ≤ seq :=
  mem_dropWhile_seq.mp ((peekLoop_isPrefix _ _ _ _ _).subset h)

/-- An empty batch: nothing is queued from there on. -/
theorem peekQueue_nil (hmax : 0 < max) (h : peekQueue q max lo maxExtents = []) {seq : Nat}
    (hq : q.get? seq = some rc) : seq < lo := by
  by_contra hle
  have hmem := mem_dropWhile_seq.mpr ⟨hq, Nat.le_of_not_lt hle⟩
  exact peekLoop_ne_nil hmax (List.ne_nil_of_mem hmem) h

/-- A batch leaves out nothing up to its last entry. -/
theorem peekQueue_complete {last : Nat × Reclaim}
    (h : (peekQueue q max lo maxExtents).getLast? = some last) {seq : Nat}
    (hq : q.get? seq = some rc) (hlo : lo ≤ seq) (hle : seq ≤ last.1) :
    (seq, rc) ∈ peekQueue q max lo maxExtents := by
  obtain ⟨rest, hrest⟩ := peekLoop_isPrefix max maxExtents
    (q.entries.dropWhile (fun e => e.1 < lo)) 0 0
  have hmem := mem_dropWhile_seq.mpr ⟨hq, hlo⟩
  have hsorted : (q.entries.dropWhile (fun e => e.1 < lo)).Pairwise (fun x y => x.1 < y.1) :=
    q.sorted.sublist (List.dropWhile_sublist _)
  rw [← hrest] at hmem hsorted
  rcases List.mem_append.mp hmem with hmem | hmem
  · exact hmem
  · have hlt := (List.pairwise_append.mp hsorted).2.2 last (List.mem_of_getLast? h) _ hmem
    exact absurd hle (Nat.not_le.mpr hlt)

theorem peekQueue_le_last {last : Nat × Reclaim}
    (h : (peekQueue q max lo maxExtents).getLast? = some last) {x : Nat × Reclaim}
    (hx : x ∈ peekQueue q max lo maxExtents) : x.1 ≤ last.1 := by
  have hsorted : (peekQueue q max lo maxExtents).Pairwise (fun x y => x.1 < y.1) :=
    (q.sorted.sublist (List.dropWhile_sublist _)).sublist (peekLoop_isPrefix _ _ _ _ _).sublist
  obtain ⟨init, hinit⟩ := List.getLast?_eq_some_iff.mp h
  rw [hinit] at hx hsorted
  rcases List.mem_append.mp hx with hx | hx
  · exact ((List.pairwise_append.mp hsorted).2.2 x hx last List.mem_cons_self).le
  · rw [List.mem_singleton.mp hx]

end Peek

/-! ## Rounds -/

/-- `GcqSkips`. -/
structure GcqSkips where
  any : Bool := false
  loSeq : Nat := 0
  retryAtMs : Int := 0

/-- `note_skip`. -/
def GcqSkips.note (sk : GcqSkips) (seq : Nat) (retryAt : Int) : GcqSkips where
  any := true
  loSeq := if sk.any = false ∨ seq < sk.loSeq then seq else sk.loSeq
  retryAtMs := if sk.any = false ∨ retryAt < sk.retryAtMs then retryAt else sk.retryAtMs

/-- An incremental round adds its skips to the window: the old ones still sit
unvisited at the head of the queue. -/
def GcqSkips.merge (sk new : GcqSkips) : GcqSkips :=
  if new.any then
    { sk with
      loSeq := min sk.loSeq new.loSeq
      retryAtMs := min sk.retryAtMs new.retryAtMs }
  else sk

/-- The locals of a running round. -/
structure GcRound where
  fullScan : Bool
  leaseFloor : Option Int
  nextSeq : Nat
  skips : GcqSkips := {}
  batchNow : Int := 0
  /-- The entries of the batch that are still to be judged. -/
  pending : List (Nat × Reclaim) := []
  acked : List Nat := []
  /-- History: the queue when the round began. -/
  visible : List Nat
  /-- History: the entries that were skipped, with the times at which they were judged. -/
  judged : List (Nat × Int) := []

/-- The queue of the shared store and the watermark state of the collecting gateway. -/
structure GcScan where
  queue : SortedMap Nat Reclaim
  skips : GcqSkips := {}
  /-- `gcq_hi_`. -/
  hi : Nat := 0
  round : Option GcRound := none
  /-- History: the judgements of completed rounds, newest first. -/
  noted : List (Nat × Int) := []

/-- The steps of the collector and of the other gateways. -/
inductive GcEvent where
  /-- An entry becomes visible. -/
  | commit (seq : Nat) (rc : Reclaim)
  | begin (now : Int) (leaseFloor : Option Int)
  | peek (now : Int)
  /-- The verdict on the next entry of the batch. -/
  | judge (pinned removeFails : Bool)
  | ack
  /-- A store call of the round throws. -/
  | abort

def kGcBatch : Nat := 256

def kGcBatchExtents : Nat := 32768

namespace GcRound

/-- An entry is skipped until `retryAt`. -/
def skip (r : GcRound) (seq : Nat) (retryAt : Int) : GcRound :=
  { r with skips := r.skips.note seq retryAt, judged := (seq, r.batchNow) :: r.judged }

/-- The gates of one entry: grace, the lease floor, pins and the removal. -/
def judge (graceMs : Int) (r : GcRound) (seq : Nat) (rc : Reclaim) (pinned removeFails : Bool) :
    GcRound :=
  if r.batchNow - rc.enqueueMs.toInt < graceMs then r.skip seq (rc.enqueueMs.toInt + graceMs)
  else if r.leaseFloor.any (fun floor => floor ≤ rc.enqueueMs.toInt) = true then
    r.skip seq r.batchNow
  else if pinned = true then r.skip seq r.batchNow
  else if removeFails = true then r.skip seq r.batchNow
  else { r with acked := r.acked ++ [seq] }

end GcRound

namespace GcScan

/-- Where a round that begins now starts. -/
def startSeq (g : GcScan) (now : Int) : Nat :=
  if g.skips.any then (if now < g.skips.retryAtMs then g.hi else g.skips.loSeq) else 0

/-- The watermark after a round. -/
def finish (g : GcScan) (r : GcRound) : GcScan :=
  { g with
    hi := max g.hi r.nextSeq
    skips := if r.fullScan then r.skips else g.skips.merge r.skips
    round := none
    noted := r.judged ++ g.noted }

/-- The next batch, or the end of the round. -/
def peek (g : GcScan) (r : GcRound) (now : Int) : GcScan :=
  let batch := peekQueue g.queue kGcBatch r.nextSeq kGcBatchExtents
  match batch.getLast? with
  | none => g.finish r
  | some last =>
      { g with round := some { r with nextSeq := last.1 + 1, batchNow := now, pending := batch } }

/-- A step that is not enabled changes nothing. -/
def step (graceMs : Int) (g : GcScan) : GcEvent → GcScan
  | .commit seq rc => { g with queue := g.queue.insert seq rc }
  | .begin now leaseFloor =>
      match g.round with
      | some _ => g
      | none =>
          { g with
            round := some
              { fullScan := !g.skips.any || g.startSeq now == g.skips.loSeq
                leaseFloor
                nextSeq := g.startSeq now
                visible := g.queue.keys } }
  | .peek now =>
      match g.round with
      | some r => if r.pending = [] ∧ r.acked = [] then g.peek r now else g
      | none => g
  | .judge pinned removeFails =>
      match g.round with
      | some r =>
          match r.pending with
          | (seq, rc) :: rest =>
              { g with
                round := some
                  (GcRound.judge graceMs { r with pending := rest } seq rc pinned removeFails) }
          | [] => g
      | none => g
  | .ack =>
      match g.round with
      | some r =>
          if r.pending = [] then
            { g with
              queue := r.acked.foldl SortedMap.erase g.queue
              round := some { r with acked := [] } }
          else g
      | none => g
  | .abort => { g with round := none }

def run (graceMs : Int) (g : GcScan) (es : List GcEvent) : GcScan := es.foldl (step graceMs) g

/-- A process that has just started, over any queue. -/
def start (queue : SortedMap Nat Reclaim) : GcScan := { queue }

end GcScan

/-! ## Entries above the mark -/

/-- The numbers below the mark have been passed by a completed or the running round. -/
def GcScan.mark (g : GcScan) : Nat := max g.hi (g.round.elim 0 (·.nextSeq))

/-- An entry becomes visible only at or above the mark. -/
def GcEvent.Above (g : GcScan) : GcEvent → Prop
  | .commit seq _ => g.mark ≤ seq
  | _ => True

instance (g : GcScan) (e : GcEvent) : Decidable (e.Above g) :=
  match e with
  | .commit _ _ => inferInstanceAs (Decidable (_ ≤ _))
  | .begin _ _ | .peek _ | .judge _ _ | .ack | .abort => isTrue trivial

/-- Every entry of the run becomes visible at or above the mark of that moment. -/
abbrev CommitsAbove (graceMs : Int) (g : GcScan) (es : List GcEvent) : Prop :=
  Along (GcScan.step graceMs) (fun g e => e.Above g) g es

/-! ## The invariant -/

/-- When an entry that was skipped at the time `t` is to be tried again: after its grace, or at once
if that had passed. -/
def Reclaim.retryTime (graceMs : Int) (rc : Reclaim) (t : Int) : Int :=
  if t - rc.enqueueMs.toInt < graceMs then rc.enqueueMs.toInt + graceMs else t

/-- The skip window covers the entry with its retry time. -/
def GcqSkips.Covers (graceMs : Int) (sk : GcqSkips) (seq : Nat) (rc : Reclaim)
    (noted : List (Nat × Int)) : Prop :=
  sk.any = true ∧ sk.loSeq ≤ seq ∧
    ∃ t, noted.lookup seq = some t ∧ sk.retryAtMs ≤ rc.retryTime graceMs t

section Covers

variable {graceMs : Int} {sk new : GcqSkips} {seq : Nat} {rc : Reclaim} {noted : List (Nat × Int)}

theorem GcqSkips.note_le (sk : GcqSkips) (seq : Nat) (retryAt : Int) :
    ((sk.note seq retryAt).loSeq ≤ seq ∧ (sk.note seq retryAt).retryAtMs ≤ retryAt) ∧
      (sk.any = true → (sk.note seq retryAt).loSeq ≤ sk.loSeq ∧
        (sk.note seq retryAt).retryAtMs ≤ sk.retryAtMs) := by
  unfold GcqSkips.note
  cases sk.any <;> simp
  split_ifs <;> omega

theorem GcqSkips.covers_note (sk : GcqSkips) (seq : Nat) (noted : List (Nat × Int))
    {t retryAt : Int} (ht : retryAt ≤ rc.retryTime graceMs t) :
    (sk.note seq retryAt).Covers graceMs seq rc ((seq, t) :: noted) :=
  have hle := (sk.note_le seq retryAt).1
  ⟨rfl, hle.1, t, by simp, hle.2.trans ht⟩

theorem GcqSkips.Covers.note (h : sk.Covers graceMs seq rc noted) {seq' : Nat} {t' retryAt : Int}
    (ht : seq = seq' → retryAt ≤ rc.retryTime graceMs t') :
    (sk.note seq' retryAt).Covers graceMs seq rc ((seq', t') :: noted) := by
  by_cases heq : seq = seq'
  · subst heq
    exact sk.covers_note seq noted (ht rfl)
  · obtain ⟨hany, hlo, t, ht, hretry⟩ := h
    have hle := (sk.note_le seq' retryAt).2 hany
    have hb : (seq == seq') = false := beq_false_of_ne heq
    exact ⟨rfl, hle.1.trans hlo, t, by simpa only [List.lookup_cons, hb] using ht,
      hle.2.trans hretry⟩

theorem GcqSkips.Covers.append (h : sk.Covers graceMs seq rc noted) (older : List (Nat × Int)) :
    sk.Covers graceMs seq rc (noted ++ older) := by
  obtain ⟨hany, hlo, t, ht, hretry⟩ := h
  exact ⟨hany, hlo, t, by rw [List.lookup_append, ht]; rfl, hretry⟩

theorem GcqSkips.Covers.merge_old (h : sk.Covers graceMs seq rc noted) (new : GcqSkips) :
    (sk.merge new).Covers graceMs seq rc noted := by
  obtain ⟨hany, hlo, t, ht, hretry⟩ := h
  unfold GcqSkips.merge
  split_ifs
  · exact ⟨hany, (min_le_left _ _).trans hlo, t, ht, (min_le_left _ _).trans hretry⟩
  · exact ⟨hany, hlo, t, ht, hretry⟩

theorem GcqSkips.Covers.merge_new (h : new.Covers graceMs seq rc noted) (hsk : sk.any = true) :
    (sk.merge new).Covers graceMs seq rc noted := by
  obtain ⟨hany, hlo, t, ht, hretry⟩ := h
  unfold GcqSkips.merge
  rw [if_pos hany]
  exact ⟨hsk, (min_le_right _ _).trans hlo, t, ht, (min_le_right _ _).trans hretry⟩

end Covers

theorem GcqSkips.merge_loSeq_le (sk new : GcqSkips) : (sk.merge new).loSeq ≤ sk.loSeq := by
  unfold GcqSkips.merge
  split_ifs
  · exact min_le_left _ _
  · exact le_rfl

/-- What a running round has done with the entries from `start` on. -/
structure GcRound.Scans (graceMs : Int) (g : GcScan) (r : GcRound) (start : Nat) : Prop where
  start_le : start ≤ r.nextSeq
  seen : ∀ seq rc, g.queue.get? seq = some rc → start ≤ seq → seq < r.nextSeq →
    seq ∈ r.pending.map Prod.fst ∨ seq ∈ r.acked ∨ r.skips.Covers graceMs seq rc r.judged
  pending : ∀ x ∈ r.pending, start ≤ x.1 ∧ x.1 < r.nextSeq
  entries : ∀ x ∈ r.pending, ∀ rc, g.queue.get? x.1 = some rc → rc = x.2
  judged : ∀ x ∈ r.judged, start ≤ x.1
  lo_lt : r.skips.any = true → r.skips.loSeq < r.nextSeq
  full : r.fullScan = true → ∀ seq rc, g.queue.get? seq = some rc → start ≤ seq
  incremental : r.fullScan = false → start = g.hi ∧ g.skips.any = true

/-- Below the high watermark the skip window covers the whole queue. -/
structure GcScan.Inv (graceMs : Int) (g : GcScan) : Prop where
  lo_lt : g.skips.any = true → g.skips.loSeq < g.hi
  covers : ∀ seq rc, g.queue.get? seq = some rc → seq < g.hi → g.skips.Covers graceMs seq rc g.noted
  round : ∀ r, g.round = some r → ∃ start, r.Scans graceMs g start

namespace GcScan

variable {graceMs : Int} {g : GcScan} {r : GcRound}

theorem inv_start (queue : SortedMap Nat Reclaim) : (start queue).Inv graceMs where
  lo_lt := nofun
  covers seq _ _ hlt := absurd hlt (Nat.not_lt_zero seq)
  round := nofun

theorem Inv.commit (h : g.Inv graceMs) {seq : Nat} (rc : Reclaim) (habove : g.mark ≤ seq) :
    (g.step graceMs (.commit seq rc)).Inv graceMs := by
  have hold (s : Nat) (v : Reclaim) (hs : (g.queue.insert seq rc).get? s = some v) :
      s = seq ∨ g.queue.get? s = some v :=
    (SortedMap.get?_insert_cases hs).imp And.left And.right
  have hhi : g.hi ≤ seq := (le_max_left _ _).trans habove
  refine ⟨h.lo_lt, fun s v hs hlt => ?_, fun r hr => ?_⟩
  · rcases hold s v hs with rfl | hs
    · exact absurd hlt (Nat.not_lt.mpr hhi)
    · exact h.covers s v hs hlt
  · replace hr : g.round = some r := hr
    have hnext : r.nextSeq ≤ seq := by
      refine le_trans ?_ ((le_max_right _ _).trans habove)
      rw [hr]
      exact le_rfl
    obtain ⟨start, hs⟩ := h.round r hr
    refine ⟨start,
      { hs with
        seen := fun s v hv hle hlt => ?_
        entries := fun x hx v hv => ?_
        full := fun hfull s v hv => ?_ }⟩
    · rcases hold s v hv with rfl | hv
      · exact absurd hlt (Nat.not_lt.mpr hnext)
      · exact hs.seen s v hv hle hlt
    · rcases hold x.1 v hv with heq | hv
      · exact absurd (heq ▸ (hs.pending x hx).2) (Nat.not_lt.mpr hnext)
      · exact hs.entries x hx v hv
    · rcases hold s v hv with rfl | hv
      · exact hs.start_le.trans hnext
      · exact hs.full hfull s v hv

theorem Inv.begin (h : g.Inv graceMs) (now : Int) (leaseFloor : Option Int) :
    (g.step graceMs (.begin now leaseFloor)).Inv graceMs := by
  unfold step
  cases hr : g.round with
  | some r => exact h
  | none =>
      refine ⟨h.lo_lt, h.covers, fun r hr => ⟨g.startSeq now, ?_⟩⟩
      cases hr
      refine ⟨le_rfl, fun s v _ hle hlt => absurd hle (Nat.not_le.mpr hlt),
        nofun, nofun,
        nofun, nofun, fun hfull s v hv => ?_, fun hinc => ?_⟩
      · show g.startSeq now ≤ s
        cases hany : g.skips.any with
        | false =>
            unfold startSeq
            rw [hany]
            exact Nat.zero_le s
        | true =>
            have hstart : g.startSeq now = g.skips.loSeq := by simpa [hany] using hfull
            rw [hstart]
            by_cases hlt : s < g.hi
            · exact (h.covers s v hv hlt).2.1
            · have := h.lo_lt hany
              omega
      · have hany : g.skips.any = true ∧ g.startSeq now ≠ g.skips.loSeq := by simpa using hinc
        refine ⟨?_, hany.1⟩
        have hne := hany.2
        unfold startSeq at hne ⊢
        simp only [hany.1, if_true] at hne ⊢
        split_ifs at hne ⊢
        · rfl
        · exact absurd rfl hne

theorem Inv.finish (h : g.Inv graceMs) {start : Nat} (hs : r.Scans graceMs g start)
    (hp : r.pending = [])
    (ha : r.acked = []) (hend : ∀ seq rc, g.queue.get? seq = some rc → seq < r.nextSeq) :
    (g.finish r).Inv graceMs := by
  have hseen (seq : Nat) (rc : Reclaim) (hq : g.queue.get? seq = some rc) (hle : start ≤ seq) :
      r.skips.Covers graceMs seq rc r.judged := by
    rcases hs.seen seq rc hq hle (hend seq rc hq) with hm | hm | hm
    · rw [hp] at hm
      cases hm
    · rw [ha] at hm
      cases hm
    · exact hm
  unfold GcScan.finish
  cases hfull : r.fullScan with
  | true =>
      refine ⟨fun hany => ?_, fun seq rc hq _ => ?_, nofun⟩
      · exact (hs.lo_lt hany).trans_le (le_max_right _ _)
      · exact (hseen seq rc hq (hs.full hfull seq rc hq)).append g.noted
  | false =>
      obtain ⟨rfl, hany⟩ := hs.incremental hfull
      refine ⟨fun _ => ?_, fun seq rc hq _ => ?_, nofun⟩
      · exact ((g.skips.merge_loSeq_le r.skips).trans_lt (h.lo_lt hany)).trans_le (le_max_left _ _)
      · by_cases hlt : seq < g.hi
        · have hnone : r.judged.lookup seq = none := by
            rw [List.lookup_eq_none_iff]
            intro x hx
            have := hs.judged x hx
            simp only [bne_iff_ne]
            omega
          obtain ⟨h1, h2, t, ht, h3⟩ := (h.covers seq rc hq hlt).merge_old r.skips
          exact ⟨h1, h2, t, by rw [List.lookup_append, hnone]; exact ht, h3⟩
        · exact ((hseen seq rc hq (Nat.le_of_not_lt hlt)).merge_new hany).append g.noted

theorem Inv.peek (h : g.Inv graceMs) (now : Int) : (g.step graceMs (.peek now)).Inv graceMs := by
  unfold step
  cases hr : g.round with
  | none => exact h
  | some r =>
      simp only
      split_ifs with hidle
      · obtain ⟨start, hs⟩ := h.round r hr
        unfold GcScan.peek
        simp only
        cases hlast : (peekQueue g.queue kGcBatch r.nextSeq kGcBatchExtents).getLast? with
        | none =>
            refine h.finish hs hidle.1 hidle.2 (fun seq rc hq => ?_)
            exact peekQueue_nil (by decide) (List.getLast?_eq_none_iff.mp hlast) hq
        | some last =>
            have hmem := (mem_peekQueue (List.mem_of_getLast? hlast)).2
            refine ⟨h.lo_lt, h.covers, fun r' hr' => ⟨start, ?_⟩⟩
            cases hr'
            refine ⟨?_, fun seq rc hq hle hlt => ?_, fun x hx => ?_, fun x hx rc hrc => ?_,
              hs.judged, fun hany => ?_, hs.full, hs.incremental⟩
            · exact hs.start_le.trans (hmem.trans (Nat.le_succ _))
            · by_cases hold : seq < r.nextSeq
              · rcases hs.seen seq rc hq hle hold with hm | hm | hm
                · rw [hidle.1] at hm
                  cases hm
                · exact Or.inr (Or.inl hm)
                · exact Or.inr (Or.inr hm)
              · exact Or.inl (List.mem_map.mpr ⟨(seq, rc), peekQueue_complete hlast hq
                  (Nat.le_of_not_lt hold) (Nat.lt_succ_iff.mp hlt), rfl⟩)
            · exact ⟨hs.start_le.trans (mem_peekQueue hx).2,
                Nat.lt_succ_of_le (peekQueue_le_last hlast hx)⟩
            · exact Option.some.inj (hrc.symm.trans (mem_peekQueue hx).1)
            · exact (hs.lo_lt hany).trans_le (hmem.trans (Nat.le_succ _))
      · exact h

variable {rc : Reclaim}

/-- Skipping the next entry of the batch. -/
theorem scans_skip {start seq : Nat} {rest : List (Nat × Reclaim)} (hs : r.Scans graceMs g start)
    (hp : r.pending = (seq, rc) :: rest) {t : Int} (ht : t ≤ rc.retryTime graceMs r.batchNow) :
    (GcRound.skip { r with pending := rest } seq t).Scans graceMs g start := by
  have hhead := hs.pending (seq, rc) (hp ▸ List.mem_cons_self)
  have hrc {v : Reclaim} (hv : g.queue.get? seq = some v) : t ≤ v.retryTime graceMs r.batchNow :=
    hs.entries (seq, rc) (hp ▸ List.mem_cons_self) v hv ▸ ht
  refine ⟨hs.start_le, fun s v hq hle hlt => ?_,
    fun x hx => hs.pending x (hp ▸ List.mem_cons_of_mem _ hx),
    fun x hx => hs.entries x (hp ▸ List.mem_cons_of_mem _ hx), fun x hx => ?_, fun _ => ?_,
    hs.full, hs.incremental⟩
  · rcases hs.seen s v hq hle hlt with hm | hm | hm
    · rw [hp, List.map_cons, List.mem_cons] at hm
      rcases hm with rfl | hm
      · exact Or.inr (Or.inr (r.skips.covers_note s r.judged (hrc hq)))
      · exact Or.inl hm
    · exact Or.inr (Or.inl hm)
    · exact Or.inr (Or.inr (hm.note (fun heq => hrc (heq ▸ hq))))
  · rcases List.mem_cons.mp hx with rfl | hx
    · exact hhead.1
    · exact hs.judged x hx
  · show (if r.skips.any = false ∨ seq < r.skips.loSeq then seq else r.skips.loSeq) < r.nextSeq
    split_ifs with hif
    · exact hhead.2
    · rw [not_or, Bool.not_eq_false] at hif
      exact hs.lo_lt hif.1

theorem scans_judge (graceMs : Int) {start seq : Nat} {rest : List (Nat × Reclaim)}
    (hs : r.Scans graceMs g start) (hp : r.pending = (seq, rc) :: rest)
    (pinned removeFails : Bool) :
    (GcRound.judge graceMs { r with pending := rest } seq rc pinned removeFails).Scans graceMs g
      start := by
  unfold GcRound.judge
  split_ifs with hgrace
  · exact scans_skip hs hp (if_pos hgrace).ge
  · exact scans_skip hs hp (if_neg hgrace).ge
  · exact scans_skip hs hp (if_neg hgrace).ge
  · exact scans_skip hs hp (if_neg hgrace).ge
  · refine ⟨hs.start_le, fun s v hq hle hlt => ?_,
      fun x hx => hs.pending x (hp ▸ List.mem_cons_of_mem _ hx),
      fun x hx => hs.entries x (hp ▸ List.mem_cons_of_mem _ hx), hs.judged, hs.lo_lt,
      hs.full, hs.incremental⟩
    rcases hs.seen s v hq hle hlt with hm | hm | hm
    · rw [hp, List.map_cons, List.mem_cons] at hm
      rcases hm with rfl | hm
      · exact Or.inr (Or.inl (List.mem_append_right _ List.mem_cons_self))
      · exact Or.inl hm
    · exact Or.inr (Or.inl (List.mem_append_left _ hm))
    · exact Or.inr (Or.inr hm)

theorem Inv.judge (h : g.Inv graceMs) (pinned removeFails : Bool) :
    (g.step graceMs (.judge pinned removeFails)).Inv graceMs := by
  unfold step
  cases hr : g.round with
  | none => exact h
  | some r =>
      simp only
      cases hp : r.pending with
      | nil => exact h
      | cons x rest =>
          obtain ⟨start, hs⟩ := h.round r hr
          refine ⟨h.lo_lt, h.covers, fun r' hr' => ⟨start, ?_⟩⟩
          cases hr'
          exact { scans_judge graceMs hs hp pinned removeFails with }

theorem get?_eraseAll {q : SortedMap Nat Reclaim} {seqs : List Nat} {seq : Nat}
    (h : (seqs.foldl SortedMap.erase q).get? seq = some rc) :
    q.get? seq = some rc ∧ seq ∉ seqs := by
  induction seqs generalizing q with
  | nil => exact ⟨h, List.not_mem_nil⟩
  | cons s seqs ih =>
      obtain ⟨hq, hmem⟩ := ih h
      obtain ⟨hne, hq⟩ := SortedMap.get?_erase_some hq
      exact ⟨hq, fun hm => (List.mem_cons.mp hm).elim hne hmem⟩

theorem Inv.ack (h : g.Inv graceMs) : (g.step graceMs .ack).Inv graceMs := by
  unfold step
  cases hr : g.round with
  | none => exact h
  | some r =>
      simp only
      split_ifs with hp
      · obtain ⟨start, hs⟩ := h.round r hr
        refine ⟨h.lo_lt, fun seq rc hq hlt => h.covers seq rc (get?_eraseAll hq).1 hlt,
          fun r' hr' => ⟨start, ?_⟩⟩
        cases hr'
        refine ⟨hs.start_le, fun s v hq hle hlt => ?_, hs.pending,
          fun x hx v hv => hs.entries x hx v (get?_eraseAll hv).1, hs.judged, hs.lo_lt,
          fun hfull s v hq => hs.full hfull s v (get?_eraseAll hq).1, hs.incremental⟩
        obtain ⟨hq, hnot⟩ := get?_eraseAll hq
        rcases hs.seen s v hq hle hlt with hm | hm | hm
        · exact Or.inl hm
        · exact absurd hm hnot
        · exact Or.inr (Or.inr hm)
      · exact h

theorem Inv.step (h : g.Inv graceMs) {e : GcEvent} (he : e.Above g) :
    (g.step graceMs e).Inv graceMs := by
  cases e with
  | commit seq rc => exact h.commit rc he
  | begin now leaseFloor => exact h.begin now leaseFloor
  | peek now => exact h.peek now
  | judge pinned removeFails => exact h.judge pinned removeFails
  | ack => exact h.ack
  | abort => exact ⟨h.lo_lt, h.covers, nofun⟩

theorem Inv.run (h : g.Inv graceMs) {es : List GcEvent} (hes : CommitsAbove graceMs g es) :
    (g.run graceMs es).Inv graceMs :=
  hes.invariant h (fun _ _ he h => h.step he)

/-- The step completes the round `r`. -/
def Completes (graceMs : Int) (g : GcScan) (r : GcRound) (e : GcEvent) : Prop :=
  g.round = some r ∧ (∃ now, e = .peek now) ∧ (g.step graceMs e).round = none

/-- The skip window holds the entry and the retry time that follows from its last judgement, and a
round that begins when the entry is due starts at or below it. -/
def Remembers (graceMs : Int) (g : GcScan) (seq : Nat) (rc : Reclaim) : Prop :=
  g.skips.any = true ∧ g.skips.loSeq ≤ seq ∧ ∃ t, g.noted.lookup seq = some t ∧
    g.skips.retryAtMs ≤ rc.retryTime graceMs t ∧
    ∀ now, rc.retryTime graceMs t ≤ now → g.startSeq now ≤ seq

/-- Every entry that was queued when the round began and still is, below the high
watermark, is remembered. -/
def ForgetsNothing (graceMs : Int) (g : GcScan) (r : GcRound) : Prop :=
  ∀ seq rc, g.queue.get? seq = some rc → seq ∈ r.visible → seq < g.hi → g.Remembers graceMs seq rc

theorem Inv.remembers (h : g.Inv graceMs) {seq : Nat} (hq : g.queue.get? seq = some rc)
    (hlt : seq < g.hi) : g.Remembers graceMs seq rc := by
  obtain ⟨hany, hlo, t, ht, hretry⟩ := h.covers seq rc hq hlt
  refine ⟨hany, hlo, t, ht, hretry, fun now hnow => ?_⟩
  unfold startSeq
  rw [if_pos hany, if_neg (not_lt.mpr (hretry.trans hnow))]
  exact hlo

end GcScan

/-- When entries become visible only at or above the mark, no completed round forgets
an entry. -/
theorem gcScan_forgets_nothing (graceMs : Int) (queue : SortedMap Nat Reclaim) {es : List GcEvent}
    (hes : CommitsAbove graceMs (GcScan.start queue) es) {r : GcRound} {e : GcEvent}
    (hend : GcScan.Completes graceMs ((GcScan.start queue).run graceMs es) r e) :
    (((GcScan.start queue).run graceMs es).step graceMs e).ForgetsNothing graceMs r := by
  obtain ⟨-, ⟨now, rfl⟩, -⟩ := hend
  have hinv : (((GcScan.start queue).run graceMs es).step graceMs (.peek now)).Inv graceMs :=
    ((GcScan.inv_start queue).run hes).peek now
  exact fun seq rc hq _ hlt => hinv.remembers hq hlt

/-- Two rounds: the first skips entry 5 for its grace time, entry 7 arrives, and the
second skips it too. -/
def inOrderRounds : List GcEvent :=
  [.commit 5 {}, .begin 0 none, .peek 0, .judge false false, .peek 0, .commit 7 {},
    .begin 10 none, .peek 10, .judge false false]

theorem gcScan_forgets_nothing_inOrder :
    ∃ r, GcScan.Completes 1000 ((GcScan.start SortedMap.empty).run 1000 inOrderRounds) r
        (.peek 10) ∧ r.visible = [5, 7] ∧
      (((GcScan.start SortedMap.empty).run 1000 inOrderRounds).step 1000
        (.peek 10)).ForgetsNothing 1000 r := by
  have habove : CommitsAbove 1000 (GcScan.start SortedMap.empty) inOrderRounds := by
    decide +kernel
  have hend : GcScan.Completes 1000 ((GcScan.start SortedMap.empty).run 1000 inOrderRounds) _
      (.peek 10) := ⟨rfl, ⟨10, rfl⟩, rfl⟩
  exact ⟨_, hend, rfl, gcScan_forgets_nothing 1000 SortedMap.empty habove hend⟩

/-- Entry 5 is committed and skipped for its grace time before entry 3, whose number
was allocated earlier, becomes visible. -/
def lateRounds : List GcEvent :=
  [.commit 5 {}, .begin 0 none, .peek 0, .judge false false, .peek 0, .commit 3 {}, .begin 10 none]

/-- The second round starts at the high watermark 6 and leaves entry 3 below the skip
window, which starts at 5. -/
theorem lateRounds_forgets :
    ∃ r, GcScan.Completes 1000 ((GcScan.start SortedMap.empty).run 1000 lateRounds) r
        (.peek 10) ∧ 3 ∈ r.visible ∧
      ¬ (((GcScan.start SortedMap.empty).run 1000 lateRounds).step 1000
        (.peek 10)).ForgetsNothing 1000 r := by
  refine ⟨_, ⟨rfl, ⟨10, rfl⟩, rfl⟩, List.mem_cons_self, fun h => ?_⟩
  have hlow := (h 3 {} rfl List.mem_cons_self (by decide +kernel)).2.1
  exact absurd hlow (by decide +kernel)

end Lights3
