import Lights3.Lib.ByteString

/-!
# The range tee of the tiered backend

`RangeTeeReader` of `tiered/tiered_backend.cc`. The cloud sends the blocks around the range of the
client in pieces; each piece goes to the range cache, and what lies in the range goes to the client.
At the end of the stream the blocks are marked present if all bytes came and were written. The
client reads into buffers that are not empty.
-/
namespace Lights3

/-- The aligned superset of a range, as `get_object` computes it. -/
def alignedFirst (block f : Nat) : Nat := f / block * block

def alignedLast (block l size : Nat) : Nat := min (size - 1) ((l / block + 1) * block - 1)

/-- What does not change while the reader is used. -/
structure TeeRange where
  block : Nat
  af : Nat
  al : Nat
  f : Nat
  l : Nat
  /-- Whether the cache can write at the offset. -/
  writes : Nat → Bool

structure RangeTee where
  pos : Nat
  /-- The pieces that the source has still to send. -/
  src : List Bytes
  pending : Bytes := []
  eof : Bool := false
  degraded : Bool := false
  finished : Bool := false
  /-- The calls of `write` and of `mark_present`. -/
  written : List (Nat × Bytes) := []
  marked : List (Nat × Nat) := []

namespace RangeTee

section Reads

variable (x : TeeRange) (r : RangeTee)

/-- A piece has come from the source. -/
def accept (piece : Bytes) (rest : List Bytes) : RangeTee :=
  let s := r.pos
  let e := r.pos + piece.length - 1
  { r with
    src := rest
    written := if r.degraded then r.written else r.written ++ [(r.pos, piece)]
    degraded := r.degraded || !x.writes r.pos
    pending :=
      if x.f ≤ e ∧ s ≤ x.l then
        r.pending ++ (piece.take (min e x.l - s + 1)).drop (max s x.f - s)
      else r.pending
    pos := r.pos + piece.length }

/-- The loop that waits for bytes of the range. -/
def fill (r : RangeTee) : List Bytes → RangeTee
  | [] => { r with eof := r.eof || r.pending.isEmpty }
  | piece :: rest =>
      if r.pending.isEmpty && !r.eof then fill (r.accept x piece rest) rest
      else r

def finish : RangeTee :=
  if r.finished then r
  else
    { r with
      finished := true
      marked :=
        if !r.degraded && r.pos = x.al + 1 then r.marked ++ [(x.af / x.block, x.al / x.block)]
        else r.marked }

/-- `read` into a buffer of the length. -/
def read (len : Nat) : Bytes × RangeTee :=
  let r := r.fill x r.src
  if r.pending = [] then ([], r.finish x)
  else (r.pending.take len, { r with pending := r.pending.drop len })

/-- What a list of reads returns. -/
def reads (r : RangeTee) : List Nat → List Bytes × RangeTee
  | [] => ([], r)
  | len :: lens =>
      let now := r.read x len
      let later := reads now.2 lens
      (now.1 :: later.1, later.2)

def start (pieces : List Bytes) : RangeTee := { pos := x.af, src := pieces }

end Reads

variable {x : TeeRange} {r : RangeTee}

/-! ## The window of the client -/

/-- The bytes of the range in a stream that begins at the offset. -/
def window (x : TeeRange) (pos : Nat) (stream : Bytes) : Bytes :=
  (stream.drop (x.f - pos)).take (x.l + 1 - max x.f pos)

@[simp] theorem window_nil (pos : Nat) : window x pos [] = [] := by simp [window]

theorem window_append (pos : Nat) (p q : Bytes) :
    window x pos (p ++ q) = window x pos p ++ window x (pos + p.length) q := by
  have hdrop : x.f - pos - p.length = x.f - (pos + p.length) := by omega
  have htake : x.l + 1 - max x.f pos - (p.length - (x.f - pos)) =
      x.l + 1 - max x.f (pos + p.length) := by omega
  rw [window, List.drop_append, List.take_append, List.length_drop, hdrop, htake]
  rfl

theorem accept_pending (piece : Bytes) (rest : List Bytes) (hne : piece ≠ []) :
    (r.accept x piece rest).pending = r.pending ++ window x r.pos piece := by
  have hlen := List.length_pos_iff.mpr hne
  unfold accept
  dsimp only
  split_ifs with h
  · have hdrop : max r.pos x.f - r.pos = x.f - r.pos := by omega
    rw [window, List.drop_take, hdrop, List.append_cancel_left_eq, List.take_eq_take_iff,
      List.length_drop]
    omega
  · suffices hnil : window x r.pos piece = [] by rw [hnil, List.append_nil]
    rw [window, List.take_eq_nil_iff, List.drop_eq_nil_iff]
    omega

/-- What is still to be handed to the client. -/
def ahead (x : TeeRange) (r : RangeTee) : Bytes := r.pending ++ window x r.pos r.src.flatten

/-! ## What has come from the source -/

/-- The pieces of a stream that begins at the offset, each with its own offset. -/
def located (pos : Nat) : List Bytes → List (Nat × Bytes)
  | [] => []
  | piece :: pieces => (pos, piece) :: located (pos + piece.length) pieces

theorem located_append_singleton (pos : Nat) (got : List Bytes) (piece : Bytes) :
    located pos (got ++ [piece]) = located pos got ++ [(pos + got.flatten.length, piece)] := by
  induction got generalizing pos with
  | nil => rfl
  | cons first got ih =>
      rw [List.cons_append, located, ih, located, List.flatten_cons, List.length_append,
        Nat.add_assoc]
      rfl

/-- The reader has taken the pieces `got`: each was written at its offset until a write failed. -/
structure Took (x : TeeRange) (pieces : List Bytes) (r : RangeTee) (got : List Bytes) : Prop where
  split : pieces = got ++ r.src
  pos : r.pos = x.af + got.flatten.length
  written : r.written <+: located x.af got
  sound : r.degraded = false →
    r.written = located x.af got ∧ ∀ w ∈ r.written, x.writes w.1 = true
  failed : r.degraded = true → ∃ w ∈ r.written, x.writes w.1 = false
  ended : r.eof = true → r.src = []
  marked : r.marked ≠ [] → r.marked = [(x.af / x.block, x.al / x.block)] ∧ r.finished = true ∧
    r.degraded = false ∧ r.src = [] ∧ r.pos = x.al + 1

variable {pieces got rest : List Bytes}

theorem Took.accept {piece : Bytes} (h : Took x pieces r got) (hsrc : r.src = piece :: rest) :
    Took x pieces (r.accept x piece rest) (got ++ [piece]) where
  split := by rw [h.split, hsrc, List.append_assoc]; rfl
  pos := by
    simp only [RangeTee.accept, h.pos, List.flatten_append, List.length_append,
      List.flatten_singleton]
    omega
  written := by
    rw [located_append_singleton, ← h.pos]
    simp only [RangeTee.accept]
    split_ifs with hd
    · exact h.written.trans (List.prefix_append _ _)
    · rw [(h.sound (by simpa using hd)).1]
  sound := by
    intro hd
    simp only [RangeTee.accept, Bool.or_eq_false_iff, Bool.not_eq_false'] at hd
    obtain ⟨hall, hok⟩ := h.sound hd.1
    simp only [RangeTee.accept, hd.1, Bool.false_eq_true, if_false]
    refine ⟨by rw [located_append_singleton, ← h.pos, hall], fun w hw => ?_⟩
    rcases List.mem_append.mp hw with hw | hw
    · exact hok w hw
    · rw [List.mem_singleton.mp hw]
      exact hd.2
  failed := by
    intro hd
    simp only [RangeTee.accept, Bool.or_eq_true, Bool.not_eq_true'] at hd ⊢
    cases hold : r.degraded with
    | true =>
        rw [if_pos rfl]
        exact h.failed hold
    | false =>
        rw [if_neg Bool.false_ne_true]
        exact ⟨_, List.mem_append_right _ List.mem_cons_self, by simpa [hold] using hd⟩
  ended := by
    intro he
    have := h.ended he
    rw [hsrc] at this
    cases this
  marked := by
    intro hm
    have := (h.marked hm).2.2.2.1
    rw [hsrc] at this
    cases this

/-- The loop takes pieces until there is something for the client or nothing more comes. -/
theorem fill_took (hlive : ∀ p ∈ pieces, p ≠ []) {src : List Bytes} (hsrc : r.src = src)
    (h : Took x pieces r got) :
    (∃ got', Took x pieces (r.fill x src) got') ∧ ahead x (r.fill x src) = ahead x r ∧
      ((r.fill x src).pending = [] → (r.fill x src).src = []) := by
  induction src generalizing r got with
  | nil => exact ⟨⟨got, { h with ended := fun _ => hsrc }⟩, rfl, fun _ => hsrc⟩
  | cons piece rest ih =>
      rw [fill]
      split_ifs with hmore
      · have hne : piece ≠ [] := hlive piece (by rw [h.split, hsrc]; simp)
        obtain ⟨htook, hahead, hend⟩ := ih rfl (h.accept hsrc)
        refine ⟨htook, hahead.trans ?_, hend⟩
        rw [ahead, ahead, accept_pending piece rest hne, hsrc, List.flatten_cons, window_append,
          List.append_assoc]
        rfl
      · refine ⟨⟨got, h⟩, rfl, fun hnil => ?_⟩
        have heof : r.eof = true := by simpa [hnil] using hmore
        exact h.ended heof

theorem Took.finish (h : Took x pieces r got) (hsrc : r.src = []) :
    Took x pieces (r.finish x) got := by
  unfold RangeTee.finish
  split_ifs with hfin hall
  · exact h
  · have hnone : r.marked = [] := by
      by_contra hm
      exact hfin (h.marked hm).2.1
    simp only [Bool.and_eq_true, Bool.not_eq_true', decide_eq_true_eq] at hall
    exact { h with marked := fun _ => ⟨by rw [hnone]; rfl, rfl, hall.1, hsrc, hall.2⟩ }
  · exact { h with marked := fun hm => absurd (h.marked hm).2.1 hfin }

/-- One read: nothing comes exactly when nothing is ahead, and then the source has sent all. -/
theorem read_took (hlive : ∀ p ∈ pieces, p ≠ []) (h : Took x pieces r got) {len : Nat}
    (hlen : 0 < len) :
    (∃ got', Took x pieces (r.read x len).2 got') ∧
      ahead x r = (r.read x len).1 ++ ahead x (r.read x len).2 ∧
      ((r.read x len).1 = [] ↔ ahead x r = []) ∧
      ((r.read x len).1 = [] → (r.read x len).2.src = []) := by
  obtain ⟨⟨got', htook⟩, hahead, hend⟩ := fill_took hlive rfl h
  rw [← hahead]
  unfold RangeTee.read
  dsimp only
  split_ifs with hnil
  · have hsrc := hend hnil
    have hnone : ahead x (r.fill x r.src) = [] := by simp [ahead, hnil, hsrc]
    have hlast : ahead x ((r.fill x r.src).finish x) = [] := by
      rw [← hnone, RangeTee.finish]
      split_ifs <;> rfl
    have hsent : ((r.fill x r.src).finish x).src = [] := by
      rw [← hsrc, RangeTee.finish]
      split_ifs <;> rfl
    exact ⟨⟨got', htook.finish hsrc⟩, by rw [hnone, hlast]; rfl, by simp [hnone], fun _ => hsent⟩
  · refine ⟨⟨got', { htook with }⟩, ?_, ?_, fun hout => ?_⟩
    · rw [ahead, ahead, ← List.append_assoc, List.take_append_drop]
    · simp [ahead, hnil, hlen.ne']
    · exact absurd hout (by simp [hnil, hlen.ne'])

/-! ## Runs -/

theorem src_reads (h : r.src = []) (lens : List Nat) : (r.reads x lens).2.src = [] := by
  induction lens generalizing r with
  | nil => exact h
  | cons len lens ih =>
      refine ih ?_
      simp only [RangeTee.read, RangeTee.finish, h, fill]
      split_ifs <;> rfl

theorem reads_took (hlive : ∀ p ∈ pieces, p ≠ []) (h : Took x pieces r got) {lens : List Nat}
    (hlens : ∀ len ∈ lens, 0 < len) :
    (∃ got', Took x pieces (r.reads x lens).2 got') ∧
      ahead x r = (r.reads x lens).1.flatten ++ ahead x (r.reads x lens).2 ∧
      ((ahead x r).length < lens.length → ahead x (r.reads x lens).2 = []) ∧
      ([] ∈ (r.reads x lens).1 → (r.reads x lens).2.src = []) ∧
      ∀ before out after, (r.reads x lens).1 = before ++ out :: after →
        (out = [] ↔ before.flatten = ahead x r) := by
  induction lens generalizing r got with
  | nil => exact ⟨⟨got, h⟩, rfl, by simp, by simp [reads], by simp [reads]⟩
  | cons len lens ih =>
      obtain ⟨hlen, hlens⟩ := List.forall_mem_cons.mp hlens
      obtain ⟨⟨got₁, htook⟩, hahead, hzero, hsent⟩ := read_took hlive h hlen
      obtain ⟨hlast, hrest, hdone, hend, hzeros⟩ := ih htook hlens
      rw [reads]
      refine ⟨hlast, ?_, fun hshort => ?_, fun hmem => ?_, fun before out after hsplit => ?_⟩
      · rw [hahead, hrest, ← List.append_assoc]
        rfl
      · by_cases hout : (r.read x len).1 = []
        · have hnone : ahead x (r.read x len).2 = [] := by
            rw [hzero.mp hout, hout] at hahead
            exact hahead.symm
          rw [hnone] at hrest
          exact (List.append_eq_nil_iff.mp hrest.symm).2
        · have hpos := List.length_pos_iff.mpr hout
          rw [hahead, List.length_append, List.length_cons] at hshort
          exact hdone (by omega)
      · rcases List.mem_cons.mp hmem with hout | hmem
        · exact src_reads (hsent hout.symm) lens
        · exact hend hmem
      · cases before with
        | nil =>
            obtain ⟨rfl, -⟩ := List.cons.inj hsplit
            rw [hzero, List.flatten_nil, eq_comm]
        | cons first before =>
            obtain ⟨rfl, hlater⟩ := List.cons.inj hsplit
            rw [hzeros before out after hlater, List.flatten_cons, hahead,
              List.append_cancel_left_eq]

theorem took_start (x : TeeRange) (pieces : List Bytes) : Took x pieces (start x pieces) [] :=
  ⟨rfl, rfl, List.prefix_refl _, by simp [start, located], by simp [start], by simp [start],
    by simp [start]⟩

/-- The reader of a GET of the bytes `f` to `l` of an object. -/
def ofRange (block f l size : Nat) (writes : Nat → Bool) : TeeRange :=
  ⟨block, alignedFirst block f, alignedLast block l size, f, l, writes⟩

theorem aligned_covers {block l size : Nat} (hblock : 0 < block) (hl : l < size) (f : Nat) :
    alignedFirst block f ≤ f ∧ l ≤ alignedLast block l size := by
  refine ⟨Nat.div_mul_le_self f block, le_min (by omega) ?_⟩
  have := Nat.lt_div_mul_add hblock (a := l)
  rw [Nat.add_mul, Nat.one_mul]
  omega

theorem window_object {block f l : Nat} {data : Bytes} {writes : Nat → Bool} (hblock : 0 < block)
    (hfl : f ≤ l) (hl : l < data.length) :
    let x := ofRange block f l data.length writes
    window x x.af ((data.drop x.af).take (x.al + 1 - x.af)) = (data.drop f).take (l + 1 - f) := by
  obtain ⟨haf, hal⟩ := aligned_covers hblock hl f
  simp only [ofRange, window]
  rw [List.drop_take, List.drop_drop, List.take_take]
  congr 1
  · omega
  · congr 1
    omega

/-- The client is handed exactly its range and then nothing. The received pieces are written at
their own offsets, all of them unless a write failed, and once the client has read nothing all
pieces were received. The blocks are marked present only if all bytes came and every write
succeeded. -/
theorem range_tee_delivers (data : Bytes) (block f l : Nat) (writes : Nat → Bool)
    (hblock : 0 < block) (hfl : f ≤ l) (hl : l < data.length) (pieces : List Bytes)
    (hlive : ∀ p ∈ pieces, p ≠ []) (lens : List Nat) (hlens : ∀ len ∈ lens, 0 < len) :
    let x := ofRange block f l data.length writes
    let outs := ((start x pieces).reads x lens).1
    let r := ((start x pieces).reads x lens).2
    (pieces.flatten = (data.drop x.af).take (x.al + 1 - x.af) →
      outs.flatten <+: (data.drop f).take (l + 1 - f) ∧
      (l + 1 - f < lens.length → outs.flatten = (data.drop f).take (l + 1 - f)) ∧
      ∀ before out after, outs = before ++ out :: after →
        (out = [] ↔ before.flatten = (data.drop f).take (l + 1 - f))) ∧
    (∃ received, pieces = received ++ r.src ∧ r.written <+: located x.af received ∧
      ((∀ w ∈ r.written, writes w.1 = true) → r.written = located x.af received) ∧
      ([] ∈ outs → received = pieces)) ∧
    (r.marked ≠ [] → r.marked = [(x.af / block, x.al / block)] ∧
      pieces.flatten.length = x.al + 1 - x.af ∧ r.written = located x.af pieces ∧
      ∀ w ∈ r.written, writes w.1 = true) := by
  intro x outs r
  obtain ⟨⟨got, htook⟩, hahead, hdone, hend, hzeros⟩ :=
    reads_took hlive (took_start x pieces) hlens
  refine ⟨fun hcloud => ?_, ⟨got, htook.split, htook.written, fun hok => ?_, fun hmem => ?_⟩,
    fun hm => ?_⟩
  · have hwindow : ahead x (start x pieces) = (data.drop f).take (l + 1 - f) := by
      rw [ahead, start, List.nil_append, hcloud]
      exact window_object hblock hfl hl
    rw [hwindow] at hahead hdone hzeros
    refine ⟨⟨_, hahead.symm⟩, fun hshort => ?_, hzeros⟩
    rw [hdone ((List.length_take_le _ _).trans_lt hshort), List.append_nil] at hahead
    exact hahead.symm
  · cases hdeg : r.degraded with
    | false => exact (htook.sound hdeg).1
    | true =>
        obtain ⟨w, hw, hbad⟩ := htook.failed hdeg
        cases (hok w hw).symm.trans hbad
  · rw [htook.split, hend hmem, List.append_nil]
  · obtain ⟨hone, -, hdeg, hsrc, hpos⟩ := htook.marked hm
    have hgot : pieces = got := by rw [htook.split, hsrc, List.append_nil]
    obtain ⟨hall, hok⟩ := htook.sound hdeg
    refine ⟨hone, ?_, hgot ▸ hall, hok⟩
    have hp := htook.pos
    rw [hpos, ← hgot] at hp
    omega

/-- Seven bytes in blocks of three, of which the client wants two; the second write fails. -/
theorem range_tee_delivers_two :
    let x := ofRange 3 2 3 7 (fun pos => pos ≠ 2)
    let reads := (start x [[0, 1], [2], [3, 4, 5]]).reads x [1, 4, 4]
    reads.1 = [[2], [3], []] ∧ reads.2.marked = [] ∧ reads.2.written = [(0, [0, 1]), (2, [2])] ∧
      ∃ received, received = [[0, 1], [2], [3, 4, 5]] ∧ reads.2.written <+: located 0 received := by
  have h := range_tee_delivers [0, 1, 2, 3, 4, 5, 6] 3 2 3 (fun pos => pos ≠ 2) (by decide)
    (by decide) (by decide) [[0, 1], [2], [3, 4, 5]] (by decide) [1, 4, 4] (by decide)
  obtain ⟨received, -, hwritten, -, hall⟩ := h.2.1
  exact ⟨by decide, by decide, by decide, received, hall (by decide), hwritten⟩

end RangeTee

end Lights3
