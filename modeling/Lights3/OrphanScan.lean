import Lights3.Lib.Holders
import Lights3.Lib.Runs
import Lights3.Records

/-!
# The orphan scan

One gateway runs writes, reads, deletions and the orphan scan in any interleaving.
A write pins an id, creates the chunk file, commits the references and unpins; a
read fetches a manifest, pins the extents it needs and unpins. The scan takes a
snapshot of the references and one of the reclaim queue, classifies the chunk
files, and removes the candidates after asking once more whether they are
referenced. Chunk ids are never handed out twice, and the queue is not consumed
while a scan holds the collector's semaphore.
-/
namespace Lights3
open Holders

/-- A write in flight and the ids it has pinned. -/
structure PutSession where
  ids : List UInt64 := []
  committed : Bool := false

/-- A read in flight: the chunks of the manifest it fetched and those it has pinned. -/
structure GetSession where
  manifest : List UInt64
  pinned : List UInt64 := []

/-- Where `run_orphan_scan_once` is. The snapshot of the references is kept to its
end. -/
inductive ScanPhase where
  | idle
  | refsTaken (refs : List UInt64)
  | classifying (refs gcq : List UInt64) (now : Int) (writeFloor : Option Int)
      (orphans : List UInt64)
  | removing (refs orphans : List UInt64)
  /-- `chunk_referenced` has said no, `remove` comes next. -/
  | unlinking (refs : List UInt64) (id : UInt64) (orphans : List UInt64)
  deriving DecidableEq

structure ScanGateway where
  /-- The chunk ids of the refs table. -/
  refs : List UInt64 := []
  /-- The chunk ids of the queue entries. -/
  gcq : List UInt64 := []
  /-- The chunk files with their modification times. -/
  files : SortedMap UInt64 Int := SortedMap.empty
  /-- `PinTable::chunk_refs`. -/
  pins : UInt64 → Nat := fun _ => 0
  puts : SortedMap Nat PutSession := SortedMap.empty
  gets : SortedMap Nat GetSession := SortedMap.empty
  /-- The ids handed out so far. -/
  allocated : List UInt64 := []
  scan : ScanPhase := .idle
  /-- History: the ids whose references were ever committed. -/
  committed : List UInt64 := []

inductive ScanEvent where
  /-- A write takes a new id and pins it. -/
  | putPin (p : Nat) (id : UInt64)
  | putCreate (p : Nat) (id : UInt64) (mtime : Int)
  | touch (id : UInt64) (mtime : Int)
  /-- The references are committed; an overwrite drops the old ones in the same
  transaction. -/
  | putCommit (p : Nat) (old : List UInt64)
  /-- The write ends; the files of one that did not commit may be removed. -/
  | putEnd (p : Nat) (discard : Bool)
  | getFetch (r : Nat) (ids : List UInt64)
  | getPin (r : Nat) (hit : List UInt64)
  | getEnd (r : Nat)
  | delete (ids : List UInt64)
  /-- The collector removes a queued chunk and settles its entry. -/
  | reclaim (id : UInt64)
  | scanRefs
  | scanGcq (now : Int) (writeFloor : Option Int)
  | classify (id : UInt64)
  | classified
  | recheck
  | unlink (fails : Bool)

namespace ScanGateway

/-- The references move to the queue in one transaction. -/
def deref (g : ScanGateway) (ids : List UInt64) : ScanGateway :=
  { g with
    refs := g.refs.filter (fun id => id ∉ ids)
    gcq := g.gcq ++ g.refs.filter (fun id => id ∈ ids) }

/-- A write that has not begun holds nothing. -/
def putOf (g : ScanGateway) (p : Nat) : PutSession := (g.puts.get? p).getD {}

/-- `open_next_chunk`: the id is pinned before the file is created. -/
def putPin (g : ScanGateway) (p : Nat) (id : UInt64) : ScanGateway :=
  if (g.putOf p).committed = true ∨ id ∈ g.allocated then g
  else
    { g with
      pins := pinAll g.pins [id]
      puts := g.puts.insert p { g.putOf p with ids := (g.putOf p).ids ++ [id] }
      allocated := id :: g.allocated }

def putCreate (g : ScanGateway) (p : Nat) (id : UInt64) (mtime : Int) : ScanGateway :=
  match g.puts.get? p with
  | some s =>
      if s.committed = false ∧ id ∈ s.ids then { g with files := g.files.insert id mtime } else g
  | none => g

def touch (g : ScanGateway) (id : UInt64) (mtime : Int) : ScanGateway :=
  if (g.files.get? id).isSome then { g with files := g.files.insert id mtime } else g

/-- The commit comes after all files of the write exist. -/
def putCommit (g : ScanGateway) (p : Nat) (old : List UInt64) : ScanGateway :=
  match g.puts.get? p with
  | some s =>
      if s.committed = false ∧ ∀ id ∈ s.ids, (g.files.get? id).isSome then
        let g := g.deref old
        { g with
          refs := s.ids ++ g.refs
          puts := g.puts.insert p { s with committed := true }
          committed := s.ids ++ g.committed }
      else g
  | none => g

def putEnd (g : ScanGateway) (p : Nat) (discard : Bool) : ScanGateway :=
  match g.puts.get? p with
  | some s =>
      { g with
        pins := unpinAll g.pins s.ids
        puts := g.puts.erase p
        files :=
          if discard = true ∧ s.committed = false then s.ids.foldl SortedMap.erase g.files
          else g.files }
  | none => g

/-- The manifest of a stored object: all of its chunks are referenced. -/
def getFetch (g : ScanGateway) (r : Nat) (ids : List UInt64) : ScanGateway :=
  if g.gets.get? r = none ∧ ∀ id ∈ ids, id ∈ g.refs then
    { g with gets := g.gets.insert r { manifest := ids } }
  else g

/-- Only the extents in the range of the read are pinned. -/
def getPin (g : ScanGateway) (r : Nat) (hit : List UInt64) : ScanGateway :=
  match g.gets.get? r with
  | some s =>
      if s.pinned = [] ∧ ∀ id ∈ hit, id ∈ s.manifest then
        { g with pins := pinAll g.pins hit, gets := g.gets.insert r { s with pinned := hit } }
      else g
  | none => g

def getEnd (g : ScanGateway) (r : Nat) : ScanGateway :=
  match g.gets.get? r with
  | some s => { g with pins := unpinAll g.pins s.pinned, gets := g.gets.erase r }
  | none => g

/-- The collector runs only between scans. -/
def reclaim (g : ScanGateway) (id : UInt64) : ScanGateway :=
  match g.scan with
  | .idle =>
      if id ∈ g.gcq then
        { g with files := g.files.erase id, gcq := g.gcq.filter (· ≠ id) }
      else g
  | _ => g

/-- `scan_refs`. -/
def scanRefs (g : ScanGateway) : ScanGateway :=
  match g.scan with
  | .idle => { g with scan := .refsTaken g.refs }
  | _ => g

/-- The pending chunks of the queue, then the clock and the write floor. -/
def scanGcq (g : ScanGateway) (now : Int) (writeFloor : Option Int) : ScanGateway :=
  match g.scan with
  | .refsTaken refs => { g with scan := .classifying refs g.gcq now writeFloor [] }
  | _ => g

/-- The gates of one chunk file, in the order of the source. -/
def isOrphan (g : ScanGateway) (graceMs : Int) (refs gcq : List UInt64) (now : Int)
    (writeFloor : Option Int) (id : UInt64) (mtime : Int) : Bool :=
  if id ∈ refs then false
  else if id ∈ gcq then false
  else if now - mtime < graceMs then false
  else if writeFloor.any (fun floor => floor ≤ mtime) then false
  else g.pins id == 0

def classify (g : ScanGateway) (graceMs : Int) (id : UInt64) : ScanGateway :=
  match g.scan, g.files.get? id with
  | .classifying refs gcq now writeFloor orphans, some mtime =>
      if g.isOrphan graceMs refs gcq now writeFloor id mtime then
        { g with scan := .classifying refs gcq now writeFloor (orphans ++ [id]) }
      else g
  | _, _ => g

/-- All chunk files are classified. -/
def classified (g : ScanGateway) : ScanGateway :=
  match g.scan with
  | .classifying refs _ _ _ orphans => { g with scan := .removing refs orphans }
  | _ => g

/-- The next candidate, or the end of the scan. -/
def recheck (g : ScanGateway) : ScanGateway :=
  match g.scan with
  | .removing _ [] => { g with scan := .idle }
  | .removing refs (id :: orphans) =>
      if id ∈ g.refs then { g with scan := .removing refs orphans }
      else { g with scan := .unlinking refs id orphans }
  | _ => g

def unlink (g : ScanGateway) (fails : Bool) : ScanGateway :=
  match g.scan with
  | .unlinking refs id orphans =>
      { g with
        files := if fails then g.files else g.files.erase id
        scan := .removing refs orphans }
  | _ => g

/-- A step that is not enabled changes nothing. -/
def step (graceMs : Int) (g : ScanGateway) : ScanEvent → ScanGateway
  | .putPin p id => g.putPin p id
  | .putCreate p id mtime => g.putCreate p id mtime
  | .touch id mtime => g.touch id mtime
  | .putCommit p old => g.putCommit p old
  | .putEnd p discard => g.putEnd p discard
  | .getFetch r ids => g.getFetch r ids
  | .getPin r hit => g.getPin r hit
  | .getEnd r => g.getEnd r
  | .delete ids => g.deref ids
  | .reclaim id => g.reclaim id
  | .scanRefs => g.scanRefs
  | .scanGcq now writeFloor => g.scanGcq now writeFloor
  | .classify id => g.classify graceMs id
  | .classified => g.classified
  | .recheck => g.recheck
  | .unlink fails => g.unlink fails

def run (graceMs : Int) (g : ScanGateway) (es : List ScanEvent) : ScanGateway :=
  es.foldl (step graceMs) g

end ScanGateway

/-! ## Fleeting chunks -/

namespace ScanPhase

/-- The reference snapshot of a scan that has its queue snapshot too. -/
def snapshot? : ScanPhase → Option (List UInt64)
  | .classifying refs _ _ _ _ => some refs
  | .removing refs _ => some refs
  | .unlinking refs _ _ => some refs
  | _ => none

end ScanPhase

/-- The chunks a step dereferences. -/
def ScanEvent.dropped : ScanEvent → List UInt64
  | .putCommit _ old => old
  | .delete ids => ids
  | _ => []

/-- After its queue snapshot, no chunk that the scan has not seen referenced is
dereferenced. -/
def ScanEvent.Steady (g : ScanGateway) (e : ScanEvent) : Prop :=
  ∀ refs, g.scan.snapshot? = some refs → ∀ id ∈ e.dropped, id ∈ g.refs → id ∈ refs

instance (g : ScanGateway) (e : ScanEvent) : Decidable (e.Steady g) :=
  inferInstanceAs (Decidable (∀ refs ∈ g.scan.snapshot?, ∀ id ∈ _, _ → _))

/-- No step of the run dereferences a chunk that was committed during the scan. -/
abbrev NoFleeting (graceMs : Int) (g : ScanGateway) (es : List ScanEvent) : Prop :=
  Along (ScanGateway.step graceMs) (fun g e => e.Steady g) g es

/-! ## The invariant -/

namespace ScanGateway

/-- The id was handed out, was never committed and no write holds it: it stays so. -/
structure Dead (g : ScanGateway) (id : UInt64) : Prop where
  allocated : id ∈ g.allocated
  uncommitted : id ∉ g.committed
  unheld : ∀ p s, g.puts.get? p = some s → id ∉ s.ids

/-- A chunk the scan has not seen referenced is referenced now, or dead. -/
def Candidate (g : ScanGateway) (refs : List UInt64) (id : UInt64) : Prop :=
  id ∉ refs ∧ (id ∈ g.refs ∨ g.Dead id)

/-- What holds in the phases of the scan. -/
def ScanOk (g : ScanGateway) : Prop :=
  match g.scan with
  | .classifying refs gcq _ _ orphans =>
      (∀ id ∈ g.gcq, id ∈ gcq ∨ id ∈ refs) ∧ ∀ id ∈ orphans, g.Candidate refs id
  | .removing refs orphans => ∀ id ∈ orphans, g.Candidate refs id
  | .unlinking refs id orphans => g.Dead id ∧ ∀ id ∈ orphans, g.Candidate refs id
  | _ => True

structure Inv (g : ScanGateway) : Prop where
  /-- The pin table counts the holds of the writes and reads in flight. -/
  counted : ∀ id, g.pins id = held PutSession.ids g.puts id + held GetSession.pinned g.gets id
  files_known : ∀ id m, g.files.get? id = some m → id ∈ g.allocated
  puts_known : ∀ p s, g.puts.get? p = some s → ∀ id ∈ s.ids, id ∈ g.allocated
  committed_known : ∀ id ∈ g.committed, id ∈ g.allocated
  refs_committed : ∀ id ∈ g.refs, id ∈ g.committed
  /-- A committed chunk that is still on disk is referenced or queued. -/
  settled : ∀ id ∈ g.committed, (g.files.get? id).isSome → id ∈ g.refs ∨ id ∈ g.gcq
  gets_committed : ∀ r s, g.gets.get? r = some s →
    (∀ id ∈ s.manifest, id ∈ g.committed) ∧ ∀ id ∈ s.pinned, id ∈ s.manifest
  puts_uncommitted : ∀ p s, g.puts.get? p = some s → s.committed = false →
    ∀ id ∈ s.ids, id ∉ g.committed
  puts_apart : ∀ p q s t, p ≠ q → g.puts.get? p = some s → g.puts.get? q = some t →
    ∀ id ∈ s.ids, id ∉ t.ids
  scan : g.ScanOk

theorem inv_empty : ({} : ScanGateway).Inv where
  counted _ := rfl
  files_known := nofun
  puts_known := nofun
  committed_known := nofun
  refs_committed := nofun
  settled := nofun
  gets_committed := nofun
  puts_uncommitted := nofun
  puts_apart := nofun
  scan := trivial

variable {g g' : ScanGateway} {graceMs : Int}

/-- The phases survive a step that keeps dead ids dead, keeps the references the scan
has not seen and queues only chunks it has. -/
theorem ScanOk.mono (h : g.ScanOk) (hscan : g'.scan = g.scan) (hdead : ∀ id, g.Dead id → g'.Dead id)
    (hrefs : ∀ refs, g.scan.snapshot? = some refs → ∀ id, id ∉ refs → id ∈ g.refs → id ∈ g'.refs)
    (hgcq : ∀ refs, g.scan.snapshot? = some refs → ∀ id ∈ g'.gcq, id ∈ g.gcq ∨ id ∈ refs) :
    g'.ScanOk := by
  have hcand (refs : List UInt64) (hs : g.scan.snapshot? = some refs) (id : UInt64)
      (hc : g.Candidate refs id) : g'.Candidate refs id :=
    ⟨hc.1, hc.2.imp (hrefs refs hs id hc.1) (hdead id)⟩
  unfold ScanOk at h ⊢
  rw [hscan]
  cases hphase : g.scan with
  | idle => trivial
  | refsTaken refs => trivial
  | classifying refs gcq now floor orphans =>
      rw [hphase] at h hcand hgcq
      refine ⟨fun id hid => ?_, fun id hid => hcand refs rfl id (h.2 id hid)⟩
      rcases hgcq refs rfl id hid with hid | hid
      · exact h.1 id hid
      · exact Or.inr hid
  | removing refs orphans =>
      rw [hphase] at h hcand
      exact fun id hid => hcand refs rfl id (h id hid)
  | unlinking refs id orphans =>
      rw [hphase] at h hcand
      exact ⟨hdead id h.1, fun id hid => hcand refs rfl id (h.2 id hid)⟩

/-- Steps that touch neither references nor the queue. -/
theorem ScanOk.frame (h : g.ScanOk) (hscan : g'.scan = g.scan)
    (hdead : ∀ id, g.Dead id → g'.Dead id) (hrefs : g'.refs = g.refs) (hgcq : g'.gcq = g.gcq) :
    g'.ScanOk :=
  h.mono hscan hdead (fun _ _ _ _ hid => hrefs ▸ hid) (fun _ _ _ hid => Or.inl (hgcq ▸ hid))

/-- A dead chunk is neither referenced nor pinned. -/
theorem Inv.unused_of_dead (h : g.Inv) {id : UInt64} (hd : g.Dead id) :
    id ∉ g.refs ∧ g.pins id = 0 := by
  refine ⟨fun hid => hd.uncommitted (h.refs_committed id hid), ?_⟩
  have hput : held PutSession.ids g.puts id = 0 := held_eq_zero.mpr hd.unheld
  have hget : held GetSession.pinned g.gets id = 0 := by
    refine held_eq_zero.mpr (fun r s hs hid => ?_)
    obtain ⟨hman, hpin⟩ := h.gets_committed r s hs
    exact hd.uncommitted (hman id (hpin id hid))
  rw [h.counted, hput, hget]

/-! ## Writes -/

theorem putOf_cases (g : ScanGateway) (p : Nat) :
    (g.puts.get? p = none ∧ g.putOf p = {}) ∨ g.puts.get? p = some (g.putOf p) := by
  unfold putOf
  cases g.puts.get? p with
  | none => exact Or.inl ⟨rfl, rfl⟩
  | some s => exact Or.inr rfl

theorem held_putOf (g : ScanGateway) (p : Nat) (x : UInt64) :
    held PutSession.ids g.puts x =
      (g.putOf p).ids.count x + held PutSession.ids (g.puts.erase p) x := by
  obtain ⟨hnone, hs⟩ | hsome := g.putOf_cases p
  · rw [held_of_absent hnone, hs]
    simp
  · exact held_of_get? hsome x

/-- What holds of a new write and of those in flight. -/
theorem putOf_of {P : PutSession → Prop} {p : Nat} (hnew : P {})
    (hput : ∀ s, g.puts.get? p = some s → P s) : P (g.putOf p) := by
  obtain ⟨-, hs⟩ | hsome := g.putOf_cases p
  · rw [hs]
    exact hnew
  · exact hput _ hsome

theorem Inv.putPin (h : g.Inv) (p : Nat) (id : UInt64) : (g.putPin p id).Inv := by
  unfold ScanGateway.putPin
  split_ifs with hif
  · exact h
  · rw [not_or, Bool.not_eq_true] at hif
    obtain ⟨hcom, hnew⟩ := hif
    have hknown : ∀ x ∈ (g.putOf p).ids, x ∈ g.allocated := putOf_of (by simp) (h.puts_known p)
    have huncommitted : (g.putOf p).committed = false → ∀ x ∈ (g.putOf p).ids, x ∉ g.committed :=
      putOf_of (by simp) (h.puts_uncommitted p)
    have hapart (q : Nat) (t : PutSession) (hne : p ≠ q) (ht : g.puts.get? q = some t) :
        ∀ x ∈ (g.putOf p).ids, x ∉ t.ids :=
      putOf_of (by simp) (fun s hs => h.puts_apart p q s t hne hs ht)
    have hfresh (x : UInt64) (hx : x ∈ g.committed) : x ≠ id := by
      rintro rfl
      exact hnew (h.committed_known x hx)
    refine
      { h with
        counted := fun x => ?_
        files_known := fun x m hx => List.mem_cons_of_mem _ (h.files_known x m hx)
        puts_known := fun q t ht x hx => ?_
        committed_known := fun x hx => List.mem_cons_of_mem _ (h.committed_known x hx)
        puts_uncommitted := fun q t ht htc x hx => ?_
        puts_apart := fun q q' t t' hne ht ht' x hx => ?_
        scan := h.scan.frame rfl (fun x hd => ?_) rfl rfl }
    · show pinAll g.pins [id] x = held PutSession.ids (g.puts.insert p _) x +
        held GetSession.pinned g.gets x
      rw [pinAll_apply, h.counted, held_insert, g.held_putOf p x, List.count_append]
      omega
    · obtain ⟨-, rfl⟩ | ⟨-, ht⟩ := SortedMap.get?_insert_cases ht
      · rcases List.mem_append.mp hx with hx | hx
        · exact List.mem_cons_of_mem _ (hknown x hx)
        · rw [List.mem_singleton.mp hx]
          exact List.mem_cons_self
      · exact List.mem_cons_of_mem _ (h.puts_known q t ht x hx)
    · obtain ⟨-, rfl⟩ | ⟨-, ht⟩ := SortedMap.get?_insert_cases ht
      · rcases List.mem_append.mp hx with hx | hx
        · exact huncommitted hcom x hx
        · exact fun hmem => hfresh x hmem (List.mem_singleton.mp hx)
      · exact h.puts_uncommitted q t ht htc x hx
    · obtain ⟨hq, rfl⟩ | ⟨hq, ht⟩ := SortedMap.get?_insert_cases ht
      · obtain ⟨hq', -⟩ | ⟨-, ht'⟩ := SortedMap.get?_insert_cases ht'
        · exact absurd (hq.trans hq'.symm) hne
        · rcases List.mem_append.mp hx with hx | hx
          · exact hapart q' t' (hq ▸ hne) ht' x hx
          · rw [List.mem_singleton.mp hx]
            exact fun hmem => hnew (h.puts_known q' t' ht' id hmem)
      · obtain ⟨hq', rfl⟩ | ⟨-, ht'⟩ := SortedMap.get?_insert_cases ht'
        · intro hmem
          rcases List.mem_append.mp hmem with hmem | hmem
          · exact hapart q t (hq' ▸ hne.symm) ht x hmem hx
          · rw [List.mem_singleton.mp hmem] at hx
            exact hnew (h.puts_known q t ht id hx)
        · exact h.puts_apart q q' t t' hne ht ht' x hx
    · refine ⟨List.mem_cons_of_mem _ hd.allocated, hd.uncommitted, fun q t ht hx => ?_⟩
      obtain ⟨-, rfl⟩ | ⟨-, ht⟩ := SortedMap.get?_insert_cases ht
      · rcases List.mem_append.mp hx with hx | hx
        · exact putOf_of (P := fun s => x ∉ s.ids) (by simp) (hd.unheld p) hx
        · rw [List.mem_singleton.mp hx] at hd
          exact hnew hd.allocated
      · exact hd.unheld q t ht hx

/-- Steps that change only the files, and create none for a committed chunk. -/
theorem Inv.setFiles (h : g.Inv) (files : SortedMap UInt64 Int)
    (hfiles : ∀ id, (files.get? id).isSome → (g.files.get? id).isSome ∨
      (id ∈ g.allocated ∧ id ∉ g.committed)) : ({ g with files } : ScanGateway).Inv := by
  refine
    { h with
      files_known := fun id m hm => ?_
      settled := fun id hid hsome => ?_
      scan := h.scan.frame rfl (fun _ hd => { hd with }) rfl rfl }
  · rcases hfiles id (by rw [hm]; rfl) with hid | hid
    · obtain ⟨m', hm'⟩ := Option.isSome_iff_exists.mp hid
      exact h.files_known id m' hm'
    · exact hid.1
  · rcases hfiles id hsome with hf | hf
    · exact h.settled id hid hf
    · exact absurd hid hf.2

theorem isSome_insert_file {files : SortedMap UInt64 Int} {id x : UInt64} {m : Int}
    (h : ((files.insert id m).get? x).isSome) : x = id ∨ (files.get? x).isSome := by
  rw [SortedMap.get?_insert] at h
  split_ifs at h with hx
  · exact Or.inl hx
  · exact Or.inr h

theorem isSome_erase_file {files : SortedMap UInt64 Int} {id x : UInt64}
    (h : ((files.erase id).get? x).isSome) : (files.get? x).isSome := by
  rw [SortedMap.get?_erase] at h
  split_ifs at h
  · cases h
  · exact h

theorem Inv.putCreate (h : g.Inv) (p : Nat) (id : UInt64) (mtime : Int) :
    (g.putCreate p id mtime).Inv := by
  unfold ScanGateway.putCreate
  cases hp : g.puts.get? p with
  | none => exact h
  | some s =>
      simp only
      split_ifs with hif
      · refine h.setFiles _ (fun x hx => ?_)
        rcases isSome_insert_file hx with rfl | hx
        · exact Or.inr ⟨h.puts_known p s hp x hif.2, h.puts_uncommitted p s hp hif.1 x hif.2⟩
        · exact Or.inl hx
      · exact h

theorem Inv.touch (h : g.Inv) (id : UInt64) (mtime : Int) : (g.touch id mtime).Inv := by
  unfold ScanGateway.touch
  split_ifs with hif
  · refine h.setFiles _ (fun x hx => Or.inl ?_)
    rcases isSome_insert_file hx with rfl | hx
    · exact hif
    · exact hx
  · exact h

/-- What dereferencing leaves. -/
theorem mem_deref {ids : List UInt64} {x : UInt64} :
    (x ∈ (g.deref ids).refs ↔ x ∈ g.refs ∧ x ∉ ids) ∧
      (x ∈ (g.deref ids).gcq ↔ x ∈ g.gcq ∨ (x ∈ g.refs ∧ x ∈ ids)) := by
  unfold deref
  simp [List.mem_filter]

theorem Inv.deref (h : g.Inv) {ids : List UInt64}
    (hsteady : ∀ refs, g.scan.snapshot? = some refs → ∀ id ∈ ids, id ∈ g.refs → id ∈ refs) :
    (g.deref ids).Inv := by
  refine
    { h with
      refs_committed := fun x hx => h.refs_committed x (mem_deref.1.mp hx).1
      settled := fun x hx hf => ?_
      scan := h.scan.mono rfl (fun _ hd => { hd with }) (fun refs hs x hx hr => ?_)
        (fun refs hs x hx => ?_) }
  · rcases h.settled x hx hf with hr | hq
    · by_cases hid : x ∈ ids
      · exact Or.inr (mem_deref.2.mpr (Or.inr ⟨hr, hid⟩))
      · exact Or.inl (mem_deref.1.mpr ⟨hr, hid⟩)
    · exact Or.inr (mem_deref.2.mpr (Or.inl hq))
  · exact mem_deref.1.mpr ⟨hr, fun hid => hx (hsteady refs hs x hid hr)⟩
  · rcases mem_deref.2.mp hx with hx | ⟨hr, hid⟩
    · exact Or.inl hx
    · exact Or.inr (hsteady refs hs x hid hr)

theorem Inv.putCommit (h : g.Inv) (p : Nat) {old : List UInt64}
    (hsteady : ∀ refs, g.scan.snapshot? = some refs → ∀ id ∈ old, id ∈ g.refs → id ∈ refs) :
    (g.putCommit p old).Inv := by
  unfold ScanGateway.putCommit
  cases hp : g.puts.get? p with
  | none => exact h
  | some s =>
      simp only
      split_ifs with hif
      · have hd := h.deref hsteady
        refine
          { h with
            counted := fun x => ?_
            puts_known := fun q t ht => ?_
            committed_known := fun x hx => ?_
            refs_committed := fun x hx => ?_
            settled := fun x hx hf => ?_
            gets_committed := fun r t ht => ?_
            puts_uncommitted := fun q t ht htc x hx => ?_
            puts_apart := fun q q' t t' hne ht ht' => ?_
            scan := hd.scan.mono rfl (fun x hx => ?_) (fun _ _ _ _ hr => List.mem_append_right _ hr)
              (fun _ _ _ hx => Or.inl hx) }
        · show g.pins x = held PutSession.ids (g.puts.insert p { s with committed := true }) x +
            held GetSession.pinned g.gets x
          rw [h.counted, held_insert, held_of_get? hp]
        · obtain ⟨-, rfl⟩ | ⟨-, ht⟩ := SortedMap.get?_insert_cases ht
          · exact h.puts_known p s hp
          · exact h.puts_known q t ht
        · rcases List.mem_append.mp hx with hx | hx
          · exact h.puts_known p s hp x hx
          · exact h.committed_known x hx
        · rcases List.mem_append.mp hx with hx | hx
          · exact List.mem_append_left _ hx
          · exact List.mem_append_right _ (hd.refs_committed x hx)
        · rcases List.mem_append.mp hx with hx | hx
          · exact Or.inl (List.mem_append_left _ hx)
          · exact (hd.settled x hx hf).imp (List.mem_append_right _) id
        · exact ⟨fun x hx => List.mem_append_right _ ((h.gets_committed r t ht).1 x hx),
            (h.gets_committed r t ht).2⟩
        · obtain ⟨-, rfl⟩ | ⟨hq, ht⟩ := SortedMap.get?_insert_cases ht
          · cases htc
          · intro hmem
            rcases List.mem_append.mp hmem with hmem | hmem
            · exact h.puts_apart p q s t (Ne.symm hq) hp ht x hmem hx
            · exact h.puts_uncommitted q t ht htc x hx hmem
        · obtain ⟨hq, rfl⟩ | ⟨hq, ht⟩ := SortedMap.get?_insert_cases ht
          · obtain ⟨hq', -⟩ | ⟨-, ht'⟩ := SortedMap.get?_insert_cases ht'
            · exact absurd (hq.trans hq'.symm) hne
            · exact h.puts_apart p q' s t' (hq ▸ hne) hp ht'
          · obtain ⟨hq', rfl⟩ | ⟨-, ht'⟩ := SortedMap.get?_insert_cases ht'
            · exact h.puts_apart q p t s (hq' ▸ hne) ht hp
            · exact h.puts_apart q q' t t' hne ht ht'
        · refine ⟨hx.allocated, fun hmem => ?_, fun q t ht => ?_⟩
          · rcases List.mem_append.mp hmem with hmem | hmem
            · exact hx.unheld p s hp hmem
            · exact hx.uncommitted hmem
          · obtain ⟨-, rfl⟩ | ⟨-, ht⟩ := SortedMap.get?_insert_cases ht
            · exact hx.unheld p s hp
            · exact hx.unheld q t ht
      · exact h

theorem isSome_eraseAll {files : SortedMap UInt64 Int} {ids : List UInt64} {x : UInt64}
    (h : ((ids.foldl SortedMap.erase files).get? x).isSome) : (files.get? x).isSome := by
  induction ids generalizing files with
  | nil => exact h
  | cons id ids ih => exact isSome_erase_file (ih h)

theorem Inv.putEnd (h : g.Inv) (p : Nat) (discard : Bool) : (g.putEnd p discard).Inv := by
  unfold ScanGateway.putEnd
  cases hp : g.puts.get? p with
  | none => exact h
  | some s =>
      have hend : ({ g with pins := unpinAll g.pins s.ids, puts := g.puts.erase p } :
          ScanGateway).Inv :=
        { h with
          counted := fun x => by
            show unpinAll g.pins s.ids x = held PutSession.ids (g.puts.erase p) x +
              held GetSession.pinned g.gets x
            rw [unpinAll_apply, h.counted, held_of_get? hp]
            omega
          puts_known := fun q t ht => h.puts_known q t (SortedMap.get?_erase_some ht).2
          puts_uncommitted := fun q t ht => h.puts_uncommitted q t (SortedMap.get?_erase_some ht).2
          puts_apart := fun q q' t t' hne ht ht' =>
            h.puts_apart q q' t t' hne (SortedMap.get?_erase_some ht).2
              (SortedMap.get?_erase_some ht').2
          scan := h.scan.frame rfl (fun x hd => ⟨hd.allocated, hd.uncommitted,
            fun q t ht => hd.unheld q t (SortedMap.get?_erase_some ht).2⟩) rfl rfl }
      refine hend.setFiles _ (fun x hx => Or.inl ?_)
      split_ifs at hx
      · exact isSome_eraseAll hx
      · exact hx

/-! ## Reads -/

theorem Inv.getFetch (h : g.Inv) (r : Nat) (ids : List UInt64) : (g.getFetch r ids).Inv := by
  unfold ScanGateway.getFetch
  split_ifs with hif
  · refine
      { h with
        counted := fun x => ?_
        gets_committed := fun q t ht => ?_
        scan := h.scan.frame rfl (fun x hd => { hd with }) rfl rfl }
    · show g.pins x = held PutSession.ids g.puts x +
        held GetSession.pinned (g.gets.insert r { manifest := ids }) x
      rw [h.counted, held_insert, held_of_absent hif.1]
      simp
    · obtain ⟨-, rfl⟩ | ⟨-, ht⟩ := SortedMap.get?_insert_cases ht
      · exact ⟨fun x hx => h.refs_committed x (hif.2 x hx), nofun⟩
      · exact h.gets_committed q t ht
  · exact h

theorem Inv.getPin (h : g.Inv) (r : Nat) (hit : List UInt64) : (g.getPin r hit).Inv := by
  unfold ScanGateway.getPin
  cases hr : g.gets.get? r with
  | none => exact h
  | some s =>
      simp only
      split_ifs with hif
      · refine
          { h with
            counted := fun x => ?_
            gets_committed := fun q t ht => ?_
            scan := h.scan.frame rfl (fun x hd => { hd with })
              rfl rfl }
        · show pinAll g.pins hit x = held PutSession.ids g.puts x +
            held GetSession.pinned (g.gets.insert r { s with pinned := hit }) x
          rw [pinAll_apply, h.counted, held_insert, held_of_get? hr, hif.1]
          simp only [List.count_nil]
          omega
        · obtain ⟨-, rfl⟩ | ⟨-, ht⟩ := SortedMap.get?_insert_cases ht
          · exact ⟨(h.gets_committed r s hr).1, hif.2⟩
          · exact h.gets_committed q t ht
      · exact h

theorem Inv.getEnd (h : g.Inv) (r : Nat) : (g.getEnd r).Inv := by
  unfold ScanGateway.getEnd
  cases hr : g.gets.get? r with
  | none => exact h
  | some s =>
      refine
        { h with
          counted := fun x => ?_
          gets_committed := fun q t ht => h.gets_committed q t (SortedMap.get?_erase_some ht).2
          scan := h.scan.frame rfl (fun x hd => { hd with }) rfl rfl }
      show unpinAll g.pins s.pinned x = held PutSession.ids g.puts x +
        held GetSession.pinned (g.gets.erase r) x
      rw [unpinAll_apply, h.counted, held_of_get? hr]
      omega

/-! ## The collector and the scan -/

theorem Inv.reclaim (h : g.Inv) (id : UInt64) : (g.reclaim id).Inv := by
  unfold ScanGateway.reclaim
  cases hscan : g.scan with
  | idle =>
      simp only
      split_ifs
      · refine
          { h with
            files_known := fun x m hx => ?_
            settled := fun x hx hf => ?_
            scan := h.scan.mono hscan.symm
              (fun x hd => { hd with }) (fun _ _ _ _ hr => hr)
              (fun _ _ _ hx => Or.inl (List.mem_of_mem_filter hx)) }
        · have hsome : (g.files.get? x).isSome := isSome_erase_file (by rw [hx]; rfl)
          obtain ⟨m', hm'⟩ := Option.isSome_iff_exists.mp hsome
          exact h.files_known x m' hm'
        · replace hf : ((g.files.erase id).get? x).isSome := hf
          have hne : x ≠ id := by
            rintro rfl
            rw [SortedMap.get?_erase, if_pos rfl] at hf
            cases hf
          refine (h.settled x hx (isSome_erase_file hf)).imp (fun hr => hr) (fun hq => ?_)
          exact List.mem_filter.mpr ⟨hq, by simpa using hne⟩
      · exact h
  | refsTaken refs => exact h
  | classifying refs gcq now floor orphans => exact h
  | removing refs orphans => exact h
  | unlinking refs id orphans => exact h

/-- Steps that only move the scan. -/
theorem Inv.setScan (h : g.Inv) (scan : ScanPhase)
    (hscan : ({ g with scan } : ScanGateway).ScanOk) : ({ g with scan } : ScanGateway).Inv :=
  { h with scan := hscan }

/-- The scan's phase does not matter for candidates. -/
theorem Candidate.setScan {refs : List UInt64} {id : UInt64} (h : g.Candidate refs id)
    (scan : ScanPhase) : ({ g with scan } : ScanGateway).Candidate refs id :=
  ⟨h.1, h.2.imp (fun hr => hr) (fun hd => { hd with })⟩

theorem Inv.scanRefs (h : g.Inv) : g.scanRefs.Inv := by
  unfold ScanGateway.scanRefs
  split
  · exact h.setScan (.refsTaken g.refs) trivial
  · exact h

theorem Inv.scanGcq (h : g.Inv) (now : Int) (floor : Option Int) : (g.scanGcq now floor).Inv := by
  unfold ScanGateway.scanGcq
  split
  · rename_i refs _
    exact h.setScan (.classifying refs g.gcq now floor [])
      ⟨fun x hx => Or.inl hx, nofun⟩
  · exact h

theorem Inv.classified (h : g.Inv) : g.classified.Inv := by
  unfold ScanGateway.classified
  have hok := h.scan
  unfold ScanOk at hok
  split
  · rename_i refs gcq now floor orphans hscan
    rw [hscan] at hok
    exact h.setScan (.removing refs orphans) (fun x hx => (hok.2 x hx).setScan _)
  · exact h

theorem isOrphan_spec {refs gcq : List UInt64} {now : Int} {floor : Option Int} {id : UInt64}
    {mtime : Int} (h : g.isOrphan graceMs refs gcq now floor id mtime = true) :
    id ∉ refs ∧ id ∉ gcq ∧ g.pins id = 0 := by
  unfold isOrphan at h
  split_ifs at h with h1 h2
  exact ⟨h1, h2, by simpa using h⟩

theorem Inv.classify (h : g.Inv) (id : UInt64) : (g.classify graceMs id).Inv := by
  unfold ScanGateway.classify
  split
  · rename_i refs gcq now floor orphans mtime hscan hfile
    split_ifs with horphan
    · obtain ⟨hrefs, hgcq, hpins⟩ := isOrphan_spec horphan
      have hok := h.scan
      unfold ScanOk at hok
      rw [hscan] at hok
      have hcand : g.Candidate refs id := by
        refine ⟨hrefs, ?_⟩
        by_cases hcom : id ∈ g.committed
        · rcases h.settled id hcom (by rw [hfile]; rfl) with hr | hq
          · exact Or.inl hr
          · rcases hok.1 id hq with hq | hq
            · exact absurd hq hgcq
            · exact absurd hq hrefs
        · refine Or.inr ⟨h.files_known id mtime hfile, hcom, ?_⟩
          rw [h.counted] at hpins
          exact held_eq_zero.mp (Nat.eq_zero_of_add_eq_zero_right hpins)
      refine h.setScan _ ⟨hok.1, fun x hx => ?_⟩
      rcases List.mem_append.mp hx with hx | hx
      · exact (hok.2 x hx).setScan _
      · rw [List.mem_singleton.mp hx]
        exact hcand.setScan _
    · exact h
  · exact h

theorem Inv.recheck (h : g.Inv) : g.recheck.Inv := by
  unfold ScanGateway.recheck
  have hok := h.scan
  unfold ScanOk at hok
  split
  · exact h.setScan _ trivial
  · rename_i refs id orphans hscan
    rw [hscan] at hok
    have hrest : ∀ x ∈ orphans, g.Candidate refs x := fun x hx => hok x (List.mem_cons_of_mem _ hx)
    split_ifs with hr
    · exact h.setScan _ (fun x hx => (hrest x hx).setScan _)
    · have hdead : g.Dead id := (hok id List.mem_cons_self).2.resolve_left hr
      exact h.setScan _ ⟨{ hdead with }, fun x hx => (hrest x hx).setScan _⟩
  · exact h

theorem Inv.unlink (h : g.Inv) (fails : Bool) : (g.unlink fails).Inv := by
  unfold ScanGateway.unlink
  have hok := h.scan
  unfold ScanOk at hok
  split
  · rename_i refs id orphans hscan
    rw [hscan] at hok
    refine (h.setScan (.removing refs orphans) (fun x hx => (hok.2 x hx).setScan _)).setFiles _
      (fun x hx => Or.inl ?_)
    cases fails with
    | true => exact hx
    | false => exact isSome_erase_file hx
  · exact h

theorem Inv.step (h : g.Inv) {e : ScanEvent} (he : e.Steady g) : (g.step graceMs e).Inv := by
  cases e with
  | putPin p id => exact h.putPin p id
  | putCreate p id mtime => exact h.putCreate p id mtime
  | touch id mtime => exact h.touch id mtime
  | putCommit p old => exact h.putCommit p he
  | putEnd p discard => exact h.putEnd p discard
  | getFetch r ids => exact h.getFetch r ids
  | getPin r hit => exact h.getPin r hit
  | getEnd r => exact h.getEnd r
  | delete ids => exact h.deref he
  | reclaim id => exact h.reclaim id
  | scanRefs => exact h.scanRefs
  | scanGcq now floor => exact h.scanGcq now floor
  | classify id => exact h.classify id
  | classified => exact h.classified
  | recheck => exact h.recheck
  | unlink fails => exact h.unlink fails

theorem Inv.run (h : g.Inv) {es : List ScanEvent} (hes : NoFleeting graceMs g es) :
    (g.run graceMs es).Inv :=
  hes.invariant h (fun _ _ he h => h.step he)

end ScanGateway

/-- When no chunk committed during a scan is dereferenced before the scan ends, the
scan unlinks no chunk file that is referenced or pinned. -/
theorem orphanScan_spares_used (graceMs : Int) {es : List ScanEvent}
    (hes : NoFleeting graceMs {} es) {refs orphans : List UInt64} {id : UInt64}
    (hunlink : (({} : ScanGateway).run graceMs es).scan = .unlinking refs id orphans) :
    id ∉ (({} : ScanGateway).run graceMs es).refs ∧
      (({} : ScanGateway).run graceMs es).pins id = 0 := by
  have h := ScanGateway.inv_empty.run hes
  have hok := h.scan
  unfold ScanGateway.ScanOk at hok
  rw [hunlink] at hok
  exact h.unused_of_dead hok.1

/-- A write fails after it created chunk 1, and an object with chunk 2 is deleted while
the scan runs. -/
def leftoverRun : List ScanEvent :=
  [.putPin 0 1, .putCreate 0 1 0, .putEnd 0 false, .putPin 1 2, .putCreate 1 2 0, .putCommit 1 [],
    .putEnd 1 false, .scanRefs, .scanGcq 5 none, .classify 2, .classify 1, .delete [2],
    .classified, .recheck]

theorem orphanScan_spares_used_leftover :
    (({} : ScanGateway).run 0 leftoverRun).scan = .unlinking [2] 1 [] ∧
      1 ∉ (({} : ScanGateway).run 0 leftoverRun).refs ∧
      (({} : ScanGateway).run 0 leftoverRun).pins 1 = 0 := by
  have hscan : (({} : ScanGateway).run 0 leftoverRun).scan = .unlinking [2] 1 [] := by
    decide +kernel
  exact ⟨hscan, orphanScan_spares_used 0 (by decide +kernel) hscan⟩

/-- A write commits chunk 1 after the reference snapshot and ends before the file is
classified; a read pins the chunk and the object is deleted before the recheck. -/
def fleetingRun : List ScanEvent :=
  [.scanRefs, .putPin 0 1, .putCreate 0 1 0, .putCommit 0 [], .putEnd 0 false, .scanGcq 5 none,
    .classify 1, .getFetch 0 [1], .getPin 0 [1], .delete [1], .classified, .recheck]

/-- The chunk is unlinked while the read holds its pin. -/
theorem fleetingRun_unlinks_pinned :
    (({} : ScanGateway).run 0 fleetingRun).scan = .unlinking [] 1 [] ∧
      (({} : ScanGateway).run 0 fleetingRun).pins 1 = 1 ∧
      ((({} : ScanGateway).run 0 fleetingRun).step 0 (.unlink false)).files.get? 1 = none := by
  decide +kernel

end Lights3
