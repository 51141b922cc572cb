import Lights3.ObjectStore
import Lights3.Lib.Runs

/-!
# Stored checksums and part layouts

What is stored beside an object describes its bytes, except where a copy brings them together: it
takes the checksum and the part sizes from one read of its source and the bytes from a later one.
-/
namespace Lights3
open ByteString

/-! ## Metadata that describes bytes -/

/-- The metadata describes the bytes. A value without a type is shown as one of the full object. -/
@[mk_iff]
structure Describes (D : Digests) (m : ObjectMeta) (data : Bytes) : Prop where
  checksum : m.checksumValue ≠ [] → m.checksumType ≠ ascii "COMPOSITE" →
    ∃ a ∈ ChecksumAlgorithm.all, m.checksumAlgorithm = a.wireName ∧
      base64Decode m.checksumValue = some (a.digest D data)
  layout : m.partSizes ≠ [] → Gateway.sumSizes m.partSizes = UInt64.ofNat data.length

instance (D : Digests) (m : ObjectMeta) (data : Bytes) : Decidable (Describes D m data) :=
  decidable_of_iff _ (describes_iff D m data).symm

/-- Two records that say the same about bytes. -/
structure SameClaims (m m' : ObjectMeta) : Prop where
  algorithm : m'.checksumAlgorithm = m.checksumAlgorithm
  value : m'.checksumValue = m.checksumValue
  type : m'.checksumType = m.checksumType
  layout : m'.partSizes = m.partSizes

variable {D : Digests} {m m' : ObjectMeta} {data : Bytes}

theorem SameClaims.describes_iff (h : SameClaims m m') :
    Describes D m' data ↔ Describes D m data := by
  constructor
  · rintro ⟨hchecksum, hlayout⟩
    rw [h.algorithm, h.value, h.type] at hchecksum
    rw [h.layout] at hlayout
    exact ⟨hchecksum, hlayout⟩
  · rintro ⟨hchecksum, hlayout⟩
    rw [← h.algorithm, ← h.value, ← h.type] at hchecksum
    rw [← h.layout] at hlayout
    exact ⟨hchecksum, hlayout⟩

/-- Nothing is said about bytes. -/
theorem describes_of_silent (hvalue : m.checksumValue = []) (hlayout : m.partSizes = []) :
    Describes D m data :=
  ⟨fun h => absurd hvalue h, fun h => absurd hlayout h⟩

/-- A put stores the checksum that its body has shown. -/
theorem describes_put {h : ChecksumHeaders} {expected : List ExpectedDigest}
    {c : Option RequestChecksum} (he : expectedDigests h = .ok expected)
    (hbody : verifyBody D expected data = .ok ()) (hc : requestChecksum h = .ok c)
    (now : Int64) (k : Bytes) (m : ObjectMeta) :
    Describes D (MemoryBackend.newObject D now k
      (attachChecksum D data c (fromHeaders m)) data).objMeta
      data := by
  cases c with
  | none => exact describes_of_silent rfl rfl
  | some c =>
      have hvalue := value_of_accepted he hbody hc
      refine ⟨fun _ _ => ⟨c.algorithm, c.algorithm.mem_all, rfl, ?_⟩, fun hne => absurd rfl hne⟩
      rw [← hvalue]
      congr 1
      cases hv : c.value with
      | none => simp [MemoryBackend.newObject, MemoryBackend.finalizeChecksum, attachChecksum,
          fromHeaders, resolvedChecksumValue, hv]
      | some v =>
          simp only [MemoryBackend.newObject, MemoryBackend.finalizeChecksum, attachChecksum,
            fromHeaders, resolvedChecksumValue, hv, Option.getD_some, Option.isSome_some, if_true]
          split_ifs with hne
          · rfl
          · rw [hv] at hvalue
            simp only [ne_eq, not_not] at hne
            simp [hne, base64Decode] at hvalue

/-- A completed upload. -/
theorem sumSizes_parts (parts : List StoredPart) :
    Gateway.sumSizes (parts.map (·.size)) = UInt64.ofNat (parts.flatMap (·.data)).length := by
  have hfold (n : UInt64) : (parts.map (·.size)).foldl (· + ·) n =
      n + UInt64.ofNat (parts.flatMap (·.data)).length := by
    induction parts generalizing n with
    | nil => simp
    | cons p parts ih =>
        rw [List.map_cons, List.foldl_cons, ih, List.flatMap_cons, List.length_append,
          UInt64.ofNat_add, ← UInt64.add_assoc]
        rfl
  rw [Gateway.sumSizes, hfold, UInt64.zero_add]

theorem describes_assembled (hvalue : m.checksumValue = []) (now : Int64) (k : Bytes)
    (parts : List StoredPart) :
    Describes D (MemoryBackend.assembledObject D now k m parts).objMeta
      (parts.flatMap (·.data)) := by
  have hsum := sumSizes_parts parts
  unfold MemoryBackend.assembledObject
  simp only
  rcases applyCompositeChecksum_cases D
    (parts.map (fun p => ⟨p.checksumAlgorithm, p.checksumValue⟩)) { m with
      key := k
      size := UInt64.ofNat (parts.flatMap (·.data)).length
      etag := combinedEtag D (parts.map (·.etag))
      lastModified := now
      partSizes := parts.map (·.size) } with heq | ⟨_, _, -, heq⟩
  · rw [heq]
    exact ⟨fun hne => absurd hvalue hne, fun _ => hsum⟩
  · rw [heq]
    exact ⟨fun _ hne => absurd rfl hne, fun _ => hsum⟩

/-- A copy says of its bytes what was said of the source when its metadata was read. -/
theorem sameClaims_copy (hpending : m.checksumPending = none) (now : Int64) (k : Bytes)
    (directive : CopyDirective) (data : Bytes) :
    SameClaims m (MemoryBackend.newObject D now k
      (Gateway.copyMeta m (ObjectStore.headerDirective directive)) data).objMeta := by
  have hvalue : resolvedChecksumValue m = m.checksumValue := by
    unfold resolvedChecksumValue
    split_ifs with hne
    · rfl
    · rw [hpending, not_not.mp hne]
      rfl
  cases directive with
  | copy => exact ⟨rfl, hvalue, rfl, rfl⟩
  | replace r =>
      refine ⟨rfl, ?_, rfl, rfl⟩
      rw [← hvalue, resolvedChecksumValue, hpending]
      rfl

/-- The metadata that a copy has read. -/
def CopyPhase.objMeta : CopyPhase → ObjectMeta
  | .headed m => m
  | .got m _ => m

namespace ObjectStore

variable {s s' : ObjectStore} {mem : MemoryBackend} {b k : Bytes} {o : BackendObject}

/-- Checksums are resolved when they are stored, and an upload has none before it is complete. -/
structure Resolved (s : ObjectStore) : Prop where
  objects : ∀ b k o, (s.mem.objectsOf b).get? k = some o → o.objMeta.checksumPending = none
  uploads : ∀ id u, s.mem.uploads.get? id = some u →
    u.objMeta.checksumValue = [] ∧ u.objMeta.checksumPending = none
  copies : ∀ i call, s.copies.get? i = some call → call.phase.objMeta.checksumPending = none ∧
    ∃ d, call.directive = headerDirective d

/-- What is stored beside each object describes it. -/
def AllDescribed (D : Digests) (s : ObjectStore) : Prop :=
  ∀ b k o, (s.mem.objectsOf b).get? k = some o → Describes D o.objMeta o.data

/-- An upload has no checksum and no open slot. -/
def Silent (m : ObjectMeta) : Prop := m.checksumValue = [] ∧ m.checksumPending = none

/-- Objects are stored under their keys. -/
def KeysRight (mem : MemoryBackend) : Prop :=
  ∀ b k o, (mem.objectsOf b).get? k = some o → o.objMeta.key = k

/-- A step of the backend that may write an object. -/
structure Moves (mem mem' : MemoryBackend) (new : Option BackendObject) : Prop where
  objects : ∀ b k x, (mem'.objectsOf b).get? k = some x →
    new = some x ∨ (mem.objectsOf b).get? k = some x
  present : ∀ o, new = some o → ∃ b k, (mem'.objectsOf b).get? k = some o
  pending : ∀ o, new = some o → o.objMeta.checksumPending = none
  keyed : KeysRight mem → KeysRight mem'
  uploads : ∀ id u, mem'.uploads.get? id = some u →
    Silent u.objMeta ∨ ∃ id' u', mem.uploads.get? id' = some u' ∧ u.objMeta = u'.objMeta

variable {mem' : MemoryBackend}

/-- The objects stay; an upload may be added. -/
theorem moves_uploads (hbuckets : mem'.buckets = mem.buckets)
    (huploads : ∀ id u, mem'.uploads.get? id = some u →
      Silent u.objMeta ∨ ∃ id' u', mem.uploads.get? id' = some u' ∧ u.objMeta = u'.objMeta) :
    Moves mem mem' none := by
  have hof (b : Bytes) : mem'.objectsOf b = mem.objectsOf b := by
    unfold MemoryBackend.objectsOf
    rw [hbuckets]
  refine ⟨fun b k x hx => .inr (hof b ▸ hx), nofun, nofun,
    fun hkeys b k o ho => hkeys b k o (hof b ▸ ho), huploads⟩

theorem moves_refl (mem : MemoryBackend) : Moves mem mem none :=
  moves_uploads rfl (fun id u hu => .inr ⟨id, u, hu, rfl⟩)

theorem moves_insert {objs : BucketObjects} (hobjs : mem.buckets.get? b = some objs)
    (hbuckets : mem'.buckets = mem.buckets.insert b (objs.insert k o))
    (huploads : ∀ id u, mem'.uploads.get? id = some u → mem.uploads.get? id = some u)
    (hkey : o.objMeta.key = k) (hpending : o.objMeta.checksumPending = none) :
    Moves mem mem' (some o) := by
  have hof := MemoryBackend.objectsOf_of_get? hobjs
  refine ⟨?_, ?_, fun o' ho' => (by cases ho'; exact hpending), ?_,
    fun id u hu => .inr ⟨id, u, huploads id u hu, rfl⟩⟩
  · intro c j x hx
    rw [MemoryBackend.objectsOf_insert hbuckets] at hx
    split_ifs at hx with hc
    · rcases SortedMap.get?_insert_cases hx with ⟨-, rfl⟩ | ⟨-, hx⟩
      · exact .inl rfl
      · exact .inr (by rw [hc, hof, hx])
    · exact .inr hx
  · intro o' ho'
    cases ho'
    refine ⟨b, k, ?_⟩
    rw [MemoryBackend.objectsOf_insert hbuckets, if_pos rfl, SortedMap.get?_insert, if_pos rfl]
  · intro hkeys c j x hx
    rw [MemoryBackend.objectsOf_insert hbuckets] at hx
    split_ifs at hx with hc
    · rcases SortedMap.get?_insert_cases hx with ⟨rfl, rfl⟩ | ⟨-, hx⟩
      · exact hkey
      · exact hkeys b j x (hof ▸ hx)
    · exact hkeys c j x hx

theorem moves_delete (h : mem.deleteObject b k = .ok mem') : Moves mem mem' none := by
  obtain ⟨-, huploads, objs, hobjs, hbuckets⟩ := MemoryBackend.deleteObject_ok h
  have hof := MemoryBackend.objectsOf_of_get? hobjs
  have hold (c j : Bytes) (x : BackendObject) (hx : (mem'.objectsOf c).get? j = some x) :
      (mem.objectsOf c).get? j = some x := by
    rw [MemoryBackend.objectsOf_insert hbuckets] at hx
    split_ifs at hx with hc
    · rw [hc, hof, (SortedMap.get?_erase_some hx).2]
    · exact hx
  exact ⟨fun c j x hx => .inr (hold c j x hx), nofun, nofun,
    fun hkeys c j x hx => hkeys c j x (hold c j x hx),
    fun id u hu => .inr ⟨id, u, huploads ▸ hu, rfl⟩⟩

/-- The metadata of a new upload is silent. -/
theorem uploadMeta_silent {algorithms : List ChecksumAlgorithm} {type : Option ChecksumTypeHeader}
    (h : uploadMeta m algorithms type = .ok m') : Silent m' := by
  obtain ⟨m₁, hm₁, h⟩ := of_bind_ok h
  obtain ⟨⟨⟩, -, h⟩ := of_bind_ok h
  cases h
  refine foldlM_ok_invariant (P := Silent) (fun n a _ n' hn hstep => ?_) ⟨rfl, rfl⟩ hm₁
  unfold declareAlgorithm at hstep
  split_ifs at hstep
  cases hstep
  exact hn

/-- What a copy that commits now brings together: the metadata it has read and the bytes. -/
def copied (D : Digests) (s : ObjectStore) (e : Int64 × StoreEvent) : Option (ObjectMeta × Bytes) :=
  match e.2 with
  | .commitCopy i =>
      match s.copies.get? i with
      | some call =>
          match call.phase with
          | .got m o => if (s.commitCopy D e.1 call m o).isOk then some (m, o.data) else none
          | .headed _ => none
      | none => none
  | _ => none

/-- What the backend has got from a step. -/
def Explains (D : Digests) (new : Option BackendObject) : Option (ObjectMeta × Bytes) → Prop
  | none => ∀ o, new = some o → Describes D o.objMeta o.data
  | some (m, data) => ∃ o, new = some o ∧ SameClaims m o.objMeta ∧ o.data = data

theorem explains_none (D : Digests) : Explains D none none := nofun

/-- A request that commits or fails. -/
theorem moves_settle {x : Except S3Error MemoryBackend}
    (h : ∀ mem', x = .ok mem' → ∃ new, Moves s.mem mem' new ∧ Explains D new none) :
    ∃ new, Moves s.mem (s.settle x).mem new ∧ Explains D new none := by
  cases x with
  | ok mem' => exact h mem' rfl
  | error e => exact ⟨none, moves_refl s.mem, explains_none D⟩

variable {checksums : ChecksumHeaders} {now : Int64} {e : Int64 × StoreEvent}

theorem put_moves {cond : PutCondition} (h : s.put D now b k m checksums data cond = .ok mem') :
    ∃ new, Moves s.mem mem' new ∧ Explains D new none := by
  obtain ⟨expected, he, h⟩ := of_bind_ok h
  obtain ⟨c, hc, h⟩ := of_bind_ok h
  obtain ⟨⟨⟩, hbody, h⟩ := of_bind_ok h
  obtain ⟨⟨etag, mem₁⟩, hput, h⟩ := of_bind_ok h
  cases h
  obtain ⟨-, huploads, objs, hobjs, -, hbuckets⟩ := MemoryBackend.putObject_ok hput
  refine ⟨_, moves_insert hobjs hbuckets (fun id u hu => huploads ▸ hu) rfl rfl, fun o ho => ?_⟩
  cases ho
  exact describes_put he hbody hc now k m

theorem applyCompositeChecksum_key (D : Digests) (ds : List PartDigest) (m : ObjectMeta) :
    (applyCompositeChecksum D ds m).key = m.key := by
  unfold applyCompositeChecksum
  split
  · rfl
  · split_ifs
    · rfl
    · split <;> rfl

theorem complete_moves (hs : s.Resolved) {id : Bytes} {parts : List PartInfo}
    (h : s.complete D now b k id parts = .ok mem') :
    ∃ new, Moves s.mem mem' new ∧ Explains D new none := by
  obtain ⟨⟨etag, mem₁⟩, hdone, h⟩ := of_bind_ok h
  cases h
  obtain ⟨-, -, huploads, u, objs, named, hu, -, -, hobjs, -, hbuckets⟩ :=
    MemoryBackend.completeMultipart_ok hdone
  obtain ⟨hvalue, hnone⟩ := hs.uploads id u hu
  refine ⟨_, moves_insert hobjs hbuckets (fun id' u' hu' => ?_)
    (by simp [MemoryBackend.assembledObject, applyCompositeChecksum_key]) ?_, fun o ho => ?_⟩
  · rw [huploads] at hu'
    exact (SortedMap.get?_erase_some hu').2
  · unfold MemoryBackend.assembledObject
    simp only
    rcases applyCompositeChecksum_cases D
      (named.map (fun p => ⟨p.checksumAlgorithm, p.checksumValue⟩)) _ with heq | ⟨_, _, -, heq⟩
    · rw [heq]
      exact hnone
    · rw [heq]
  · cases ho
    exact describes_assembled hvalue now k named

theorem uploadPart_moves {id : Bytes} {partNo : Int}
    (h : s.uploadPart D now b k id partNo checksums data = .ok mem') : Moves s.mem mem' none := by
  obtain ⟨expected, -, h⟩ := of_bind_ok h
  obtain ⟨c, -, h⟩ := of_bind_ok h
  obtain ⟨⟨⟩, -, h⟩ := of_bind_ok h
  obtain ⟨⟨etag, mem₁⟩, hpart, h⟩ := of_bind_ok h
  cases h
  obtain ⟨-, hbuckets, u, hno, hu, -, -, huploads⟩ := MemoryBackend.uploadPart_ok hpart
  refine moves_uploads hbuckets (fun id' u' hu' => .inr ?_)
  rw [huploads] at hu'
  rcases SortedMap.get?_insert_cases hu' with ⟨rfl, rfl⟩ | ⟨-, hu'⟩
  · exact ⟨_, u, hu, rfl⟩
  · exact ⟨id', u', hu', rfl⟩

theorem createMultipart_moves (s : ObjectStore) (now : Int64) (b k : Bytes) (m : ObjectMeta)
    (algorithms : List ChecksumAlgorithm) (type : Option ChecksumTypeHeader) (id : Bytes) :
    Moves s.mem (s.createMultipart now b k m algorithms type id).mem none := by
  obtain ⟨-, hbuckets, huploads⟩ := s.mem.expireUploads_spec now
  unfold createMultipart
  cases hm : uploadMeta m algorithms type with
  | error e => exact moves_refl s.mem
  | ok m' =>
      simp only [settle]
      cases hcreate : (s.mem.expireUploads now).createMultipart now id b k m' with
      | error e => exact moves_uploads hbuckets (fun id u hu => .inr ⟨id, u, huploads hu, rfl⟩)
      | ok mem₁ =>
          obtain ⟨-, rfl⟩ := MemoryBackend.createMultipart_ok hcreate
          refine moves_uploads hbuckets (fun id' u hu => ?_)
          rcases SortedMap.get?_insert_cases hu with ⟨rfl, rfl⟩ | ⟨-, hu⟩
          · exact .inl (uploadMeta_silent hm)
          · exact .inr ⟨id', u, huploads hu, rfl⟩

theorem getCopy_mem (s : ObjectStore) (i : Nat) : (s.getCopy i).mem = s.mem := by
  unfold getCopy
  split
  · split
    · split <;> rfl
    · rfl
  · rfl

/-- What a step does to the backend. -/
theorem step_moves (hs : s.Resolved) (e : Int64 × StoreEvent) :
    ∃ new, Moves s.mem (s.step D e).mem new ∧ Explains D new (copied D s e) := by
  obtain ⟨now, e⟩ := e
  cases e with
  | put b k m checksums data cond => exact moves_settle (fun mem' h => put_moves h)
  | delete b k => exact moves_settle (fun mem' h => ⟨none, moves_delete h, explains_none D⟩)
  | createMultipart b k m algorithms type id =>
      exact ⟨none, createMultipart_moves s now b k m algorithms type id, explains_none D⟩
  | uploadPart b k id partNo checksums data =>
      exact moves_settle (fun mem' h => ⟨none, uploadPart_moves h, explains_none D⟩)
  | complete b k id parts => exact moves_settle (fun mem' h => complete_moves hs h)
  | headCopy i src b k directive =>
      refine ⟨none, ?_, explains_none D⟩
      simp only [step]
      cases s.headCopy src b k directive with
      | ok call => exact moves_refl s.mem
      | error e => exact moves_refl s.mem
  | getCopy i =>
      refine ⟨none, ?_, explains_none D⟩
      simp only [step, getCopy_mem]
      exact moves_refl s.mem
  | commitCopy i =>
      simp only [step, endCopy, copied]
      cases hi : s.copies.get? i with
      | none => exact ⟨none, moves_refl s.mem, explains_none D⟩
      | some call =>
          obtain ⟨hpending, d, hd⟩ := hs.copies i call hi
          simp only
          cases hphase : call.phase with
          | headed m => exact ⟨none, moves_refl s.mem, explains_none D⟩
          | got m o =>
              simp only
              cases hcommit : s.commitCopy D now call m o with
              | error e => exact ⟨none, moves_refl s.mem, explains_none D⟩
              | ok mem' =>
                  obtain ⟨⟨etag, mem₁⟩, hput, hmem⟩ := of_bind_ok hcommit
                  cases hmem
                  obtain ⟨-, huploads, objs, hobjs, -, hbuckets⟩ := MemoryBackend.putObject_ok hput
                  refine ⟨_, moves_insert hobjs hbuckets (fun id u hu => huploads ▸ hu) rfl rfl,
                    _, rfl, ?_, rfl⟩
                  rw [hphase] at hpending
                  rw [hd]
                  exact sameClaims_copy hpending now call.key d o.data

/-! ## Runs -/

/-- Where a copy comes from after a step. -/
inductive CopyOrigin (s : ObjectStore) (e : StoreEvent) (i : Nat) (call : CopyCall) : Prop where
  | kept (h : s.copies.get? i = some call)
  | headed (o : BackendObject) (b k : Bytes) (ho : (s.mem.objectsOf b).get? k = some o)
      (hphase : call.phase = .headed o.objMeta) (d : CopyDirective)
      (hd : call.directive = headerDirective d)
  | got (old : CopyCall) (m : ObjectMeta) (o : BackendObject) (he : e = .getCopy i)
      (hold : s.copies.get? i = some old) (hheaded : old.phase = .headed m)
      (hget : s.mem.getObject old.src.bucket old.src.key = .ok o)
      (hcall : call = { old with phase := .got m o })

theorem copies_step {i : Nat} {call : CopyCall} (h : (s.step D e).copies.get? i = some call) :
    CopyOrigin s e.2 i call := by
  obtain ⟨now, e⟩ := e
  have hsettle (s : ObjectStore) (x : Except S3Error MemoryBackend) :
      (s.settle x).copies = s.copies := by
    cases x <;> rfl
  cases e with
  | put | delete | uploadPart | complete =>
      simp only [step, hsettle] at h
      exact .kept h
  | createMultipart b k m algorithms type id =>
      simp only [step, createMultipart] at h
      split at h
      · simp only [hsettle] at h
        exact .kept h
      · exact .kept h
  | headCopy j src b k directive =>
      simp only [step] at h
      cases hhead : s.headCopy src b k directive with
      | error e =>
          rw [hhead] at h
          exact .kept h
      | ok new =>
          rw [hhead] at h
          rcases SortedMap.get?_insert_cases h with ⟨rfl, rfl⟩ | ⟨-, h⟩
          · obtain ⟨m, hm, hhead⟩ := of_bind_ok hhead
            obtain ⟨⟨⟩, -, hhead⟩ := of_bind_ok hhead
            obtain ⟨⟨⟩, -, hhead⟩ := of_bind_ok hhead
            cases hhead
            obtain ⟨objs, o, hobjs, ho, rfl⟩ := MemoryBackend.headObject_ok hm
            refine .headed o src.bucket src.key ?_ rfl directive rfl
            rw [MemoryBackend.objectsOf_of_get? hobjs, ho]
          · exact .kept h
  | getCopy j =>
      simp only [step, getCopy] at h
      split at h
      · rename_i old hold
        split at h
        · rename_i m hheaded
          split at h
          · rename_i o hget
            rcases SortedMap.get?_insert_cases h with ⟨rfl, rfl⟩ | ⟨-, h⟩
            · exact .got old m o rfl hold hheaded hget rfl
            · exact .kept h
          · exact .kept (SortedMap.get?_erase_some h).2
        · exact .kept h
      · exact .kept h
  | commitCopy j =>
      simp only [step, endCopy] at h
      split at h
      · split at h
        · exact .kept (SortedMap.get?_erase_some h).2
        · exact .kept h
      · exact .kept h

theorem Resolved.of_moves {new : Option BackendObject} (hs : s.Resolved)
    (hmoves : Moves s.mem s'.mem new) (hcopies : ∀ i call, s'.copies.get? i = some call →
      call.phase.objMeta.checksumPending = none ∧ ∃ d, call.directive = headerDirective d) :
    s'.Resolved := by
  refine ⟨?_, ?_, hcopies⟩
  · intro b k o ho
    rcases hmoves.objects b k o ho with hnew | hold
    · exact hmoves.pending o hnew
    · exact hs.objects b k o hold
  · intro id u hu
    rcases hmoves.uploads id u hu with hsilent | ⟨id', u', hu', hmeta⟩
    · exact hsilent
    · rw [hmeta]
      exact hs.uploads id' u' hu'

theorem Resolved.step (hs : s.Resolved) (e : Int64 × StoreEvent) : (s.step D e).Resolved := by
  obtain ⟨new, hmoves, -⟩ := step_moves (D := D) hs e
  refine hs.of_moves hmoves (fun i call h => ?_)
  rcases copies_step h with h | ⟨o, b, k, ho, hphase, d, hd⟩ | ⟨old, m, o, -, hold, hheaded, -, rfl⟩
  · exact hs.copies i call h
  · rw [hphase]
    exact ⟨hs.objects b k o ho, d, hd⟩
  · obtain ⟨hpending, hd⟩ := hs.copies i old hold
    rw [hheaded] at hpending
    exact ⟨hpending, hd⟩

/-- What a copy that commits now brings together fits. -/
def CopiesFit (D : Digests) (s : ObjectStore) (e : Int64 × StoreEvent) : Prop :=
  ∀ x ∈ copied D s e, Describes D x.1 x.2

/-- A step keeps all objects described exactly if it commits no copy that does not fit. -/
theorem allDescribed_step_iff (hs : s.Resolved) (hall : s.AllDescribed D) (e : Int64 × StoreEvent) :
    (s.step D e).AllDescribed D ↔ CopiesFit D s e := by
  obtain ⟨new, hmoves, hexplains⟩ := step_moves (D := D) hs e
  constructor
  · rintro hafter ⟨m, data⟩ hx
    rw [Option.mem_def.mp hx] at hexplains
    obtain ⟨o, hnew, hclaims, hdata⟩ := hexplains
    obtain ⟨b, k, ho⟩ := hmoves.present o hnew
    have hdescribes := hafter b k o ho
    rw [hdata] at hdescribes
    exact hclaims.describes_iff.mp hdescribes
  · intro hfit b k o ho
    rcases hmoves.objects b k o ho with hnew | hold
    · cases hcopied : copied D s e with
      | none =>
          rw [hcopied] at hexplains
          exact hexplains o hnew
      | some x =>
          obtain ⟨m, data⟩ := x
          rw [hcopied] at hexplains
          obtain ⟨o', hnew', hclaims, hdata⟩ := hexplains
          cases hnew.symm.trans hnew'
          rw [hdata]
          exact hclaims.describes_iff.mpr (hfit (m, data) hcopied)
    · exact hall b k o hold

/-- The bytes that a copy gets are those of the version whose metadata it has read. -/
def ReadsOneVersion (s : ObjectStore) (e : Int64 × StoreEvent) : Prop :=
  ∀ i call m o, e.2 = .getCopy i → s.copies.get? i = some call → call.phase = .headed m →
    s.mem.getObject call.src.bucket call.src.key = .ok o → o.objMeta = m

/-- The copies that are ready to commit fit. -/
def ReadyFit (D : Digests) (s : ObjectStore) : Prop :=
  ∀ i call m o, s.copies.get? i = some call → call.phase = .got m o → Describes D m o.data

theorem copiesFit_of_ready (h : s.ReadyFit D) (e : Int64 × StoreEvent) : CopiesFit D s e := by
  obtain ⟨now, e⟩ := e
  intro x hx
  cases e with
  | commitCopy i =>
      simp only [copied] at hx
      split at hx
      · rename_i call hcall
        split at hx
        · rename_i m o hphase
          split_ifs at hx
          · cases hx
            exact h i call m o hcall hphase
          · cases hx
        · cases hx
      · cases hx
  | _ => cases hx

theorem ReadyFit.step (h : s.ReadyFit D) (hall : s.AllDescribed D) (hone : ReadsOneVersion s e) :
    (s.step D e).ReadyFit D := by
  intro i call m o hi hphase
  rcases copies_step hi
    with hi | ⟨o', b, k, -, hheaded, -⟩ | ⟨old, m', o', he, hold, hheaded, hget, rfl⟩
  · exact h i call m o hi hphase
  · rw [hheaded] at hphase
    cases hphase
  · cases hphase
    obtain ⟨objs, hobjs, ho⟩ := MemoryBackend.getObject_ok hget
    rw [← hone i old m o he hold hheaded hget]
    refine hall old.src.bucket old.src.key o ?_
    rw [MemoryBackend.objectsOf_of_get? hobjs, ho]

/-- A store in which all is in order and no copy is under way. -/
structure InOrder (D : Digests) (s : ObjectStore) : Prop extends Resolved s where
  described : s.AllDescribed D
  idle : s.copies = .empty

/-- In a run all stored objects stay described if and only if each copy that commits brings together
metadata and bytes that fit; and they fit if each copy gets the version whose metadata it read. -/
theorem stored_described_iff (D : Digests) (hs : s.InOrder D) (es : List (Int64 × StoreEvent)) :
    (Throughout (step D) (AllDescribed D) s es ↔ Along (step D) (CopiesFit D) s es) ∧
      (Along (step D) ReadsOneVersion s es → Along (step D) (CopiesFit D) s es) := by
  refine ⟨throughout_iff_along (I := Resolved) (fun s e hs hall => allDescribed_step_iff hs hall e)
    (fun s e hs => hs.step e) hs.toResolved hs.described, fun hone => ?_⟩
  refine hone.imp_of_invariant (I := fun s => s.Resolved ∧ s.AllDescribed D ∧ s.ReadyFit D)
    ⟨hs.toResolved, hs.described, ?_⟩ ?_ (fun s e _ h => copiesFit_of_ready h.2.2 e)
  · intro i call m o hi
    rw [hs.idle] at hi
    cases hi
  · rintro s e hone ⟨hs, hall, hready⟩
    exact ⟨hs.step e, (allDescribed_step_iff hs hall e).mpr (copiesFit_of_ready hready e),
      hready.step hall hone⟩

/-- A store with one bucket that is empty. -/
def withBucket (b : Bytes) : ObjectStore := { mem := .withBucket b }

theorem withBucket_empty (b c k : Bytes) (o : BackendObject) :
    ((withBucket b).mem.objectsOf c).get? k ≠ some o := by
  simp [withBucket]

theorem withBucket_inOrder (D : Digests) (b : Bytes) : (withBucket b).InOrder D :=
  ⟨⟨fun c k o ho => absurd ho (withBucket_empty b c k o), nofun,
    nofun⟩, fun c k o ho => absurd ho (withBucket_empty b c k o), rfl⟩

/-- However requests and copies interleave, objects lie under their keys with resolved checksums. -/
theorem stored_resolved (D : Digests) (b : Bytes) (es : List (Int64 × StoreEvent)) :
    let s := es.foldl (step D) (withBucket b)
    s.Resolved ∧ KeysRight s.mem := by
  refine List.foldlRecOn (motive := fun s => s.Resolved ∧ KeysRight s.mem) es (step D) ?_ ?_
  · exact ⟨(withBucket_inOrder D b).toResolved, fun c k o ho =>
      absurd ho (withBucket_empty b c k o)⟩
  · rintro s ⟨hs, hkeys⟩ e -
    obtain ⟨new, hmoves, -⟩ := step_moves (D := D) hs e
    exact ⟨hs.step e, hmoves.keyed hkeys⟩

instance (D : Digests) (s : ObjectStore) (e : Int64 × StoreEvent) : Decidable (CopiesFit D s e) :=
  inferInstanceAs (Decidable (∀ x ∈ copied D s e, _))

/-- An object is put under `s` with a checksum in a trailer. -/
def putSource : Int64 × StoreEvent :=
  (0, .put (ascii "docs") (ascii "s") {} { trailers := [.crc32] } [1] {})

def sourceOf : CopySource := ⟨ascii "docs", ascii "s", fun _ => .ok ()⟩

/-- The object is copied. -/
def plainCopy : List (Int64 × StoreEvent) :=
  [putSource, (0, .headCopy 0 sourceOf (ascii "docs") (ascii "d") .copy), (0, .getCopy 0),
    (0, .commitCopy 0)]

theorem stored_described_copy :
    Throughout (step Digests.zero) (AllDescribed Digests.zero)
    (withBucket (ascii "docs")) plainCopy :=
  (stored_described_iff Digests.zero (withBucket_inOrder _ _) plainCopy).1.mpr (by decide +kernel)

/-- The source is overwritten between the two reads of the copy. -/
def overwrittenCopy : List (Int64 × StoreEvent) :=
  [putSource, (0, .headCopy 0 sourceOf (ascii "docs") (ascii "d") .copy),
    (0, .put (ascii "docs") (ascii "s") {} {} [2] {}), (0, .getCopy 0), (0, .commitCopy 0)]

/-- The copy has the bytes of the second version and the checksum of the first. -/
theorem copy_mixes_versions :
    (withBucket (ascii "docs")).InOrder Digests.zero ∧ ¬ Throughout (step Digests.zero)
      (AllDescribed Digests.zero) (withBucket (ascii "docs")) overwrittenCopy := by
  refine ⟨withBucket_inOrder _ _, fun h => ?_⟩
  have hbad : (((overwrittenCopy.foldl (step Digests.zero)
    (withBucket (ascii "docs"))).mem.objectsOf
      (ascii "docs")).get? (ascii "d")).any
        (fun o => !decide (Describes Digests.zero o.objMeta o.data)) = true := by
    decide +kernel
  obtain ⟨o, ho, hnot⟩ := (Option.any_eq_true _ _).mp hbad
  rw [Bool.not_eq_true', decide_eq_false_iff_not] at hnot
  exact hnot (h.last (ascii "docs") (ascii "d") o ho)

end ObjectStore

end Lights3
