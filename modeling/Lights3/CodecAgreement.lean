import Lights3.RecordCodecRoundTrip
import Lights3.Lib.Results
import Lights3.Lib.WireRelations

/-!
# Decoding arbitrary values

What the decoders of the record codec do on any byte string. The listing path steps
over the extent runs by arithmetic and checks less, and `decode_extents` never returns
more extents than the value has room for.
-/
namespace Lights3
open ByteString Wire

/-- `encode_extents`. -/
def encodeExtents (extents : List Extent) : Except S3Error Bytes :=
  encodeValue (appendExtentRuns extents)

/-- `decode_extents`. -/
def decodeExtents (v : Bytes) : Except S3Error (List Extent) := decodeValue v do
  let out ← readExtentRuns
  done
  return out

/-! ## The listing path and the full decoder -/

/-- The errors about the contents of an extent run. -/
def RunFault (e : S3Error) : Prop :=
  e = corrupt "unknown extent kind" ∨ e = corrupt "empty run" ∨ e = corrupt "pack run count"

theorem yields_readU8 : Yields readU8 (fun n _ => n = 1) := Yields.map (yields_number _ 1)

theorem yields_readU32 : Yields readU32 (fun n _ => n = 4) := Yields.map (yields_number _ 4)

theorem yields_readU64 : Yields readU64 (fun n _ => n = 8) := Yields.map (yields_number _ 8)

theorem follows_readKind : Follows RunFault (fun _ _ => True) readKind readU8 := by
  rw [← bind_pure readU8]
  refine Follows.step readU8 fun b => ?_
  split_ifs
  · exact Follows.pure trivial
  · exact Follows.pure trivial
  · exact Follows.pure trivial
  · intro s
    refine ⟨fun a rest h => ?_, fun e he => Or.inl (Or.inl (Except.error.inj he).symm)⟩
    exact nomatch (show Except.error _ = Except.ok (a, rest) from h)

/-- Reading the checksums of a run takes the bytes that are stepped over. -/
theorem follows_crcs (n : Nat) :
    Follows RunFault (fun _ _ => True) (times (fun cs => do return cs ++ [← readU32]) n [])
      (take (corrupt "truncated") (n * 4)) := by
  refine follows_times_take (fun cs => ?_) n []
  rw [← bind_pure (take (corrupt "truncated") 4)]
  have hread : (do return cs ++ [← readU32] : Decoder (List UInt32)) =
      take (corrupt "truncated") 4 >>= fun w => pure (cs ++ [UInt32.ofNat (leNat w)]) := by
    simp only [readU32, number, map_eq_pure_bind, bind_assoc, pure_bind]
  rw [hread]
  exact Follows.step _ fun w => Follows.pure trivial

/-- A run that is read is stepped over, and only a fault in its contents goes unnoticed. -/
theorem follows_readRun (out : List Extent) :
    Follows RunFault (fun _ _ => True) (readRun out) (skipRun ()) := by
  have hempty : RunFault (corrupt "empty run") := Or.inr (Or.inl rfl)
  have hpack : RunFault (corrupt "pack run count") := Or.inr (Or.inr rfl)
  refine follows_readKind.bind fun kind _ _ => ?_
  refine Follows.step readU64 fun _ => ?_
  refine Follows.step readU32 fun count => ?_
  refine Follows.reject (c := count = 0) hempty ?_
  refine Follows.reject (c := kind = .pack ∧ count ≠ 1) hpack ?_
  refine Follows.atLeast ?_ ?_
  · refine Follows.step readU64 fun _ => ?_
    refine Follows.step readU64 fun _ => ?_
    refine Follows.step readU64 fun _ => ?_
    exact (follows_crcs count.toNat).bind fun _ _ _ => Follows.pure trivial
  · refine yields_readU64.bind fun _ _ _ => ?_
    refine yields_readU64.bind fun _ _ _ => ?_
    refine yields_readU64.bind fun _ _ _ => ?_
    refine (yields_take _ _).bind fun _ _ hn => Yields.pure ?_
    omega

theorem follows_readExtentRuns :
    Follows RunFault (fun _ _ => True) readExtentRuns skipExtentRuns := by
  refine Follows.step readU32 fun n => ?_
  refine Follows.step (needPayload _) fun _ => ?_
  exact Follows.times (fun out _ _ => follows_readRun out) _ trivial

/-- The two decoders of a value, related by what they return. -/
theorem decodeValue_follows {α β : Type} (excused : S3Error → Prop) (f : α → β)
    {p : Decoder α} {q : Decoder β} (h : Follows excused (fun a b => f a = b) p q) (v : Bytes) :
    (∀ a, decodeValue v p = .ok a → decodeValue v q = .ok (f a)) ∧
      ∀ e, decodeValue v p = .error e → excused e ∨ ∃ e', decodeValue v q = .error e' := by
  have hvalue {γ : Type} (r : Decoder γ) : decodeValue v r = (r.run v).map Prod.fst := by
    cases hr : r.run v <;> simp only [decodeValue, hr] <;> rfl
  rw [hvalue p, hvalue q]
  obtain ⟨hok, herr⟩ := h v
  cases hp : p.run v with
  | error e =>
      refine ⟨fun a ha => by simp [Except.map] at ha, fun e' he => ?_⟩
      obtain rfl := Except.error.inj he
      refine (herr e hp).imp_right fun hfail => ?_
      obtain ⟨e', he'⟩ := hfail
      exact ⟨e', by rw [he']; rfl⟩
  | ok out =>
      obtain ⟨b, hb, hab⟩ := hok out.1 out.2 hp
      refine ⟨fun a ha => ?_, fun e he => by simp [Except.map] at he⟩
      rw [← Except.ok.inj ha, hab, hb]
      rfl

/-- Listing and reading agree about an object: what `decode_object` accepts
`decode_object_meta` accepts with the same metadata, and beyond that it accepts only
values that fail in the contents of a run. -/
theorem decodeObjectMeta_agrees (key v : Bytes) :
    (∀ rec, decodeObject key v = .ok rec → decodeObjectMeta key v = .ok rec.objMeta) ∧
      ∀ e, decodeObject key v = .error e → ¬ RunFault e →
        ∃ e', decodeObjectMeta key v = .error e' := by
  unfold decodeObject decodeObjectMeta
  refine (decodeValue_follows RunFault ObjectRec.objMeta ?_ v).imp id
    (fun h e he hfault => (h e he).resolve_left hfault)
  refine Follows.step _ fun ver => ?_
  refine Follows.step _ fun size => ?_
  refine Follows.step _ fun ms => ?_
  refine Follows.step _ fun version => ?_
  refine Follows.step _ fun etag => ?_
  refine Follows.step _ fun contentType => ?_
  refine Follows.step _ fun userMeta => ?_
  refine Follows.step _ fun objMeta => ?_
  refine Follows.step _ fun tier => ?_
  refine follows_readExtentRuns.bind fun extents _ _ => ?_
  exact Follows.step done fun _ => Follows.pure rfl

/-! ## Extent arrays -/

/-- The extents read so far, from `n` bytes. -/
structure RunsRead (n : Nat) (extents : List Extent) : Prop where
  offsets : OffsetsZero extents
  room : extents.length * 4 ≤ n

theorem offsetsZero_expandRun (kind : ExtentKind) (firstId : UInt64) (count : UInt32)
    (chunkLen lastLen packOffset : UInt64) (crcs : List UInt32) :
    OffsetsZero (expandRun kind firstId count chunkLen lastLen packOffset crcs) := by
  intro e he hkind
  obtain ⟨j, hj, rfl⟩ := List.mem_mapIdx.mp he
  exact if_neg hkind

/-- A run takes four bytes for every extent, and more. -/
theorem yields_readRun {k : Nat} {out : List Extent} (h : RunsRead k out) :
    Yields (readRun out) (fun m out' => RunsRead (k + m) out') := by
  have hkind : Yields readKind (fun _ _ => True) := by
    refine yields_readU8.bind fun n b _ => ?_
    split_ifs
    · exact Yields.pure trivial
    · exact Yields.pure trivial
    · exact Yields.pure trivial
    · exact fun s a rest hrun => nomatch (show Except.error _ = Except.ok (a, rest) from hrun)
  have hcrcs (count : Nat) : Yields (times (fun cs => do return cs ++ [← readU32]) count [])
      (fun m (cs : List UInt32) => cs.length * 4 = m) := by
    have hloop : Yields (times (fun cs => do return cs ++ [← readU32]) count [])
        (fun m (cs : List UInt32) => cs.length * 4 = 0 + m) := by
      refine Yields.times (I := fun k (cs : List UInt32) => cs.length * 4 = k) ?_ count rfl
      refine fun k cs hcs => yields_readU32.bind fun n c hn => Yields.pure ?_
      rw [List.length_append, List.length_singleton]
      omega
    exact hloop.imp fun m cs hcs => by omega
  refine hkind.bind fun n₁ kind _ => ?_
  refine yields_readU64.bind fun n₂ firstId _ => ?_
  refine yields_readU32.bind fun n₃ count _ => ?_
  refine (yields_reject _).bind fun n₄ _ _ => ?_
  refine (yields_reject _).bind fun n₅ _ _ => ?_
  refine (yields_atLeast _ _).bind fun n₆ _ _ => ?_
  refine yields_readU64.bind fun n₇ chunkLen _ => ?_
  refine yields_readU64.bind fun n₈ lastLen _ => ?_
  refine yields_readU64.bind fun n₉ packOffset _ => ?_
  refine (hcrcs count.toNat).bind fun m crcs hm => Yields.pure ⟨?_, ?_⟩
  · intro e he
    rcases List.mem_append.mp he with he | he
    · exact h.offsets e he
    · exact offsetsZero_expandRun _ _ _ _ _ _ _ e he
  · have hroom := h.room
    have hlen : (expandRun kind firstId count chunkLen lastLen packOffset crcs).length =
        crcs.length := by simp [expandRun]
    rw [List.length_append, hlen]
    omega

theorem yields_readExtentRuns : Yields readExtentRuns RunsRead := by
  refine yields_readU32.bind fun n₁ n _ => ?_
  refine (yields_atLeast _ _).bind fun n₂ _ _ => ?_
  have hempty : RunsRead 0 [] := ⟨nofun, by simp⟩
  refine (Yields.times (fun k out h => yields_readRun h) n.toNat hempty).imp
    fun m out h => ⟨h.offsets, ?_⟩
  have hroom := h.room
  omega

/-- What was decoded from any value. -/
theorem decodeExtents_ok {v : Bytes} {ys : List Extent} (h : decodeExtents v = .ok ys) :
    RunsRead v.length ys := by
  have hrun : Yields (readExtentRuns >>= fun out => done >>= fun _ => pure out) RunsRead := by
    refine yields_readExtentRuns.bind fun n out hout => ?_
    have hdone : Yields done (fun m _ => m = 0) := by
      intro s a rest hdone
      have hdone : (if s = [] then .ok ((), s) else .error _) = Except.ok (a, rest) := hdone
      split_ifs at hdone
      obtain ⟨-, rfl⟩ := Prod.mk.inj (Except.ok.inj hdone)
      exact ⟨0, (Nat.zero_add _).symm, rfl⟩
    refine hdone.bind fun m _ hm => Yields.pure ⟨hout.offsets, ?_⟩
    have hroom := hout.room
    omega
  unfold decodeExtents decodeValue at h
  obtain ⟨⟨out, rest⟩, hout, hys⟩ := of_bind_ok h
  obtain rfl := pure_eq_ok.mp hys
  obtain ⟨n, hn, hread⟩ := hrun v ys rest hout
  have hroom := hread.room
  exact ⟨hread.offsets, by omega⟩

theorem encodeExtents_eq (extents : List Extent) :
    encodeExtents extents = .ok (runsBytes extents) :=
  encodeValue_of_writes (writes_appendExtentRuns extents) trivial

theorem decodeExtents_runsBytes {extents : List Extent} (hz : OffsetsZero extents)
    (hlen : extents.length < 2 ^ 32) : decodeExtents (runsBytes extents) = .ok extents :=
  decodeValue_of_readsAll ((reads_readExtentRuns hz hlen).bindEnd rfl)

/-- The run encoding is lossless and never fabricates extents. -/
theorem decodeExtents_lossless :
    (∀ xs : List Extent, xs.length < 2 ^ 32 → OffsetsZero xs →
      ∃ w, encodeExtents xs = .ok w ∧ decodeExtents w = .ok xs) ∧
    ∀ v ys, decodeExtents v = .ok ys → ys.length ≤ v.length / 4 ∧
      (ys.length < 2 ^ 32 → ∃ w, encodeExtents ys = .ok w ∧ decodeExtents w = .ok ys) := by
  refine ⟨fun xs hlen hz => ⟨_, encodeExtents_eq xs, decodeExtents_runsBytes hz hlen⟩,
    fun v ys hys => ?_⟩
  obtain ⟨hz, hroom⟩ := decodeExtents_ok hys
  exact ⟨by omega, fun hlen => ⟨_, encodeExtents_eq ys, decodeExtents_runsBytes hz hlen⟩⟩

/-- Two full chunks and a short one, a pack extent, and the id after the largest one. -/
def mixedExtents : List Extent :=
  [⟨.chunk, 0xfffffffffffffffe, 0, 4, 1⟩, ⟨.chunk, 0xffffffffffffffff, 0, 4, 2⟩,
    ⟨.chunk, 0, 0, 1, 3⟩, ⟨.pack, 9, 25, 5, 4⟩, ⟨.rados, 1, 0, 4, 5⟩]

theorem decodeExtents_mixed : mixedExtents.length < 2 ^ 32 ∧ OffsetsZero mixedExtents ∧
    ∃ w, encodeExtents mixedExtents = .ok w ∧ decodeExtents w = .ok mixedExtents :=
  ⟨by decide, by decide, decodeExtents_lossless.1 mixedExtents (by decide) (by decide)⟩

/-- Empty chunks with the ids from 0 on. -/
def emptyChunks (n : Nat) : List Extent :=
  (List.range n).map fun i => { fileId := UInt64.ofNat i }

/-- The run they merge to. -/
def emptyChunksRun (n : Nat) : Run :=
  ⟨.chunk, 0, UInt32.ofNat n, 0, 0, 0, List.replicate n 0⟩

theorem foldl_pushExtent_emptyChunks {n : Nat} (hn : n < 2 ^ 32) :
    (emptyChunks (n + 1)).foldl pushExtent [] = [emptyChunksRun (n + 1)] := by
  induction n with
  | zero => rfl
  | succ n ih =>
      have hcount : (UInt32.ofNat (n + 1)).toUInt64 = UInt64.ofNat (n + 1) := by
        apply UInt64.toNat_inj.mp
        rw [UInt32.toNat_toUInt64, UInt32.toNat_ofNat', UInt64.toNat_ofNat']
        omega
      have haccepts : (emptyChunksRun (n + 1)).accepts { fileId := UInt64.ofNat (n + 1) } =
          true := by
        simp only [Run.accepts, emptyChunksRun, hcount]
        simp
      rw [emptyChunks, List.range_succ, List.map_append, List.foldl_append]
      rw [show ((List.range (n + 1)).map fun i => ({ fileId := UInt64.ofNat i } : Extent)) =
        emptyChunks (n + 1) from rfl, ih (by omega)]
      simp only [List.map_cons, List.map_nil, List.foldl_cons, List.foldl_nil, pushExtent,
        if_pos haccepts]
      simp only [Run.extend, emptyChunksRun, UInt32.ofNat_add, List.replicate_succ' (n := n + 1)]
      rfl

/-- A value with a full run and one more chunk decodes to `2 ^ 32` extents. They merge to
one run whose 32-bit count is 0, which cannot be read back. -/
theorem decodeExtents_count_wraps : ∃ v ys w, decodeExtents v = .ok ys ∧
    encodeExtents ys = .ok w ∧ decodeExtents w = .error (corrupt "empty run") := by
  obtain ⟨n, hn⟩ : ∃ n, n + 2 = 2 ^ 32 := ⟨2 ^ 32 - 2, by norm_num⟩
  have hz : OffsetsZero (emptyChunks (n + 1)) := by
    intro e he _
    obtain ⟨i, -, rfl⟩ := List.mem_map.mp he
    rfl
  have hlen : (emptyChunks (n + 1)).length = n + 1 := by simp [emptyChunks]
  have hmerged := foldl_pushExtent_emptyChunks (n := n) (by omega)
  have hrep := foldl_pushExtent_represents hz (by omega)
  rw [hmerged] at hrep
  have hexpand : (emptyChunksRun (n + 1)).extents = emptyChunks (n + 1) := by
    simpa using hrep.expand
  have hwf : (emptyChunksRun (n + 1)).WellFormed := hrep.wellFormed _ List.mem_cons_self
  let last : Extent := { fileId := UInt64.ofNat (n + 1) }
  have hys : emptyChunks (n + 2) = emptyChunks (n + 1) ++ [last] := by
    rw [emptyChunks, List.range_succ, List.map_append]
    rfl
  have hruns : Reads readExtentRuns (leBytes 4 (2 : UInt32).toNat ++
      [emptyChunksRun (n + 1), Run.single last].flatMap runBytes) (emptyChunks (n + 2)) := by
    refine (reads_readU32 2).bind (Reads.atLeast ?_ ?_)
    · have h : Reads (times readRun [emptyChunksRun (n + 1), Run.single last].length [])
          ([emptyChunksRun (n + 1), Run.single last].flatMap runBytes)
          ([emptyChunksRun (n + 1), Run.single last].foldl (fun out r => out ++ r.extents) []) := by
        refine Reads.times (fun out r hr => reads_readRun ?_ out) []
        rcases List.mem_cons.mp hr with rfl | hr
        · exact hwf
        · obtain rfl := List.mem_singleton.mp hr
          exact Run.single_wellFormed last
      have hsingle : (Run.single last).extents = [last] := Run.single_extents fun _ => rfl
      simp only [List.foldl_cons, List.foldl_nil, List.nil_append, hexpand, hsingle, ← hys] at h
      exact h
    · exact runs_payload_length [emptyChunksRun (n + 1), Run.single last]
  refine ⟨_, _, _, decodeValue_of_readsAll (hruns.bindEnd rfl), encodeExtents_eq _, ?_⟩
  -- The encoder merges all of them into one run.
  have hone : extentRuns (emptyChunks (n + 2)) = [emptyChunksRun (n + 2)] := by
    rw [extentRuns, foldl_pushExtent_emptyChunks (n := n + 1) (by omega)]
    rfl
  have hzero : UInt32.ofNat (n + 2) = 0 := by
    rw [hn]
    rfl
  have hfails : Fails (readExtentRuns >>= fun out => done >>= fun _ => pure out)
      (runsBytes (emptyChunks (n + 2))) (corrupt "empty run") := by
    rw [runsBytes, hone]
    refine Fails.bind ((reads_readU32 1).bindFails (Fails.atLeast (Fails.bind ?_) ?_))
    · rw [List.flatMap_singleton]
      refine (reads_readKind .chunk).bindFails ?_
      refine (reads_readU64 0).bindFails ?_
      refine (reads_readU32 (UInt32.ofNat (n + 2))).bindFails ?_
      exact Fails.bind (fails_reject _ _ hzero)
    · exact runs_payload_length [emptyChunksRun (n + 2)]
  unfold Fails at hfails
  unfold decodeExtents decodeValue
  rw [hfails]
  rfl

end Lights3
