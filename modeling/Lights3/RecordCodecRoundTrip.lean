import Lights3.CodecSections

/-!
# Round trips of the record codec

Encoding a record succeeds exactly within the size bounds, and decoding the
value returns the record up to the parts that are not stored. The layouts of
older versions are the current layout without the sections added later.
-/
namespace Lights3
open ByteString Wire

/-- What remains of a time point: whole milliseconds. -/
def truncMs (t : Int64) : Int64 := fromUnixMs (toUnixMs t)

variable {ver : UInt8} {w : Bytes} {p : Encoder} {ok : Prop}

theorem encodeValue_of_writes (h : Writes Oversized p ok w) (hok : ok) : encodeValue p = .ok w := by
  simp only [encodeValue, h.1 hok []]
  rfl

theorem encodeValue_error (h : Writes Oversized p ok w) (hok : ¬ ok) :
    ∃ e, Oversized e ∧ encodeValue p = .error e := by
  obtain ⟨e, hbad, he⟩ := h.2 hok []
  refine ⟨e, hbad, ?_⟩
  simp only [encodeValue, he]
  rfl

/-- A value is produced exactly within the bounds. -/
theorem encodeValue_ok_iff (h : Writes Oversized p ok w) : (∃ v, encodeValue p = .ok v) ↔ ok := by
  constructor
  · rintro ⟨v, hv⟩
    by_contra hok
    obtain ⟨e, -, he⟩ := encodeValue_error h hok
    rw [he] at hv
    cases hv
  · intro hok
    exact ⟨w, encodeValue_of_writes h hok⟩

theorem decodeValue_of_readsAll {α : Type} {p : Decoder α} {a : α} (h : ReadsAll p w a) :
    decodeValue w p = .ok a := by
  unfold ReadsAll at h
  simp only [decodeValue, h]
  rfl

theorem reads_readVer {v max : UInt8} (hv : ¬ (v = 0 ∨ v > max)) :
    Reads (readVer max) (leBytes 1 v.toNat) v := by
  have h : Reads (readVer max) (leBytes 1 v.toNat ++ []) v := by
    refine (reads_readU8 v).bind ?_
    exact (reads_reject _ hv).bindPure (fun _ => v)
  rwa [List.append_nil] at h

theorem reads_checkVer (v : UInt8) : Reads (checkVer v) (leBytes 1 v.toNat) () := by
  have h : Reads (checkVer v) (leBytes 1 v.toNat ++ []) () := by
    refine (reads_readU8 v).bind ?_
    exact reads_reject _ (by simp)
  rwa [List.append_nil] at h

/-- A section is present on both sides or absent on both sides. -/
theorem reads_sectionSince {α : Type} {since : UInt8} {p : Decoder α} {a default : α}
    (h : ver ≥ since → Reads p w a) :
    Reads (sectionSince ver since p default) (if ver ≥ since then w else [])
      (if ver ≥ since then a else default) := by
  unfold sectionSince
  split_ifs with hc
  · exact h hc
  · exact Reads.pure default

/-! ## Objects -/

def tierBytes (t : TierState) : Bytes :=
  leBytes 1 t.tier.toNat ++ (strBytes t.remoteEtag ++ strBytes t.remoteAt)

theorem reads_readTier {t : TierState} (h1 : StrFits t.remoteEtag) (h2 : StrFits t.remoteAt) :
    Reads readTier (tierBytes t) t := by
  refine (reads_readU8 _).bind ?_
  refine (reads_readStr h1).bind ?_
  exact (reads_readStr h2).bindPure _

/-- The object value layout of a version: the first-class section exists since
version 2 and the tier section since version 3. -/
def objectBytes (ver : UInt8) (rec : ObjectRec) : Bytes :=
  leBytes 1 ver.toNat ++ (leBytes 8 rec.objMeta.size.toNat ++
    (leBytes 8 (toUnixMs rec.objMeta.lastModified).toUInt64.toNat ++
      (leBytes 8 rec.version.toNat ++ (strBytes rec.objMeta.etag ++
        (strBytes rec.objMeta.contentType ++ (userMetaBytes rec.objMeta.userMeta ++
          ((if ver ≥ 2 then stdMetaBytes rec.objMeta else []) ++
            ((if ver ≥ 3 then tierBytes rec.tier else []) ++ runsBytes rec.data.extents))))))))

/-- The size bounds of the sections that a version has. -/
structure ObjectRec.FitsAt (ver : UInt8) (rec : ObjectRec) : Prop where
  etag : StrFits rec.objMeta.etag
  contentType : StrFits rec.objMeta.contentType
  userMeta : UserMetaFits rec.objMeta.userMeta
  stdMeta : ver ≥ 2 → StdMetaFits rec.objMeta
  tier : ver ≥ 3 → StrFits rec.tier.remoteEtag ∧ StrFits rec.tier.remoteAt

/-- The fields that precede the first-class section. -/
def ObjectRec.plainMeta (rec : ObjectRec) (key : Bytes) : ObjectMeta :=
  { key
    size := rec.objMeta.size
    lastModified := truncMs rec.objMeta.lastModified
    etag := rec.objMeta.etag
    contentType := rec.objMeta.contentType
    userMeta := rec.objMeta.userMeta }

/-- What a value of the given version keeps of a record. -/
def ObjectRec.keptBy (ver : UInt8) (rec : ObjectRec) (key : Bytes) : ObjectRec :=
  { rec with
    objMeta := if ver ≥ 2 then (rec.plainMeta key).withStd rec.objMeta else rec.plainMeta key
    tier := if ver ≥ 3 then rec.tier else {} }

/-- The record that reads back from the current version: `last_modified` in whole
milliseconds and the checksum value resolved. -/
def ObjectRec.persisted (rec : ObjectRec) (key : Bytes) : ObjectRec :=
  { rec with
    objMeta :=
      { rec.objMeta with
        key
        lastModified := truncMs rec.objMeta.lastModified
        checksumValue := resolvedChecksumValue rec.objMeta
        checksumPending := none } }

/-- The bounds of the current version. -/
abbrev ObjectRec.Fits (rec : ObjectRec) : Prop := rec.FitsAt 3

theorem writes_encodeObject (rec : ObjectRec) :
    ∃ p, encodeObject rec = encodeValue p ∧
      Writes Oversized p rec.Fits (objectBytes 3 rec) := by
  refine ⟨_, rfl, ?_⟩
  have htier := (writes_putU8 rec.tier.tier).seq ((writes_putStr rec.tier.remoteEtag).seq
    ((writes_putStr rec.tier.remoteAt).seq (writes_appendExtentRuns rec.data.extents)))
  have h := (writes_putU8 objectVer).seq ((writes_putU64 rec.objMeta.size).seq
    ((writes_putU64 (toUnixMs rec.objMeta.lastModified).toUInt64).seq
      ((writes_putU64 rec.version).seq ((writes_putStr rec.objMeta.etag).seq
        ((writes_putStr rec.objMeta.contentType).seq ((writes_putUserMeta rec.objMeta.userMeta).seq
          ((writes_putStdMeta rec.objMeta).seq htier)))))))
  have h2 : (3 : UInt8) ≥ 2 := by decide
  have h3 : (3 : UInt8) ≥ 3 := by decide
  refine (h.congr ?_).cast (by
    simp only [objectBytes, tierBytes, objectVer, if_pos h2, if_pos h3, List.append_assoc])
  constructor
  · rintro ⟨-, -, -, -, h1, h2, h3, h4, -, h5, h6, -⟩
    exact ⟨h1, h2, h3, fun _ => h4, fun _ => ⟨h5, h6⟩⟩
  · rintro ⟨h1, h2, h3, h4, h5⟩
    have h56 := h5 (by decide)
    exact ⟨trivial, trivial, trivial, trivial, h1, h2, h3, h4 (by decide), trivial, h56.1, h56.2,
      trivial⟩

/-- The versions that are or were written. -/
def ObjectVersion (ver : UInt8) : Prop := ver = 1 ∨ ver = 2 ∨ ver = 3

theorem ObjectVersion.readable (h : ObjectVersion ver) : ¬ (ver = 0 ∨ ver > objectVer) := by
  rcases h with rfl | rfl | rfl <;> decide

theorem plainMeta_fields (rec : ObjectRec) (key : Bytes) :
    ∀ f ∈ stdMetaFields, f.get (rec.plainMeta key) = [] := by
  simp [stdMetaFields, ObjectRec.plainMeta]

theorem fromUnixMs_stored (t : Int64) : fromUnixMs (toUnixMs t).toUInt64.toInt64 = truncMs t := by
  simp [truncMs]

/-- Every object value of every version decodes to the record with the sections
that the version lacks empty. -/
theorem decodeObject_objectBytes (hver : ObjectVersion ver) {rec : ObjectRec}
    (hfit : rec.FitsAt ver) (hz : OffsetsZero rec.data.extents)
    (hlen : rec.data.extents.length < 2 ^ 32) (key : Bytes) :
    decodeObject key (objectBytes ver rec) = .ok (rec.keptBy ver key) := by
  refine decodeValue_of_readsAll ?_
  refine (reads_readVer hver.readable).bindAll ?_
  refine (reads_readU64 _).bindAll ?_
  refine (reads_readU64 _).bindAll ?_
  refine (reads_readU64 _).bindAll ?_
  refine (reads_readStr hfit.etag).bindAll ?_
  refine (reads_readStr hfit.contentType).bindAll ?_
  refine (reads_readUserMeta hfit.userMeta).bindAll ?_
  rw [fromUnixMs_stored]
  refine (reads_sectionSince fun h => reads_readStdMeta (hfit.stdMeta h)
    (plainMeta_fields rec key) rfl rfl rfl rfl).bindAll ?_
  refine (reads_sectionSince fun h => reads_readTier (hfit.tier h).1 (hfit.tier h).2).bindAll ?_
  exact (reads_readExtentRuns hz hlen).bindEnd rfl

theorem encodeObject_ok_iff (rec : ObjectRec) : (∃ v, encodeObject rec = .ok v) ↔ rec.Fits := by
  obtain ⟨p, hp, hw⟩ := writes_encodeObject rec
  rw [hp]
  exact encodeValue_ok_iff hw

theorem encodeObject_eq {rec : ObjectRec} (hfit : rec.Fits) :
    encodeObject rec = .ok (objectBytes 3 rec) := by
  obtain ⟨p, hp, hw⟩ := writes_encodeObject rec
  rw [hp]
  exact encodeValue_of_writes hw hfit

/-! ## Uploads -/

/-- The upload value layout of a version. -/
def uploadBytes (ver : UInt8) (rec : UploadRec) : Bytes :=
  leBytes 1 ver.toNat ++ (leBytes 8 rec.initiatedMs.toUInt64.toNat ++
    (strBytes rec.objMeta.contentType ++ (userMetaBytes rec.objMeta.userMeta ++
      (if ver ≥ 2 then stdMetaBytes rec.objMeta else []))))

structure UploadRec.FitsAt (ver : UInt8) (rec : UploadRec) : Prop where
  contentType : StrFits rec.objMeta.contentType
  userMeta : UserMetaFits rec.objMeta.userMeta
  stdMeta : ver ≥ 2 → StdMetaFits rec.objMeta

abbrev UploadRec.Fits (rec : UploadRec) : Prop := rec.FitsAt 2

/-- What an upload value keeps: no size, ETag or modification time. -/
def UploadRec.keptBy (ver : UInt8) (rec : UploadRec) (key uploadId : Bytes) : UploadRec :=
  let plain : ObjectMeta :=
    { key, contentType := rec.objMeta.contentType, userMeta := rec.objMeta.userMeta }
  { uploadId
    objMeta := if ver ≥ 2 then plain.withStd rec.objMeta else plain
    initiatedMs := rec.initiatedMs }

theorem writes_encodeUpload (rec : UploadRec) :
    ∃ p, encodeUpload rec = encodeValue p ∧
      Writes Oversized p rec.Fits (uploadBytes 2 rec) := by
  refine ⟨_, rfl, ?_⟩
  have h := (writes_putU8 uploadVer).seq ((writes_putU64 rec.initiatedMs.toUInt64).seq
    ((writes_putStr rec.objMeta.contentType).seq
      ((writes_putUserMeta rec.objMeta.userMeta).seq (writes_putStdMeta rec.objMeta))))
  refine (h.congr ?_).cast rfl
  constructor
  · rintro ⟨-, -, h1, h2, h3⟩
    exact ⟨h1, h2, fun _ => h3⟩
  · rintro ⟨h1, h2, h3⟩
    exact ⟨trivial, trivial, h1, h2, h3 (by decide)⟩

/-- Every upload value of versions 1 and 2 decodes. -/
theorem decodeUpload_uploadBytes (hver : ver = 1 ∨ ver = 2) {rec : UploadRec}
    (hfit : rec.FitsAt ver) (key uploadId : Bytes) :
    decodeUpload key uploadId (uploadBytes ver rec) = .ok (rec.keptBy ver key uploadId) := by
  have hread : ¬ (ver = 0 ∨ ver > uploadVer) := by rcases hver with rfl | rfl <;> decide
  refine decodeValue_of_readsAll ?_
  refine (reads_readVer hread).bindAll ?_
  refine (reads_readU64 _).bindAll ?_
  refine (reads_readStr hfit.contentType).bindAll ?_
  refine (reads_readUserMeta hfit.userMeta).bindAll ?_
  refine (reads_sectionSince fun h => reads_readStdMeta (hfit.stdMeta h)
    (by simp [stdMetaFields]) rfl rfl rfl rfl).bindEnd ?_
  rw [Int64.toInt64_toUInt64]
  rfl

theorem encodeUpload_ok_iff (rec : UploadRec) : (∃ v, encodeUpload rec = .ok v) ↔ rec.Fits := by
  obtain ⟨p, hp, hw⟩ := writes_encodeUpload rec
  rw [hp]
  exact encodeValue_ok_iff hw

theorem encodeUpload_eq {rec : UploadRec} (hfit : rec.Fits) :
    encodeUpload rec = .ok (uploadBytes 2 rec) := by
  obtain ⟨p, hp, hw⟩ := writes_encodeUpload rec
  rw [hp]
  exact encodeValue_of_writes hw hfit

/-! ## Parts -/

/-- The part value layout of a version; the checksum exists since version 2. -/
def partBytes (ver : UInt8) (rec : PartRec) : Bytes :=
  leBytes 1 ver.toNat ++ (leBytes 8 rec.size.toNat ++ (strBytes rec.etag ++
    (leBytes 8 rec.modifiedMs.toUInt64.toNat ++
      ((if ver ≥ 2 then strBytes rec.checksumAlgorithm ++ strBytes rec.checksumValue else []) ++
        runsBytes rec.data.extents))))

structure PartRec.FitsAt (ver : UInt8) (rec : PartRec) : Prop where
  etag : StrFits rec.etag
  checksum : ver ≥ 2 → StrFits rec.checksumAlgorithm ∧ StrFits rec.checksumValue

abbrev PartRec.Fits (rec : PartRec) : Prop := rec.FitsAt 2

def PartRec.keptBy (ver : UInt8) (rec : PartRec) (partNo : Int) : PartRec :=
  { rec with
    partNo
    checksumAlgorithm := if ver ≥ 2 then rec.checksumAlgorithm else []
    checksumValue := if ver ≥ 2 then rec.checksumValue else [] }

theorem writes_encodePart (rec : PartRec) :
    ∃ p, encodePart rec = encodeValue p ∧ Writes Oversized p rec.Fits (partBytes 2 rec) := by
  refine ⟨_, rfl, ?_⟩
  have h := (writes_putU8 partVer).seq ((writes_putU64 rec.size).seq ((writes_putStr rec.etag).seq
    ((writes_putU64 rec.modifiedMs.toUInt64).seq ((writes_putStr rec.checksumAlgorithm).seq
      ((writes_putStr rec.checksumValue).seq (writes_appendExtentRuns rec.data.extents))))))
  have hcur : (2 : UInt8) ≥ 2 := by decide
  refine (h.congr ?_).cast (by
    simp only [partBytes, partVer, if_pos hcur, List.append_assoc])
  constructor
  · rintro ⟨-, -, h1, -, h2, h3, -⟩
    exact ⟨h1, fun _ => ⟨h2, h3⟩⟩
  · rintro ⟨h1, h2⟩
    have h23 := h2 (by decide)
    exact ⟨trivial, trivial, h1, trivial, h23.1, h23.2, trivial⟩

theorem reads_readPartChecksum {algorithm value : Bytes} (h : StrFits algorithm ∧ StrFits value) :
    Reads readPartChecksum (strBytes algorithm ++ strBytes value) (algorithm, value) :=
  (reads_readStr h.1).bind ((reads_readStr h.2).bindPure _)

/-- Every part value of versions 1 and 2 decodes. -/
theorem decodePart_partBytes (hver : ver = 1 ∨ ver = 2) {rec : PartRec} (hfit : rec.FitsAt ver)
    (hz : OffsetsZero rec.data.extents) (hlen : rec.data.extents.length < 2 ^ 32) (partNo : Int) :
    decodePart partNo (partBytes ver rec) = .ok (rec.keptBy ver partNo) := by
  have hread : ¬ (ver = 0 ∨ ver > partVer) := by rcases hver with rfl | rfl <;> decide
  refine decodeValue_of_readsAll ?_
  refine (reads_readVer hread).bindAll ?_
  refine (reads_readU64 _).bindAll ?_
  refine (reads_readStr hfit.etag).bindAll ?_
  refine (reads_readU64 _).bindAll ?_
  refine (reads_sectionSince fun h => reads_readPartChecksum (hfit.checksum h)).bindAll ?_
  refine (reads_readExtentRuns hz hlen).bindEnd ?_
  rw [Int64.toInt64_toUInt64]
  rcases hver with rfl | rfl <;> rfl

theorem encodePart_ok_iff (rec : PartRec) : (∃ v, encodePart rec = .ok v) ↔ rec.Fits := by
  obtain ⟨p, hp, hw⟩ := writes_encodePart rec
  rw [hp]
  exact encodeValue_ok_iff hw

theorem encodePart_eq {rec : PartRec} (hfit : rec.Fits) :
    encodePart rec = .ok (partBytes 2 rec) := by
  obtain ⟨p, hp, hw⟩ := writes_encodePart rec
  rw [hp]
  exact encodeValue_of_writes hw hfit

/-! ## Deletion queue entries -/

def reclaimBytes (r : Reclaim) (enqueueMs : Int64) : Bytes :=
  leBytes 1 (1 : UInt8).toNat ++ (leBytes 1 r.reason.toByte.toNat ++
    (leBytes 8 enqueueMs.toUInt64.toNat ++ runsBytes r.extents))

/-- A queue entry has no string fields and is always encoded. -/
theorem encodeReclaim_eq (r : Reclaim) (enqueueMs : Int64) :
    encodeReclaim r enqueueMs = .ok (reclaimBytes r enqueueMs) := by
  have h := (writes_putU8 1).seq ((writes_putU8 r.reason.toByte).seq
    ((writes_putU64 enqueueMs.toUInt64).seq (writes_appendExtentRuns r.extents)))
  exact encodeValue_of_writes h ⟨trivial, trivial, trivial, trivial⟩

theorem decodeReclaim_reclaimBytes {r : Reclaim} (hz : OffsetsZero r.extents)
    (hlen : r.extents.length < 2 ^ 32) (enqueueMs : Int64) :
    decodeReclaim (reclaimBytes r enqueueMs) = .ok { r with enqueueMs } := by
  refine decodeValue_of_readsAll ?_
  refine (reads_checkVer 1).bindAll ?_
  refine (reads_readU8 _).bindAll ?_
  refine (reads_readU64 _).bindAll ?_
  refine (reads_readExtentRuns hz hlen).bindEnd ?_
  rw [Int64.toInt64_toUInt64, ReclaimReason.ofByte_toByte]
  rfl

/-! ## The run count is a 32-bit field -/

theorem ObjectRec.fits_default : ({} : ObjectRec).Fits where
  etag := by decide
  contentType := by decide
  userMeta := ⟨by decide, by decide⟩
  stdMeta _ := ⟨by simp [stdMetaFields, StrFits], by decide, by decide, by decide, by decide⟩
  tier _ := by decide

theorem ObjectRec.fits_of_extents (extents : List Extent) :
    ({ data := ⟨extents⟩ } : ObjectRec).Fits :=
  { ObjectRec.fits_default with }

theorem foldl_pushExtent_pack {e : Extent} (he : e.kind = .pack) (n : Nat) :
    (List.replicate n e).foldl pushExtent [] = List.replicate n (Run.single e) := by
  induction n with
  | zero => rfl
  | succ n ih =>
      rw [List.replicate_succ', List.foldl_append, ih, List.foldl_cons, List.foldl_nil,
        List.replicate_succ]
      cases n with
      | zero => rfl
      | succ n =>
          have hna : (Run.single e).accepts e = false := by simp [Run.accepts, he]
          simp [List.replicate_succ, pushExtent, hna]

/-- With a multiple of `2 ^ 32` runs the stored count is 0 and the runs are read as
trailing bytes. -/
theorem decodeObject_runCount_wraps {e : Extent} (he : e.kind = .pack) {n : Nat} (hpos : 0 < n)
    (hn : n % 2 ^ 32 = 0) (key : Bytes) :
    decodeObject key (objectBytes 3 { data := ⟨List.replicate n e⟩ }) =
      .error (corrupt "trailing bytes") := by
  have hfit := ObjectRec.fits_of_extents (List.replicate n e)
  have hruns : extentRuns (List.replicate n e) = List.replicate n (Run.single e) := by
    rw [extentRuns, foldl_pushExtent_pack he, List.reverse_replicate]
  have hzero : UInt32.ofNat n = 0 := by
    apply UInt32.toNat_inj.mp
    rw [UInt32.toNat_ofNat']
    exact hn
  have hbytes : runsBytes (List.replicate n e) =
      leBytes 4 (0 : UInt32).toNat ++ (List.replicate n (Run.single e)).flatMap runBytes := by
    rw [runsBytes, hruns, List.length_replicate, hzero]
  have hne : (List.replicate n (Run.single e)).flatMap runBytes ≠ [] := by
    obtain ⟨m, rfl⟩ : ∃ m, n = m + 1 := ⟨n - 1, by omega⟩
    rw [List.replicate_succ, List.flatMap_cons]
    have hlen := runBytes_length (Run.single e)
    intro h
    have := (List.append_eq_nil_iff.mp h).1
    rw [this] at hlen
    simp at hlen
    omega
  have hread : Reads readExtentRuns (leBytes 4 (0 : UInt32).toNat) [] := by
    have h : Reads readExtentRuns (leBytes 4 (0 : UInt32).toNat ++ []) [] := by
      refine (reads_readU32 0).bind (Reads.atLeast ?_ (Nat.zero_le _))
      exact Reads.pure []
    rwa [List.append_nil] at h
  have hfails : ∀ p : Decoder ObjectRec, Fails p (objectBytes 3 { data := ⟨List.replicate n e⟩ })
      (corrupt "trailing bytes") →
      decodeValue (objectBytes 3 { data := ⟨List.replicate n e⟩ }) p =
        .error (corrupt "trailing bytes") := by
    intro p hp
    unfold Fails at hp
    simp only [decodeValue, hp]
    rfl
  refine hfails _ ?_
  rw [objectBytes, hbytes]
  refine (reads_readVer (by decide)).bindFails ?_
  refine (reads_readU64 _).bindFails ?_
  refine (reads_readU64 _).bindFails ?_
  refine (reads_readU64 _).bindFails ?_
  refine (reads_readStr hfit.etag).bindFails ?_
  refine (reads_readStr hfit.contentType).bindFails ?_
  refine (reads_readUserMeta hfit.userMeta).bindFails ?_
  rw [fromUnixMs_stored]
  refine (reads_sectionSince fun h => reads_readStdMeta (hfit.stdMeta h)
    (plainMeta_fields _ key) rfl rfl rfl rfl).bindFails ?_
  refine (reads_sectionSince fun h => reads_readTier (hfit.tier h).1 (hfit.tier h).2).bindFails ?_
  exact hread.bindFails (fails_atEnd _ hne)

/-- An object of `2 ^ 32` pack extents. -/
def manyPackExtents : ObjectRec := { data := ⟨List.replicate (2 ^ 32) { kind := .pack }⟩ }

/-- Within all size bounds, yet the stored value cannot be read. -/
theorem manyPackExtents_unreadable :
    manyPackExtents.Fits ∧ OffsetsZero manyPackExtents.data.extents ∧
      ∃ v, encodeObject manyPackExtents = .ok v ∧
        ∀ key, decodeObject key v = .error (corrupt "trailing bytes") := by
  have hfit : manyPackExtents.Fits := ObjectRec.fits_of_extents _
  refine ⟨hfit, ?_, _, encodeObject_eq hfit, fun key => ?_⟩
  · intro e he hk
    rw [(List.mem_replicate.mp he).2] at hk
    exact absurd rfl hk
  · exact decodeObject_runCount_wraps rfl (Nat.two_pow_pos 32) (Nat.mod_self _) key

/-! ## The codec as a whole -/

/-- Every record kind round-trips: encoding succeeds exactly within the bounds,
decoding returns the record up to what is not stored, and the layouts without
the sections added later decode to the record with those sections empty. -/
theorem recordCodec_roundTrip :
    (∀ rec : ObjectRec, ((∃ v, encodeObject rec = .ok v) ↔ rec.Fits) ∧
      (rec.Fits → OffsetsZero rec.data.extents → rec.data.extents.length < 2 ^ 32 →
        ∀ key, ∃ v, encodeObject rec = .ok v ∧ decodeObject key v = .ok (rec.persisted key))) ∧
    (∀ rec : UploadRec, ((∃ v, encodeUpload rec = .ok v) ↔ rec.Fits) ∧
      (rec.Fits → ∀ key id, ∃ v, encodeUpload rec = .ok v ∧
        decodeUpload key id v = .ok (rec.keptBy 2 key id))) ∧
    (∀ rec : PartRec, ((∃ v, encodePart rec = .ok v) ↔ rec.Fits) ∧
      (rec.Fits → OffsetsZero rec.data.extents → rec.data.extents.length < 2 ^ 32 →
        ∀ partNo, ∃ v, encodePart rec = .ok v ∧
          decodePart partNo v = .ok { rec with partNo })) ∧
    (∀ (r : Reclaim) (ms : Int64), ∃ v, encodeReclaim r ms = .ok v ∧
      (OffsetsZero r.extents → r.extents.length < 2 ^ 32 →
        decodeReclaim v = .ok { r with enqueueMs := ms })) ∧
    (∀ ver, ver = 1 ∨ ver = 2 →
      (∀ rec : ObjectRec, rec.FitsAt ver → OffsetsZero rec.data.extents →
        rec.data.extents.length < 2 ^ 32 →
        ∀ key, decodeObject key (objectBytes ver rec) = .ok (rec.keptBy ver key))) ∧
    (∀ rec : UploadRec, rec.FitsAt 1 →
      ∀ key id, decodeUpload key id (uploadBytes 1 rec) = .ok (rec.keptBy 1 key id)) ∧
    (∀ rec : PartRec, rec.FitsAt 1 → OffsetsZero rec.data.extents →
      rec.data.extents.length < 2 ^ 32 →
      ∀ partNo, decodePart partNo (partBytes 1 rec) = .ok (rec.keptBy 1 partNo)) := by
  refine ⟨fun rec => ⟨encodeObject_ok_iff rec, fun hfit hz hlen key => ?_⟩,
    fun rec => ⟨encodeUpload_ok_iff rec, fun hfit key id => ?_⟩,
    fun rec => ⟨encodePart_ok_iff rec, fun hfit hz hlen partNo => ?_⟩,
    fun r ms => ⟨_, encodeReclaim_eq r ms, fun hz hlen => decodeReclaim_reclaimBytes hz hlen ms⟩,
    fun ver hver rec hfit hz hlen key => ?_,
    fun rec hfit key id => decodeUpload_uploadBytes (Or.inl rfl) hfit key id,
    fun rec hfit hz hlen partNo => decodePart_partBytes (Or.inl rfl) hfit hz hlen partNo⟩
  · refine ⟨_, encodeObject_eq hfit, ?_⟩
    exact decodeObject_objectBytes (Or.inr (Or.inr rfl)) hfit hz hlen key
  · exact ⟨_, encodeUpload_eq hfit, decodeUpload_uploadBytes (Or.inr rfl) hfit key id⟩
  · exact ⟨_, encodePart_eq hfit, decodePart_partBytes (Or.inr rfl) hfit hz hlen partNo⟩
  · refine decodeObject_objectBytes ?_ hfit hz hlen key
    exact hver.imp_right Or.inl

/-- An uploaded object of two chunks and a packed tail, demoted and with every section in use. -/
def fullRecord : ObjectRec where
  objMeta :=
    { key := ascii "k"
      size := 9
      etag := ascii "e-2"
      contentType := ascii "text/plain"
      lastModified := 1500000
      userMeta := SortedMap.empty.insert (ascii "owner") (ascii "u")
      cacheControl := ascii "no-store"
      tagging := ascii "a=b"
      checksumAlgorithm := ascii "CRC32C"
      checksumType := ascii "COMPOSITE"
      checksumPending := some (ascii "AAAA-2")
      partSizes := [8, 1] }
  data := ⟨[⟨.chunk, 1, 0, 4, 7⟩, ⟨.chunk, 2, 0, 4, 8⟩, ⟨.pack, 3, 64, 1, 9⟩]⟩
  version := 2
  tier := { tier := 2, remoteEtag := ascii "r" }

theorem fullRecord_fits : fullRecord.Fits where
  etag := by decide
  contentType := by decide
  userMeta := ⟨by decide, by decide⟩
  stdMeta _ := ⟨by simp [stdMetaFields, StrFits, fullRecord]; decide, by decide, by decide,
    by decide, by decide +kernel⟩
  tier _ := by decide

/-- The time loses its half millisecond and the pending checksum is resolved. -/
theorem recordCodec_roundTrip_full :
    ∃ v, encodeObject fullRecord = .ok v ∧
      decodeObject (ascii "k") v = .ok
        { fullRecord with
          objMeta :=
            { fullRecord.objMeta with
              lastModified := 1000000
              checksumValue := ascii "AAAA-2"
              checksumPending := none } } := by
  obtain ⟨v, hv, hread⟩ := (recordCodec_roundTrip.1 fullRecord).2 fullRecord_fits (by decide)
    (by decide) (ascii "k")
  exact ⟨v, hv, hread.trans (congrArg Except.ok (by decide))⟩

end Lights3
