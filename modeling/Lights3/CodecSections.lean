import Lights3.RecordCodec

/-!
# Sections of the record codec

Every section writer appends a fixed byte string exactly when its size bounds
hold, and the matching reader consumes that byte string and returns what was
written: numbers, strings, user metadata, the first-class metadata section and
the extent runs.
-/
namespace Lights3
open ByteString Wire

/-- The errors raised by an oversized field. -/
def Oversized (e : S3Error) : Prop :=
  e = tooLarge "string field exceeds 64KiB" ∨ e = tooLarge "too many user metadata entries"

/-- The bound on every persisted string. -/
def StrFits (s : Bytes) : Prop := s.length ≤ 0xffff

instance (s : Bytes) : Decidable (StrFits s) := inferInstanceAs (Decidable (_ ≤ _))

/-! ## Numbers and strings -/

theorem writes_putU8 (v : UInt8) : Writes Oversized (putU8 v) True (leBytes 1 v.toNat) :=
  writes_emit _

theorem writes_putU16 (v : UInt16) : Writes Oversized (putU16 v) True (leBytes 2 v.toNat) :=
  writes_emit _

theorem writes_putU32 (v : UInt32) : Writes Oversized (putU32 v) True (leBytes 4 v.toNat) :=
  writes_emit _

theorem writes_putU64 (v : UInt64) : Writes Oversized (putU64 v) True (leBytes 8 v.toNat) :=
  writes_emit _

theorem reads_readU8 (v : UInt8) : Reads readU8 (leBytes 1 v.toNat) v := by
  have h := (reads_number (corrupt "truncated") 1 v.toNat).map UInt8.ofNat
  have hv : UInt8.ofNat (v.toNat % 256 ^ 1) = v := by simp
  rwa [hv] at h

theorem reads_readU16 (v : UInt16) : Reads readU16 (leBytes 2 v.toNat) v := by
  have h := (reads_number (corrupt "truncated") 2 v.toNat).map UInt16.ofNat
  have hv : UInt16.ofNat (v.toNat % 256 ^ 2) = v := by simp
  rwa [hv] at h

theorem reads_readU32 (v : UInt32) : Reads readU32 (leBytes 4 v.toNat) v := by
  have h := (reads_number (corrupt "truncated") 4 v.toNat).map UInt32.ofNat
  have hv : UInt32.ofNat (v.toNat % 256 ^ 4) = v := by simp
  rwa [hv] at h

theorem reads_readU64 (v : UInt64) : Reads readU64 (leBytes 8 v.toNat) v := by
  have h := (reads_number (corrupt "truncated") 8 v.toNat).map UInt64.ofNat
  have hv : UInt64.ofNat (v.toNat % 256 ^ 8) = v := by simp
  rwa [hv] at h

/-- The image of a length-prefixed string. -/
def strBytes (v : Bytes) : Bytes := leBytes 2 (UInt16.ofNat v.length).toNat ++ v

theorem writes_putStr (v : Bytes) : Writes Oversized (putStr v) (StrFits v) (strBytes v) := by
  have h := (writes_putU16 (UInt16.ofNat v.length)).seq (writes_emit v)
  have hbad : Oversized (tooLarge "string field exceeds 64KiB") := Or.inl rfl
  refine (h.guard (v.length > 0xffff) hbad).congr ?_
  simp [StrFits]

theorem reads_readStr {v : Bytes} (hv : StrFits v) : Reads readStr (strBytes v) v := by
  refine (reads_readU16 _).bind ?_
  have hlen : (UInt16.ofNat v.length).toNat = v.length := by
    unfold StrFits at hv
    rw [UInt16.toNat_ofNat']
    omega
  rw [hlen]
  exact reads_take _ v

/-- The image of a key/value pair. -/
def pairBytes (kv : Bytes × Bytes) : Bytes := strBytes kv.1 ++ strBytes kv.2

def PairFits (kv : Bytes × Bytes) : Prop := StrFits kv.1 ∧ StrFits kv.2

instance (kv : Bytes × Bytes) : Decidable (PairFits kv) := inferInstanceAs (Decidable (_ ∧ _))

theorem writes_putPair (kv : Bytes × Bytes) :
    Writes Oversized (putPair kv) (PairFits kv) (pairBytes kv) :=
  (writes_putStr kv.1).seq (writes_putStr kv.2)

theorem writes_pairs (items : List (Bytes × Bytes)) :
    Writes Oversized (items.forM putPair) (∀ kv ∈ items, PairFits kv)
      (items.flatMap pairBytes) :=
  Writes.forM (fun kv _ => writes_putPair kv)

/-- A loop over counted pairs folds their effects. -/
theorem reads_pairs {σ : Type} (f : σ → Bytes × Bytes → σ) {items : List (Bytes × Bytes)}
    (hfit : ∀ kv ∈ items, PairFits kv) (s : σ) :
    Reads (times (fun m => do
        let k ← readStr
        let v ← readStr
        return f m (k, v)) items.length s)
      (items.flatMap pairBytes) (items.foldl f s) := by
  refine Reads.times ?_ s
  intro t kv hkv
  obtain ⟨hk, hv⟩ := hfit kv hkv
  refine (reads_readStr hk).bind ?_
  exact (reads_readStr hv).bindPure (fun v => f t (kv.1, v))

/-! ## User metadata and the first-class section -/

structure UserMetaFits (m : SortedMap Bytes Bytes) : Prop where
  count : m.entries.length ≤ 0xffff
  entries : ∀ kv ∈ m.entries, PairFits kv

def userMetaBytes (m : SortedMap Bytes Bytes) : Bytes :=
  leBytes 2 (UInt16.ofNat m.entries.length).toNat ++ m.entries.flatMap pairBytes

theorem writes_putUserMeta (m : SortedMap Bytes Bytes) :
    Writes Oversized (putUserMeta m) (UserMetaFits m) (userMetaBytes m) := by
  have h := (writes_putU16 (UInt16.ofNat m.entries.length)).seq (writes_pairs m.entries)
  have hbad : Oversized (tooLarge "too many user metadata entries") := Or.inr rfl
  refine (h.guard (m.entries.length > 0xffff) hbad).congr ?_
  constructor
  · rintro ⟨hn, -, he⟩
    exact ⟨by omega, he⟩
  · rintro ⟨hn, he⟩
    exact ⟨by omega, trivial, he⟩

theorem reads_readUserMeta {m : SortedMap Bytes Bytes} (hm : UserMetaFits m) :
    Reads readUserMeta (userMetaBytes m) m := by
  refine (reads_readU16 _).bind ?_
  have hlen : (UInt16.ofNat m.entries.length).toNat = m.entries.length := by
    have := hm.count
    rw [UInt16.toNat_ofNat']
    omega
  rw [hlen]
  have h := reads_pairs (fun (t : SortedMap Bytes Bytes) kv => t.insert kv.1 kv.2)
    hm.entries SortedMap.empty
  rwa [show m.entries.foldl (fun t kv => t.insert kv.1 kv.2) SortedMap.empty = m from
    SortedMap.insertAll_empty m] at h

/-- The bounds of the first-class metadata section. -/
structure StdMetaFits (m : ObjectMeta) : Prop where
  fields : ∀ f ∈ stdMetaFields, StrFits (f.get m)
  checksumAlgorithm : StrFits m.checksumAlgorithm
  checksumValue : StrFits (resolvedChecksumValue m)
  checksumType : StrFits m.checksumType
  partSizes : StrFits (joinPartSizes m.partSizes)

def stdMetaBytes (m : ObjectMeta) : Bytes :=
  leBytes 2 (UInt16.ofNat (stdMetaEntries m).length).toNat ++ (stdMetaEntries m).flatMap pairBytes

theorem optEntry_fits {k v : Bytes} (hk : StrFits k) :
    (∀ kv ∈ optEntry k v, PairFits kv) ↔ StrFits v := by
  unfold optEntry
  split_ifs with h
  · simp [h, StrFits]
  · simp [PairFits, hk]

theorem storeKey_fits {f : StdMetaField} (hf : f ∈ stdMetaFields) : StrFits f.storeKey := by
  have h : ∀ g ∈ stdMetaFields.map (·.storeKey), StrFits g := by decide
  exact h _ (List.mem_map_of_mem hf)

theorem stdMetaEntries_fit (m : ObjectMeta) :
    (∀ kv ∈ stdMetaEntries m, PairFits kv) ↔ StdMetaFits m := by
  have hparts : (if m.partSizes = [] then [] else [(ascii "part_sizes", joinPartSizes m.partSizes)])
      = optEntry (ascii "part_sizes") (joinPartSizes m.partSizes) := by
    simp only [optEntry, joinPartSizes_eq_nil]
  have hfields : (∀ kv ∈ stdMetaFields.flatMap (fun f => optEntry f.storeKey (f.get m)),
      PairFits kv) ↔ ∀ f ∈ stdMetaFields, StrFits (f.get m) := by
    rw [List.forall_mem_flatMap]
    exact forall₂_congr (fun f hf => optEntry_fits (storeKey_fits hf))
  unfold stdMetaEntries extraMetaEntries
  rw [hparts]
  simp only [List.forall_mem_append, hfields]
  rw [optEntry_fits (by decide), optEntry_fits (by decide), optEntry_fits (by decide),
    optEntry_fits (by decide)]
  constructor
  · rintro ⟨h1, ⟨⟨h2, h3⟩, h4⟩, h5⟩
    exact ⟨h1, h2, h3, h4, h5⟩
  · rintro ⟨h1, h2, h3, h4, h5⟩
    exact ⟨h1, ⟨⟨h2, h3⟩, h4⟩, h5⟩

theorem writes_putStdMeta (m : ObjectMeta) :
    Writes Oversized (putStdMeta m) (StdMetaFits m) (stdMetaBytes m) := by
  have h := (writes_putU16 (UInt16.ofNat (stdMetaEntries m).length)).seq
    (writes_pairs (stdMetaEntries m))
  refine h.congr ?_
  rw [true_and, stdMetaEntries_fit]

theorem optEntry_length (k v : Bytes) : (optEntry k v).length ≤ 1 := by
  unfold optEntry
  split_ifs <;> simp

theorem stdMetaEntries_length (m : ObjectMeta) : (stdMetaEntries m).length ≤ 11 := by
  have hlast : (if m.partSizes = [] then []
      else [(ascii "part_sizes", joinPartSizes m.partSizes)]).length ≤ 1 := by
    split_ifs <;> simp
  have h1 := optEntry_length (ascii "checksum_algorithm") m.checksumAlgorithm
  have h2 := optEntry_length (ascii "checksum_value") (resolvedChecksumValue m)
  have h3 := optEntry_length (ascii "checksum_type") m.checksumType
  have hfields : ∀ fs : List StdMetaField,
      (fs.flatMap (fun f => optEntry f.storeKey (f.get m))).length ≤ fs.length := by
    intro fs
    induction fs with
    | nil => simp
    | cons f fs ih =>
        have hf := optEntry_length f.storeKey (f.get m)
        simp only [List.flatMap_cons, List.length_append, List.length_cons]
        omega
  have h7 := hfields stdMetaFields
  have hseven : stdMetaFields.length = 7 := rfl
  simp only [stdMetaEntries, extraMetaEntries, List.length_append]
  omega

/-- The record with the first-class section of another one. -/
def ObjectMeta.withStd (base m : ObjectMeta) : ObjectMeta :=
  { base with
    cacheControl := m.cacheControl
    contentDisposition := m.contentDisposition
    contentEncoding := m.contentEncoding
    contentLanguage := m.contentLanguage
    expires := m.expires
    websiteRedirect := m.websiteRedirect
    tagging := m.tagging
    checksumAlgorithm := m.checksumAlgorithm
    checksumValue := resolvedChecksumValue m
    checksumType := m.checksumType
    partSizes := m.partSizes }

theorem foldl_optEntry (set : ObjectMeta → Bytes → ObjectMeta) {m : ObjectMeta} {k v : Bytes}
    (hset : applyStdEntry m (k, v) = set m v) (hempty : set m [] = m) :
    (optEntry k v).foldl applyStdEntry m = set m v := by
  unfold optEntry
  split_ifs with h
  · rw [h, hempty]
    rfl
  · exact hset

/-- A row of the table reads back what it stores and is the identity on an empty value. -/
structure StdMetaField.Lawful (f : StdMetaField) : Prop where
  apply_eq : ∀ m v, applyStdEntry m (f.storeKey, v) = f.set m v
  set_nil : ∀ m, f.get m = [] → f.set m [] = m

theorem stdMetaFields_lawful : ∀ f ∈ stdMetaFields, f.Lawful := by
  simp only [stdMetaFields, List.forall_mem_cons, List.not_mem_nil, false_implies,
    implies_true, and_true]
  refine ⟨⟨fun _ _ => rfl, ?_⟩, ⟨fun _ _ => rfl, ?_⟩, ⟨fun _ _ => rfl, ?_⟩, ⟨fun _ _ => rfl, ?_⟩,
    ⟨fun _ _ => rfl, ?_⟩, ⟨fun _ _ => rfl, ?_⟩, ⟨fun _ _ => rfl, ?_⟩⟩ <;>
  · intro m hm
    simp only [← hm]

/-- No row touches the member of a later one. -/
theorem stdMetaFields_independent :
    stdMetaFields.Pairwise (fun g f => ∀ m v, f.get (g.set m v) = f.get m) := by
  simp [stdMetaFields]

theorem foldl_fieldEntries (m : ObjectMeta) {fs : List StdMetaField} (hl : ∀ f ∈ fs, f.Lawful)
    (hp : fs.Pairwise (fun g f => ∀ m v, f.get (g.set m v) = f.get m)) (base : ObjectMeta)
    (hbase : ∀ f ∈ fs, f.get base = []) :
    (fs.flatMap (fun f => optEntry f.storeKey (f.get m))).foldl applyStdEntry base =
      fs.foldl (fun b f => f.set b (f.get m)) base := by
  induction fs generalizing base with
  | nil => rfl
  | cons f fs ih =>
      obtain ⟨hf, hl⟩ := List.forall_mem_cons.mp hl
      obtain ⟨hind, hp⟩ := List.pairwise_cons.mp hp
      obtain ⟨hfb, hbase⟩ := List.forall_mem_cons.mp hbase
      rw [List.flatMap_cons, List.foldl_append, List.foldl_cons,
        foldl_optEntry f.set (hf.apply_eq base _) (hf.set_nil base hfb)]
      refine ih hl hp _ ?_
      intro g hg
      rw [hind g hg, hbase g hg]

theorem foldl_extraMetaEntries (m b : ObjectMeta) (h1 : b.checksumAlgorithm = [])
    (h2 : b.checksumValue = []) (h3 : b.checksumType = []) (h4 : b.partSizes = []) :
    (extraMetaEntries m).foldl applyStdEntry b =
      { b with
        checksumAlgorithm := m.checksumAlgorithm
        checksumValue := resolvedChecksumValue m
        checksumType := m.checksumType
        partSizes := m.partSizes } := by
  have e1 (b : ObjectMeta) (h : b.checksumAlgorithm = []) (v : Bytes) :
      (optEntry (ascii "checksum_algorithm") v).foldl applyStdEntry b =
        { b with checksumAlgorithm := v } :=
    foldl_optEntry (fun b v => { b with checksumAlgorithm := v }) rfl (by simp only [← h])
  have e2 (b : ObjectMeta) (h : b.checksumValue = []) (v : Bytes) :
      (optEntry (ascii "checksum_value") v).foldl applyStdEntry b = { b with checksumValue := v } :=
    foldl_optEntry (fun b v => { b with checksumValue := v }) rfl (by simp only [← h])
  have e3 (b : ObjectMeta) (h : b.checksumType = []) (v : Bytes) :
      (optEntry (ascii "checksum_type") v).foldl applyStdEntry b = { b with checksumType := v } :=
    foldl_optEntry (fun b v => { b with checksumType := v }) rfl (by simp only [← h])
  have e4 (b : ObjectMeta) (h : b.partSizes = []) (sizes : List UInt64) :
      (if sizes = [] then [] else [(ascii "part_sizes", joinPartSizes sizes)]).foldl
        applyStdEntry b = { b with partSizes := sizes } := by
    split_ifs with hs
    · rw [hs, ← h]
      rfl
    · have happly : applyStdEntry b (ascii "part_sizes", joinPartSizes sizes) =
          { b with partSizes := parsePartSizes (joinPartSizes sizes) } := rfl
      rw [List.foldl_cons, List.foldl_nil, happly, parsePartSizes_join]
  unfold extraMetaEntries
  rw [List.foldl_append, List.foldl_append, List.foldl_append, e1 b h1, e2, e3, e4] <;> assumption

/-- Replaying the entries of `m` over a record with an empty section. -/
theorem foldl_stdMetaEntries (m base : ObjectMeta) (hbase : ∀ f ∈ stdMetaFields, f.get base = [])
    (h1 : base.checksumAlgorithm = []) (h2 : base.checksumValue = []) (h3 : base.checksumType = [])
    (h4 : base.partSizes = []) : (stdMetaEntries m).foldl applyStdEntry base = base.withStd m := by
  have hextra := foldl_extraMetaEntries m
    (stdMetaFields.foldl (fun (b : ObjectMeta) (f : StdMetaField) => f.set b (f.get m)) base)
    h1 h2 h3 h4
  unfold stdMetaEntries
  rw [List.foldl_append,
    foldl_fieldEntries m stdMetaFields_lawful stdMetaFields_independent base hbase, hextra]
  rfl

theorem reads_readStdMeta {m base : ObjectMeta} (hm : StdMetaFits m)
    (hbase : ∀ f ∈ stdMetaFields, f.get base = []) (h1 : base.checksumAlgorithm = [])
    (h2 : base.checksumValue = []) (h3 : base.checksumType = []) (h4 : base.partSizes = []) :
    Reads (readStdMeta base) (stdMetaBytes m) (base.withStd m) := by
  refine (reads_readU16 _).bind ?_
  have hlen : (UInt16.ofNat (stdMetaEntries m).length).toNat = (stdMetaEntries m).length := by
    have := stdMetaEntries_length m
    rw [UInt16.toNat_ofNat']
    omega
  rw [hlen, ← foldl_stdMetaEntries m base hbase h1 h2 h3 h4]
  exact reads_pairs applyStdEntry ((stdMetaEntries_fit m).mpr hm) base

/-! ## Extent runs -/

/-- Chunks and rados objects start at offset 0. -/
def OffsetsZero (extents : List Extent) : Prop :=
  ∀ e ∈ extents, e.kind ≠ .pack → e.offset = 0

instance (extents : List Extent) : Decidable (OffsetsZero extents) :=
  inferInstanceAs (Decidable (∀ e ∈ extents, _))

/-- What the merge loop keeps true of every run. -/
structure Run.WellFormed (r : Run) : Prop where
  count_eq : r.count.toNat = r.crcs.length
  nonempty : r.crcs ≠ []
  pack_single : r.kind = .pack → r.crcs.length = 1

/-- The extents a reader expands a run to. -/
def Run.extents (r : Run) : List Extent :=
  expandRun r.kind r.firstId r.count r.chunkLen r.lastLen r.packOffset r.crcs

theorem Run.extents_length (r : Run) : r.extents.length = r.crcs.length := by
  simp [Run.extents, expandRun]

theorem Run.single_wellFormed (e : Extent) : (Run.single e).WellFormed :=
  ⟨rfl, by simp [Run.single], fun _ => rfl⟩

variable {r : Run} {e : Extent} {runs : List Run}

theorem Run.single_extents (h : e.kind ≠ .pack → e.offset = 0) : (Run.single e).extents = [e] := by
  simp only [Run.extents, Run.single, expandRun, List.mapIdx_cons, List.mapIdx_nil]
  by_cases hk : e.kind = .pack
  · simp [hk.symm]
  · simp [hk, (h hk).symm]

theorem Run.extend_wellFormed (hr : r.WellFormed) (ha : r.accepts e = true)
    (hlen : r.crcs.length + 1 < 2 ^ 32) : (r.extend e).WellFormed := by
  simp only [Run.accepts, Bool.and_eq_true, decide_eq_true_eq] at ha
  refine ⟨?_, by simp [Run.extend], ?_⟩
  · have h := hr.count_eq
    simp only [Run.extend, UInt32.toNat_add, h, List.length_append, List.length_singleton]
    exact Nat.mod_eq_of_lt hlen
  · intro hk
    exact absurd (ha.1.1.1.1.symm.trans hk) ha.1.1.1.2

theorem Run.extend_extents (hr : r.WellFormed) (ha : r.accepts e = true)
    (hlen : r.crcs.length + 1 < 2 ^ 32) : (r.extend e).extents = r.extents ++ [e] := by
  have hw := (Run.extend_wellFormed hr ha hlen).count_eq
  simp only [Run.accepts, Bool.and_eq_true, decide_eq_true_eq] at ha
  obtain ⟨⟨⟨⟨hkind, hpack⟩, hid⟩, hoff⟩, hfull⟩ := ha
  have hcount := hr.count_eq
  have hadd : r.count.toUInt64 = UInt64.ofNat r.crcs.length := by
    apply UInt64.toNat_inj.mp
    rw [UInt32.toNat_toUInt64, UInt64.toNat_ofNat']
    omega
  have hlast : (r.count + 1).toNat = r.crcs.length + 1 := by simpa [Run.extend] using hw
  unfold Run.extents Run.extend expandRun
  rw [List.mapIdx_concat]
  congr 1
  · rw [List.mapIdx_eq_mapIdx_iff]
    intro j hj
    have h1 : j + 1 < (r.count + 1).toNat := by omega
    simp only [if_pos h1, hfull, ite_self]
  · have h1 : ¬ r.crcs.length + 1 < (r.count + 1).toNat := by omega
    simp only [if_neg h1, ← hadd, ← hid, hkind, if_neg hpack, ← hoff]

/-- The runs built so far, latest first, stand for the extents consumed so far. -/
structure Represents (runs : List Run) (extents : List Extent) : Prop where
  wellFormed : ∀ r ∈ runs, r.WellFormed
  expand : runs.reverse.flatMap Run.extents = extents

theorem Represents.crcs_length_le {extents : List Extent} (h : Represents runs extents)
    (hr : r ∈ runs) : r.crcs.length ≤ extents.length := by
  rw [← h.expand, ← r.extents_length]
  exact (List.sublist_flatten_of_mem (List.mem_map_of_mem (List.mem_reverse.mpr hr))).length_le

theorem Represents.runs_length_le {extents : List Extent} (h : Represents runs extents) :
    runs.length ≤ extents.length := by
  rw [← h.expand, ← List.length_reverse]
  have hpos : ∀ r ∈ runs.reverse, 1 ≤ r.extents.length := by
    intro r hr
    rw [r.extents_length]
    exact List.length_pos_iff.mpr (h.wellFormed r (List.mem_reverse.mp hr)).nonempty
  generalize runs.reverse = rs at hpos
  induction rs with
  | nil => simp
  | cons r rs ih =>
      obtain ⟨h1, hrs⟩ := List.forall_mem_cons.mp hpos
      have h2 := ih hrs
      simp only [List.length_cons, List.flatMap_cons, List.length_append]
      omega

theorem pushExtent_represents {extents : List Extent} (h : Represents runs extents)
    (he : e.kind ≠ .pack → e.offset = 0) (hlen : extents.length + 1 < 2 ^ 32) :
    Represents (pushExtent runs e) (extents ++ [e]) := by
  have hnew (rs : List Run) (hrs : Represents rs extents) :
      Represents (Run.single e :: rs) (extents ++ [e]) := by
    refine ⟨List.forall_mem_cons.mpr ⟨Run.single_wellFormed e, hrs.wellFormed⟩, ?_⟩
    simp [hrs.expand, Run.single_extents he]
  unfold pushExtent
  cases runs with
  | nil => exact hnew [] h
  | cons r rest =>
      by_cases ha : r.accepts e = true
      · have hr := h.wellFormed r List.mem_cons_self
        have hbound : r.crcs.length + 1 < 2 ^ 32 := by
          have := h.crcs_length_le List.mem_cons_self
          omega
        simp only [if_pos ha]
        refine ⟨List.forall_mem_cons.mpr ⟨Run.extend_wellFormed hr ha hbound,
          (List.forall_mem_cons.mp h.wellFormed).2⟩, ?_⟩
        have hexp := h.expand
        simp only [List.reverse_cons, List.flatMap_append, List.flatMap_singleton] at hexp ⊢
        rw [Run.extend_extents hr ha hbound, ← List.append_assoc, hexp]
      · simp only [if_neg ha]
        exact hnew (r :: rest) h

/-- The merge loop loses nothing: its runs expand to the extent array. -/
theorem foldl_pushExtent_represents {extents : List Extent} (hz : OffsetsZero extents)
    (hlen : extents.length < 2 ^ 32) : Represents (extents.foldl pushExtent []) extents := by
  induction extents using List.reverseRecOn with
  | nil => exact ⟨by simp, rfl⟩
  | append_singleton es e ih =>
      rw [List.foldl_append, List.foldl_cons, List.foldl_nil]
      rw [List.length_append, List.length_singleton] at hlen
      have hes : OffsetsZero es := fun x hx => hz x (List.mem_append_left [e] hx)
      refine pushExtent_represents (ih hes (by omega)) ?_ hlen
      exact hz e (List.mem_append_right es List.mem_cons_self)

def crcBytes (crcs : List UInt32) : Bytes := crcs.flatMap (fun c => leBytes 4 c.toNat)

theorem crcBytes_length (crcs : List UInt32) : (crcBytes crcs).length = crcs.length * 4 := by
  induction crcs with
  | nil => rfl
  | cons c crcs ih =>
      simp only [crcBytes, List.flatMap_cons, List.length_append, leBytes_length] at ih ⊢
      rw [ih, List.length_cons]
      omega

def runTail (r : Run) : Bytes :=
  leBytes 8 r.chunkLen.toNat ++ (leBytes 8 r.lastLen.toNat ++
    (leBytes 8 r.packOffset.toNat ++ crcBytes r.crcs))

def runBytes (r : Run) : Bytes :=
  leBytes 1 r.kind.toByte.toNat ++ (leBytes 8 r.firstId.toNat ++
    (leBytes 4 r.count.toNat ++ runTail r))

def runsBytes (extents : List Extent) : Bytes :=
  leBytes 4 (UInt32.ofNat (extentRuns extents).length).toNat ++
    (extentRuns extents).flatMap runBytes

theorem writes_putRun (r : Run) : Writes Oversized (putRun r) True (runBytes r) := by
  have hcrcs : Writes Oversized (r.crcs.forM putU32) (∀ c ∈ r.crcs, True) (crcBytes r.crcs) :=
    Writes.forM (fun c _ => writes_putU32 c)
  have h := (writes_putU8 r.kind.toByte).seq ((writes_putU64 r.firstId).seq
    ((writes_putU32 r.count).seq ((writes_putU64 r.chunkLen).seq
      ((writes_putU64 r.lastLen).seq ((writes_putU64 r.packOffset).seq hcrcs)))))
  exact h.congr (by simp)

/-- The run section is written for every extent array. -/
theorem writes_appendExtentRuns (extents : List Extent) :
    Writes Oversized (appendExtentRuns extents) True (runsBytes extents) := by
  have hruns : Writes Oversized ((extentRuns extents).forM putRun)
      (∀ r ∈ extentRuns extents, True) ((extentRuns extents).flatMap runBytes) :=
    Writes.forM (fun r _ => writes_putRun r)
  exact ((writes_putU32 _).seq hruns).congr (by simp)

theorem reads_readKind (k : ExtentKind) : Reads readKind (leBytes 1 k.toByte.toNat) k := by
  have h : Reads (readU8 >>= fun b => (if b = 0 then pure .chunk else if b = 1 then pure .pack
      else if b = 2 then pure .rados else throw (corrupt "unknown extent kind") :
        Decoder ExtentKind)) (leBytes 1 k.toByte.toNat ++ []) k := by
    refine (reads_readU8 k.toByte).bind ?_
    cases k <;> exact Reads.pure _
  rwa [List.append_nil] at h

theorem reads_crcs (crcs : List UInt32) :
    Reads (times (fun cs => do return cs ++ [← readU32]) crcs.length []) (crcBytes crcs) crcs := by
  have h : Reads (times (fun cs => do return cs ++ [← readU32]) crcs.length []) (crcBytes crcs)
      (crcs.foldl (fun cs c => cs ++ [c]) []) :=
    Reads.times (fun cs c _ => (reads_readU32 c).bindPure (fun c => cs ++ [c])) []
  rwa [List.foldl_append_eq_append, ← List.flatMap_def, List.flatMap_singleton',
    List.nil_append] at h

theorem reads_readRun (hr : r.WellFormed) (out : List Extent) :
    Reads (readRun out) (runBytes r) (out ++ r.extents) := by
  have hcount := hr.count_eq
  have hpos := List.length_pos_iff.mpr hr.nonempty
  have hzero : ¬ r.count = 0 := by
    intro h
    rw [h] at hcount
    have : (0 : UInt32).toNat = 0 := rfl
    omega
  have hpack : ¬ (r.kind = .pack ∧ r.count ≠ 1) := by
    rintro ⟨hk, hc⟩
    apply hc
    apply UInt32.toNat_inj.mp
    rw [hcount, hr.pack_single hk]
    rfl
  refine (reads_readKind r.kind).bind ?_
  refine (reads_readU64 r.firstId).bind ?_
  refine (reads_readU32 r.count).bind ?_
  refine (reads_reject _ hzero).bindNil ?_
  refine (reads_reject _ hpack).bindNil ?_
  refine Reads.atLeast ?_ ?_
  · refine (reads_readU64 r.chunkLen).bind ?_
    refine (reads_readU64 r.lastLen).bind ?_
    refine (reads_readU64 r.packOffset).bind ?_
    rw [hcount]
    exact (reads_crcs r.crcs).bindPure _
  · simp only [runTail, List.length_append, leBytes_length, crcBytes_length]
    omega

theorem runBytes_length (r : Run) : (runBytes r).length = 37 + r.crcs.length * 4 := by
  simp only [runBytes, runTail, List.length_append, leBytes_length, crcBytes_length]
  omega

theorem runs_payload_length (runs : List Run) :
    runs.length * 33 ≤ (runs.flatMap runBytes).length := by
  induction runs with
  | nil => simp
  | cons r runs ih =>
      simp only [List.flatMap_cons, List.length_append, List.length_cons, runBytes_length]
      omega

theorem extentRuns_represents {extents : List Extent} (hz : OffsetsZero extents)
    (hlen : extents.length < 2 ^ 32) :
    (∀ r ∈ extentRuns extents, r.WellFormed) ∧
      (extentRuns extents).flatMap Run.extents = extents ∧
        (extentRuns extents).length < 2 ^ 32 := by
  have h := foldl_pushExtent_represents hz hlen
  have hle := h.runs_length_le
  refine ⟨fun r hr => h.wellFormed r (List.mem_reverse.mp hr), h.expand, ?_⟩
  rw [extentRuns, List.length_reverse]
  omega

theorem reads_readExtentRuns {extents : List Extent} (hz : OffsetsZero extents)
    (hlen : extents.length < 2 ^ 32) : Reads readExtentRuns (runsBytes extents) extents := by
  obtain ⟨hwf, hexp, hruns⟩ := extentRuns_represents hz hlen
  have hn : (UInt32.ofNat (extentRuns extents).length).toNat = (extentRuns extents).length := by
    rw [UInt32.toNat_ofNat']
    exact Nat.mod_eq_of_lt hruns
  refine (reads_readU32 _).bind ?_
  rw [hn]
  refine Reads.atLeast ?_ (runs_payload_length _)
  have h := Reads.times (f := fun out r => out ++ r.extents)
    (fun out r hr => reads_readRun (hwf r hr) out) []
  rwa [List.foldl_append_eq_append, ← List.flatMap_def, hexp, List.nil_append] at h

end Lights3
