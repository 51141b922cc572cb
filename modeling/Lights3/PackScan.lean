import Lights3.RocksStore
import Lights3.Lib.Results

/-!
# The sequential scan of a pack file

`FsDataStore::rewrite_pack` parses a pack record by record and hands the records
to the migration callback in batches. The fields of a header are taken as they
are in the file; the bound check adds them in 64-bit arithmetic.
-/
namespace Lights3
open ByteString

/-- The bytes of a file from `off` on, when it is long enough. -/
def sliceOf (file : Bytes) (off len : Nat) : Option Bytes :=
  if off + len ≤ file.length then some ((file.drop off).take len) else none

def kPackMagic : Bytes := ascii "LP3R"

/-- `kPackHeaderFixed`: magic, version, flags, header length, payload length,
checksum and owner length. -/
def kPackHeaderFixed : Nat := 4 + 1 + 1 + 2 + 8 + 4 + 2

/-- `UInt64.toNat_ofNat_of_lt'` with the bound as a power. -/
theorem toNat_ofNat_of_lt {n : Nat} (h : n < 2 ^ 64) : (UInt64.ofNat n).toNat = n :=
  UInt64.toNat_ofNat_of_lt' h

/-- `PackScanRecord`. -/
structure PackScanRecord where
  owner : Bytes
  source : Extent
  payload : Bytes

/-- The length fields of a header with the offset it was read at. -/
structure PackHeader where
  off : UInt64
  headerLen : UInt64
  payloadLen : UInt64
  crc : UInt32
  ownerLen : UInt64

/-- Why a scan stops; `lengthError` is the exception of a `resize` beyond the
largest vector. -/
inductive ScanEnd where
  | endOfFile | torn | corrupt | lengthError
  deriving DecidableEq

def kMigrateBatchRecs : Nat := 64
def kMigrateBatchBytes : Nat := 4 * 2 ^ 20

/-- The largest size of a byte vector. -/
def kMaxVector : Nat := 2 ^ 63 - 1

/-- The variables of the scan, the batches handed to the callback, and the headers
whose record was found to lie in the file. -/
structure PackScan where
  off : UInt64 := 0
  scanned : Nat := 0
  corrupt : Nat := 0
  batch : List PackScanRecord := []
  batchBytes : Nat := 0
  flushed : List (List PackScanRecord) := []
  attempts : List PackHeader := []

/-- `pread_upto`. -/
def preadUpto (file : Bytes) (n off : Nat) : Bytes := (file.drop off).take n

/-- `get_le`. -/
def getLe (s : Bytes) (i n : Nat) : Nat := Wire.leNat ((s.drop i).take n)

/-- The fields of the fixed part of a header. -/
def parseHeader (off : UInt64) (hdr : Bytes) : PackHeader where
  off
  headerLen := UInt64.ofNat (getLe hdr 6 2)
  payloadLen := UInt64.ofNat (getLe hdr 8 8)
  crc := UInt32.ofNat (getLe hdr 16 4)
  ownerLen := UInt64.ofNat (getLe hdr 20 2)

namespace PackScan

/-- `flush_batch`. -/
def flushBatch (s : PackScan) : PackScan :=
  if s.batch = [] then s
  else { s with flushed := s.flushed ++ [s.batch], batch := [], batchBytes := 0 }

/-- Add a record to the batch, which is flushed when it is large enough. -/
def push (s : PackScan) (r : PackScanRecord) : PackScan :=
  let s := { s with batch := s.batch ++ [r], batchBytes := s.batchBytes + r.payload.length }
  if s.batch.length ≥ kMigrateBatchRecs ∨ s.batchBytes ≥ kMigrateBatchBytes then s.flushBatch
  else s

/-- The body of the loop behind a header that passed the bound check. -/
def readRecord (packId : UInt64) (file : Bytes) (h : PackHeader) (s : PackScan) :
    PackScan × Option ScanEnd :=
  let owner := preadUpto file h.ownerLen.toNat (h.off.toNat + kPackHeaderFixed)
  if owner.length < h.ownerLen.toNat then (s, some .torn)
  else if h.payloadLen.toNat > kMaxVector then (s, some .lengthError)
  else
    let payload := preadUpto file h.payloadLen.toNat (h.off + h.headerLen).toNat
    if payload.length < h.payloadLen.toNat then (s, some .torn)
    else
      let next := h.off + (h.headerLen + h.payloadLen)
      if crc32cUpdate 0 payload ≠ h.crc then
        ({ s with corrupt := s.corrupt + 1, off := next }, none)
      else
        let source : Extent := ⟨.pack, packId, h.off + h.headerLen, h.payloadLen, h.crc⟩
        ({ ({ s with scanned := s.scanned + 1 } : PackScan).push ⟨owner, source, payload⟩ with
            off := next }, none)

/-- One iteration of the loop of `rewrite_pack`. -/
def step (packId : UInt64) (file : Bytes) (s : PackScan) : PackScan × Option ScanEnd :=
  let fileSize := UInt64.ofNat file.length
  if s.off + UInt64.ofNat kPackHeaderFixed ≤ fileSize then
    let hdr := preadUpto file kPackHeaderFixed s.off.toNat
    if hdr.length < kPackHeaderFixed then (s, some .endOfFile)
    else if hdr.take 4 ≠ kPackMagic ∨ (hdr.drop 4).take 1 ≠ [1] then
      ({ s with corrupt := s.corrupt + 1 }, some .corrupt)
    else
      let h := parseHeader s.off hdr
      if h.headerLen ≠ UInt64.ofNat kPackHeaderFixed + h.ownerLen then
        ({ s with corrupt := s.corrupt + 1 }, some .corrupt)
      else if s.off + h.headerLen + h.payloadLen > fileSize then (s, some .torn)
      else readRecord packId file h { s with attempts := s.attempts ++ [h] }
  else (s, some .endOfFile)

/-- The loop with a bound on its iterations; `none` is the bound running out. -/
def loop (packId : UInt64) (file : Bytes) : Nat → PackScan → PackScan × Option ScanEnd
  | 0, s => (s, none)
  | fuel + 1, s =>
      match s.step packId file with
      | (s, some e) => (s, some e)
      | (s, none) => loop packId file fuel s

end PackScan

/-- `FsDataStore::rewrite_pack` with a migration callback: the last batch is
flushed unless an exception ends the scan. -/
def rewritePack (packId : UInt64) (file : Bytes) : PackScan × Option ScanEnd :=
  let (s, e) := PackScan.loop packId file (file.length + 1) {}
  if e = some .lengthError then (s, e) else (s.flushBatch, e)

/-! ## What the scan touches -/

/-- The end of a header's record, without wrapping. -/
def PackHeader.stop (h : PackHeader) : Nat :=
  h.off.toNat + h.headerLen.toNat + h.payloadLen.toNat

/-- The record of a header lies in the file. -/
def PackHeader.Inside (h : PackHeader) (file : Bytes) : Prop := h.stop ≤ file.length

/-- A delivered record is a slice of the file with the checksum of its header. -/
def PackScanRecord.Found (r : PackScanRecord) (packId : UInt64) (file : Bytes) : Prop :=
  r.source.kind = .pack ∧ r.source.fileId = packId ∧
    sliceOf file r.source.offset.toNat r.source.length.toNat = some r.payload ∧
    crc32cUpdate 0 r.payload = r.source.crc32c

/-- The scan is total: it ends at the end of the file, at a torn tail or at counted
corruption, attempts records inside the file only, and everything it found has
been handed to the callback. -/
structure PackScan.Total (packId : UInt64) (file : Bytes) (out : PackScan × Option ScanEnd) :
    Prop where
  ends : out.2 = some .endOfFile ∨ out.2 = some .torn ∨
    (out.2 = some .corrupt ∧ 0 < out.1.corrupt)
  inside : ∀ h ∈ out.1.attempts, h.Inside file
  found : ∀ r ∈ out.1.flushed.flatten, r.Found packId file
  delivered : out.1.batch = [] ∧ out.1.flushed.flatten.length = out.1.scanned

namespace PackScan

variable {packId : UInt64} {file : Bytes} {s : PackScan}

theorem getLe_lt (hdr : Bytes) (i n : Nat) : getLe hdr i n < 256 ^ n := by
  refine (Wire.leNat_lt _).trans_le (Nat.pow_le_pow_right (by decide) ?_)
  rw [List.length_take]
  exact Nat.min_le_left _ _

/-! ## The headers of a file -/

/-- The lengths of the header and the payload that a well-formed header at the offset gives: it lies
in the file, has the magic and the version, and is as long as its owner needs. -/
def headerAt (file : Bytes) (off : Nat) : Option (Nat × Nat) :=
  let field i n := Wire.leNat ((file.drop (off + i)).take n)
  if off + 22 ≤ file.length ∧ (file.drop off).take 5 = ascii "LP3R" ++ [1] ∧
      field 6 2 = 22 + field 20 2 then some (field 6 2, field 8 8)
  else none

/-- Following the headers whose records lie in the file leads from one offset to another. -/
inductive Reaches (file : Bytes) : Nat → Nat → Prop where
  | here (off : Nat) : Reaches file off off
  | next {off len payload target : Nat} (header : headerAt file off = some (len, payload))
      (inside : off + len + payload ≤ file.length)
      (rest : Reaches file (off + len + payload) target) : Reaches file off target

/-- The record at the offset ends beyond `2 ^ 64`, and in 64 bits its end is in the file. -/
def Wraps (file : Bytes) (off : Nat) : Prop :=
  ∃ len payload, headerAt file off = some (len, payload) ∧ 2 ^ 64 ≤ off + len + payload ∧
    off + len + payload ≤ 2 ^ 64 + file.length

/-- Following the headers comes to one that wraps. -/
def MeetsWrap (file : Bytes) (start : Nat) : Prop := ∃ off, Reaches file start off ∧ Wraps file off

theorem getLe_preadUpto (file : Bytes) (off : Nat) {i n : Nat} (h : i + n ≤ kPackHeaderFixed) :
    getLe (preadUpto file kPackHeaderFixed off) i n =
      Wire.leNat ((file.drop (off + i)).take n) := by
  rw [getLe, preadUpto, List.drop_take, List.drop_drop, List.take_take, Nat.min_eq_left (by omega)]

theorem magic_iff (file : Bytes) (off : Nat) :
    ((preadUpto file kPackHeaderFixed off).take 4 = kPackMagic ∧
      ((preadUpto file kPackHeaderFixed off).drop 4).take 1 = [1]) ↔
    (file.drop off).take 5 = ascii "LP3R" ++ [1] := by
  have hsplit : (file.drop off).take 5 =
      (preadUpto file kPackHeaderFixed off).take 4 ++
        ((preadUpto file kPackHeaderFixed off).drop 4).take 1 := by
    rw [preadUpto, ← List.take_add, List.take_take]
    rfl
  rw [hsplit]
  refine ⟨fun h => congrArg₂ (· ++ ·) h.1 h.2, fun h => ?_⟩
  refine List.append_inj' h ?_
  have hlen := congrArg List.length h
  simp only [List.length_append, List.length_take, List.length_drop] at hlen ⊢
  have hascii : (ascii "LP3R").length = 4 := rfl
  rw [hascii] at hlen
  simp only [List.length_singleton] at hlen ⊢
  omega

theorem headerLen_eq_iff (off : UInt64) (hdr : Bytes) :
    (parseHeader off hdr).headerLen =
        UInt64.ofNat kPackHeaderFixed + (parseHeader off hdr).ownerLen ↔
      (parseHeader off hdr).headerLen.toNat = 22 + (parseHeader off hdr).ownerLen.toNat := by
  have hsmall : (parseHeader off hdr).ownerLen.toNat < 256 ^ 2 :=
    (Nat.mod_le _ _).trans_lt (getLe_lt hdr 20 2)
  have hfixed : (UInt64.ofNat kPackHeaderFixed).toNat = 22 := rfl
  rw [← UInt64.toNat_inj, UInt64.toNat_add, hfixed, Nat.mod_eq_of_lt (by omega)]

variable {off : UInt64} {h : PackHeader}

/-- The loop reads the header at its offset. -/
theorem headerAt_eq (hroom : off.toNat + 22 ≤ file.length) :
    let hdr := preadUpto file kPackHeaderFixed off.toNat
    let h := parseHeader off hdr
    headerAt file off.toNat =
      if hdr.take 4 ≠ kPackMagic ∨ (hdr.drop 4).take 1 ≠ [1] then none
      else if h.headerLen ≠ UInt64.ofNat kPackHeaderFixed + h.ownerLen then none
      else some (h.headerLen.toNat, h.payloadLen.toNat) := by
  intro hdr h
  have hlt i : getLe hdr i 2 < 2 ^ 64 := (getLe_lt hdr i 2).trans (by decide)
  have hheader : h.headerLen.toNat = Wire.leNat ((file.drop (off.toNat + 6)).take 2) := by
    rw [← getLe_preadUpto file off.toNat (by decide)]
    exact toNat_ofNat_of_lt (hlt 6)
  have howner : h.ownerLen.toNat = Wire.leNat ((file.drop (off.toNat + 20)).take 2) := by
    rw [← getLe_preadUpto file off.toNat (by decide)]
    exact toNat_ofNat_of_lt (hlt 20)
  have hpayload : h.payloadLen.toNat = Wire.leNat ((file.drop (off.toNat + 8)).take 8) := by
    rw [← getLe_preadUpto file off.toNat (by decide)]
    exact toNat_ofNat_of_lt (getLe_lt hdr 8 8)
  simp only [headerAt, hroom, true_and, ← magic_iff, ← hheader, ← hpayload, ← howner,
    ← headerLen_eq_iff off hdr, ← and_assoc, h, hdr]
  split_ifs <;> simp_all

/-- What is known of a header whose record is attempted. -/
structure Attempted (file : Bytes) (off : UInt64) (h : PackHeader) : Prop where
  off_eq : h.off = off
  off_le : off.toNat ≤ file.length
  header : headerAt file off.toNat = some (h.headerLen.toNat, h.payloadLen.toNat)
  owner : h.headerLen.toNat = 22 + h.ownerLen.toNat
  bound : h.stop % 2 ^ 64 ≤ file.length

/-- A well-formed header is at least as long as its fixed part. -/
theorem headerAt_bounds {off len payload : Nat} (h : headerAt file off = some (len, payload)) :
    22 ≤ len ∧ len < 2 ^ 17 := by
  simp only [headerAt, Option.ite_none_right_eq_some, Option.some.injEq, Prod.mk.injEq] at h
  obtain ⟨⟨-, -, hlen⟩, rfl, -⟩ := h
  have hlt := Wire.leNat_lt ((file.drop (off + 6)).take 2)
  have hle : 256 ^ ((file.drop (off + 6)).take 2).length ≤ 256 ^ 2 :=
    Nat.pow_le_pow_right (by decide) (List.length_take_le _ _)
  omega

/-- No record is attempted at the offset: there is no header, or the record ends behind the file. -/
def Blocked (file : Bytes) (off : Nat) : Prop :=
  ∀ len payload, headerAt file off = some (len, payload) →
    file.length < (off + len + payload) % 2 ^ 64

theorem Blocked.not_wraps {off target : Nat} (h : Blocked file off) (hfile : file.length < 2 ^ 63)
    (hr : Reaches file off target) : ¬ Wraps file target := by
  cases hr with
  | here =>
      rintro ⟨len, payload, hheader, hge, hle⟩
      have := h len payload hheader
      omega
  | next hheader hin _ =>
      have := h _ _ hheader
      omega

theorem room_iff (hfile : file.length < 2 ^ 63) (hoff : off.toNat ≤ file.length) :
    off + UInt64.ofNat kPackHeaderFixed ≤ UInt64.ofNat file.length ↔
      off.toNat + 22 ≤ file.length := by
  have hfixed : (UInt64.ofNat kPackHeaderFixed).toNat = 22 := rfl
  rw [UInt64.le_iff_toNat_le, UInt64.toNat_add, hfixed, toNat_ofNat_of_lt (by omega),
    Nat.mod_eq_of_lt (by omega)]

/-- What one iteration can do. -/
theorem step_cases (hfile : file.length < 2 ^ 63) (hoff : s.off.toNat ≤ file.length) :
    (∃ e, (e = .endOfFile ∨ e = .torn) ∧ Blocked file s.off.toNat ∧
        s.step packId file = (s, some e)) ∨
      (Blocked file s.off.toNat ∧
        s.step packId file = ({ s with corrupt := s.corrupt + 1 }, some .corrupt)) ∨
      ∃ h, Attempted file s.off h ∧ s.step packId file =
        readRecord packId file h { s with attempts := s.attempts ++ [h] } := by
  have hroom := room_iff hfile hoff
  unfold step
  simp only
  by_cases h1 : s.off + UInt64.ofNat kPackHeaderFixed ≤ UInt64.ofNat file.length
  · have hheader := headerAt_eq (hroom.mp h1)
    have hfull : ¬ (preadUpto file kPackHeaderFixed s.off.toNat).length < kPackHeaderFixed := by
      have hle := hroom.mp h1
      rw [preadUpto, List.length_take, List.length_drop]
      unfold kPackHeaderFixed
      omega
    rw [if_pos h1, if_neg hfull]
    dsimp only at hheader
    split_ifs at hheader ⊢ with h2 h3 h4
    · exact .inr (.inl ⟨by simp [Blocked, hheader], rfl⟩)
    · exact .inr (.inl ⟨by simp [Blocked, hheader], rfl⟩)
    all_goals
      rw [gt_iff_lt, UInt64.lt_iff_toNat_lt, UInt64.toNat_add, UInt64.toNat_add,
        toNat_ofNat_of_lt (by omega), Nat.mod_add_mod] at h4
    · refine .inl ⟨_, .inr rfl, fun len payload h => ?_, rfl⟩
      rw [hheader, Option.some.injEq, Prod.mk.injEq] at h
      obtain ⟨rfl, rfl⟩ := h
      exact h4
    · exact .inr (.inr
        ⟨_, ⟨rfl, hoff, hheader, (headerLen_eq_iff ..).mp (not_not.mp h3), not_lt.mp h4⟩, rfl⟩)
  · rw [if_neg h1]
    refine .inl ⟨_, .inl rfl, fun len payload h => ?_, rfl⟩
    simp only [headerAt, Option.ite_none_right_eq_some] at h
    exact absurd (hroom.mpr h.1.1) h1

/-- What reading an attempted record can do. A record that is read lies in the
file. -/
theorem readRecord_cases (packId : UInt64) (s : PackScan) (hfile : file.length < 2 ^ 63)
    (ha : Attempted file off h) :
    (readRecord packId file h s = (s, some .torn) ∧ 2 ^ 64 ≤ h.stop) ∨
      (readRecord packId file h s = (s, some .lengthError) ∧ 2 ^ 64 ≤ h.stop) ∨
      (h.stop ≤ file.length ∧ ∃ next : UInt64, next.toNat = h.stop ∧
        (readRecord packId file h s = ({ s with corrupt := s.corrupt + 1, off := next }, none) ∨
          ∃ r : PackScanRecord, r.Found packId file ∧ readRecord packId file h s =
            ({ ({ s with scanned := s.scanned + 1 } : PackScan).push r with off := next },
              none))) := by
  obtain ⟨hoffEq, hoff, hheader, howner, hbound⟩ := ha
  obtain ⟨hge, hlt⟩ := headerAt_bounds hheader
  have hwrap : 2 ^ 64 ≤ h.stop ∨ h.stop ≤ file.length := by
    by_cases hw : 2 ^ 64 ≤ h.stop
    · exact Or.inl hw
    · rw [Nat.mod_eq_of_lt (by omega)] at hbound
      exact Or.inr hbound
  have hbase : (h.off + h.headerLen).toNat = h.off.toNat + h.headerLen.toNat := by
    rw [UInt64.toNat_add, Nat.mod_eq_of_lt]
    rw [hoffEq]
    omega
  have hstop : h.stop = h.off.toNat + h.headerLen.toNat + h.payloadLen.toNat := rfl
  rw [hoffEq] at hstop
  unfold readRecord
  simp only
  split_ifs with h1 h2 h3 h4
  · refine Or.inl ⟨rfl, hwrap.resolve_right (fun hin => ?_)⟩
    rw [preadUpto, List.length_take, List.length_drop, hoffEq, kPackHeaderFixed] at h1
    omega
  · refine Or.inr (Or.inl ⟨rfl, hwrap.resolve_right (fun hin => ?_)⟩)
    unfold kMaxVector at h2
    omega
  · refine Or.inl ⟨rfl, hwrap.resolve_right (fun hin => ?_)⟩
    rw [preadUpto, List.length_take, List.length_drop, hbase, hoffEq] at h3
    omega
  all_goals
    have hlen : (preadUpto file h.payloadLen.toNat (h.off + h.headerLen).toNat).length =
        min h.payloadLen.toNat (file.length - (h.off.toNat + h.headerLen.toNat)) := by
      rw [preadUpto, List.length_take, List.length_drop, hbase]
    have hin : h.stop ≤ file.length := by
      refine hwrap.resolve_left (fun hw => h3 ?_)
      rw [hlen]
      omega
    have hnext : (h.off + (h.headerLen + h.payloadLen)).toNat = h.stop := by
      rw [UInt64.toNat_add, UInt64.toNat_add, hoffEq]
      omega
    refine Or.inr (Or.inr ⟨hin, h.off + (h.headerLen + h.payloadLen), hnext, ?_⟩)
  · exact Or.inl rfl
  · refine Or.inr ⟨_, ⟨rfl, rfl, ?_, not_not.mp h4⟩, rfl⟩
    show sliceOf file (h.off + h.headerLen).toNat h.payloadLen.toNat = some _
    unfold sliceOf preadUpto
    rw [if_pos]
    rw [hbase, hoffEq]
    omega

/-! ## Runs -/

/-- The records found so far, handed over or still in the batch. -/
def records (s : PackScan) : List PackScanRecord := s.flushed.flatten ++ s.batch

theorem records_flushBatch (s : PackScan) : s.flushBatch.records = s.records := by
  unfold flushBatch
  split_ifs with h
  · rfl
  · simp [records]

theorem records_push (s : PackScan) (r : PackScanRecord) :
    (s.push r).records = s.records ++ [r] := by
  unfold push
  simp only
  split_ifs
  · rw [records_flushBatch]
    simp [records]
  · simp [records]

theorem batch_flushBatch (s : PackScan) : s.flushBatch.batch = [] := by
  unfold flushBatch
  split_ifs with h
  · exact h
  · rfl

/-- After a flush the callback has everything. -/
theorem flushed_flushBatch (s : PackScan) : s.flushBatch.flushed.flatten = s.records := by
  rw [← records_flushBatch, records, batch_flushBatch, List.append_nil]

theorem flushBatch_frame (s : PackScan) : s.flushBatch.scanned = s.scanned ∧
    s.flushBatch.corrupt = s.corrupt ∧ s.flushBatch.attempts = s.attempts := by
  unfold flushBatch
  split_ifs <;> exact ⟨rfl, rfl, rfl⟩

theorem push_frame (s : PackScan) (r : PackScanRecord) : (s.push r).scanned = s.scanned ∧
    (s.push r).corrupt = s.corrupt ∧ (s.push r).attempts = s.attempts := by
  unfold push
  simp only
  split_ifs
  · exact flushBatch_frame _
  · exact ⟨rfl, rfl, rfl⟩

/-- What holds before each iteration. -/
structure Inv (packId : UInt64) (file : Bytes) (s : PackScan) : Prop where
  off_le : s.off.toNat ≤ file.length
  inside : ∀ h ∈ s.attempts, h.Inside file
  found : ∀ r ∈ s.records, r.Found packId file
  counted : s.records.length = s.scanned

/-- What holds when a scan stops that has been at the offset `start`: it attempts a record that
leaves the file exactly if it comes to a header that wraps, and an exception comes from such a
header. -/
structure Stopped (packId : UInt64) (file : Bytes) (start : Nat) (s : PackScan) (e : ScanEnd) :
    Prop where
  inside : (∀ h ∈ s.attempts, h.Inside file) ∨ MeetsWrap file start
  outside : MeetsWrap file start → ∃ h ∈ s.attempts, ¬ h.Inside file
  found : ∀ r ∈ s.records, r.Found packId file
  counted : s.records.length = s.scanned
  corrupt : e = .corrupt → 0 < s.corrupt
  lengthError : e = .lengthError → MeetsWrap file start

theorem Inv.blocked (hinv : s.Inv packId file) (hfile : file.length < 2 ^ 63) {start corrupt : Nat}
    {e : ScanEnd} (hb : Blocked file start) (he : e = .corrupt → 0 < corrupt)
    (hne : e ≠ .lengthError) : Stopped packId file start { s with corrupt } e where
  inside := .inl hinv.inside
  outside := fun ⟨_, hr, hw⟩ => absurd hw (hb.not_wraps hfile hr)
  found := hinv.found
  counted := hinv.counted
  corrupt := he
  lengthError h := absurd h hne

/-- A header that is attempted wraps, or its record lies in the file and the scan goes on behind
it. -/
theorem Attempted.wraps_or (hfile : file.length < 2 ^ 63) (ha : Attempted file off h) :
    (Wraps file off.toNat ∧ ¬ h.Inside file) ∨
      (h.Inside file ∧ ¬ Wraps file off.toNat ∧
        ∀ target, Reaches file h.stop target → Reaches file off.toNat target) := by
  have hbound := ha.bound
  have hheader := ha.header
  have hstop : h.stop = off.toNat + h.headerLen.toNat + h.payloadLen.toNat := by
    rw [← ha.off_eq]
    rfl
  obtain ⟨-, hlen⟩ := headerAt_bounds hheader
  have hoff := ha.off_le
  have hpayload := h.payloadLen.toNat_lt
  unfold PackHeader.Inside
  by_cases hw : 2 ^ 64 ≤ h.stop
  · refine .inl ⟨⟨_, _, hheader, ?_, ?_⟩, ?_⟩ <;> omega
  · rw [Nat.mod_eq_of_lt (by omega)] at hbound
    refine .inr ⟨hbound, ?_, fun target hr => .next hheader (hstop ▸ hbound) (hstop ▸ hr)⟩
    rintro ⟨len, payload, hsame, hge, -⟩
    rw [hheader, Option.some.injEq, Prod.mk.injEq] at hsame
    obtain ⟨rfl, rfl⟩ := hsame
    omega

/-- The headers that are reached from an attempted one are itself and those behind its record. -/
theorem Attempted.reaches_cases (ha : Attempted file off h) {target : Nat}
    (hr : Reaches file off.toNat target) : target = off.toNat ∨ Reaches file h.stop target := by
  cases hr with
  | here => exact .inl rfl
  | next hheader _ hrest =>
      rw [ha.header, Option.some.injEq, Prod.mk.injEq] at hheader
      obtain ⟨rfl, rfl⟩ := hheader
      rw [PackHeader.stop, ha.off_eq]
      exact .inr hrest

/-- One iteration: the scan moves ahead to the next header or stops. -/
theorem Inv.step (hinv : s.Inv packId file) (hfile : file.length < 2 ^ 63) :
    (∃ s', s.step packId file = (s', none) ∧ s'.Inv packId file ∧ s.off.toNat < s'.off.toNat ∧
        (MeetsWrap file s.off.toNat ↔ MeetsWrap file s'.off.toNat)) ∨
      ∃ s' e, s.step packId file = (s', some e) ∧ Stopped packId file s.off.toNat s' e := by
  rcases step_cases hfile hinv.off_le with ⟨e, he, hb, hstep⟩ | ⟨hb, hstep⟩ | ⟨h, ha, hstep⟩
  · refine .inr ⟨s, e, hstep, hinv.blocked hfile hb ?_ ?_⟩ <;>
    · rintro rfl
      simp at he
  · exact .inr ⟨_, _, hstep, hinv.blocked hfile hb (fun _ => Nat.succ_pos _) (by simp)⟩
  · rw [hstep]
    have hreads := readRecord_cases packId { s with attempts := s.attempts ++ [h] } hfile ha
    have hmem : h ∈ s.attempts ++ [h] := List.mem_append_right _ (List.mem_singleton.mpr rfl)
    rcases ha.wraps_or hfile with ⟨hw, hout⟩ | ⟨hin, hnot, hreach⟩
    · -- The scan stops at a header that wraps.
      have hstopped e (he : e ≠ .corrupt) :
          Stopped packId file s.off.toNat { s with attempts := s.attempts ++ [h] } e :=
        ⟨.inr ⟨_, .here _, hw⟩, fun _ => ⟨h, hmem, hout⟩, hinv.found, hinv.counted,
          fun hc => absurd hc he, fun _ => ⟨_, .here _, hw⟩⟩
      rcases hreads with ⟨heq, -⟩ | ⟨heq, -⟩ | ⟨hin, -⟩
      · exact .inr ⟨_, _, heq, hstopped _ (by simp)⟩
      · exact .inr ⟨_, _, heq, hstopped _ (by simp)⟩
      · exact absurd hin hout
    · have hinside : ∀ x ∈ s.attempts ++ [h], x.Inside file := by
        intro x hx
        rcases List.mem_append.mp hx with hx | hx
        · exact hinv.inside x hx
        · rw [List.mem_singleton.mp hx]
          exact hin
      have hnext : MeetsWrap file s.off.toNat ↔ MeetsWrap file h.stop := by
        refine ⟨fun ⟨off, hr, hw⟩ => ?_, fun ⟨off, hr, hw⟩ => ⟨off, hreach off hr, hw⟩⟩
        rcases ha.reaches_cases hr with rfl | hr
        · exact absurd hw hnot
        · exact ⟨off, hr, hw⟩
      have hmoves : s.off.toNat < h.stop := by
        have hge := (headerAt_bounds ha.header).1
        rw [PackHeader.stop, ha.off_eq]
        omega
      unfold PackHeader.Inside at hin
      rcases hreads with ⟨-, hw⟩ | ⟨-, hw⟩ | ⟨-, next, hstop, hcase⟩
      · omega
      · omega
      · rw [← hstop] at hnext hmoves
        left
        rcases hcase with heq | ⟨r, hr, heq⟩
        · exact ⟨_, heq, ⟨hstop ▸ hin, hinside, hinv.found, hinv.counted⟩, hmoves, hnext⟩
        · obtain ⟨hscanned, -, hattempts⟩ := push_frame ({ s with
            attempts := s.attempts ++ [h]
            scanned := s.scanned + 1 }) r
          have hrecords := records_push ({ s with
            attempts := s.attempts ++ [h]
            scanned := s.scanned + 1 }) r
          refine ⟨_, heq, ⟨hstop ▸ hin, ?_, ?_, ?_⟩, hmoves, hnext⟩
          · show ∀ x ∈ (push _ r).attempts, _
            rw [hattempts]
            exact hinside
          · show ∀ x ∈ (push _ r).records, _
            rw [hrecords]
            intro x hx
            rcases List.mem_append.mp hx with hx | hx
            · exact hinv.found x hx
            · rw [List.mem_singleton.mp hx]
              exact hr
          · show (push _ r).records.length = (push _ r).scanned
            rw [hrecords, hscanned, List.length_append]
            exact congrArg (· + 1) hinv.counted

/-- The bound on the iterations never runs out: every iteration moves ahead. -/
theorem Inv.loop (hfile : file.length < 2 ^ 63) (fuel : Nat) (hinv : s.Inv packId file)
    (hfuel : file.length - s.off.toNat < fuel) :
    ∃ s' e, loop packId file fuel s = (s', some e) ∧
      Stopped packId file s.off.toNat s' e := by
  induction fuel generalizing s with
  | zero => omega
  | succ fuel ih =>
      unfold PackScan.loop
      rcases hinv.step hfile with ⟨s', hstep, hinv', hlt, hnext⟩ | ⟨s', e, hstep, hstop⟩
      · simp only [hstep]
        have := hinv'.off_le
        obtain ⟨s'', e, hloop, hstop⟩ := ih hinv' (by omega)
        exact ⟨s'', e, hloop, hstop.inside.imp_right hnext.mpr, fun h => hstop.outside (hnext.mp h),
          hstop.found, hstop.counted, hstop.corrupt, fun he => hnext.mpr (hstop.lengthError he)⟩
      · simp only [hstep]
        exact ⟨s', e, rfl, hstop⟩

theorem inv_initial (packId : UInt64) (file : Bytes) : Inv packId file {} where
  off_le := Nat.zero_le _
  inside := nofun
  found := nofun
  counted := rfl

end PackScan

/-- The scan of a pack file is total exactly when no header that following the records from the
start of the file comes to makes the bound check wrap around. -/
theorem rewritePack_total (packId : UInt64) (file : Bytes) (hfile : file.length < 2 ^ 63) :
    PackScan.Total packId file (rewritePack packId file) ↔
      ∀ off, PackScan.Reaches file 0 off → ¬ PackScan.Wraps file off := by
  obtain ⟨s, e, hloop, hstop⟩ :=
    (PackScan.inv_initial packId file).loop hfile (file.length + 1) (by simp)
  obtain ⟨hscanned, hcorrupt, hattempts⟩ := PackScan.flushBatch_frame s
  have hrecords := PackScan.flushed_flushBatch s
  have hout : rewritePack packId file =
      if some e = some .lengthError then (s, some e) else (s.flushBatch, some e) := by
    unfold rewritePack
    rw [hloop]
  rw [hout]
  constructor
  · intro htotal off hr hw
    obtain ⟨h, hh, hnot⟩ := hstop.outside ⟨off, hr, hw⟩
    refine hnot (htotal.inside h ?_)
    split_ifs
    · exact hh
    · exact hattempts ▸ hh
  · intro hall
    have hnone : ¬ PackScan.MeetsWrap file 0 := fun ⟨off, hr, hw⟩ => hall off hr hw
    have he : e ≠ .lengthError := fun he => hnone (hstop.lengthError he)
    rw [if_neg (fun h => he (Option.some.inj h))]
    refine ⟨?_, fun h hh => ?_, ?_, PackScan.batch_flushBatch s, ?_⟩
    · cases e with
      | endOfFile => exact Or.inl rfl
      | torn => exact Or.inr (Or.inl rfl)
      | corrupt => exact Or.inr (Or.inr ⟨rfl, hcorrupt ▸ hstop.corrupt rfl⟩)
      | lengthError => exact absurd rfl he
    · exact hstop.inside.resolve_right hnone h (hattempts ▸ hh)
    · simp only [hrecords]
      exact hstop.found
    · simp only [hrecords, hscanned]
      exact hstop.counted

/-- A pack file of one record with owner `b`, a NUL and `k` and the payload `hi`. -/
def onePack : Bytes :=
  kPackMagic ++ [1, 0, 25, 0, 2, 0, 0, 0, 0, 0, 0, 0] ++
    Wire.leBytes 4 (crc32cUpdate 0 (ascii "hi")).toNat ++ [3, 0, 98, 0, 107] ++ ascii "hi"

theorem rewritePack_total_onePack :
    PackScan.Total 7 onePack (rewritePack 7 onePack) ∧
      ((rewritePack 7 onePack).1.flushed.flatten.map (·.payload)) = [ascii "hi"] := by
  have hfirst : PackScan.headerAt onePack 0 = some (25, 2) := by decide +kernel
  have hlast : PackScan.headerAt onePack 27 = none := by decide +kernel
  refine ⟨(rewritePack_total 7 onePack (by decide +kernel)).mpr ?_, by decide +kernel⟩
  rintro off hr ⟨len, payload, hheader, hge, -⟩
  cases hr with
  | here =>
      rw [hfirst, Option.some.injEq, Prod.mk.injEq] at hheader
      omega
  | next hstart _ hrest =>
      rw [hfirst, Option.some.injEq, Prod.mk.injEq] at hstart
      obtain ⟨rfl, rfl⟩ := hstart
      cases hrest with
      | here => cases hlast.symm.trans hheader
      | next hnone => cases hlast.symm.trans hnone

/-- A bare header whose payload length makes the record end at 2 ^ 64. -/
def wrappingPack : Bytes :=
  kPackMagic ++ [1, 0, 22, 0, 0xea, 0xff, 0xff, 0xff, 0xff, 0xff, 0xff, 0xff, 0, 0, 0, 0, 0, 0]

/-- The record passes the bound check, and the scan ends with an exception. -/
theorem wrappingPack_throws :
    (rewritePack 7 wrappingPack).2 = some .lengthError ∧
      (∃ h ∈ (rewritePack 7 wrappingPack).1.attempts, ¬ h.Inside wrappingPack) ∧
      ¬ PackScan.Total 7 wrappingPack (rewritePack 7 wrappingPack) := by
  have hend : (rewritePack 7 wrappingPack).2 = some .lengthError := by decide +kernel
  have hout : ∃ h ∈ (rewritePack 7 wrappingPack).1.attempts, ¬ h.Inside wrappingPack := by
    unfold PackHeader.Inside
    decide +kernel
  exact ⟨hend, hout, fun h => by
    obtain ⟨x, hx, hnot⟩ := hout
    exact hnot (h.inside x hx)⟩

/-! ## Scanning what was appended -/

/-- A field of a byte string behind the fields before it. -/
theorem getLe_append (pre rest : Bytes) {i : Nat} (hi : pre.length = i) (n v : Nat) :
    getLe (pre ++ (Wire.leBytes n v ++ rest)) i n = v % 256 ^ n := by
  unfold getLe
  rw [List.drop_left' hi, List.take_left' (Wire.leBytes_length n v), Wire.leNat_leBytes]

/-- The fixed part of a header. -/
def fixedHeader (headerLen len crc ownerLen : Nat) : Bytes :=
  kPackMagic ++ ([1, 0] ++ (Wire.leBytes 2 headerLen ++ (Wire.leBytes 8 len ++
    (Wire.leBytes 4 crc ++ (Wire.leBytes 2 ownerLen ++ [])))))

theorem fixedHeader_length (headerLen len crc ownerLen : Nat) :
    (fixedHeader headerLen len crc ownerLen).length = kPackHeaderFixed := by
  simp only [fixedHeader, List.length_append, Wire.leBytes_length, List.length_cons,
    List.length_nil]
  rfl

/-- The fields read from a fixed part are those it was written from. -/
theorem parseHeader_fixed (off : UInt64) (headerLen ownerLen len : Nat) (crc : UInt32)
    (hh : headerLen ≤ 0xffff) (ho : ownerLen ≤ 0xffff) :
    parseHeader off (fixedHeader headerLen len crc.toNat ownerLen) =
      ⟨off, UInt64.ofNat headerLen, UInt64.ofNat len, crc, UInt64.ofNat ownerLen⟩ := by
  have hfields : getLe (fixedHeader headerLen len crc.toNat ownerLen) 6 2 = headerLen ∧
      getLe (fixedHeader headerLen len crc.toNat ownerLen) 8 8 = len % 256 ^ 8 ∧
      getLe (fixedHeader headerLen len crc.toNat ownerLen) 16 4 = crc.toNat ∧
      getLe (fixedHeader headerLen len crc.toNat ownerLen) 20 2 = ownerLen := by
    have hcrc := crc.toNat_lt
    refine ⟨?_, ?_, ?_, ?_⟩
    · have h := getLe_append (kPackMagic ++ [1, 0]) (Wire.leBytes 8 len ++
        (Wire.leBytes 4 crc.toNat ++ (Wire.leBytes 2 ownerLen ++ []))) rfl 2 headerLen
      rw [Nat.mod_eq_of_lt (by omega), List.append_assoc] at h
      exact h
    · have h := getLe_append (kPackMagic ++ ([1, 0] ++ Wire.leBytes 2 headerLen))
        (Wire.leBytes 4 crc.toNat ++ (Wire.leBytes 2 ownerLen ++ [])) (i := 8)
        (by simp [kPackMagic, ascii]) 8 len
      simpa only [fixedHeader, List.append_assoc] using h
    · have h := getLe_append (kPackMagic ++ ([1, 0] ++ (Wire.leBytes 2 headerLen ++
        Wire.leBytes 8 len))) (Wire.leBytes 2 ownerLen ++ []) (i := 16)
        (by simp [kPackMagic, ascii]) 4 crc.toNat
      rw [Nat.mod_eq_of_lt (by omega)] at h
      simpa only [fixedHeader, List.append_assoc] using h
    · have h := getLe_append (kPackMagic ++ ([1, 0] ++ (Wire.leBytes 2 headerLen ++
        (Wire.leBytes 8 len ++ Wire.leBytes 4 crc.toNat)))) [] (i := 20)
        (by simp [kPackMagic, ascii]) 2 ownerLen
      rw [Nat.mod_eq_of_lt (by omega)] at h
      simpa only [fixedHeader, List.append_assoc] using h
  obtain ⟨h1, h2, h3, h4⟩ := hfields
  have hlen : UInt64.ofNat (len % 256 ^ 8) = UInt64.ofNat len := by
    apply UInt64.toNat_inj.mp
    rw [UInt64.toNat_ofNat', UInt64.toNat_ofNat']
    omega
  unfold parseHeader
  rw [h1, h2, h3, h4, UInt32.ofNat_toNat, hlen]

/-- A record as it is appended. -/
structure PackRecord where
  owner : Bytes
  payload : Bytes
  owner_le : kPackHeaderFixed + owner.length ≤ 0xffff

namespace PackRecord

def headerLen (r : PackRecord) : Nat := kPackHeaderFixed + r.owner.length

/-- The header before the owner. -/
def fixed (r : PackRecord) : Bytes :=
  fixedHeader r.headerLen r.payload.length (crc32cUpdate 0 r.payload).toNat r.owner.length

/-- Header and payload. -/
def bytes (r : PackRecord) : Bytes := r.fixed ++ (r.owner ++ r.payload)

def size (r : PackRecord) : Nat := r.headerLen + r.payload.length

theorem length_header (r : PackRecord) : (r.fixed ++ r.owner).length = r.headerLen := by
  rw [List.length_append, fixed, fixedHeader_length, headerLen]

theorem length_bytes (r : PackRecord) : r.bytes.length = r.size := by
  rw [bytes, ← List.append_assoc, List.length_append, length_header, size]

/-- The header of a record that starts at `off`, as the scan reads it. -/
def headerAt (r : PackRecord) (off : Nat) : PackHeader :=
  ⟨UInt64.ofNat off, UInt64.ofNat r.headerLen, UInt64.ofNat r.payload.length,
    crc32cUpdate 0 r.payload, UInt64.ofNat r.owner.length⟩

/-- What the scan hands over for a record that starts at `off`. -/
def scanned (packId : UInt64) (off : Nat) (r : PackRecord) : PackScanRecord :=
  ⟨r.owner, ⟨.pack, packId, UInt64.ofNat (off + r.headerLen), UInt64.ofNat r.payload.length,
    crc32cUpdate 0 r.payload⟩, r.payload⟩

/-- The records of a file one after the other. -/
def scannedFrom (packId : UInt64) : Nat → List PackRecord → List PackScanRecord
  | _, [] => []
  | off, r :: rs => r.scanned packId off :: scannedFrom packId (off + r.size) rs

end PackRecord

/-- A file of records. -/
def packBytes (rs : List PackRecord) : Bytes := (rs.map PackRecord.bytes).flatten

@[simp] theorem packBytes_nil : packBytes [] = [] := rfl

@[simp] theorem packBytes_cons (r : PackRecord) (rs : List PackRecord) :
    packBytes (r :: rs) = r.bytes ++ packBytes rs := rfl

/-- Where the payload of a record ends in the file. -/
def PackScanRecord.stop (r : PackScanRecord) : Nat := r.source.offset.toNat + r.source.length.toNat

namespace PackRecord

theorem stop_scanned (packId : UInt64) {off : Nat} (r : PackRecord) (h : off + r.size < 2 ^ 63) :
    (r.scanned packId off).stop = off + r.size := by
  have hsize : r.size = r.headerLen + r.payload.length := rfl
  simp only [PackScanRecord.stop, scanned]
  rw [toNat_ofNat_of_lt (by omega), toNat_ofNat_of_lt (by omega)]
  omega

/-- No record of a file ends before the first one does. -/
theorem stop_scannedFrom (packId : UInt64) {off : Nat} (r : PackRecord) (rs : List PackRecord)
    (h : off + (r.size + (packBytes rs).length) < 2 ^ 63) {x : PackScanRecord}
    (hx : x ∈ scannedFrom packId off (r :: rs)) : off + r.size ≤ x.stop := by
  induction rs generalizing r off with
  | nil =>
      obtain rfl := List.mem_singleton.mp hx
      exact (stop_scanned packId r (by omega)).ge
  | cons r' rs ih =>
      rw [packBytes_cons, List.length_append, r'.length_bytes] at h
      rcases List.mem_cons.mp hx with rfl | hx
      · exact (stop_scanned packId r (by omega)).ge
      · have := ih r' (by omega) hx
        omega

end PackRecord

namespace PackScan

variable {packId : UInt64} {s : PackScan}

/-- What the scan does at the header of an appended record: the record is read when
the file reaches its end, and is a torn tail otherwise. -/
theorem step_header (packId : UInt64) (file : Bytes) (r : PackRecord) (off : Nat)
    (hfile : file.length < 2 ^ 63) (hsize : off + r.size < 2 ^ 63)
    (hfixed : preadUpto file kPackHeaderFixed off = r.fixed) (hoff : s.off = UInt64.ofNat off) :
    s.step packId file = if file.length < off + r.size then (s, some .torn)
      else readRecord packId file (r.headerAt off)
        { s with attempts := s.attempts ++ [r.headerAt off] } := by
  have howner := r.owner_le
  have hrec : r.size = r.headerLen + r.payload.length := rfl
  have hhead : r.headerLen = kPackHeaderFixed + r.owner.length := rfl
  have hroom : off + kPackHeaderFixed ≤ file.length := by
    have hlen := congrArg List.length hfixed
    rw [preadUpto, List.length_take, List.length_drop, PackRecord.fixed, fixedHeader_length] at hlen
    unfold kPackHeaderFixed at hlen ⊢
    omega
  have hsum (a b : Nat) : UInt64.ofNat a + UInt64.ofNat b = UInt64.ofNat (a + b) :=
    (UInt64.ofNat_add a b).symm
  have hparse := parseHeader_fixed (UInt64.ofNat off) r.headerLen r.owner.length
    r.payload.length (crc32cUpdate 0 r.payload) howner (by omega)
  have hend : (UInt64.ofNat (off + r.headerLen + r.payload.length) > UInt64.ofNat file.length) =
      (file.length < off + r.size) := by
    rw [gt_iff_lt, UInt64.lt_iff_toNat_lt, toNat_ofNat_of_lt (by omega),
      toNat_ofNat_of_lt (by omega), hrec, Nat.add_assoc]
  unfold step
  simp only [hoff, toNat_ofNat_of_lt (show off < 2 ^ 64 by omega), hsum, hfixed, PackRecord.fixed,
    fixedHeader_length, hparse, hend]
  rw [if_pos, if_neg (lt_irrefl _), if_neg, if_neg]
  · rfl
  · exact not_not.mpr rfl
  · rw [not_or, not_not, not_not]
    exact ⟨rfl, rfl⟩
  · rw [UInt64.le_iff_toNat_le, toNat_ofNat_of_lt (by omega), toNat_ofNat_of_lt (by omega)]
    exact hroom

/-- The scan takes an appended record whole. -/
theorem step_record (packId : UInt64) (pre : Bytes) (r : PackRecord) (post : Bytes)
    (hfile : (pre ++ (r.bytes ++ post)).length < 2 ^ 63) (hoff : s.off = UInt64.ofNat pre.length) :
    ∃ h : PackHeader, s.step packId (pre ++ (r.bytes ++ post)) =
      ({ ({ s with attempts := s.attempts ++ [h], scanned := s.scanned + 1 } : PackScan).push
          (r.scanned packId pre.length) with
          off := UInt64.ofNat (pre.length + r.size) }, none) := by
  have howner := r.owner_le
  have hlen : (pre ++ (r.bytes ++ post)).length = pre.length + (r.size + post.length) := by
    rw [List.length_append, List.length_append, r.length_bytes]
  have hrec : r.size = r.headerLen + r.payload.length := rfl
  have hpre : (UInt64.ofNat pre.length).toNat = pre.length := toNat_ofNat_of_lt (by omega)
  have hsum (a b : Nat) : UInt64.ofNat a + UInt64.ofNat b = UInt64.ofNat (a + b) :=
    (UInt64.ofNat_add a b).symm
  have hdrop : (pre ++ (r.bytes ++ post)).drop pre.length = r.bytes ++ post :=
    List.drop_left' rfl
  have hfixed : preadUpto (pre ++ (r.bytes ++ post)) kPackHeaderFixed pre.length = r.fixed := by
    rw [preadUpto, hdrop, PackRecord.bytes, List.append_assoc]
    exact List.take_left' (fixedHeader_length ..)
  have hownerRead : preadUpto (pre ++ (r.bytes ++ post)) r.owner.length
      (pre.length + kPackHeaderFixed) = r.owner := by
    rw [preadUpto, ← List.drop_drop, hdrop, PackRecord.bytes, PackRecord.fixed, List.append_assoc,
      List.drop_left' (fixedHeader_length ..), List.append_assoc]
    exact List.take_left' rfl
  have hpayload : preadUpto (pre ++ (r.bytes ++ post)) r.payload.length
      (pre.length + r.headerLen) = r.payload := by
    rw [preadUpto, ← List.drop_drop, hdrop, PackRecord.bytes, ← List.append_assoc,
      List.append_assoc, List.drop_left' r.length_header]
    exact List.take_left' rfl
  refine ⟨r.headerAt pre.length,
    (step_header packId _ r pre.length hfile (by omega) hfixed hoff).trans ?_⟩
  rw [if_neg (by omega)]
  have hbase : pre.length + r.headerLen < 2 ^ 64 := by omega
  unfold readRecord
  simp only [PackRecord.headerAt, hpre, hsum, toNat_ofNat_of_lt hbase,
    toNat_ofNat_of_lt (show r.owner.length < 2 ^ 64 by omega),
    toNat_ofNat_of_lt (show r.payload.length < 2 ^ 64 by omega), hownerRead, hpayload]
  rw [if_neg (lt_irrefl _), if_neg, if_neg (lt_irrefl _), if_neg (not_not.mpr rfl)]
  · rfl
  · unfold kMaxVector
    omega

theorem step_end (packId : UInt64) {file : Bytes} {off : Nat} (hfile : file.length < 2 ^ 63)
    (hoff : s.off = UInt64.ofNat off) (hle : off ≤ file.length)
    (hshort : file.length < off + kPackHeaderFixed) :
    s.step packId file = (s, some .endOfFile) := by
  have hnat : s.off.toNat = off := by rw [hoff, toNat_ofNat_of_lt (by omega)]
  refine if_neg (fun h => ?_)
  rw [room_iff hfile (by omega), hnat] at h
  exact absurd hshort (Nat.not_lt.mpr h)

/-- At a record that was cut off the scan stops without counting it as corrupt. -/
theorem step_torn (packId : UInt64) (pre : Bytes) (r : PackRecord) {n : Nat} (hn : n < r.size)
    (hfile : pre.length + r.size < 2 ^ 63) (hoff : s.off = UInt64.ofNat pre.length) :
    ∃ e, (e = .endOfFile ∨ e = .torn) ∧ s.step packId (pre ++ r.bytes.take n) = (s, some e) := by
  have hlen : (pre ++ r.bytes.take n).length = pre.length + n := by
    rw [List.length_append, List.length_take, r.length_bytes, Nat.min_eq_left hn.le]
  by_cases hshort : n < kPackHeaderFixed
  · exact ⟨.endOfFile, .inl rfl, step_end packId (by omega) hoff (by omega) (by rw [hlen]; omega)⟩
  · have hfixed : preadUpto (pre ++ r.bytes.take n) kPackHeaderFixed pre.length = r.fixed := by
      rw [preadUpto, List.drop_left' rfl, List.take_take, Nat.min_eq_left (by omega),
        PackRecord.bytes]
      exact List.take_left' (fixedHeader_length ..)
    refine ⟨.torn, .inr rfl,
      (step_header packId _ r pre.length (by omega) hfile hfixed hoff).trans ?_⟩
    rw [if_pos (by omega)]

/-- The scan of appended records, cut after `n` bytes, hands over those that lie before
the cut. -/
theorem loop_records (packId : UInt64) (rs : List PackRecord) (n fuel : Nat) (pre : Bytes)
    (hfile : pre.length + (packBytes rs).length < 2 ^ 63)
    (hoff : s.off = UInt64.ofNat pre.length) (hfuel : ((packBytes rs).take n).length < fuel) :
    ∃ s' e, loop packId (pre ++ (packBytes rs).take n) fuel s = (s', some e) ∧
      (e = .endOfFile ∨ e = .torn) ∧ s'.corrupt = s.corrupt ∧
      s'.records = s.records ++ (PackRecord.scannedFrom packId pre.length rs).filter
        (fun r => r.stop ≤ pre.length + n) := by
  induction rs generalizing fuel s pre n with
  | nil =>
      obtain ⟨fuel, rfl⟩ : ∃ k, fuel = k + 1 := ⟨fuel - 1, by omega⟩
      have hempty : pre ++ (packBytes []).take n = pre := by
        rw [packBytes_nil, List.take_nil, List.append_nil]
      rw [packBytes_nil, List.length_nil, Nat.add_zero] at hfile
      have hstep := step_end packId hfile hoff le_rfl (Nat.lt_add_of_pos_right (by decide))
      refine ⟨s, .endOfFile, ?_, .inl rfl, rfl, ?_⟩
      · rw [hempty]
        unfold loop
        simp only [hstep]
      · rw [PackRecord.scannedFrom, List.filter_nil, List.append_nil]
  | cons r rs ih =>
      obtain ⟨fuel, rfl⟩ : ∃ k, fuel = k + 1 := ⟨fuel - 1, by omega⟩
      have hbytes := r.length_bytes
      have hpos : 0 < r.size := by
        unfold PackRecord.size PackRecord.headerLen kPackHeaderFixed
        omega
      rw [packBytes_cons] at hfile hfuel ⊢
      rw [List.length_append, hbytes] at hfile
      by_cases hn : n < r.size
      · -- The cut falls into this record, and no later one ends before it either.
        have hcut : (r.bytes ++ packBytes rs).take n = r.bytes.take n :=
          List.take_append_of_le_length (by omega)
        obtain ⟨e, he, hstep⟩ := step_torn packId pre r hn (by omega) hoff
        refine ⟨s, e, ?_, he, rfl, ?_⟩
        · rw [hcut]
          unfold loop
          simp only [hstep]
        · rw [List.filter_eq_nil_iff.mpr, List.append_nil]
          intro x hx
          have := PackRecord.stop_scannedFrom packId r rs (by omega) hx
          rw [decide_eq_true_eq]
          omega
      · have hcut : (r.bytes ++ packBytes rs).take n =
            r.bytes ++ (packBytes rs).take (n - r.size) := by
          rw [List.take_append, hbytes, List.take_of_length_le (by omega)]
        have hlen : (pre ++ r.bytes).length = pre.length + r.size := by
          rw [List.length_append, hbytes]
        rw [hcut] at hfuel ⊢
        rw [List.length_append, hbytes] at hfuel
        have htake := List.length_take_le (n - r.size) (packBytes rs)
        have hle := (packBytes rs).length_take_le' (n - r.size)
        obtain ⟨h, hstep⟩ := step_record packId pre r ((packBytes rs).take (n - r.size))
          (by rw [List.length_append, List.length_append, hbytes]; omega) hoff
        unfold loop
        simp only [hstep]
        rw [← List.append_assoc]
        obtain ⟨s', e, hloop, he, hcorrupt, hrecords⟩ := ih (n - r.size) fuel (pre ++ r.bytes)
          (s := { ({ s with attempts := s.attempts ++ [h], scanned := s.scanned + 1 } :
            PackScan).push (r.scanned packId pre.length) with
            off := UInt64.ofNat (pre.length + r.size) })
          (by omega) (by rw [hlen]) (by omega)
        refine ⟨s', e, hloop, he, hcorrupt.trans (push_frame _ _).2.1, hrecords.trans ?_⟩
        have hin : (r.scanned packId pre.length).stop ≤ pre.length + n := by
          rw [PackRecord.stop_scanned packId r (by omega)]
          omega
        rw [hlen, PackRecord.scannedFrom, List.filter_cons, if_pos (decide_eq_true hin),
          show pre.length + r.size + (n - r.size) = pre.length + n by omega]
        show (push _ _).records ++ _ = _
        rw [records_push, List.append_assoc]
        rfl

end PackScan

/-- What is appended is scanned back: the scan of a file of records that is cut at any
byte finds no corruption and hands over every record that lies before the cut, with
the extent that the append returned for it. -/
theorem rewritePack_records (packId : UInt64) (rs : List PackRecord) (cut : Nat)
    (hfile : (packBytes rs).length < 2 ^ 63) :
    (rewritePack packId ((packBytes rs).take cut)).2 ∈ [some .endOfFile, some .torn] ∧
      (rewritePack packId ((packBytes rs).take cut)).1.corrupt = 0 ∧
      (rewritePack packId ((packBytes rs).take cut)).1.flushed.flatten =
        (PackRecord.scannedFrom packId 0 rs).filter (fun r => r.stop ≤ cut) := by
  obtain ⟨s, e, hloop, he, hcorrupt, hrecords⟩ :=
    PackScan.loop_records packId (s := {}) rs cut _ [] (by simpa using hfile) rfl
      (Nat.lt_succ_self _)
  rw [List.nil_append] at hloop
  have hout : rewritePack packId ((packBytes rs).take cut) = (s.flushBatch, some e) := by
    unfold rewritePack
    rw [hloop]
    rcases he with rfl | rfl <;> rfl
  rw [hout]
  refine ⟨by simpa using he, (PackScan.flushBatch_frame s).2.1.trans hcorrupt, ?_⟩
  rw [PackScan.flushed_flushBatch, hrecords, List.length_nil, Nat.zero_add]
  rfl

end Lights3
