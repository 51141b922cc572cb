import Lights3.PackScan

/-!
# Appending to pack files

`FsDataStore::append_pack_records` writes every item of a call through one slot, which
it holds for the whole call; calls on different slots interleave item by item. A slot
that is full or too old is closed, and the next item opens a new pack under a fresh
id.
-/
namespace Lights3
open ByteString

/-- `build_pack_header`. -/
def buildPackHeader (owner : Bytes) (payloadLen : Nat) (crc : UInt32) : Except S3Error Bytes :=
  let headerLen := kPackHeaderFixed + owner.length
  if owner.length > 0xffff ∨ headerLen > 0xffff then
    .error ⟨.InternalError, "duostore: pack owner too long", []⟩
  else
    .ok (kPackMagic ++ [1, 0] ++ Wire.leBytes 2 headerLen ++ Wire.leBytes 8 payloadLen ++
      Wire.leBytes 4 crc.toNat ++ Wire.leBytes 2 owner.length ++ owner)

/-- The largest file offset that `pwrite` takes. -/
def kMaxOffset : Nat := 2 ^ 63 - 1

/-- `pwrite` of the whole string at an offset; the loop over short writes ends there. -/
def pwriteAt (file : Bytes) (off : Nat) (data : Bytes) : Bytes :=
  file.take off ++ List.replicate (off - file.length) 0 ++ data ++ file.drop (off + data.length)

/-- `PackAppendItem`. -/
structure PackAppendItem where
  owner : Bytes
  payload : Bytes

/-- An item with what the clock and the id allocation say when it is its turn. -/
structure AppendInput where
  item : PackAppendItem
  /-- `slot_aged`. -/
  aged : Bool := false
  /-- The next `alloc_(kPack, 1)`. -/
  newId : UInt64

/-- `ActivePack`: the file a slot appends to. -/
structure ActivePack where
  id : UInt64
  size : Nat

/-- The pack files and the slots that append to them. -/
structure PackFiles where
  files : UInt64 → Option Bytes
  slots : Nat → Option ActivePack := fun _ => none

namespace PackFiles

/-- Close the slot when the record does not fit or the pack is too old; the size guard
lets a single over-limit record have a pack of its own. -/
def rotate (maxSize : Nat) (st : PackFiles) (i : Nat) (aged : Bool) (recSize : Nat) :
    PackFiles :=
  match st.slots i with
  | some slot =>
      if slot.size > 0 ∧ (slot.size + recSize > maxSize ∨ aged = true) then
        { st with slots := Function.update st.slots i none }
      else st
  | none => st

/-- Slot `i` is open on the pack `id`, which has these contents. -/
def put (st : PackFiles) (i : Nat) (id : UInt64) (file : Bytes) (size : Nat) : PackFiles where
  files := Function.update st.files id (some file)
  slots := Function.update st.slots i (some ⟨id, size⟩)

/-- The pack the slot writes to, created with `O_EXCL` when there is none. -/
def ensureSlot (st : PackFiles) (i : Nat) (newId : UInt64) :
    Except S3Error (ActivePack × PackFiles) :=
  match st.slots i with
  | some slot => .ok (slot, st)
  | none =>
      if (st.files newId).isSome then .error ⟨.InternalError, "open pack", []⟩
      else .ok (⟨newId, 0⟩, st.put i newId [] 0)

/-- One item of `append_pack_records`. -/
def appendItem (maxSize i : Nat) (st : PackFiles) (x : AppendInput) :
    Except S3Error (Extent × PackFiles) := do
  let crc := crc32cUpdate 0 x.item.payload
  let header ← buildPackHeader x.item.owner x.item.payload.length crc
  let record := header ++ x.item.payload
  let (slot, st) ← (st.rotate maxSize i x.aged record.length).ensureSlot i x.newId
  if slot.size + record.length > kMaxOffset then
    .error ⟨.InternalError, "pwrite pack record", []⟩
  else
    let file := pwriteAt ((st.files slot.id).getD []) slot.size record
    return (⟨.pack, slot.id, UInt64.ofNat (slot.size + header.length),
        UInt64.ofNat x.item.payload.length, crc⟩,
      st.put i slot.id file (slot.size + record.length))

/-- A sequence of items, each with the slot its call holds, that are all appended. The
result lists them with the extents that were returned. -/
def appendItems (maxSize : Nat) : List (Nat × AppendInput) → PackFiles →
    Except S3Error (List PackScanRecord × PackFiles)
  | [], st => .ok ([], st)
  | (i, x) :: xs, st => do
      let (e, st) ← appendItem maxSize i st x
      let (log, st) ← appendItems maxSize xs st
      return (⟨x.item.owner, e, x.item.payload⟩ :: log, st)

end PackFiles

/-- The items of one pack, in the order they were appended. -/
def intoPack (id : UInt64) (log : List PackScanRecord) : List PackScanRecord :=
  log.filter (fun r => r.source.fileId = id)

/-- The items of a pack and its file: their extents are disjoint and denote the
payloads, and the scan of the file, whole or cut at any byte, hands over what lies
before the cut. -/
structure PackFile.RoundTrips (id : UInt64) (file : Bytes) (items : List PackScanRecord) :
    Prop where
  disjoint : items.Pairwise (fun a b => a.stop ≤ b.source.offset.toNat)
  bytes : ∀ r ∈ items, sliceOf file r.source.offset.toNat r.source.length.toNat = some r.payload
  scanned : (rewritePack id file).2 ∈ [some .endOfFile, some .torn] ∧
    (rewritePack id file).1.corrupt = 0 ∧
    (rewritePack id file).1.flushed.flatten = items
  truncated : ∀ cut, (rewritePack id (file.take cut)).2 ∈ [some .endOfFile, some .torn] ∧
    (rewritePack id (file.take cut)).1.corrupt = 0 ∧
    (rewritePack id (file.take cut)).1.flushed.flatten = items.filter (fun r => r.stop ≤ cut)

/-! ## One record -/

/-- A header is built for an owner that fits, and is that of the record. -/
theorem buildPackHeader_ok {item : PackAppendItem} {header : Bytes}
    (h : buildPackHeader item.owner item.payload.length (crc32cUpdate 0 item.payload) =
      .ok header) :
    ∃ r : PackRecord, r.owner = item.owner ∧ r.payload = item.payload ∧
      header = r.fixed ++ r.owner := by
  unfold buildPackHeader at h
  simp only at h
  split_ifs at h with hlong
  rw [not_or] at hlong
  refine ⟨⟨item.owner, item.payload, by omega⟩, rfl, rfl, ?_⟩
  rw [← Except.ok.inj h]
  simp only [PackRecord.fixed, PackRecord.headerLen, fixedHeader, List.append_assoc,
    List.nil_append]

/-- A write at the end of a file appends. -/
theorem pwriteAt_end (file data : Bytes) : pwriteAt file file.length data = file ++ data := by
  unfold pwriteAt
  rw [List.take_length, Nat.sub_self, List.replicate_zero, List.append_nil,
    List.drop_eq_nil_of_le (by omega), List.append_nil]

namespace PackRecord

variable (packId : UInt64)

theorem scannedFrom_append (rs rs' : List PackRecord) (off : Nat) :
    scannedFrom packId off (rs ++ rs') =
      scannedFrom packId off rs ++ scannedFrom packId (off + (packBytes rs).length) rs' := by
  induction rs generalizing off with
  | nil => rfl
  | cons r rs ih =>
      rw [List.cons_append, scannedFrom, scannedFrom, ih, packBytes_cons, List.length_append,
        r.length_bytes, Nat.add_assoc, List.cons_append]

theorem packBytes_append (rs rs' : List PackRecord) :
    packBytes (rs ++ rs') = packBytes rs ++ packBytes rs' := by
  unfold packBytes
  rw [List.map_append, List.flatten_append]

theorem offset_scanned {off : Nat} (r : PackRecord) (h : off + r.size < 2 ^ 63) :
    (r.scanned packId off).source.offset.toNat = off + r.headerLen := by
  have hsize : r.size = r.headerLen + r.payload.length := rfl
  exact toNat_ofNat_of_lt (by omega)

/-- No payload of a file starts before the file does. -/
theorem le_offset_scannedFrom (rs : List PackRecord) {off : Nat}
    (h : off + (packBytes rs).length < 2 ^ 63) :
    ∀ x ∈ scannedFrom packId off rs, off ≤ x.source.offset.toNat := by
  induction rs generalizing off with
  | nil => exact nofun
  | cons r rs ih =>
      rw [packBytes_cons, List.length_append, r.length_bytes] at h
      intro x hx
      rcases List.mem_cons.mp hx with rfl | hx
      · rw [offset_scanned packId r (by omega)]
        omega
      · have := ih (by omega) x hx
        omega

theorem disjoint_scannedFrom (rs : List PackRecord) {off : Nat}
    (h : off + (packBytes rs).length < 2 ^ 63) :
    (scannedFrom packId off rs).Pairwise (fun a b => a.stop ≤ b.source.offset.toNat) := by
  induction rs generalizing off with
  | nil => exact List.Pairwise.nil
  | cons r rs ih =>
      rw [packBytes_cons, List.length_append, r.length_bytes] at h
      refine List.Pairwise.cons (fun x hx => ?_) (ih (by omega))
      rw [stop_scanned packId r (by omega)]
      exact le_offset_scannedFrom packId rs (by omega) x hx

/-- The extent of a record denotes its payload. -/
theorem sliceOf_scannedFrom (rs : List PackRecord) (pre : Bytes)
    (h : pre.length + (packBytes rs).length < 2 ^ 63) :
    ∀ x ∈ scannedFrom packId pre.length rs,
      sliceOf (pre ++ packBytes rs) x.source.offset.toNat x.source.length.toNat =
        some x.payload := by
  induction rs generalizing pre with
  | nil => exact nofun
  | cons r rs ih =>
      have hlen : (pre ++ r.bytes).length = pre.length + r.size := by
        rw [List.length_append, r.length_bytes]
      have hsize : r.size = r.headerLen + r.payload.length := rfl
      rw [packBytes_cons, List.length_append, r.length_bytes] at h
      intro x hx
      rw [packBytes_cons]
      rcases List.mem_cons.mp hx with rfl | hx
      · have hpayload : (r.scanned packId pre.length).source.length.toNat = r.payload.length :=
          toNat_ofNat_of_lt (by omega)
        rw [offset_scanned packId r (by omega), hpayload, sliceOf, if_pos]
        · rw [← List.drop_drop, List.drop_left' rfl, bytes, ← List.append_assoc,
            List.append_assoc, List.drop_left' r.length_header, List.take_left' rfl]
          rfl
        · rw [List.length_append, List.length_append, r.length_bytes]
          omega
      · rw [← List.append_assoc]
        rw [← hlen] at hx
        exact ih (pre ++ r.bytes) (by omega) x hx

end PackRecord

/-- A file of appended records round-trips. -/
theorem PackFile.roundTrips_records (id : UInt64) (rs : List PackRecord)
    (h : (packBytes rs).length < 2 ^ 63) :
    PackFile.RoundTrips id (packBytes rs) (PackRecord.scannedFrom id 0 rs) := by
  have hzero : 0 + (packBytes rs).length < 2 ^ 63 := by omega
  refine ⟨PackRecord.disjoint_scannedFrom id rs hzero,
    PackRecord.sliceOf_scannedFrom id rs [] hzero, ?_, fun cut => rewritePack_records id rs cut h⟩
  have hwhole := rewritePack_records id rs (packBytes rs).length h
  rw [List.take_length, List.filter_eq_self.mpr] at hwhole
  · exact hwhole
  · intro x hx
    have hslice := PackRecord.sliceOf_scannedFrom id rs [] hzero x hx
    unfold sliceOf at hslice
    split_ifs at hslice with hle
    exact decide_eq_true hle

/-! ## Runs -/

namespace PackFiles

variable {st st' : PackFiles} {log : List PackScanRecord} {id : UInt64} {i : Nat}

/-- A pack file holds the records of its items and nothing else. -/
def Tracked (st : PackFiles) (log : List PackScanRecord) (id : UInt64) : Prop :=
  ∃ rs, st.files id = some (packBytes rs) ∧ (packBytes rs).length < 2 ^ 63 ∧
    intoPack id log = PackRecord.scannedFrom id 0 rs

/-- What holds between two items. -/
structure Inv (st : PackFiles) (log : List PackScanRecord) : Prop where
  logged : ∀ r ∈ log, st.Tracked log r.source.fileId
  slot : ∀ i a, st.slots i = some a →
    st.Tracked log a.id ∧ (st.files a.id).map List.length = some a.size
  apart : ∀ i j a b, st.slots i = some a → st.slots j = some b → a.id = b.id → i = j

/-- Closing a slot keeps the invariant. -/
theorem Inv.rotate (h : st.Inv log) (maxSize i : Nat) (aged : Bool) (recSize : Nat) :
    (st.rotate maxSize i aged recSize).Inv log := by
  have hclose : Inv { st with slots := Function.update st.slots i none } log := by
    have hold (j : Nat) (a : ActivePack)
        (ha : Function.update st.slots i none j = some a) : st.slots j = some a := by
      by_cases hj : j = i
      · rw [hj, Function.update_self] at ha
        exact absurd ha (by simp)
      · rwa [Function.update_of_ne hj] at ha
    exact ⟨h.logged, fun j a ha => h.slot j a (hold j a ha),
      fun j k a b ha hb => h.apart j k a b (hold j a ha) (hold k b hb)⟩
  unfold PackFiles.rotate
  split
  · split_ifs
    · exact hclose
    · exact h
  · exact h

theorem put_files_self (st : PackFiles) (i : Nat) (id : UInt64) (file : Bytes) (size : Nat) :
    (st.put i id file size).files id = some file :=
  Function.update_self ..

theorem put_files_of_ne (st : PackFiles) (i : Nat) {id k : UInt64} (hk : k ≠ id) (file : Bytes)
    (size : Nat) : (st.put i id file size).files k = st.files k :=
  Function.update_of_ne hk ..

/-- An open slot is the one that was set, or was open before. -/
theorem put_slots_cases {j size : Nat} {file : Bytes} {a : ActivePack}
    (ha : (st.put i id file size).slots j = some a) :
    (j = i ∧ a = ⟨id, size⟩) ∨ (j ≠ i ∧ st.slots j = some a) := by
  by_cases hj : j = i
  · subst hj
    have hself : (st.put j id file size).slots j = some ⟨id, size⟩ := Function.update_self ..
    exact Or.inl ⟨rfl, Option.some.inj (ha.symm.trans hself)⟩
  · exact Or.inr ⟨hj, (Function.update_of_ne hj ..).symm.trans ha⟩

/-- A pack that only slot `i` may be open on gets new contents and items; the others
keep theirs. -/
theorem Inv.put (h : st.Inv log) (more : List PackScanRecord) (rs : List PackRecord)
    (hown : ∀ j a, st.slots j = some a → a.id = id → j = i)
    (hmore : ∀ r ∈ more, r.source.fileId = id) (hlt : (packBytes rs).length < 2 ^ 63)
    (hinto : intoPack id log ++ more = PackRecord.scannedFrom id 0 rs) :
    (st.put i id (packBytes rs) (packBytes rs).length).Inv (log ++ more) := by
  have hself : (st.put i id (packBytes rs) (packBytes rs).length).Tracked (log ++ more) id := by
    refine ⟨rs, put_files_self .., hlt, ?_⟩
    rw [← hinto, intoPack, List.filter_append, List.filter_eq_self (l := more) |>.mpr]
    · rfl
    · exact fun r hr => decide_eq_true (hmore r hr)
  have hkeep {k : UInt64} (htracked : st.Tracked log k) :
      (st.put i id (packBytes rs) (packBytes rs).length).Tracked (log ++ more) k := by
    by_cases hk : k = id
    · rw [hk]
      exact hself
    · obtain ⟨ks, hks, hlt, hinto⟩ := htracked
      refine ⟨ks, (put_files_of_ne st i hk ..).trans hks, hlt, ?_⟩
      rw [← hinto, intoPack, List.filter_append, List.filter_eq_nil_iff (l := more) |>.mpr,
        List.append_nil, intoPack]
      intro r hr
      rw [decide_eq_true_eq, hmore r hr]
      exact Ne.symm hk
  refine ⟨fun r hr => ?_, fun j a ha => ?_, fun j k a b ha hb hab => ?_⟩
  · rcases List.mem_append.mp hr with hr | hr
    · exact hkeep (h.logged r hr)
    · rw [hmore r hr]
      exact hself
  · rcases put_slots_cases ha with ⟨-, rfl⟩ | ⟨hj, ha⟩
    · exact ⟨hself, by rw [put_files_self, Option.map_some]⟩
    · obtain ⟨htracked, hsize⟩ := h.slot j a ha
      refine ⟨hkeep htracked, ?_⟩
      rw [put_files_of_ne st i (fun hid => hj (hown j a ha hid)), hsize]
  · rcases put_slots_cases ha with ⟨hj, rfl⟩ | ⟨-, ha⟩ <;>
      rcases put_slots_cases hb with ⟨hk, rfl⟩ | ⟨-, hb⟩
    · rw [hj, hk]
    · rw [hj]
      exact (hown k b hb hab.symm).symm
    · rw [hk]
      exact hown j a ha hab
    · exact h.apart j k a b ha hb hab

/-- After `ensureSlot` the slot is open on a tracked pack. -/
theorem Inv.ensureSlot (h : st.Inv log) {newId : UInt64} {slot : ActivePack}
    (hslot : st.ensureSlot i newId = .ok (slot, st')) : st'.Inv log ∧ st'.slots i = some slot := by
  unfold PackFiles.ensureSlot at hslot
  split at hslot
  · rename_i a ha
    obtain ⟨rfl, rfl⟩ := Prod.mk.inj (Except.ok.inj hslot)
    exact ⟨h, ha⟩
  · split_ifs at hslot with hfree
    obtain ⟨rfl, rfl⟩ := Prod.mk.inj (Except.ok.inj hslot)
    -- No item and no slot knows the new pack.
    have hother {k : UInt64} (hk : st.Tracked log k) : k ≠ newId := by
      rintro rfl
      obtain ⟨rs, hrs, -⟩ := hk
      rw [hrs, Option.isSome_some] at hfree
      exact hfree rfl
    have hempty : intoPack newId log = [] := by
      refine List.filter_eq_nil_iff.mpr fun r hr => ?_
      rw [decide_eq_true_eq]
      exact hother (h.logged r hr)
    have hput := h.put (i := i) [] []
      (fun j a ha hid => absurd hid (hother (h.slot j a ha).1))
      nofun (by simp) (by rw [hempty]; rfl)
    rw [List.append_nil] at hput
    exact ⟨hput, Function.update_self ..⟩

/-- A record written at the end of its pack is its next item. -/
theorem Inv.writeRecord (h : st.Inv log) {slot : ActivePack} (hslot : st.slots i = some slot)
    (r : PackRecord) (hsize : slot.size + r.size < 2 ^ 63) :
    (st.put i slot.id (pwriteAt ((st.files slot.id).getD []) slot.size r.bytes)
      (slot.size + r.size)).Inv (log ++ [r.scanned slot.id slot.size]) := by
  obtain ⟨⟨rs, hfile, -, hinto⟩, hlen⟩ := h.slot i slot hslot
  rw [hfile, Option.map_some, Option.some.injEq] at hlen
  have hbytes : pwriteAt ((st.files slot.id).getD []) slot.size r.bytes =
      packBytes (rs ++ [r]) := by
    rw [hfile, Option.getD_some, ← hlen, pwriteAt_end, PackRecord.packBytes_append,
      packBytes_cons, packBytes_nil, List.append_nil]
  have hlength : (packBytes (rs ++ [r])).length = slot.size + r.size := by
    rw [PackRecord.packBytes_append, packBytes_cons, packBytes_nil, List.append_nil,
      List.length_append, hlen, r.length_bytes]
  rw [hbytes, ← hlength]
  refine h.put _ (rs ++ [r]) (fun j a ha hid => h.apart j i a slot ha hslot hid) ?_ (by omega) ?_
  · intro x hx
    obtain rfl := List.mem_singleton.mp hx
    rfl
  · rw [PackRecord.scannedFrom_append, hlen, Nat.zero_add, ← hinto]
    rfl

/-- One item. -/
theorem Inv.appendItem (h : st.Inv log) {maxSize : Nat} {x : AppendInput} {e : Extent}
    (happend : st.appendItem maxSize i x = .ok (e, st')) :
    st'.Inv (log ++ [⟨x.item.owner, e, x.item.payload⟩]) := by
  unfold PackFiles.appendItem at happend
  simp only [bind_eq_ok] at happend
  obtain ⟨header, hheader, ⟨slot, st₁⟩, hslot, happend⟩ := happend
  obtain ⟨r, howner, hpayload, rfl⟩ := buildPackHeader_ok hheader
  have hrecord : r.fixed ++ r.owner ++ x.item.payload = r.bytes := by
    rw [← hpayload, List.append_assoc, PackRecord.bytes]
  obtain ⟨hinv, hopen⟩ := (h.rotate maxSize i x.aged _).ensureSlot hslot
  rw [hrecord, r.length_bytes, r.length_header] at happend
  split_ifs at happend with hlimit
  obtain ⟨rfl, rfl⟩ := Prod.mk.inj (pure_eq_ok.mp happend)
  simp only [kMaxOffset] at hlimit
  have hwrite := hinv.writeRecord hopen r (by omega)
  rw [PackRecord.scanned, howner, hpayload] at hwrite
  exact hwrite

/-- A run of items. -/
theorem Inv.appendItems (h : st.Inv log) {maxSize : Nat} {xs : List (Nat × AppendInput)}
    {more : List PackScanRecord} (hrun : PackFiles.appendItems maxSize xs st = .ok (more, st')) :
    st'.Inv (log ++ more) := by
  induction xs generalizing st log more with
  | nil =>
      obtain ⟨rfl, rfl⟩ := Prod.mk.inj (Except.ok.inj hrun)
      rwa [List.append_nil]
  | cons ix xs ih =>
      rw [PackFiles.appendItems] at hrun
      simp only [bind_eq_ok] at hrun
      obtain ⟨⟨e, st₁⟩, hitem, ⟨rest, st₂⟩, hrest, hdone⟩ := hrun
      obtain ⟨rfl, rfl⟩ := Prod.mk.inj (pure_eq_ok.mp hdone)
      rw [List.append_cons]
      exact ih (h.appendItem hitem) hrest

end PackFiles

/-- For every run of appends over any slots, from any pack files of earlier runs: each
pack that took an item round-trips. -/
theorem append_scan_round_trip (maxSize : Nat) (old : UInt64 → Option Bytes)
    (xs : List (Nat × AppendInput)) (log : List PackScanRecord) (st : PackFiles)
    (hrun : PackFiles.appendItems maxSize xs { files := old } = .ok (log, st))
    (r : PackScanRecord) (hr : r ∈ log) :
    ∃ file, st.files r.source.fileId = some file ∧
      PackFile.RoundTrips r.source.fileId file (intoPack r.source.fileId log) := by
  have hinit : PackFiles.Inv { files := old } [] :=
    ⟨nofun, fun i a ha => absurd ha (by simp), fun i j a b ha => absurd ha (by simp)⟩
  obtain ⟨rs, hfile, hlt, hinto⟩ := (hinit.appendItems hrun).logged r hr
  refine ⟨packBytes rs, hfile, ?_⟩
  rw [show intoPack r.source.fileId log = _ from hinto]
  exact PackFile.roundTrips_records _ rs hlt

/-- Two items for a slot whose pack is then too old, and a third one. -/
def threeAppends : List (Nat × AppendInput) :=
  [(0, ⟨⟨ascii "b/k", ascii "hello"⟩, false, 7⟩), (0, ⟨⟨ascii "b/e", []⟩, false, 8⟩),
    (0, ⟨⟨ascii "b/m", ascii "hi"⟩, true, 9⟩)]

theorem append_scan_three : ∃ log st,
    PackFiles.appendItems 100 threeAppends { files := fun _ => none } = .ok (log, st) ∧
      log.map (fun r => (r.source.fileId, r.source.offset)) = [(7, 25), (7, 55), (9, 25)] ∧
      ∃ file, st.files 7 = some file ∧ PackFile.RoundTrips 7 file (intoPack 7 log) := by
  have hlog : (PackFiles.appendItems 100 threeAppends { files := fun _ => none }).toOption.map
      (fun o => o.1.map (fun r => (r.source.fileId, r.source.offset))) =
        some [(7, 25), (7, 55), (9, 25)] := by decide +kernel
  rw [Option.map_eq_some_iff] at hlog
  obtain ⟨⟨log, st⟩, hrun, hids⟩ := hlog
  have hrun := toOption_eq_some.mp hrun
  refine ⟨log, st, hrun, hids, ?_⟩
  obtain ⟨r, hr, hid⟩ : ∃ r ∈ log, (r.source.fileId, r.source.offset) = (7, 25) := by
    rw [← List.mem_map, hids]
    exact List.mem_cons_self
  have hround := append_scan_round_trip 100 (fun _ => none) threeAppends log st hrun r hr
  rwa [(Prod.mk.inj hid).1] at hround

end Lights3
