import Lights3.Iceberg.Warehouse
import Lights3.TableSeparation
import Mathlib.Data.List.DropRight

/-!
# Entries and their metadata

A catalog entry repeats three facts of the metadata file that it points to: the uuid, the
format version and the location. Every operation but one copies them from the metadata that it
installs. `update_metadata_location` leaves the location as it was, and `create_table` does not
check the location that it makes up itself against the reserved prefix.
-/
namespace Lights3.Iceberg
open ByteString

/-! ## Locations -/

/-- The checks on the key of a location. -/
def KeyOk (reserved key : Bytes) : Prop :=
  key ≠ [] ∧ ¬ (hasDotSegment key || (indexOf [slash, slash] key).isSome ||
    key.head? = some slash) ∧
    ¬ (reserved <+: key || key ++ [slash] = reserved) ∧ ¬ key.any (fun c => c < 32 || c = 127)

theorem locationToKey_eq_ok {bucket reserved location key : Bytes} :
    locationToKey bucket reserved location = .ok key ↔
      ∃ raw, stripBucket bucket location = some raw ∧ key = dropTrailingSlashes raw ∧
        KeyOk reserved key := by
  unfold locationToKey KeyOk
  cases stripBucket bucket location with
  | none => simp [throw, throwThe, MonadExceptOf.throw]
  | some raw =>
      simp only [bind, Except.bind, pure, Except.pure, throw, throwThe, MonadExceptOf.throw]
      constructor
      · intro h
        split_ifs at h with hnil hseg hres hctl
        cases h
        exact ⟨raw, rfl, rfl, hnil, hseg, hres, hctl⟩
      · rintro ⟨_, ⟨⟩, rfl, hnil, hseg, hres, hctl⟩
        rw [if_neg hnil, if_neg hseg, if_neg hres, if_neg hctl]

theorem stripBucket_keyToLocation (bucket key : Bytes) :
    stripBucket bucket (keyToLocation bucket key) = some key := by
  have hpre : ascii "s3://" <+: keyToLocation bucket key := by
    simp [keyToLocation, List.append_assoc]
  have hdrop : (keyToLocation bucket key).drop 5 = bucket ++ slash :: key := by
    have hlen : (ascii "s3://").length = 5 := by decide
    rw [keyToLocation, List.append_assoc, List.append_assoc, ← hlen, List.drop_left]
    rfl
  simp [stripBucket, hpre, hdrop]

theorem dropTrailingSlashes_idem (key : Bytes) :
    dropTrailingSlashes (dropTrailingSlashes key) = dropTrailingSlashes key :=
  List.rdropWhile_idempotent _ key

/-- A location that was made from an accepted one is accepted. -/
theorem locationToKey_keyToLocation {bucket reserved location key : Bytes}
    (h : locationToKey bucket reserved location = .ok key) :
    locationToKey bucket reserved (keyToLocation bucket key) = .ok key := by
  obtain ⟨raw, -, rfl, hok⟩ := locationToKey_eq_ok.mp h
  exact locationToKey_eq_ok.mpr
    ⟨_, stripBucket_keyToLocation bucket _, (dropTrailingSlashes_idem raw).symm, hok⟩

def Accepted (b : TableBucket) (location : Bytes) : Prop :=
  ∃ key, locationToKey b.bucket b.reserved location = .ok key

variable {b : TableBucket}

/-! ## What metadata says of its table -/

theorem initialMetadata_fields {i : CreateTableInput} {md : TableMetadata}
    (h : initialMetadata i = .ok md) :
    md.tableUuid = i.tableUuid ∧ md.formatVersion = i.formatVersion ∧ md.location = i.location := by
  unfold initialMetadata at h
  obtain ⟨-, -, h⟩ := of_bind_ok h
  obtain ⟨⟨fields, next⟩, -, h⟩ := of_bind_ok h
  obtain ⟨remap, -, h⟩ := of_bind_ok h
  obtain ⟨specFields, -, h⟩ := of_bind_ok h
  obtain ⟨orderFields, -, h⟩ := of_bind_ok h
  obtain ⟨-, -, h⟩ := of_bind_ok h
  cases h
  obtain ⟨_, _, heq⟩ := synchronize_eq _
  rw [heq]
  exact ⟨rfl, rfl, rfl⟩

theorem checkTransition_uuid {md md' : TableMetadata} {u : Unit}
    (h : checkTransition md md' = .ok u) : md'.tableUuid = md.tableUuid := by
  obtain ⟨⟨⟩, huuid, -⟩ := of_bind_ok h
  exact (of_decide_eq_true (require_eq_ok.mp huuid)).symm

/-- A commit keeps the uuid and leaves a location that is accepted. -/
theorem commit_fields {md md' : TableMetadata} {c : CommitStep} (h : commit b md c = .ok md')
    (hloc : Accepted b md.location) : md'.tableUuid = md.tableUuid ∧ Accepted b md'.location := by
  obtain ⟨a, ha, -, hcheck, rfl⟩ := commit_ok h
  have huuid := checkTransition_uuid hcheck
  have haccepted : Accepted b a.md.location := by
    refine foldlM_ok_invariant (P := fun a => Accepted b a.md.location) ?_ hloc ha
    intro a u _ a' hk hstep
    cases (Applier.apply_changes hstep).location with
    | same hl => rwa [hl]
    | set location key hkey hl =>
        rw [hl]
        exact ⟨key, locationToKey_keyToLocation hkey⟩
  obtain ⟨_, _, _, heq⟩ := finish_eq a.md c.prevMetadataLocation c.nowMs c.metadataLogKeep
  obtain ⟨_, _, hsync⟩ := synchronize_eq a.md
  rw [hsync] at huuid
  rw [heq]
  exact ⟨huuid, haccepted⟩

/-! ## The mirror -/

/-- The entry repeats what the document says. -/
structure Repeats (e : TableEntry) (md : TableMetadata) : Prop where
  tableUuid : e.tableUuid = md.tableUuid
  formatVersion : e.formatVersion = md.formatVersion
  location : e.location = md.location

namespace Warehouse

/-- Every active entry repeats its metadata file, and its location is accepted. -/
def Mirrors (b : TableBucket) (s : Warehouse) : Prop :=
  ∀ path e, s.tables.get? path = some e → e.state = .Active →
    (∃ md, s.files.get? e.metadataLocation = some md ∧ Repeats e md) ∧ Accepted b e.location

/-- An entry whose file is under the reserved prefix, where clients cannot write. -/
structure EntryOk (b : TableBucket) (files : SortedMap Bytes TableMetadata) (e : TableEntry) :
    Prop where
  reserved : b.reserved <+: e.metadataLocation
  file : ∃ md, files.get? e.metadataLocation = some md ∧ Repeats e md
  location : Accepted b e.location

structure Inv (b : TableBucket) (s : Warehouse) : Prop where
  entries : ∀ path e, s.tables.get? path = some e → e.state = .Active → EntryOk b s.files e
  /-- No commit is left half done. -/
  settled : s.Settled

/-- The documents under the reserved prefix stay. -/
def Extends (b : TableBucket) (files files' : SortedMap Bytes TableMetadata) : Prop :=
  ∀ k md, b.reserved <+: k → files.get? k = some md → files'.get? k = some md

variable {md : TableMetadata} {key : Bytes} {e : TableEntry} {l : Lake} {location : Option Bytes}

theorem EntryOk.mono {files files' : SortedMap Bytes TableMetadata} (h : EntryOk b files e)
    (hfiles : Extends b files files') : EntryOk b files' e := by
  obtain ⟨md, hmd, hrep⟩ := h.file
  exact ⟨h.reserved, ⟨md, hfiles _ md h.reserved hmd, hrep⟩, h.location⟩

theorem extends_insert {files : SortedMap Bytes TableMetadata} (md : TableMetadata)
    (h : files.get? key = none ∨ ¬ b.reserved <+: key) : Extends b files (files.insert key md) := by
  intro k md' hk hmd'
  have hne : k ≠ key := by
    rintro rfl
    rcases h with h | h
    · simp [h] at hmd'
    · exact h hk
  simp [SortedMap.get?_insert, hne, hmd']

variable {refused : Option RestError} {path : TablePath}

/-- The state after an entry was put. -/
theorem Inv.put {s s' : Warehouse} (h : s.Inv b) (hfiles : Extends b s.files s'.files)
    (htables : s'.tables = s.tables.insert path e) (he : e.state = .Active → EntryOk b s'.files e)
    (hsettled : s'.Settled) : s'.Inv b := by
  refine ⟨fun p f hf hactive => ?_, hsettled⟩
  rw [htables] at hf
  obtain ⟨rfl, rfl⟩ | ⟨-, hold⟩ := SortedMap.get?_insert_cases hf
  · exact he hactive
  · exact (h.entries p f hold hactive).mono hfiles

theorem reserved_prefix_metadataKey (b : TableBucket) (path : TablePath) (gen : Nat)
    (token : Bytes) : b.reserved <+: metadataKey b.reserved path gen token :=
  (Lake.reserved_prefix_metadataDir b path).trans (List.prefix_append _ _)

/-! ## Reading -/

theorem readNamed_ok {s : Warehouse} {missing : RestError} (h : s.readNamed key missing = .ok md) :
    s.files.get? key = some md := by
  unfold readNamed at h
  split at h
  · rename_i hread
    cases h
    exact readFile_ok hread
  · cases h

theorem keyOf_ok {path : Bytes} {invalid : RestError} (h : keyOf b path invalid = .ok key) :
    pathToKey b.bucket path = .ok key := by
  unfold keyOf at h
  split at h
  · rename_i hkey
    cases h
    exact hkey
  · cases h

/-! ## The operations -/

variable {s s' : Warehouse}

theorem Inv.finishCreate (h : s.Inv b) (hfin : s.finishCreate path e md = .ok s')
    (hreserved : b.reserved <+: e.metadataLocation) (hrep : Repeats e md)
    (hloc : Accepted b e.location) : s'.Inv b := by
  obtain ⟨-, -, hfin⟩ := of_bind_ok hfin
  split_ifs at hfin with hnew
  cases hfin
  have hnone : s.files.get? e.metadataLocation = none := by simpa using hnew
  exact h.put (extends_insert md (Or.inl hnone)) rfl
    (fun _ => ⟨hreserved, ⟨md, by simp, hrep⟩, hloc⟩) h.settled

/-- The location that `create_table` makes up for a table. -/
def defaultLocation (b : TableBucket) (path : TablePath) : Bytes :=
  keyToLocation b.bucket (nsPath path.levels ++ [slash] ++ path.name)

theorem chooseLocation_accepted {locKey : Bytes}
    (hnone : location = none → Accepted b (defaultLocation b path))
    (h : Lake.chooseLocation b l path location = .ok locKey) :
    Accepted b (keyToLocation b.bucket locKey) := by
  cases location with
  | none =>
      cases h
      exact hnone rfl
  | some location =>
      obtain ⟨key, hkey, h⟩ := of_bind_ok h
      obtain ⟨-, -, h⟩ := of_bind_ok h
      cases h
      exact ⟨_, locationToKey_keyToLocation hkey⟩

theorem Inv.createTable (h : s.Inv b) {input : CreateTableInput} {ids : NewIds}
    (hnone : location = none → Accepted b (defaultLocation b path))
    (hexec : s.createTable b path location input ids = .ok s') : s'.Inv b := by
  obtain ⟨-, -, hexec⟩ := of_bind_ok hexec
  obtain ⟨locKey, hlocKey, hexec⟩ := of_bind_ok hexec
  obtain ⟨md, hmd, hexec⟩ := of_bind_ok hexec
  obtain ⟨huuid, hversion, hlocation⟩ := initialMetadata_fields hmd
  exact h.finishCreate hexec (reserved_prefix_metadataKey b path 1 ids.uuid)
    ⟨huuid.symm, hversion.symm, hlocation.symm⟩ (chooseLocation_accepted hnone hlocKey)

theorem Inv.registerTable (h : s.Inv b) {metadataLocation : Bytes} {ids : NewIds}
    (hexec : s.registerTable b path metadataLocation ids refused = .ok s') : s'.Inv b := by
  obtain ⟨-, -, hexec⟩ := of_bind_ok hexec
  obtain ⟨key, -, hexec⟩ := of_bind_ok hexec
  obtain ⟨md, -, hexec⟩ := of_bind_ok hexec
  obtain ⟨locKey, hlocKey, hexec⟩ := of_bind_ok hexec
  obtain ⟨-, -, hexec⟩ := of_bind_ok hexec
  exact h.finishCreate hexec (reserved_prefix_metadataKey b path 1 ids.uuid) ⟨rfl, rfl, rfl⟩
    ⟨locKey, hlocKey⟩

theorem settled_publish (h : s.Settled) (path : TablePath) (e : TableEntry) (r : CommitRecord) :
    (s.publish path e r).Settled := by
  intro k r' hr'
  obtain ⟨-, rfl⟩ | ⟨-, hold⟩ := SortedMap.get?_insert_cases hr'
  · rfl
  · exact h k r' hold

/-- The file of a commit is there afterwards, and no other one is touched. -/
theorem writeNext_ok {next : TableMetadata} {isStaged : Bool}
    (h : s.writeNext key next isStaged = .ok (s', md)) :
    s'.toLake = s.toLake ∧ Extends b s.files s'.files ∧ s'.files.get? key = some md ∧
      (isStaged = false → md = next) := by
  unfold writeNext at h
  split at h
  · rename_i hnone
    cases h
    exact ⟨rfl, extends_insert _ (Or.inl hnone), by simp, fun _ => rfl⟩
  · obtain ⟨prev, hprev, h⟩ := of_bind_ok h
    have hfile := readFile_ok hprev
    split_ifs at h with hstaged hne
    · cases h
      exact ⟨rfl, fun _ _ _ hk => hk, hfile, fun hf => by simp [hf] at hstaged⟩
    · cases h
      exact ⟨rfl, fun _ _ _ hk => hk, by rw [hfile, not_not.mp hne], fun _ => rfl⟩

theorem nextFile_ok (h : s.Inv b) {cur : TableEntry} (hcur : s.requireActive path = .ok cur)
    {c : CommitStep} {next : TableMetadata} (hnext : nextFile b s cur c refused = .ok next) :
    next.tableUuid = cur.tableUuid ∧ Accepted b next.location := by
  obtain ⟨hentry, hactive⟩ := CatalogState.requireActive_ok hcur
  have hok := h.entries path cur hentry hactive
  obtain ⟨current, hcurrent, hnext⟩ := of_bind_ok hnext
  obtain ⟨next', hcommit, hnext⟩ := of_bind_ok hnext
  obtain ⟨-, -, hnext⟩ := of_bind_ok hnext
  cases hnext
  obtain ⟨md, hread, hcurrent⟩ := of_bind_ok hcurrent
  obtain ⟨-, -, hcurrent⟩ := of_bind_ok hcurrent
  cases hcurrent
  obtain ⟨md', hmd', hrep⟩ := hok.file
  obtain rfl := Option.some.inj (hmd'.symm.trans (readFile_ok hread))
  obtain ⟨huuid, haccepted⟩ := commit_fields hcommit (hrep.location ▸ hok.location)
  exact ⟨huuid.trans hrep.tableUuid.symm, haccepted⟩

theorem Inv.commitTable (h : s.Inv b) {call : CommitCall} {c : CommitStep} {ids : NewIds}
    (hexec : s.commitTable b call c ids refused = .ok s') : s'.Inv b := by
  obtain ⟨cur, hcur, hexec⟩ := of_bind_ok hexec
  obtain ⟨replay, hreplay, hexec⟩ := of_bind_ok hexec
  cases replay with
  | done r =>
      obtain ⟨-, -, hexec⟩ := of_bind_ok hexec
      cases hexec
      exact ⟨h.entries, Lake.settled_insert h.settled r⟩
  | staged r =>
      obtain ⟨hr, hstatus⟩ := Lake.replayOf_staged hreplay
      exact absurd (h.settled _ r hr) hstatus
  | fresh =>
      obtain ⟨next, hnext, hexec⟩ := of_bind_ok hexec
      obtain ⟨⟨s₁, md⟩, hwrite, hexec⟩ := of_bind_ok hexec
      cases hexec
      obtain ⟨huuid, haccepted⟩ := nextFile_ok h hcur hnext
      obtain ⟨hlake, hfiles, hfile, hmd⟩ := writeNext_ok hwrite
      obtain rfl := hmd rfl
      have hs₁ : s₁.Settled := hlake ▸ h.settled
      let r := CatalogState.newRecord call { token := ids.token } cur (Lake.commitIdOf call ids)
        (Lake.newKey b call ids cur)
      have hentry : EntryOk b s₁.files (nextEntry cur r md) :=
        ⟨reserved_prefix_metadataKey b call.path _ _, ⟨md, hfile, huuid.symm, rfl, rfl⟩, haccepted⟩
      exact h.put hfiles (by rw [← hlake]; rfl) (fun _ => hentry)
        (settled_publish hs₁ call.path _ r)

theorem Inv.updateMetadataLocation (h : s.Inv b) {newLocation expectedToken : Bytes} {ids : NewIds}
    (hsame : ∀ e ∈ s.tables.get? path, ∀ key ∈ (pathToKey b.bucket newLocation).toOption,
      ∀ md ∈ s.files.get? key, md.location = e.location)
    (hexec : s.updateMetadataLocation b path newLocation expectedToken ids refused = .ok s') :
    s'.Inv b := by
  obtain ⟨cur, hcur, hexec⟩ := of_bind_ok hexec
  obtain ⟨-, -, hexec⟩ := of_bind_ok hexec
  obtain ⟨key, hkey, hexec⟩ := of_bind_ok hexec
  obtain ⟨⟨⟩, hdir, hexec⟩ := of_bind_ok hexec
  split_ifs at hexec
  · cases hexec
    exact h
  · obtain ⟨current, hcurrent, hexec⟩ := of_bind_ok hexec
    obtain ⟨next, hnext, hexec⟩ := of_bind_ok hexec
    obtain ⟨⟨⟩, hcheck, hexec⟩ := of_bind_ok hexec
    obtain ⟨-, -, hexec⟩ := of_bind_ok hexec
    cases hexec
    obtain ⟨hentry, hactive⟩ := CatalogState.requireActive_ok hcur
    have hok := h.entries path cur hentry hactive
    obtain ⟨md, hmd, hrep⟩ := hok.file
    obtain rfl := Option.some.inj (hmd.symm.trans (readFile_ok hcurrent))
    have hfile := readNamed_ok hnext
    have hdir : metadataDir b.reserved path <+: key := of_decide_eq_true (require_eq_ok.mp hdir)
    have hlocation : next.location = cur.location :=
      hsame cur hentry key (toOption_eq_some.mpr (keyOf_ok hkey)) next hfile
    have huuid : cur.tableUuid = next.tableUuid :=
      hrep.tableUuid.trans (checkTransition_uuid hcheck).symm
    refine h.put (fun _ _ _ hk => hk) rfl (fun _ => ?_) (settled_publish h.settled path _ _)
    exact ⟨(Lake.reserved_prefix_metadataDir b path).trans hdir,
      ⟨next, hfile, huuid, rfl, hlocation.symm⟩, hok.location⟩

/-- A rename moves the entry as it is. -/
theorem Inv.renameTable (h : s.Inv b) {src dst : TablePath}
    (hexec : s.toLake.renameTable src dst = .ok l) : Inv b { s with toLake := l } := by
  unfold Lake.renameTable at hexec
  split_ifs at hexec
  · cases hexec
    exact h
  · obtain ⟨cur, hcur, hexec⟩ := of_bind_ok hexec
    obtain ⟨-, -, hexec⟩ := of_bind_ok hexec
    obtain ⟨-, -, hexec⟩ := of_bind_ok hexec
    cases hexec
    obtain ⟨hentry, hactive⟩ := CatalogState.requireActive_ok hcur
    have hok := h.entries src cur hentry hactive
    obtain ⟨md, hmd, hrep⟩ := hok.file
    have hmoved : Inv b { s with
        tables := s.tables.insert dst { cur with state := .Active, renameId := [] } } :=
      h.put (fun _ _ _ hk => hk) rfl (fun _ => ⟨hok.reserved,
        ⟨md, hmd, hrep.tableUuid, hrep.formatVersion, hrep.location⟩, hok.location⟩) h.settled
    exact hmoved.put (fun _ _ _ hk => hk) rfl nofun h.settled

theorem Inv.dropTable (h : s.Inv b) (hexec : s.toLake.dropTable path = .ok l) :
    Inv b { s with toLake := l } := by
  obtain ⟨cur, -, hexec⟩ := of_bind_ok hexec
  cases hexec
  exact h.put (fun _ _ _ hk => hk) rfl nofun h.settled

/-! ## Runs -/

/-- A made-up location is outside the reserved prefix, and the pointer is not moved to a file
with another location than the entry has. -/
def Faithful (b : TableBucket) (s : Warehouse) : WarehouseOp → Prop
  | .createTable path location _ _ =>
      location = none → (locationToKey b.bucket b.reserved (defaultLocation b path)).toOption.isSome
  | .updateMetadataLocation path newLocation _ _ _ =>
      ∀ e ∈ s.tables.get? path, ∀ key ∈ (pathToKey b.bucket newLocation).toOption,
        ∀ md ∈ s.files.get? key, md.location = e.location
  | _ => True

instance (b : TableBucket) (s : Warehouse) (op : WarehouseOp) : Decidable (s.Faithful b op) := by
  unfold Faithful
  split <;> infer_instance

theorem Inv.step (h : s.Inv b) {op : WarehouseOp} (hop : s.Faithful b op) :
    (s.step b op).Inv b := by
  unfold Warehouse.step
  split
  · rename_i s' hexec
    cases op with
    | upload key md =>
        simp only [exec, upload] at hexec
        split_ifs at hexec with hreserved
        cases hexec
        exact ⟨fun p e he hactive =>
          (h.entries p e he hactive).mono (extends_insert md (Or.inr hreserved)), h.settled⟩
    | createNamespace levels =>
        obtain ⟨l, hl, hexec⟩ := of_bind_ok hexec
        cases hexec
        obtain ⟨-, -, hl⟩ := of_bind_ok hl
        split_ifs at hl
        cases hl
        exact ⟨h.entries, h.settled⟩
    | createTable path location input ids =>
        refine h.createTable (fun hnone => ?_) hexec
        obtain ⟨key, hkey⟩ := Option.isSome_iff_exists.mp (hop hnone)
        exact ⟨key, toOption_eq_some.mp hkey⟩
    | registerTable path metadataLocation ids refused => exact h.registerTable hexec
    | commitTable call c ids refused => exact h.commitTable hexec
    | updateMetadataLocation path newLocation expectedToken ids refused =>
        exact h.updateMetadataLocation hop hexec
    | renameTable src dst =>
        obtain ⟨l, hl, hexec⟩ := of_bind_ok hexec
        cases hexec
        exact h.renameTable hl
    | dropTable path =>
        obtain ⟨l, hl, hexec⟩ := of_bind_ok hexec
        cases hexec
        exact h.dropTable hl
  · exact h

/-- In a run whose operations meet the condition every active entry repeats the metadata file
that it points to, and its location is accepted. -/
theorem entries_mirror_metadata (b : TableBucket) (ops : List WarehouseOp)
    (h : Along (step b) (Faithful b) {} ops) : (run b {} ops).Mirrors b := by
  have hempty : Inv b {} := ⟨nofun, nofun⟩
  have hinv : Inv b (run b {} ops) := h.invariant hempty (fun _ _ hop hs => hs.step hop)
  intro path e he hactive
  have hok := hinv.entries path e he hactive
  exact ⟨hok.file, hok.location⟩

/-! ## A moved table -/

open Lights3.Lake (salesOrders uuidOf)

/-- A table is created and then moved to another location. -/
def movedOrders : List WarehouseOp :=
  [.createNamespace [ascii "sales"],
    .createTable salesOrders none orders (Lake.idsAt "1"),
    .commitTable { path := salesOrders, commitId := [] }
      { updates := [.setLocation (ascii "s3://lake/warehouse/orders")] } (Lake.idsAt "2") none]

/-- The pointer goes to the file of a generation. -/
def pointTo (gen : Nat) (id token : String) : WarehouseOp :=
  .updateMetadataLocation salesOrders
    (keyToLocation lake.bucket (metadataKey lake.reserved salesOrders gen (uuidOf id)))
    (Lake.idsAt token).token (Lake.idsAt "3") none

theorem entries_mirror_metadata_moved :
    Along (step lake) (Faithful lake) {} movedOrders ∧
    (∃ e ∈ (run lake {} movedOrders).tables.get? salesOrders,
      e.location = ascii "s3://lake/warehouse/orders") ∧
    (run lake {} movedOrders).Mirrors lake := by
  have hops : Along (step lake) (Faithful lake) {} movedOrders := by decide +kernel
  exact ⟨hops, by decide +kernel, entries_mirror_metadata lake movedOrders hops⟩

/-- A bucket whose reserved prefix is also the name of a namespace. -/
def salesReserved : TableBucket := ⟨ascii "lake", ascii "sales/"⟩

/-- The pointer goes back to the first file, but the location stays; and a made-up location
lies under the reserved prefix. -/
theorem entries_not_mirrored :
    ¬ (run lake {} (movedOrders ++ [pointTo 1 "1" "2"])).Mirrors lake ∧
    ¬ (run salesReserved {} (movedOrders.take 2)).Mirrors salesReserved := by
  have hback : ∃ e ∈ (run lake {} (movedOrders ++ [pointTo 1 "1" "2"])).tables.get? salesOrders,
      e.state = .Active ∧
      ∃ md ∈ (run lake {} (movedOrders ++ [pointTo 1 "1" "2"])).files.get? e.metadataLocation,
        e.location ≠ md.location := by
    decide +kernel
  have hmade : ∃ e ∈ (run salesReserved {} (movedOrders.take 2)).tables.get? salesOrders,
      e.state = .Active ∧
      (locationToKey salesReserved.bucket salesReserved.reserved e.location).toOption = none := by
    decide +kernel
  obtain ⟨e, he, hactive, md, hmd, hne⟩ := hback
  obtain ⟨e', he', hactive', hrefused⟩ := hmade
  constructor
  · intro h
    obtain ⟨md', hmd', hrep⟩ := (h salesOrders e he hactive).1
    obtain rfl := Option.some.inj (hmd.symm.trans hmd')
    exact hne hrep.location
  · intro h
    obtain ⟨key, hkey⟩ := (h salesOrders e' he' hactive').2
    rw [toOption_eq_some.mpr hkey] at hrefused
    cases hrefused

end Warehouse

end Lights3.Iceberg
