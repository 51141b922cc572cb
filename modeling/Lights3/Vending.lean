import Lights3.CredentialPolicy
import Lights3.TableSeparation

/-!
# Vended credentials

The policy of a vended credential consists of two directories: the location of the table
and the metadata directory of its current name. It keeps out of another table exactly when
these directories are not above or below those of the other table, and it covers the table's
own metadata file exactly when that file was written under the current name.
-/
namespace Lights3
open ByteString

namespace Lake

variable {b : TableBucket}

/-- `Catalog::vending_policy`. -/
def vendingPolicy (b : TableBucket) (path : TablePath) (e : TableEntry) (readonly : Bool) :
    Except RestError CredentialPolicy := do
  let locKey ← locationToKey b.bucket b.reserved e.location
  return { buckets := [b.bucket]
           prefixes := [locKey ++ [slash], metadataDir b.reserved path]
           readonly }

/-- The keys that belong to a table: its metadata directory and its location. -/
def Owns (b : TableBucket) (path : TablePath) (e : TableEntry) (k : Bytes) : Prop :=
  metadataDir b.reserved path <+: k ∨ ∃ l ∈ dataDir? b e, l ++ [slash] <+: k

/-- Credentials for the table `t` open nothing of `u`, and they open the metadata file of `t`. -/
def Scoped (fnmatch : Bytes → Bytes → Bool) (b : TableBucket) (path name : TablePath)
    (t u : TableEntry) : Prop :=
  ∀ readonly p, vendingPolicy b path t readonly = .ok p →
    (∀ k a, Owns b name u k → p.allows fnmatch b.bucket k a = false) ∧
      p.allows fnmatch b.bucket t.metadataLocation .Read = true

/-- The directories of the two tables are apart, and the file of `t` is under its name. -/
@[mk_iff]
structure Vendable (b : TableBucket) (path name : TablePath) (t u : TableEntry) (locKey : Bytes) :
    Prop where
  names : ¬ path.val ++ [metadataSegment] <+: name.val ∧
    ¬ name.val ++ [metadataSegment] <+: path.val
  locations : ∀ l ∈ dataDir? b u, ¬ Nested locKey l
  below : ¬ locKey ++ [slash] <+: b.reserved ∧ ∀ l ∈ dataDir? b u, ¬ l ++ [slash] <+: b.reserved
  home : metadataDir b.reserved path <+: t.metadataLocation

instance (path name : TablePath) (t u : TableEntry) (locKey : Bytes) :
    Decidable (Vendable b path name t u locKey) :=
  decidable_of_iff _ (vendable_iff b path name t u locKey).symm

/-! ## What a vended policy allows -/

section Policy
variable {fnmatch : Bytes → Bytes → Bool} {path : TablePath} {t : TableEntry}
  {p : CredentialPolicy}

theorem vendingPolicy_ok {readonly : Bool} (h : vendingPolicy b path t readonly = .ok p) :
    ∃ locKey ∈ dataDir? b t, p =
      { buckets := [b.bucket], prefixes := [locKey ++ [slash], metadataDir b.reserved path],
        readonly } := by
  obtain ⟨locKey, hloc, h⟩ := of_bind_ok h
  exact ⟨locKey, mem_dataDir.mpr hloc, (Except.ok.inj h).symm⟩

theorem vendingPolicy_of_dataDir {locKey : Bytes} (h : locKey ∈ dataDir? b t) (readonly : Bool) :
    vendingPolicy b path t readonly = .ok
      { buckets := [b.bucket], prefixes := [locKey ++ [slash], metadataDir b.reserved path],
        readonly } :=
  bind_eq_ok.mpr ⟨locKey, mem_dataDir.mp h, rfl⟩

/-- Reading is allowed exactly below the two directories. -/
theorem vended_allows_iff (hfn : fnmatch b.bucket b.bucket = true) {locKey k : Bytes} (hk : k ≠ [])
    (readonly : Bool) (a : Action) :
    CredentialPolicy.allows fnmatch
        { buckets := [b.bucket], prefixes := [locKey ++ [slash], metadataDir b.reserved path],
          readonly } b.bucket k a = true ↔
      (readonly = false ∨ a = .Read) ∧
        (locKey ++ [slash] <+: k ∨ metadataDir b.reserved path <+: k) := by
  rw [CredentialPolicy.allows_iff hk]
  simp [CredentialPolicy.allowsAction, CredentialPolicy.allowsBucket,
    CredentialPolicy.allowsKey, hfn]

end Policy

/-! ## Directories that are apart -/

/-- Nothing lies below both directories. -/
def Disjoint (x y : Bytes) : Prop := ∀ k, x <+: k → ¬ y <+: k

theorem disjoint_iff {x y : Bytes} : Disjoint x y ↔ ¬ x <+: y ∧ ¬ y <+: x := by
  constructor
  · intro h
    exact ⟨fun hxy => h y hxy (List.prefix_refl y), fun hyx => h x (List.prefix_refl x) hyx⟩
  · rintro ⟨hxy, hyx⟩ k hx hy
    rcases List.prefix_or_prefix_of_prefix hx hy with h | h
    · exact hxy h
    · exact hyx h

theorem disjoint_locations {k l : Bytes} :
    Disjoint (k ++ [slash]) (l ++ [slash]) ↔ ¬ Nested k l := by
  rw [disjoint_iff, Nested, not_or]

/-- Metadata directories are apart unless one of the tables is below the other's. -/
theorem disjoint_metadataDirs {path name : TablePath} (hne : path ≠ name) :
    Disjoint (metadataDir b.reserved path) (metadataDir b.reserved name) ↔
      ¬ path.val ++ [metadataSegment] <+: name.val ∧
        ¬ name.val ++ [metadataSegment] <+: path.val := by
  have hpre (p q : TablePath) (hpq : p ≠ q) :
      metadataDir b.reserved p <+: metadataDir b.reserved q ↔
        p.val ++ [metadataSegment] <+: q.val := by
    rw [metadataDir_eq, metadataDir_eq, List.prefix_append_right_inj,
      DirPath.prefix_iff (slash_not_mem_append p.slash_not_mem)
        (slash_not_mem_append q.slash_not_mem), List.prefix_concat_iff, List.append_left_inj]
    exact or_iff_right (fun h => hpq (Subtype.ext h))
  rw [disjoint_iff, hpre path name hne, hpre name path hne.symm]

/-- A location is apart from a metadata directory unless it is above the reserved prefix. -/
theorem disjoint_location_metadataDir {e : TableEntry} {l : Bytes} (hl : l ∈ dataDir? b e)
    (path : TablePath) :
    Disjoint (l ++ [slash]) (metadataDir b.reserved path) ↔ ¬ l ++ [slash] <+: b.reserved := by
  have hreserved := reserved_prefix_metadataDir b path
  constructor
  · intro h hbelow
    exact h _ (hbelow.trans hreserved) (List.prefix_refl _)
  · intro hbelow k hin hdir
    exact not_reserved_of_location hl hbelow hin (hreserved.trans hdir)

/-! ## Runs -/

/-- Every metadata file is in the metadata directory of some path. -/
def Located (b : TableBucket) (s : Lake) : Prop :=
  s.Settled ∧ ∀ p e, s.tables.get? p = some e → ∃ q, IsFile b q e.metadataLocation

theorem located_step {s : Lake} (h : Located b s) (op : LakeOp) : Located b (s.step b op) := by
  obtain ⟨hchange, hsettled⟩ := step_change (b := b) h.1 op
  refine ⟨hsettled, fun p e he => ?_⟩
  cases hchange with
  | same ht => exact h.2 p e (ht ▸ he)
  | made path new htarget hfile ht =>
      rw [ht] at he
      obtain ⟨rfl, rfl⟩ | ⟨-, hold⟩ := SortedMap.get?_insert_cases he
      · exact ⟨_, hfile⟩
      · exact h.2 p e hold
  | moved path cur next hcur hid hfile ht =>
      rw [ht] at he
      obtain ⟨rfl, rfl⟩ | ⟨-, hold⟩ := SortedMap.get?_insert_cases he
      · exact ⟨_, hfile⟩
      · exact h.2 p e hold
  | renamed src dst cur htarget hne hcur ht =>
      rw [ht] at he
      obtain ⟨-, rfl⟩ | ⟨-, hin⟩ := SortedMap.get?_insert_cases he
      · exact h.2 src cur hcur
      · obtain ⟨-, rfl⟩ | ⟨-, hold⟩ := SortedMap.get?_insert_cases hin
        · exact h.2 src cur hcur
        · exact h.2 p e hold
  | dropped path cur hcur ht =>
      rw [ht] at he
      obtain ⟨-, rfl⟩ | ⟨-, hold⟩ := SortedMap.get?_insert_cases he
      · exact h.2 path cur hcur
      · exact h.2 p e hold

theorem located_run (b : TableBucket) (ops : List LakeOp) : Located b (run b {} ops) := by
  have hempty : Located b {} := ⟨nofun, nofun⟩
  exact List.foldlRecOn ops (step b) hempty (fun _ hs op _ => located_step hs op)

/-- The two directories of a credential and those of the other table are apart. -/
theorem Vendable.disjoint {path name : TablePath} {t u : TableEntry} {locKey : Bytes}
    (h : Vendable b path name t u locKey) (hne : path ≠ name) (hloc : locKey ∈ dataDir? b t)
    {k : Bytes} (hk : locKey ++ [slash] <+: k ∨ metadataDir b.reserved path <+: k) :
    ¬ Owns b name u k := by
  rintro (hdir | ⟨l, hl, hin⟩)
  · rcases hk with hk | hk
    · exact (disjoint_location_metadataDir hloc name).mpr h.below.1 k hk hdir
    · exact (disjoint_metadataDirs hne).mpr h.names k hk hdir
  · rcases hk with hk | hk
    · exact disjoint_locations.mpr (h.locations l hl) k hk hin
    · exact (disjoint_location_metadataDir hl path).mpr (h.below.2 l hl) k hin hk

/-- If nothing below the directories of a credential belongs to the other table, they are
apart. -/
theorem vendable_of_disjoint {path name : TablePath} {t u : TableEntry} {locKey : Bytes}
    (hne : path ≠ name) (hloc : locKey ∈ dataDir? b t)
    (h : ∀ k, locKey ++ [slash] <+: k ∨ metadataDir b.reserved path <+: k → ¬ Owns b name u k)
    (hhome : metadataDir b.reserved path <+: t.metadataLocation) :
    Vendable b path name t u locKey where
  names := (disjoint_metadataDirs hne).mp fun k hk hdir => h k (Or.inr hk) (Or.inl hdir)
  locations l hl := disjoint_locations.mp fun k hk hin => h k (Or.inl hk) (Or.inr ⟨l, hl, hin⟩)
  below :=
    ⟨(disjoint_location_metadataDir hloc name).mp fun k hk hdir => h k (Or.inl hk) (Or.inl hdir),
      fun l hl => (disjoint_location_metadataDir hl path).mp fun k hin hk =>
        h k (Or.inr hk) (Or.inr ⟨l, hl, hin⟩)⟩
  home := hhome

/-- Vended credentials are scoped to their table exactly when the directories of the tables
are apart and the table's metadata file was written under its current name. -/
theorem vended_scoped_iff (fnmatch : Bytes → Bytes → Bool) (b : TableBucket)
    (hfn : fnmatch b.bucket b.bucket = true) (ops : List LakeOp) {path name : TablePath}
    {t u : TableEntry} (hne : path ≠ name) (ht : (run b {} ops).tables.get? path = some t) :
    Scoped fnmatch b path name t u ↔
      ∀ locKey ∈ dataDir? b t, Vendable b path name t u locKey := by
  obtain ⟨q, hfile⟩ := (located_run b ops).2 path t ht
  have hfilenil : t.metadataLocation ≠ [] := by
    obtain ⟨gen, uuid, -, heq⟩ := hfile
    simp [heq, metadataKey, metadataDir]
  constructor
  · intro h locKey hloc
    obtain ⟨hdeny, hread⟩ := h false _ (vendingPolicy_of_dataDir hloc false)
    have hdisjoint (k : Bytes)
        (hk : locKey ++ [slash] <+: k ∨ metadataDir b.reserved path <+: k) : ¬ Owns b name u k := by
      intro howns
      have hnil : k ≠ [] := by
        rintro rfl
        rcases hk with hk | hk <;> simp [metadataDir] at hk
      have hallow := (vended_allows_iff hfn hnil false .Read).mpr ⟨Or.inl rfl, hk⟩
      exact absurd hallow (by rw [hdeny k .Read howns]; decide)
    refine vendable_of_disjoint hne hloc hdisjoint ?_
    -- The file is under the reserved prefix, so it is not under the location.
    rcases ((vended_allows_iff hfn hfilenil false .Read).mp hread).2 with hin | hdir
    · have hbelow := (disjoint_location_metadataDir hloc name).mp fun k hk hdir =>
        hdisjoint k (Or.inl hk) (Or.inl hdir)
      exact absurd hfile.reserved (not_reserved_of_location hloc hbelow hin)
    · exact hdir
  · intro h readonly p hp
    obtain ⟨locKey, hloc, rfl⟩ := vendingPolicy_ok hp
    have hv := h locKey hloc
    have hnil {k : Bytes} (hk : Owns b name u k) : k ≠ [] := by
      rintro rfl
      rcases hk with hk | ⟨l, -, hk⟩ <;> simp [metadataDir] at hk
    refine ⟨fun k a howns => ?_, ?_⟩
    · rw [Bool.eq_false_iff]
      intro hallow
      exact hv.disjoint hne hloc ((vended_allows_iff hfn (hnil howns) readonly a).mp hallow).2 howns
    · exact (vended_allows_iff hfn hfilenil readonly .Read).mpr ⟨Or.inr rfl, Or.inr hv.home⟩

theorem vended_scoped_iff_apart :
    ∃ t u, (run tablesBucket {} ordersAndReturns).tables.get? salesOrders = some t ∧
      (run tablesBucket {} ordersAndReturns).tables.get? salesReturns = some u ∧
      (dataDir? tablesBucket t).isSome ∧
      Scoped (fun g k => g = k) tablesBucket salesOrders salesReturns t u := by
  have hvend : ∀ t ∈ (run tablesBucket {} ordersAndReturns).tables.get? salesOrders,
      ∀ u ∈ (run tablesBucket {} ordersAndReturns).tables.get? salesReturns,
      (dataDir? tablesBucket t).isSome ∧ ∀ locKey ∈ dataDir? tablesBucket t,
        Vendable tablesBucket salesOrders salesReturns t u locKey := by decide +kernel
  obtain ⟨t, ht⟩ : ∃ t, (run tablesBucket {} ordersAndReturns).tables.get? salesOrders = some t :=
    Option.isSome_iff_exists.mp (by decide +kernel)
  obtain ⟨u, hu⟩ : ∃ u, (run tablesBucket {} ordersAndReturns).tables.get? salesReturns = some u :=
    Option.isSome_iff_exists.mp (by decide +kernel)
  obtain ⟨hsome, hv⟩ := hvend t ht u hu
  exact ⟨t, u, ht, hu, hsome,
    (vended_scoped_iff _ tablesBucket (by simp) ordersAndReturns (by decide) ht).mpr hv⟩

/-- A table and one whose namespace has the path of the first, and a table that is renamed. -/
def nestedAndRenamed : List LakeOp :=
  [.createNamespace [ascii "a"], .createNamespace [ascii "a", ascii "b"],
    .createTable tableAb none (idsAt "1"), .createTable tableAbc none (idsAt "2"),
    .createNamespace [ascii "sales"], .createTable salesOrders none (idsAt "3"),
    .renameTable salesOrders salesReturns]

/-- The credential of `a.b` opens files of the live table `a.b.c`, and the credential of a
renamed table does not open its own metadata file. -/
theorem nestedAndRenamed_not_scoped :
    let s := run tablesBucket {} nestedAndRenamed
    ∃ t u r, s.tables.get? tableAb = some t ∧ s.tables.get? tableAbc = some u ∧
      s.tables.get? salesReturns = some r ∧
      (t.state = .Active ∧ u.state = .Active ∧ r.state = .Active) ∧
      ¬ Scoped (fun g k => g = k) tablesBucket tableAb tableAbc t u ∧
      ¬ Scoped (fun g k => g = k) tablesBucket salesReturns tableAb r t := by
  intro s
  obtain ⟨t, ht⟩ : ∃ t, s.tables.get? tableAb = some t :=
    Option.isSome_iff_exists.mp (by decide +kernel)
  obtain ⟨u, hu⟩ : ∃ u, s.tables.get? tableAbc = some u :=
    Option.isSome_iff_exists.mp (by decide +kernel)
  obtain ⟨r, hr⟩ : ∃ r, s.tables.get? salesReturns = some r :=
    Option.isSome_iff_exists.mp (by decide +kernel)
  have hlive : ∀ t ∈ s.tables.get? tableAb, ∀ u ∈ s.tables.get? tableAbc,
      ∀ r ∈ s.tables.get? salesReturns,
      t.state = .Active ∧ u.state = .Active ∧ r.state = .Active := by decide +kernel
  have hopen : ∀ t ∈ s.tables.get? tableAb, ∀ u ∈ s.tables.get? tableAbc,
      (∃ l ∈ dataDir? tablesBucket u, l ++ [slash] <+: ascii "a/b/c/data/f") ∧
      ∃ l ∈ dataDir? tablesBucket t, CredentialPolicy.allows (fun g k => g = k)
        { buckets := [tablesBucket.bucket],
          prefixes := [l ++ [slash], metadataDir tablesBucket.reserved tableAb],
          readonly := false } tablesBucket.bucket (ascii "a/b/c/data/f") .Read = true := by
    decide +kernel
  have hclosed : ∀ r ∈ s.tables.get? salesReturns, ∃ l ∈ dataDir? tablesBucket r,
      CredentialPolicy.allows (fun g k => g = k)
        { buckets := [tablesBucket.bucket],
          prefixes := [l ++ [slash], metadataDir tablesBucket.reserved salesReturns],
          readonly := false } tablesBucket.bucket r.metadataLocation .Read = false := by
    decide +kernel
  refine ⟨t, u, r, ht, hu, hr, hlive t ht u hu r hr, fun h => ?_, fun h => ?_⟩
  · obtain ⟨howns, l, hl, hallow⟩ := hopen t ht u hu
    have hdeny := (h false _ (vendingPolicy_of_dataDir hl false)).1 _ .Read (Or.inr howns)
    exact absurd hallow (by rw [hdeny]; decide)
  · obtain ⟨l, hl, hdeny⟩ := hclosed r hr
    have hread := (h false _ (vendingPolicy_of_dataDir hl false)).2
    exact absurd hread (by rw [hdeny]; decide)

end Lake

end Lights3
