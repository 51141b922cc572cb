import Lights3.Iceberg.WellFormed

/-!
# The columns of a new table

`initial_metadata` counts the ids of all fields anew and maps the ids of the client, by their
order in the walk over the schema. A field is found again by its path. Partition, sort and
identifier fields point to the same path as before, but an id that is not in the schema of the
client is taken as it is, and only some of these are refused.
-/
namespace Lights3.Iceberg
open ByteString

/-! ## Paths -/

inductive PathStep where
  | field (index : Nat) (name : Bytes) | element | key | value

abbrev FieldPath := List PathStep

mutual

/-- The ids of a type with the paths of their fields below `here`. -/
def IcebergType.paths {ι : Type} (here : FieldPath) : IcebergType ι → List (ι × FieldPath)
  | .primitive _ => []
  | .struct fields _ => fields.paths here 0
  | .list id element _ _ => (id, here ++ [.element]) :: element.paths (here ++ [.element])
  | .map keyId valueId key value _ _ =>
      (keyId, here ++ [.key]) :: (valueId, here ++ [.value]) ::
        (key.paths (here ++ [.key]) ++ value.paths (here ++ [.value]))

def StructFields.paths {ι : Type} (here : FieldPath) (index : Nat) :
    StructFields ι → List (ι × FieldPath)
  | .nil => []
  | .cons id name type _ _ tail =>
      (id, here ++ [.field index name]) ::
        (type.paths (here ++ [.field index name]) ++ tail.paths here (index + 1))

end

mutual

/-- A type without its ids and with the defaults for what is required. -/
def IcebergType.shape {ι : Type} : IcebergType ι → IcebergType Unit
  | .primitive name => .primitive name
  | .struct fields rest => .struct fields.shape rest
  | .list _ element required rest => .list () element.shape (some (required.getD false)) rest
  | .map _ _ key value required rest =>
      .map () () key.shape value.shape (some (required.getD false)) rest

def StructFields.shape {ι : Type} : StructFields ι → StructFields Unit
  | .nil => .nil
  | .cons _ name type required rest tail =>
      .cons () name type.shape (some (required.getD false)) rest tail.shape

end

mutual

theorem IcebergType.paths_ids (t : IcebergType Int) (here : FieldPath) :
    (t.paths here).map Prod.fst = t.infos.map Prod.fst := by
  cases t with
  | primitive name => rfl
  | struct fields rest => exact fields.paths_ids here 0
  | list id element required rest => simp [IcebergType.paths, IcebergType.infos, element.paths_ids]
  | map keyId valueId key value required rest =>
      simp [IcebergType.paths, IcebergType.infos, key.paths_ids, value.paths_ids]

theorem StructFields.paths_ids (t : StructFields Int) (here : FieldPath) (index : Nat) :
    (t.paths here index).map Prod.fst = t.infos.map Prod.fst := by
  cases t with
  | nil => rfl
  | cons id name type required rest tail =>
      simp [StructFields.paths, StructFields.infos, type.paths_ids, tail.paths_ids]

end

mutual

/-- Paths do not depend on the ids. -/
theorem IcebergType.paths_shape {ι : Type} (t : IcebergType ι) (here : FieldPath) :
    (t.paths here).map Prod.snd = (t.shape.paths here).map Prod.snd := by
  cases t with
  | primitive name => rfl
  | struct fields rest => exact fields.paths_shape here 0
  | list id element required rest =>
      simp [IcebergType.paths, IcebergType.shape, element.paths_shape]
  | map keyId valueId key value required rest =>
      simp [IcebergType.paths, IcebergType.shape, key.paths_shape, value.paths_shape]

theorem StructFields.paths_shape {ι : Type} (t : StructFields ι) (here : FieldPath) (index : Nat) :
    (t.paths here index).map Prod.snd = (t.shape.paths here index).map Prod.snd := by
  cases t with
  | nil => rfl
  | cons id name type required rest tail =>
      simp [StructFields.paths, StructFields.shape, type.paths_shape, tail.paths_shape]

end

/-! ## Fresh ids -/

/-- `n` ids from `next` on. -/
def idsFrom (next : Int) (n : Nat) : List Int :=
  (List.range n).map (fun k : Nat => next + (k : Int))

theorem idsFrom_add (next : Int) (m n : Nat) :
    idsFrom next (m + n) = idsFrom next m ++ idsFrom (next + m) n := by
  unfold idsFrom
  rw [List.range_add, List.map_append, List.map_map]
  congr 1
  exact List.map_congr_left (fun k _ => by simp only [Function.comp_apply]; omega)

mutual

/-- The new tree is the old one with ids in the order of the walk. -/
theorem IcebergType.assign_fresh {t : IcebergType (Option Int)} {t' : IcebergType Int}
    {next next' : Int} (h : t.assign next = .ok (t', next')) :
    t'.shape = t.shape ∧ ∃ n : Nat, next' = next + n ∧ t'.infos.map Prod.fst = idsFrom next n := by
  cases t with
  | primitive name =>
      obtain ⟨-, -, h⟩ := of_bind_ok h
      cases h
      exact ⟨rfl, 0, by simp, rfl⟩
  | struct fields rest =>
      obtain ⟨⟨fields', n⟩, hf, h⟩ := of_bind_ok h
      cases h
      obtain ⟨hshape, hids⟩ := StructFields.assign_fresh hf
      exact ⟨by rw [IcebergType.shape, IcebergType.shape, hshape], hids⟩
  | list id element required rest =>
      obtain ⟨⟨element', n⟩, he, h⟩ := of_bind_ok h
      cases h
      obtain ⟨hshape, n, rfl, hids⟩ := IcebergType.assign_fresh he
      refine ⟨by simp [IcebergType.shape, hshape], 1 + n, by omega, ?_⟩
      rw [idsFrom_add, IcebergType.infos, List.map_cons, hids]
      simp [idsFrom]
  | map keyId valueId key value required rest =>
      obtain ⟨⟨key', n₁⟩, hk, h⟩ := of_bind_ok h
      obtain ⟨⟨value', n₂⟩, hv, h⟩ := of_bind_ok h
      cases h
      obtain ⟨hshape₁, n₁, rfl, hids₁⟩ := IcebergType.assign_fresh hk
      obtain ⟨hshape₂, n₂, rfl, hids₂⟩ := IcebergType.assign_fresh hv
      refine ⟨by simp [IcebergType.shape, hshape₁, hshape₂], 2 + n₁ + n₂, by omega, ?_⟩
      rw [idsFrom_add, idsFrom_add, IcebergType.infos, List.map_cons, List.map_cons,
        List.map_append, hids₁, hids₂]
      simp [idsFrom, List.range_succ, Int.add_assoc]

theorem StructFields.assign_fresh {t : StructFields (Option Int)} {t' : StructFields Int}
    {next next' : Int} (h : t.assign next = .ok (t', next')) :
    t'.shape = t.shape ∧ ∃ n : Nat, next' = next + n ∧ t'.infos.map Prod.fst = idsFrom next n := by
  cases t with
  | nil =>
      cases h
      exact ⟨rfl, 0, by simp, rfl⟩
  | cons id name type required rest tail =>
      obtain ⟨⟨type', n₁⟩, ht, h⟩ := of_bind_ok h
      obtain ⟨⟨tail', n₂⟩, hr, h⟩ := of_bind_ok h
      cases h
      obtain ⟨hshape₁, n₁, rfl, hids₁⟩ := IcebergType.assign_fresh ht
      obtain ⟨hshape₂, n₂, rfl, hids₂⟩ := StructFields.assign_fresh hr
      refine ⟨by simp [StructFields.shape, hshape₁, hshape₂], 1 + n₁ + n₂, by omega, ?_⟩
      rw [idsFrom_add, idsFrom_add, StructFields.infos, List.map_cons, List.map_append,
        hids₁, hids₂]
      simp [idsFrom, Int.add_assoc]

end

mutual

theorem IcebergType.withIds_shape {t : IcebergType (Option Int)} {t' : IcebergType Int}
    (h : t.withIds = .ok t') : t'.shape = t.shape := by
  cases t with
  | primitive name =>
      cases h
      rfl
  | struct fields rest =>
      obtain ⟨fields', hf, h⟩ := of_bind_ok h
      cases h
      simp [IcebergType.shape, StructFields.withIds_shape hf]
  | list id element required rest =>
      cases id with
      | none => cases h
      | some id =>
          obtain ⟨element', he, h⟩ := of_bind_ok h
          cases h
          simp [IcebergType.shape, IcebergType.withIds_shape he]
  | map keyId valueId key value required rest =>
      cases keyId with
      | none => cases h
      | some keyId =>
          cases valueId with
          | none => cases h
          | some valueId =>
              obtain ⟨key', hk, h⟩ := of_bind_ok h
              obtain ⟨value', hv, h⟩ := of_bind_ok h
              cases h
              simp [IcebergType.shape, IcebergType.withIds_shape hk, IcebergType.withIds_shape hv]

theorem StructFields.withIds_shape {t : StructFields (Option Int)} {t' : StructFields Int}
    (h : t.withIds = .ok t') : t'.shape = t.shape := by
  cases t with
  | nil =>
      cases h
      rfl
  | cons id name type required rest tail =>
      cases id with
      | none => cases h
      | some id =>
          obtain ⟨type', ht, h⟩ := of_bind_ok h
          obtain ⟨tail', hr, h⟩ := of_bind_ok h
          cases h
          simp [StructFields.shape, IcebergType.withIds_shape ht, StructFields.withIds_shape hr]

end

theorem StructFields.hasIds_of_withIds {t : StructFields (Option Int)} {t' : StructFields Int}
    (h : t.withIds = .ok t') : t.hasIds = true := by
  match t with
  | .nil => rfl
  | .cons none _ _ _ _ _ => cases h
  | .cons (some id) _ _ _ _ tail =>
      obtain ⟨_, -, h⟩ := of_bind_ok h
      obtain ⟨_, hr, -⟩ := of_bind_ok h
      rw [StructFields.hasIds, hasIds_of_withIds hr]
      rfl

/-! ## The ids of the client -/

theorem get?_foldl_insert {κ β : Type} [LinearOrder κ] (xs : List (κ × β)) (m : SortedMap κ β)
    (hnodup : (xs.map Prod.fst).Nodup) :
    (∀ x ∈ xs, (xs.foldl (fun m x => m.insert x.1 x.2) m).get? x.1 = some x.2) ∧
      ∀ k ∉ xs.map Prod.fst, (xs.foldl (fun m x => m.insert x.1 x.2) m).get? k = m.get? k := by
  induction xs generalizing m with
  | nil => simp
  | cons y xs ih =>
      obtain ⟨hnot, hnodup⟩ := List.nodup_cons.mp hnodup
      obtain ⟨hmem, hother⟩ := ih (m.insert y.1 y.2) hnodup
      rw [List.foldl_cons]
      refine ⟨fun x hx => ?_, fun k hk => ?_⟩
      · rcases List.mem_cons.mp hx with rfl | hx
        · rw [hother _ hnot, SortedMap.get?_insert, if_pos rfl]
        · exact hmem x hx
      · rw [List.map_cons, List.mem_cons, not_or] at hk
        rw [hother k hk.2, SortedMap.get?_insert, if_neg hk.1]

/-- The ids `c` and `f` are at the same path. -/
def SamePlace (client fresh : StructFields Int) (c f : Int) : Prop :=
  ∃ p, (c, p) ∈ client.paths [] 0 ∧ (f, p) ∈ fresh.paths [] 0

def StructFields.ids (t : StructFields Int) : List Int := t.infos.map Prod.fst

variable {client fresh : StructFields Int} {c f : Int}

theorem SamePlace.mem (h : SamePlace client fresh c f) : c ∈ client.ids := by
  obtain ⟨p, hc, -⟩ := h
  rw [StructFields.ids, ← client.paths_ids [] 0]
  exact List.mem_map_of_mem hc

/-- `id_mapping` of two schemas. -/
def idMapping (client fresh : StructFields Int) : SortedMap Int Int :=
  (client.ids.zip fresh.ids).foldl (fun m x => m.insert x.1 x.2) .empty

/-- Two lists with the same places, zipped. -/
theorem exists_mem_zip {ι π : Type} {xs ys : List (ι × π)} (h : xs.map Prod.snd = ys.map Prod.snd)
    {c : ι} (hc : c ∈ xs.map Prod.fst) :
    ∃ f p, (c, f) ∈ (xs.map Prod.fst).zip (ys.map Prod.fst) ∧ (c, p) ∈ xs ∧ (f, p) ∈ ys := by
  induction xs generalizing ys with
  | nil => cases hc
  | cons x xs ih =>
      cases ys with
      | nil => cases h
      | cons y ys =>
          obtain ⟨hxy, h⟩ := List.cons.inj h
          rcases List.mem_cons.mp hc with rfl | hc
          · exact ⟨y.1, x.2, List.mem_cons_self, List.mem_cons_self, hxy ▸ List.mem_cons_self⟩
          · obtain ⟨f, p, hzip, hx, hy⟩ := ih h hc
            exact ⟨f, p, List.mem_cons_of_mem _ hzip, List.mem_cons_of_mem _ hx,
              List.mem_cons_of_mem _ hy⟩

theorem idMapping_spec (hshape : fresh.shape = client.shape) (hnodup : client.ids.Nodup) (c : Int) :
    (c ∈ client.ids → ∃ f, (idMapping client fresh).get? c = some f ∧ SamePlace client fresh c f) ∧
      (c ∉ client.ids → (idMapping client fresh).get? c = none) := by
  have hpaths : (client.paths [] 0).map Prod.snd = (fresh.paths [] 0).map Prod.snd := by
    rw [client.paths_shape, fresh.paths_shape, hshape]
  have hlength : client.ids.length = fresh.ids.length := by
    unfold StructFields.ids
    rw [← client.paths_ids [] 0, ← fresh.paths_ids [] 0]
    simpa using congrArg List.length hpaths
  have hfst : (client.ids.zip fresh.ids).map Prod.fst = client.ids := List.map_fst_zip hlength.le
  obtain ⟨hmem, hother⟩ := get?_foldl_insert (client.ids.zip fresh.ids) .empty (by rwa [hfst])
  rw [hfst] at hother
  refine ⟨fun hc => ?_, fun hc => (hother c hc).trans (SortedMap.get?_empty c)⟩
  unfold StructFields.ids at hc
  rw [← client.paths_ids [] 0] at hc
  obtain ⟨f, p, hzip, hp, hp'⟩ := exists_mem_zip hpaths hc
  rw [client.paths_ids, fresh.paths_ids] at hzip
  exact ⟨f, hmem (c, f) hzip, p, hp, hp'⟩

section Sources

variable {fieldIds : List Int} (hshape : fresh.shape = client.shape) (hnodup : client.ids.Nodup)

include hshape hnodup

/-- Where an id is mapped, or kept if there is nothing to map. -/
theorem samePlace_iff_mem (c : Int) :
    SamePlace client fresh c (((idMapping client fresh).get? c).getD c) ↔ c ∈ client.ids := by
  refine ⟨SamePlace.mem, fun hc => ?_⟩
  obtain ⟨f, hf, hplace⟩ := (idMapping_spec hshape hnodup c).1 hc
  rwa [hf]

/-- A source id that was accepted points to the same field, unless it is none of the client's. -/
theorem samePlace_iff_of_remapSource (h : remapSource (idMapping client fresh) fieldIds c = .ok f) :
    SamePlace client fresh c f ↔ c ∈ client.ids ∨ c ∉ fieldIds := by
  obtain ⟨⟨⟩, hmem, h⟩ := of_bind_ok h
  cases h
  have hmem := of_decide_eq_true (require_eq_ok.mp hmem)
  rw [samePlace_iff_mem hshape hnodup]
  refine ⟨.inl, fun hcases => ?_⟩
  by_contra hc
  rw [(idMapping_spec hshape hnodup c).2 hc] at hmem
  exact hcases.resolve_left hc hmem

end Sources

theorem initialSpecFields_sources {remap : SortedMap Int Int} {fieldIds : List Int} {last : Int}
    {given : List ClientPartitionField} {fields : List PartitionField}
    (h : initialSpecFields remap fieldIds last given = .ok fields) :
    List.Forall₂ (fun g f => remapSource remap fieldIds g.sourceId = .ok f.sourceId)
    given fields := by
  induction given generalizing last fields with
  | nil =>
      cases h
      exact .nil
  | cons g given ih =>
      obtain ⟨src, hsrc, h⟩ := of_bind_ok h
      obtain ⟨-, -, h⟩ := of_bind_ok h
      obtain ⟨rest, hrest, h⟩ := of_bind_ok h
      cases h
      exact .cons hsrc (ih hrest)

theorem forall₂_iff_of_forall₂ {α β : Type} {R S : α → β → Prop} {P : α → Prop} {xs : List α}
    {ys : List β} (hR : List.Forall₂ R xs ys) (h : ∀ x y, R x y → (S x y ↔ P x)) :
    List.Forall₂ S xs ys ↔ ∀ x ∈ xs, P x := by
  induction hR with
  | nil => simp
  | cons hxy _ ih => rw [List.forall₂_cons, List.forall_mem_cons, ih, h _ _ hxy]

/-! ## New tables -/

/-- Every partition, sort and identifier field of a new table is at the path of the field that
the client meant. -/
def KeepsColumns (i : CreateTableInput) (client : StructFields Int) (body : SchemaBody)
    (spec : List PartitionField) (order : List SortField) : Prop :=
  List.Forall₂ (fun g f => SamePlace client body.fields g.sourceId f.sourceId)
      (i.partitionSpec.getD []) spec ∧
    List.Forall₂ (fun g f => SamePlace client body.fields g.sourceId f.sourceId)
      (i.writeOrder.getD []) order ∧
    List.Forall₂ (SamePlace client body.fields) (i.schema.identifierFieldIds.getD [])
      (body.identifierFieldIds.getD [])

/-- A new table has the schema of the client with the ids from one on, each used once. Its
partition, sort and identifier fields are at the paths that the client meant exactly when no id
outside the schema of the client is the id of a fresh field, and all identifier ids are in it. -/
theorem initialMetadata_keepsColumns (i : CreateTableInput) (client : StructFields Int)
    (md : TableMetadata) (hclient : i.schema.fields.withIds = .ok client)
    (hnodup : client.ids.Nodup) (h : initialMetadata i = .ok md) :
    ∃ body spec order n, md.schemas = [⟨0, body⟩] ∧ md.partitionSpecs = [⟨0, { fields := spec }⟩] ∧
      md.sortOrders.map (·.body.fields) = [order] ∧ md.lastColumnId = (n : Nat) ∧
      body.fields.shape = client.shape ∧ body.rest = i.schema.rest ∧ body.fieldIds = idsFrom 1 n ∧
      (KeepsColumns i client body spec order ↔
        (∀ g ∈ i.partitionSpec.getD [], g.sourceId ∈ client.ids ∨ g.sourceId ∉ idsFrom 1 n) ∧
        (∀ g ∈ i.writeOrder.getD [], g.sourceId ∈ client.ids ∨ g.sourceId ∉ idsFrom 1 n) ∧
        ∀ id ∈ i.schema.identifierFieldIds.getD [], id ∈ client.ids) := by
  unfold initialMetadata at h
  obtain ⟨-, -, h⟩ := of_bind_ok h
  obtain ⟨⟨fields, next⟩, hassign, h⟩ := of_bind_ok h
  obtain ⟨remap, hremap, h⟩ := of_bind_ok h
  obtain ⟨specFields, hspec, h⟩ := of_bind_ok h
  obtain ⟨orderFields, horder, h⟩ := of_bind_ok h
  obtain ⟨⟨⟩, -, h⟩ := of_bind_ok h
  cases h
  obtain ⟨hshape, n, rfl, hids⟩ := StructFields.assign_fresh hassign
  rw [← StructFields.withIds_shape hclient] at hshape
  have hremap : remap = idMapping client fields := by
    unfold remapOf at hremap
    rw [if_pos (StructFields.hasIds_of_withIds hclient), hclient] at hremap
    obtain ⟨_, ⟨⟩, hremap⟩ := of_bind_ok hremap
    obtain ⟨_, -, hremap⟩ := of_bind_ok hremap
    cases hremap
    rfl
  subst hremap
  obtain ⟨_, _, heq⟩ := synchronize_eq _
  rw [heq]
  refine ⟨_, specFields, orderFields, n, rfl, rfl, rfl, by simp, hshape, rfl, hids, ?_⟩
  have hsource {c f : Int} (hok : remapSource (idMapping client fields)
      (fields.infos.map Prod.fst) c = .ok f) :
      SamePlace client fields c f ↔ c ∈ client.ids ∨ c ∉ idsFrom 1 n :=
    hids ▸ samePlace_iff_of_remapSource hshape hnodup hok
  have horder : List.Forall₂ (fun g f => remapSource (idMapping client fields)
      (fields.infos.map Prod.fst) g.sourceId = .ok f.sourceId)
      (i.writeOrder.getD []) orderFields := by
    refine (mapM_eq_ok.mp horder).imp (fun g f hf => ?_)
    obtain ⟨src, hsrc, hf⟩ := of_bind_ok hf
    cases hf
    exact hsrc
  unfold KeepsColumns
  refine and_congr (forall₂_iff_of_forall₂ (initialSpecFields_sources hspec)
    (fun g f hok => hsource hok))
    (and_congr (forall₂_iff_of_forall₂ horder (fun g f hok => hsource hok)) ?_)
  cases i.schema.identifierFieldIds with
  | none => simp
  | some ids =>
      simp only [Option.map_some, Option.getD_some, List.forall₂_map_right_iff, List.forall₂_same]
      exact forall₂_congr (fun id _ => samePlace_iff_mem hshape hnodup id)

/-- A table of events with the ids of the client out of order and a list of tags. -/
def events (source identifier : Int) : CreateTableInput where
  schema := {
    fields := .cons (some 30) (ascii "id") (.primitive (ascii "long")) (some true) []
      (.cons (some 7) (ascii "tags") (.list (some 12) (.primitive (ascii "string")) none []) none []
        (.cons (some 4) (ascii "day") (.primitive (ascii "date")) none [] .nil))
    identifierFieldIds := some [identifier] }
  partitionSpec := some [{ sourceId := source, name := ascii "day", transform := ascii "identity" }]
  location := ascii "s3://lake/warehouse/events"
  tableUuid := ascii "0d8e31cf-0000-4000-8000-000000000002"

/-- The day is the fourth field, and the identifier is the first. -/
theorem initialMetadata_keepsColumns_events : ∃ client md body spec order,
    initialMetadata (events 4 30) = .ok md ∧ md.partitionFieldIds = [1000] ∧
    spec.map (·.sourceId) = [4] ∧ body.identifierFieldIds = some [1] ∧
    md.schemas = [⟨0, body⟩] ∧ KeepsColumns (events 4 30) client body spec order := by
  have hrun : ∃ client ∈ ((events 4 30).schema.fields.withIds).toOption,
      ∃ md ∈ (initialMetadata (events 4 30)).toOption, client.ids.Nodup ∧
      md.partitionFieldIds = [1000] ∧
      md.partitionSpecs.map (fun s => s.body.fields.map (·.sourceId)) = [[4]] ∧
      md.schemas.map (·.body.identifierFieldIds) = [some [1]] ∧ (4 : Int) ∈ client.ids ∧
      (30 : Int) ∈ client.ids := by
    decide +kernel
  obtain ⟨client, hclient, md, hmd, hnodup, hids, hspec, hident, hday, hid⟩ := hrun
  obtain ⟨body, spec, order, n, hbody, hspecs, -, -, -, -, -, hiff⟩ := initialMetadata_keepsColumns
    (events 4 30) client md (toOption_eq_some.mp hclient) hnodup (toOption_eq_some.mp hmd)
  rw [hspecs] at hspec
  rw [hbody] at hident
  refine ⟨client, md, body, spec, order, toOption_eq_some.mp hmd, hids, List.cons.inj hspec |>.1,
    List.cons.inj hident |>.1, hbody, hiff.mpr ⟨?_, by simp [events], ?_⟩⟩
  · simp [events, hday]
  · simp [events, hid]

/-- No field of the client has the ids one and two. The table is partitioned by its first column,
and its identifier is the list of tags. -/
theorem initialMetadata_takes_unknown_ids : ∃ client md,
    (events 1 2).schema.fields.withIds = .ok client ∧ client.ids.Nodup ∧
    initialMetadata (events 1 2) = .ok md ∧ 1 ∉ client.ids ∧ 2 ∉ client.ids ∧
    md.partitionSpecs.map (fun s => s.body.fields.map (·.sourceId)) = [[1]] ∧
    md.schemas.map (·.body.identifierFieldIds) = [some [2]] := by
  have hrun : ∃ client ∈ ((events 1 2).schema.fields.withIds).toOption,
      ∃ md ∈ (initialMetadata (events 1 2)).toOption, client.ids.Nodup ∧ 1 ∉ client.ids ∧
      2 ∉ client.ids ∧ md.partitionSpecs.map (fun s => s.body.fields.map (·.sourceId)) = [[1]] ∧
      md.schemas.map (·.body.identifierFieldIds) = [some [2]] := by
    decide +kernel
  obtain ⟨client, hclient, md, hmd, hnodup, h⟩ := hrun
  exact ⟨client, md, toOption_eq_some.mp hclient, hnodup, toOption_eq_some.mp hmd, h⟩

end Lights3.Iceberg
