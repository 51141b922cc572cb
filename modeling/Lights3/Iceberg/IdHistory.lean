import Lights3.Iceberg.WellFormed
import Lights3.Lib.Numbered

/-!
# Ids over the life of a table

New schemas and partition specs get the id after the highest one that is still there, and a
transition is compared with the version before it only. When the highest schema is removed by
one request, the next one that is added gets its id again. As long as no request removes the
highest id, an id means the same in all versions. Sort orders are never removed.
-/
namespace Lights3.Iceberg
open ByteString Numbered

theorem Applier.lt_nextId (first : Int) (ids : List Int) :
    first ≤ nextId first ids ∧ ∀ id ∈ ids, id < nextId first ids := by
  unfold nextId
  induction ids generalizing first with
  | nil => simp
  | cons x ids ih =>
      obtain ⟨hle, hall⟩ := ih (max first (x + 1))
      rw [List.foldl_cons]
      refine ⟨by omega, fun id hid => ?_⟩
      rcases List.mem_cons.mp hid with rfl | hid
      · omega
      · exact hall id hid

namespace TableMetadata

variable {md : TableMetadata}

theorem map_schemaBodies : md.schemaBodies.map Prod.fst = md.schemaIds := by
  simp [schemaBodies, schemaIds]

theorem map_specBodies : md.specBodies.map Prod.fst = md.specIds := by
  simp [specBodies, specIds]

theorem map_orderBodies : md.orderBodies.map Prod.fst = md.orderIds := by
  simp [orderBodies, orderIds]

end TableMetadata

theorem SameParts.schemaBodies {md md' : TableMetadata} (h : SameParts md md') :
    md'.schemaBodies = md.schemaBodies := by
  rw [TableMetadata.schemaBodies, h.schemas, TableMetadata.schemaBodies]

theorem SameParts.specBodies {md md' : TableMetadata} (h : SameParts md md') :
    md'.specBodies = md.specBodies := by
  rw [TableMetadata.specBodies, h.partitionSpecs, TableMetadata.specBodies]

/-! ## One request -/

/-- The highest schema and the highest partition spec of a version are not removed. -/
def Update.SparesTop (md : TableMetadata) : Update → Prop
  | .removeSchemas ids => Numbered.SparesTop md.schemaIds ids
  | .removePartitionSpecs ids => Numbered.SparesTop md.specIds ids
  | _ => True

instance (md : TableMetadata) (u : Update) : Decidable (u.SparesTop md) := by
  unfold Update.SparesTop
  split <;> infer_instance

/-- The filter by ids on elements and on the pairs of ids and bodies. -/
theorem filter_bodies {α β : Type} (key : α → Int) (body : α → β) (xs : List α) (ids : List Int) :
    (xs.filter (fun x => key x ∉ ids)).map (fun x => (key x, body x)) =
      (xs.map (fun x => (key x, body x))).filter (fun x => x.1 ∉ ids) := by
  rw [List.filter_map]
  rfl

variable {base md md' : TableMetadata} {u : Update}

theorem SchemasChange.keeps {t : Int × SchemaBody} (hc : SchemasChange u md md')
    (h : Keeps t base.schemaBodies md.schemaBodies)
    (hspare : ∀ ids, u = .removeSchemas ids → t.1 ∉ ids) :
    Keeps t base.schemaBodies md'.schemaBodies := by
  unfold TableMetadata.schemaBodies at h ⊢
  cases hc with
  | same hs => rwa [hs]
  | added body hs =>
      rw [hs, List.map_append]
      refine h.append (fun x hx => ?_)
      obtain ⟨s, hs, rfl⟩ := List.mem_map.mp hx
      exact (Applier.lt_nextId 0 md.schemaIds).2 _ (List.mem_map_of_mem hs)
  | removed ids hu hs =>
      rw [hs, filter_bodies]
      exact h.filter (hspare ids hu)

theorem SpecsChange.keeps {t : Int × SpecBody} (hc : SpecsChange u md md')
    (h : Keeps t base.specBodies md.specBodies)
    (hspare : ∀ ids, u = .removePartitionSpecs ids → t.1 ∉ ids) :
    Keeps t base.specBodies md'.specBodies := by
  unfold TableMetadata.specBodies at h ⊢
  cases hc with
  | same hs => rwa [hs]
  | added sources given body last hu hfields hs =>
      rw [hs, List.map_append]
      refine h.append (fun x hx => ?_)
      obtain ⟨s, hs, rfl⟩ := List.mem_map.mp hx
      exact (Applier.lt_nextId 0 md.specIds).2 _ (List.mem_map_of_mem hs)
  | removed ids hu hs =>
      rw [hs, filter_bodies]
      exact h.filter (hspare ids hu)

theorem OrdersChange.extends (hc : OrdersChange md md') : md.sortOrders <+: md'.sortOrders := by
  cases hc with
  | same hs => rw [hs]
  | added body hnew hs =>
      rw [hs]
      exact List.prefix_append _ _

/-! ## One commit -/

theorem mem_of_mem_inOrder {updates : List Update} (h : u ∈ inOrder updates) : u ∈ updates := by
  rcases List.mem_append.mp h with h | h
  · exact (List.mem_filter.mp h).1
  · exact (List.mem_filter.mp h).1

variable {opt : TableBucket} {c : CommitStep}

theorem commit_grows (hwf : WellFormed md) (hspare : ∀ u ∈ c.updates, u.SparesTop md)
    (h : commit opt md c = .ok md') :
    Grows md.schemaBodies md'.schemaBodies ∧ Grows md.specBodies md'.specBodies := by
  obtain ⟨a, ha, -, -, rfl⟩ := commit_ok h
  have hsame := finish_same a.md c.prevMetadataLocation c.nowMs c.metadataLogKeep
  have hschemas : md.schemaBodies ≠ [] := by
    intro hnil
    have := hwf.currentSchema
    rw [← TableMetadata.map_schemaBodies, hnil] at this
    cases this
  have hspecs : md.specBodies ≠ [] := by
    intro hnil
    have := hwf.defaultSpec
    rw [← TableMetadata.map_specBodies, hnil] at this
    cases this
  obtain ⟨t, ht, htop⟩ := exists_top hschemas
  obtain ⟨p, hp, hptop⟩ := exists_top hspecs
  have hkeeps : Keeps t md.schemaBodies a.md.schemaBodies ∧
      Keeps p md.specBodies a.md.specBodies := by
    refine foldlM_ok_invariant (P := fun a => Keeps t md.schemaBodies a.md.schemaBodies ∧
      Keeps p md.specBodies a.md.specBodies) ?_ ⟨.refl ht, .refl hp⟩ ha
    intro a u hu a' hk hstep
    have hch := Applier.apply_changes hstep
    have hspare := hspare u (mem_of_mem_inOrder hu)
    constructor
    · refine hch.schemas.keeps hk.1 (fun ids heq => ?_)
      rw [heq, Update.SparesTop, ← TableMetadata.map_schemaBodies] at hspare
      exact hspare.not_mem ht htop
    · refine hch.specs.keeps hk.2 (fun ids heq => ?_)
      rw [heq, Update.SparesTop, ← TableMetadata.map_specBodies] at hspare
      exact hspare.not_mem hp hptop
  rw [hsame.schemaBodies, hsame.specBodies]
  exact ⟨hkeeps.1.grows htop, hkeeps.2.grows hptop⟩

theorem commit_orders (h : commit opt md c = .ok md') : md.sortOrders <+: md'.sortOrders := by
  obtain ⟨a, ha, -, -, rfl⟩ := commit_ok h
  rw [(finish_same a.md c.prevMetadataLocation c.nowMs c.metadataLogKeep).sortOrders]
  refine foldlM_ok_invariant (P := fun a => md.sortOrders <+: a.md.sortOrders) ?_
    (List.prefix_refl _) ha
  intro a u _ a' hk hstep
  exact hk.trans (Applier.apply_changes hstep).orders.extends

/-! ## Histories -/

variable {vs : List TableMetadata}

theorem History.versions_wellFormed {cond : TableMetadata → CommitStep → Prop}
    (h : History opt cond vs) : ∀ v ∈ vs, WellFormed v := by
  induction h with
  | initial h =>
      intro v hv
      rw [List.mem_singleton.mp hv]
      exact (wellFormed_initial h).1
  | commit _ _ hc ih =>
      intro v hv
      rcases List.mem_cons.mp hv with rfl | hv
      · exact (ih _ List.mem_cons_self).commit hc
      · exact ih v hv

/-- From every version to every later one the ids go up. -/
theorem History.pairwise {cond : TableMetadata → CommitStep → Prop}
    {R : TableMetadata → TableMetadata → Prop} (htrans : ∀ a b c, R a b → R b c → R a c)
    (hstep : ∀ md c md', WellFormed md → cond md c → Iceberg.commit opt md c = .ok md' → R md md')
    (h : History opt cond vs) : vs.Pairwise (fun new old => R old new) := by
  induction h with
  | initial _ => exact List.pairwise_singleton _ _
  | commit hist hcond hc ih =>
      refine List.pairwise_cons.mpr ⟨fun old hold => ?_, ih⟩
      have hnew := hstep _ _ _ (hist.versions_wellFormed _ List.mem_cons_self) hcond hc
      rcases List.mem_cons.mp hold with rfl | hold
      · exact hnew
      · exact htrans _ _ _ ((List.pairwise_cons.mp ih).1 old hold) hnew

theorem agree_of_pairwise {β : Type} {bodies : TableMetadata → List (Int × β)}
    (hpair : vs.Pairwise (fun new old => Agree (bodies old) (bodies new)))
    (hnodup : ∀ v ∈ vs, ((bodies v).map Prod.fst).Nodup) :
    ∀ v ∈ vs, ∀ w ∈ vs, Agree (bodies v) (bodies w) := by
  have hsymm : Std.Symm (fun new old => Agree (bodies old) (bodies new)) := ⟨fun _ _ h => h.symm⟩
  have hself (v : TableMetadata) (hv : v ∈ vs) : Agree (bodies v) (bodies v) :=
    agree_self (hnodup v hv)
  exact fun v hv w hw => hpair.forall_of_forall (fun v hv => hself v hv) hw hv

/-- When no request removes the highest schema or the highest partition spec, an id has the same
body in all versions; the id of a sort order always has. -/
theorem ids_not_recycled (opt : TableBucket) (vs : List TableMetadata) :
    (History opt (fun md c => ∀ u ∈ c.updates, u.SparesTop md) vs →
      ∀ v ∈ vs, ∀ w ∈ vs, Agree v.schemaBodies w.schemaBodies ∧
        Agree v.specBodies w.specBodies) ∧
    (History opt (fun _ _ => True) vs → ∀ v ∈ vs, ∀ w ∈ vs, Agree v.orderBodies w.orderBodies) := by
  constructor
  · intro hist
    have hwf := hist.versions_wellFormed
    have hgrows := hist.pairwise
      (R := fun old new => Grows old.schemaBodies new.schemaBodies ∧
        Grows old.specBodies new.specBodies)
      (fun _ _ _ h₁ h₂ => ⟨h₁.1.trans h₂.1, h₁.2.trans h₂.2⟩)
      (fun _ _ _ hwf hspare hc => commit_grows hwf hspare hc)
    have hschemaIds (v : TableMetadata) (hv : v ∈ vs) : (v.schemaBodies.map Prod.fst).Nodup :=
      TableMetadata.map_schemaBodies ▸ (hwf v hv).schemaIds
    have hspecIds (v : TableMetadata) (hv : v ∈ vs) : (v.specBodies.map Prod.fst).Nodup :=
      TableMetadata.map_specBodies ▸ (hwf v hv).specIds
    have hschemas := agree_of_pairwise
      (hgrows.imp_of_mem (fun _ hold h => h.1.agree (hschemaIds _ hold))) hschemaIds
    have hspecs := agree_of_pairwise
      (hgrows.imp_of_mem (fun _ hold h => h.2.agree (hspecIds _ hold))) hspecIds
    exact fun v hv w hw => ⟨hschemas v hv w hw, hspecs v hv w hw⟩
  · intro hist
    have hwf := hist.versions_wellFormed
    have horders := hist.pairwise (R := fun old new => old.sortOrders <+: new.sortOrders)
      (fun _ _ _ h₁ h₂ => h₁.trans h₂) (fun _ _ _ _ _ hc => commit_orders hc)
    have hids (v : TableMetadata) (hv : v ∈ vs) : (v.orderBodies.map Prod.fst).Nodup :=
      TableMetadata.map_orderBodies ▸ (hwf v hv).orderIds
    refine agree_of_pairwise (horders.imp_of_mem (fun {new old} hnew _ h id b c hb hc => ?_)) hids
    exact agree_self (hids new hnew) id b c ((h.map _).subset hb) hc

/-! ## A column under the same schema id -/

/-- The columns of `orders` and one more. -/
def ordersWith (id : Int) (name type : Bytes) : SchemaBody where
  fields :=
    .cons 1 (ascii "id") (.primitive (ascii "long")) (some true) []
      (.cons 2 (ascii "day") (.primitive (ascii "date")) none []
        (.cons id name (.primitive type) none [] .nil))

def priceSchema : SchemaBody := ordersWith 3 (ascii "price") (ascii "double")
def noteSchema : SchemaBody := ordersWith 4 (ascii "note") (ascii "string")

theorem ids_not_recycled_evolved :
    ∃ vs, History lake (fun md c => ∀ u ∈ c.updates, u.SparesTop md) vs ∧
    (∃ v ∈ vs, (1, priceSchema) ∈ v.schemaBodies) ∧ (∃ v ∈ vs, (2, noteSchema) ∈ v.schemaBodies) ∧
    ∀ v ∈ vs, ∀ w ∈ vs, Agree v.schemaBodies w.schemaBodies ∧ Agree v.specBodies w.specBodies ∧
      Agree v.orderBodies w.orderBodies := by
  have hrun : ∃ vs ∈ versions lake (fun md c => ∀ u ∈ c.updates, u.SparesTop md) orders
      [{ updates := [.addSchema priceSchema none] }, { updates := [.addSchema noteSchema none] },
        { updates := [.removeSchemas [1]] }],
      (∃ v ∈ vs, (1, priceSchema) ∈ v.schemaBodies) ∧
      ∃ v ∈ vs, (2, noteSchema) ∈ v.schemaBodies := by
    decide +kernel
  obtain ⟨vs, hvs, hprice, hnote⟩ := hrun
  have hist := versions_history hvs
  obtain ⟨hbodies, horders⟩ := ids_not_recycled lake vs
  refine ⟨vs, hist, hprice, hnote, fun v hv w hw => ?_⟩
  have hv' := hbodies hist v hv w hw
  exact ⟨hv'.1, hv'.2, horders (hist.imp (fun _ _ _ => trivial)) v hv w hw⟩

/-- The schema that was added last is removed, and the next one gets its id. -/
theorem noteSchema_takes_id_of_priceSchema : ∃ vs, History lake (fun _ _ => True) vs ∧
    ∃ v ∈ vs, ∃ w ∈ vs, (1, priceSchema) ∈ v.schemaBodies ∧ (1, noteSchema) ∈ w.schemaBodies ∧
      priceSchema ≠ noteSchema := by
  have hrun : ∃ vs ∈ versions lake (fun _ _ => True) orders
      [{ updates := [.addSchema priceSchema none] }, { updates := [.removeSchemas [1]] },
        { updates := [.addSchema noteSchema none] }],
      (∃ v ∈ vs, (1, priceSchema) ∈ v.schemaBodies) ∧
      ∃ w ∈ vs, (1, noteSchema) ∈ w.schemaBodies := by
    decide +kernel
  obtain ⟨vs, hvs, ⟨v, hv, hprice⟩, w, hw, hnote⟩ := hrun
  exact ⟨vs, versions_history hvs, v, hv, w, hw, hprice, hnote, by decide⟩

/-! ## Counters -/

def TableMetadata.counters (md : TableMetadata) : Int × Int × Int × Int :=
  (md.formatVersion, md.lastColumnId, md.lastPartitionId, md.lastSequenceNumber.getD 0)

theorem Changes.counters_le (h : Changes opt u md md') : md.counters ≤ md'.counters := by
  simp only [TableMetadata.counters, Prod.mk_le_mk]
  refine ⟨?_, ?_, ?_, ?_⟩
  · cases h.snapshots <;> omega
  · cases h.schemas <;> omega
  · cases h.specs <;> omega
  · cases h.snapshots <;> simp [*]

theorem actions_counters {us : List Update} {a : Applier}
    (h : us.foldlM (fun a u => Applier.apply a opt u) { md } = .ok a) :
    md.counters ≤ a.md.counters :=
  foldlM_ok_invariant (P := fun a : Applier => md.counters ≤ a.md.counters)
    (fun _ _ _ _ h hstep => h.trans (Applier.apply_changes hstep).counters_le) le_rfl h

/-- `check_transition` without its checks of counters. -/
def checkExisting (current next : TableMetadata) : Except RestError Unit := do
  require (current.tableUuid = next.tableUuid) (commitFailed (ascii "table uuid cannot change"))
  sameExisting (ascii "schema") current.schemaBodies next.schemaBodies
  sameExisting (ascii "partition spec") current.specBodies next.specBodies
  sameExisting (ascii "sort order") current.orderBodies next.orderBodies
  sameExisting (ascii "snapshot") current.snapshotBodies next.snapshotBodies
  checkNewSchemas current next

theorem checkTransition_of_counters_le {next : TableMetadata} (h : md.counters ≤ next.counters) :
    checkTransition md next = checkExisting md next := by
  simp only [TableMetadata.counters, Prod.mk_le_mk, Nat.cast_le] at h
  simp only [checkTransition, checkExisting, require, decide_eq_true_eq, h, if_true]
  rfl

/-- No updates lower a counter of any document, so no transition is refused for one, and over the
life of a table they never go down. -/
theorem counters_rise (opt : TableBucket) :
    (∀ md us next, applyUpdates opt md us = .ok next →
      md.counters ≤ next.counters ∧ checkTransition md next = checkExisting md next) ∧
    ∀ vs, History opt (fun _ _ => True) vs → vs.Pairwise fun new old =>
      old.counters ≤ new.counters := by
  refine ⟨fun md us next h => ?_, fun vs h =>
    h.pairwise (fun _ _ _ => le_trans) fun md c _ _ _ hc => ?_⟩
  · obtain ⟨a, ha, h⟩ := of_bind_ok h
    obtain ⟨-, -, ⟨⟩⟩ := of_bind_ok h
    have hle : md.counters ≤ (synchronizeVersionFields a.md).counters := by
      obtain ⟨_, _, heq⟩ := synchronize_eq a.md
      rw [heq]
      exact actions_counters ha
    exact ⟨hle, checkTransition_of_counters_le hle⟩
  · obtain ⟨a, ha, -, -, rfl⟩ := commit_ok hc
    obtain ⟨_, _, _, heq⟩ := finish_eq a.md c.prevMetadataLocation c.nowMs c.metadataLogKeep
    rw [heq]
    exact actions_counters ha

end Lights3.Iceberg
