import Lights3.Iceberg.WellFormed

/-!
# What a partition field id means

The fields of a new spec get the ids after the last partition id, or keep the ids that the
client gave them. A kept id is compared with the ids of the same spec only, so a client can give
the id of an old field to a field of another column. All fields that a table ever had are
followed beside its versions, with what each add-spec asked for.
-/
namespace Lights3.Iceberg
open ByteString

/-- The id of the client, where add-spec keeps it. -/
def ClientPartitionField.kept (f : ClientPartitionField) : Option Int :=
  f.fieldId.filter (fun id => 1000 ≤ id)

/-- The partition fields of all specs. -/
def TableMetadata.partitionFields (md : TableMetadata) : List PartitionField :=
  md.partitionSpecs.flatMap (fun s => s.body.fields)

/-- Two fields with one id have one source column and one transform. -/
def SameMeaning (f g : PartitionField) : Prop :=
  f.fieldId = g.fieldId → f.sourceId = g.sourceId ∧ f.transform = g.transform

instance (f g : PartitionField) : Decidable (SameMeaning f g) :=
  inferInstanceAs (Decidable (_ → _))

def OneMeaning (fields : List PartitionField) : Prop :=
  ∀ f ∈ fields, ∀ g ∈ fields, SameMeaning f g

/-- A call of add-spec: the watermark and the fields of the table before it, and its own fields
as they were asked for and as they came out. -/
structure SpecCall where
  last : Int
  used : List PartitionField
  pairs : List (ClientPartitionField × PartitionField)

namespace SpecCall

variable (c : SpecCall)

def fields : List PartitionField := c.pairs.map Prod.snd

/-- An id that the server assigns is above the ids of all fields before it. -/
def assignedAbove : List PartitionField → List (ClientPartitionField × PartitionField) → Prop
  | _, [] => True
  | used, (g, f) :: rest => (g.kept = none → ∀ h ∈ used, h.fieldId < f.fieldId) ∧
      assignedAbove (f :: used) rest

def AssignedAbove : Prop := assignedAbove c.used c.pairs

/-- The counter does not wrap, and an id that is kept means what it meant before. -/
def KeepsMeaning : Prop :=
  NoWrap c.last (c.pairs.map Prod.fst) ∧
    ∀ x ∈ c.pairs, x.1.kept.isSome → ∀ h ∈ c.used, SameMeaning h x.2

instance : Decidable c.KeepsMeaning := inferInstanceAs (Decidable (_ ∧ _))

end SpecCall

/-- The call of add-spec that an action is, if its fields are accepted. -/
def Update.specCall (a : Applier) (used : List PartitionField) : Update → Option SpecCall
  | .addSpec given _ =>
      match Applier.specFields a.currentFieldIds a.md.lastPartitionId [] given with
      | .ok (fields, _) => some ⟨a.md.lastPartitionId, used, given.zip fields⟩
      | .error _ => none
  | _ => none

/-- The calls of add-spec in a list of actions. -/
def specCalls (opt : TableBucket) : Applier → List PartitionField → List Update → List SpecCall
  | _, _, [] => []
  | a, used, u :: us =>
      let calls := (u.specCall a used).toList
      calls ++ match a.apply opt u with
        | .ok a' => specCalls opt a' (used ++ calls.flatMap (·.fields)) us
        | .error _ => []

/-- The versions of a table, the fields it was made with, and its calls of add-spec. -/
inductive SpecHistory (opt : TableBucket) :
    List TableMetadata → List PartitionField → List SpecCall → Prop where
  | initial {i : CreateTableInput} {md : TableMetadata} (h : initialMetadata i = .ok md) :
      SpecHistory opt [md] md.partitionFields []
  | commit {md md' : TableMetadata} {older : List TableMetadata} {first : List PartitionField}
      {calls : List SpecCall} {c : CommitStep} (hist : SpecHistory opt (md :: older) first calls)
      (h : commit opt md c = .ok md') :
      SpecHistory opt (md' :: md :: older) first
        (calls ++ specCalls opt { md } (first ++ calls.flatMap (·.fields)) (inOrder c.updates))

/-! ## The fields of one spec -/

section Fields

variable {sources : List Int} {given : List ClientPartitionField} {last last' : Int}
  {seen : List Int} {fields used : List PartitionField}

theorem specFields_cons {g : ClientPartitionField}
    (h : Applier.specFields sources last seen (g :: given) = .ok (fields, last')) :
    ∃ f rest next, fields = f :: rest ∧ f.fieldId ∉ seen ∧
      Applier.specFields sources next (f.fieldId :: seen) given = .ok (rest, last') ∧
      (g.kept = some f.fieldId ∧ next = max last f.fieldId ∨
        g.kept = none ∧ f.fieldId = Applier.succ64 last ∧ next = f.fieldId) := by
  obtain ⟨⟨⟩, -, h⟩ := of_bind_ok h
  obtain ⟨⟨⟩, hseen, h⟩ := of_bind_ok h
  obtain ⟨⟨rest, l⟩, hrest, h⟩ := of_bind_ok h
  cases h
  refine ⟨_, rest, _, rfl, of_decide_eq_true (require_eq_ok.mp hseen), hrest, ?_⟩
  unfold ClientPartitionField.kept
  cases g.fieldId.filter (fun id => 1000 ≤ id) with
  | some id => exact .inl ⟨rfl, rfl⟩
  | none => exact .inr ⟨rfl, rfl, rfl⟩

theorem specFields_length (h : Applier.specFields sources last seen given = .ok (fields, last')) :
    fields.length = given.length := by
  induction given generalizing last seen fields with
  | nil =>
      cases h
      rfl
  | cons g given ih =>
      obtain ⟨f, rest, next, rfl, -, hrest, -⟩ := specFields_cons h
      rw [List.length_cons, List.length_cons, ih hrest]

/-- The counter ends at its start or at the id of a field. -/
theorem specFields_last (h : Applier.specFields sources last seen given = .ok (fields, last')) :
    last' = last ∨ ∃ f ∈ fields, f.fieldId = last' := by
  induction given generalizing last seen fields with
  | nil =>
      cases h
      exact .inl rfl
  | cons g given ih =>
      obtain ⟨f, rest, next, rfl, -, hrest, hid⟩ := specFields_cons h
      rcases ih hrest with hnext | ⟨f', hf', heq⟩
      · have hcase : next = last ∨ next = f.fieldId := by
          rcases hid with ⟨-, hmax⟩ | ⟨-, -, heq⟩
          · omega
          · exact .inr heq
        rcases hcase with heq | heq
        · exact .inl (hnext.trans heq)
        · exact .inr ⟨f, List.mem_cons_self, (hnext.trans heq).symm⟩
      · exact .inr ⟨f', List.mem_cons_of_mem f hf', heq⟩

theorem specFields_nodup (h : Applier.specFields sources last seen given = .ok (fields, last')) :
    (fields.map (·.fieldId)).Nodup ∧ ∀ f ∈ fields, f.fieldId ∉ seen := by
  induction given generalizing last seen fields with
  | nil =>
      cases h
      simp
  | cons g given ih =>
      obtain ⟨f, rest, next, rfl, hseen, hrest, -⟩ := specFields_cons h
      obtain ⟨hnodup, hnew⟩ := ih hrest
      refine ⟨List.nodup_cons.mpr ⟨fun hmem => ?_, hnodup⟩, fun f' hf' => ?_⟩
      · obtain ⟨f', hf', heq⟩ := List.mem_map.mp hmem
        exact hnew f' hf' (heq ▸ List.mem_cons_self)
      · rcases List.mem_cons.mp hf' with rfl | hf'
        · exact hseen
        · exact fun hmem => hnew f' hf' (List.mem_cons_of_mem _ hmem)

theorem specFields_assignedAbove (hwrap : NoWrap last given) (hbelow : ∀ h ∈ used, h.fieldId ≤ last)
    (h : Applier.specFields sources last seen given = .ok (fields, last')) :
    SpecCall.assignedAbove used (given.zip fields) := by
  induction given generalizing last seen fields used with
  | nil => trivial
  | cons g given ih =>
      obtain ⟨f, rest, next, rfl, -, hrest, hid⟩ := specFields_cons h
      rw [NoWrap] at hwrap
      rcases hid with ⟨hkept, rfl⟩ | ⟨hkept, hsucc, rfl⟩
      · rw [ClientPartitionField.kept] at hkept
        simp only [hkept] at hwrap
        refine ⟨fun hnone => ?_, ih hwrap (fun h hmem => ?_) hrest⟩
        · rw [ClientPartitionField.kept, hkept] at hnone
          cases hnone
        · rcases List.mem_cons.mp hmem with rfl | hmem
          · exact le_max_right _ _
          · exact le_trans (hbelow h hmem) (le_max_left _ _)
      · rw [ClientPartitionField.kept] at hkept
        simp only [hkept] at hwrap
        rw [Applier.succ64, if_pos hwrap.1] at hsucc
        refine ⟨fun _ h hmem => ?_, ih (hsucc ▸ hwrap.2) (fun h hmem => ?_) hrest⟩
        · have := hbelow h hmem
          omega
        · rcases List.mem_cons.mp hmem with rfl | hmem
          · exact le_rfl
          · have := hbelow h hmem
            omega

/-- Where the counter wraps, the id that it gives is not above the one it has reached. -/
theorem specFields_noWrap (hreached : last = 999 ∨ ∃ h ∈ used, h.fieldId = last)
    (h : Applier.specFields sources last seen given = .ok (fields, last'))
    (habove : SpecCall.assignedAbove used (given.zip fields)) : NoWrap last given := by
  induction given generalizing last seen fields used with
  | nil => trivial
  | cons g given ih =>
      obtain ⟨f, rest, next, rfl, -, hrest, hid⟩ := specFields_cons h
      obtain ⟨hassigned, habove⟩ := habove
      rw [NoWrap]
      rcases hid with ⟨hkept, rfl⟩ | ⟨hkept, hsucc, rfl⟩
      · have hnext : max last f.fieldId = 999 ∨
            ∃ h ∈ f :: used, h.fieldId = max last f.fieldId := by
          rcases le_total last f.fieldId with hle | hle
          · exact .inr ⟨f, List.mem_cons_self, (max_eq_right hle).symm⟩
          · rw [max_eq_left hle]
            exact hreached.imp_right (fun ⟨h, hmem, heq⟩ => ⟨h, List.mem_cons_of_mem f hmem, heq⟩)
        have hwrap := ih hnext hrest habove
        rw [ClientPartitionField.kept] at hkept
        simp only [hkept]
        exact hwrap
      · have hlt : last < 2 ^ 63 - 1 := by
          by_contra hge
          rw [Applier.succ64, if_neg hge] at hsucc
          rcases hreached with hlast | ⟨h, hmem, heq⟩
          · omega
          · have := hassigned hkept h hmem
            omega
        have hwrap := ih (.inr ⟨f, List.mem_cons_self, rfl⟩) hrest habove
        rw [hsucc, Applier.succ64, if_pos hlt] at hwrap
        rw [ClientPartitionField.kept] at hkept
        simp only [hkept]
        exact ⟨hlt, hwrap⟩

end Fields

theorem SpecCall.assignedAbove.lt {used : List PartitionField}
    {pairs : List (ClientPartitionField × PartitionField)} (h : assignedAbove used pairs) :
    ∀ x ∈ pairs, x.1.kept = none → ∀ h ∈ used, h.fieldId < x.2.fieldId := by
  induction pairs generalizing used with
  | nil => simp
  | cons y pairs ih =>
      intro x hx hnone f hf
      rcases List.mem_cons.mp hx with rfl | hx
      · exact h.1 hnone f hf
      · exact ih h.2 x hx hnone f (List.mem_cons_of_mem y.2 hf)

theorem OneMeaning.append {used fields : List PartitionField} (h : OneMeaning used)
    (hnodup : (fields.map (·.fieldId)).Nodup)
    (hcross : ∀ f ∈ fields, ∀ g ∈ used, SameMeaning g f) : OneMeaning (used ++ fields) := by
  intro f hf g hg
  rcases List.mem_append.mp hf with hf | hf
  · rcases List.mem_append.mp hg with hg | hg
    · exact h f hf g hg
    · exact hcross g hg f hf
  · rcases List.mem_append.mp hg with hg | hg
    · exact fun heq => (hcross f hf g hg heq.symm).imp Eq.symm Eq.symm
    · intro heq
      rw [List.inj_on_of_nodup_map hnodup hf hg heq]
      exact ⟨rfl, rfl⟩

theorem OneMeaning.mono {fields fields' : List PartitionField} (h : OneMeaning fields')
    (hsub : fields ⊆ fields') : OneMeaning fields :=
  fun f hf g hg => h f (hsub hf) g (hsub hg)

/-! ## One action -/

/-- The fields of the metadata are among those used, and the watermark was reached by one. -/
structure Tracks (md : TableMetadata) (used : List PartitionField) : Prop where
  present : md.partitionFields ⊆ used
  reached : md.lastPartitionId = 999 ∨ ∃ f ∈ used, f.fieldId = md.lastPartitionId

/-- No field is above the watermark, and every id has one meaning. -/
structure Sound (md : TableMetadata) (used : List PartitionField) : Prop where
  below : ∀ f ∈ used, f.fieldId ≤ md.lastPartitionId
  meaning : OneMeaning used

variable {opt : TableBucket} {a a' : Applier} {u : Update} {used : List PartitionField}

theorem addSpec_ok {given : List ClientPartitionField} {rest : Bytes}
    (h : a.addSpec given rest = .ok a') : ∃ fields last,
      Applier.specFields a.currentFieldIds a.md.lastPartitionId [] given = .ok (fields, last) ∧
      (a'.md = a.md ∧ fields ⊆ a.md.partitionFields ∨
        a'.md.partitionFields = a.md.partitionFields ++ fields ∧
          a'.md.lastPartitionId = max a.md.lastPartitionId last) := by
  obtain ⟨⟨fields, last⟩, hfields, h⟩ := of_bind_ok h
  refine ⟨fields, last, hfields, ?_⟩
  dsimp only at h
  split at h
  · rename_i s hs
    cases h
    have hbody : s.body = { fields, rest } := by simpa using List.find?_some hs
    refine .inl ⟨rfl, fun f hf => List.mem_flatMap.mpr ⟨s, List.mem_of_find?_eq_some hs, ?_⟩⟩
    rw [hbody]
    exact hf
  · cases h
    exact .inr ⟨by simp [TableMetadata.partitionFields], rfl⟩

/-- An action that is no call of add-spec adds no field. -/
theorem apply_of_no_call (h : a.apply opt u = .ok a') (hnone : u.specCall a used = none) :
    a'.md.partitionFields ⊆ a.md.partitionFields ∧
      a'.md.lastPartitionId = a.md.lastPartitionId := by
  unfold TableMetadata.partitionFields
  cases (Applier.apply_changes h).specs with
  | same hs hl =>
      rw [hs]
      exact ⟨List.Subset.refl _, hl⟩
  | added sources given body last hu hfields hs hl =>
      subst hu
      obtain ⟨fields, last, hfields, -⟩ := addSpec_ok h
      simp [Update.specCall, hfields] at hnone
  | removed ids hu hs hl =>
      rw [hs]
      refine ⟨fun f hf => ?_, hl⟩
      obtain ⟨s, hmem, hf⟩ := List.mem_flatMap.mp hf
      exact List.mem_flatMap.mpr ⟨s, (List.mem_filter.mp hmem).1, hf⟩

/-- What an action that is a call of add-spec does. -/
theorem apply_of_call {c : SpecCall} (h : a.apply opt u = .ok a')
    (hcall : u.specCall a used = some c) : ∃ given last,
      Applier.specFields a.currentFieldIds a.md.lastPartitionId [] given = .ok (c.fields, last) ∧
      c.last = a.md.lastPartitionId ∧ c.used = used ∧ c.pairs = given.zip c.fields ∧
      c.pairs.map Prod.fst = given ∧
      (a'.md = a.md ∧ c.fields ⊆ a.md.partitionFields ∨
        a'.md.partitionFields = a.md.partitionFields ++ c.fields ∧
          a'.md.lastPartitionId = max a.md.lastPartitionId last) := by
  cases u with
  | addSpec given rest =>
      obtain ⟨fields, last, hfields, hmd⟩ := addSpec_ok h
      simp only [Update.specCall, hfields, Option.some.injEq] at hcall
      subst hcall
      have hlength := specFields_length hfields
      have heq : (SpecCall.mk a.md.lastPartitionId used (given.zip fields)).fields = fields :=
        List.map_snd_zip hlength.le
      rw [heq]
      exact ⟨given, last, hfields, rfl, rfl, rfl, List.map_fst_zip hlength.ge, hmd⟩
  | _ => cases hcall

theorem Tracks.apply (hk : Tracks a.md used) (h : a.apply opt u = .ok a') :
    Tracks a'.md (used ++ (u.specCall a used).toList.flatMap (·.fields)) := by
  cases hcall : u.specCall a used with
  | none =>
      obtain ⟨hsub, hlast⟩ := apply_of_no_call h hcall
      rw [Option.toList_none, List.flatMap_nil, List.append_nil]
      exact ⟨List.Subset.trans hsub hk.present, hlast ▸ hk.reached⟩
  | some c =>
      obtain ⟨given, last, hfields, -, -, -, -, hmd⟩ := apply_of_call h hcall
      rw [Option.toList_some, List.flatMap_singleton]
      have hreached : a.md.lastPartitionId = 999 ∨
          ∃ f ∈ used ++ c.fields, f.fieldId = a.md.lastPartitionId :=
        hk.reached.imp_right (fun ⟨f, hf, heq⟩ => ⟨f, List.mem_append_left _ hf, heq⟩)
      rcases hmd with ⟨heq, hsub⟩ | ⟨hparts, hlast⟩
      · rw [heq]
        exact ⟨fun f hf => List.mem_append_left _ (hk.present hf), hreached⟩
      · refine ⟨fun f hf => ?_, ?_⟩
        · rw [hparts] at hf
          exact List.mem_append.mpr ((List.mem_append.mp hf).imp_left (fun h => hk.present h))
        · rw [hlast]
          rcases specFields_last hfields with hsame | ⟨f, hf, heq⟩
          · rwa [hsame, max_self]
          · rcases max_choice a.md.lastPartitionId last with hmax | hmax
            · rwa [hmax]
            · exact .inr ⟨f, List.mem_append_right _ hf, by rw [hmax, heq]⟩

theorem Sound.apply (hs : Sound a.md used) (hk : Tracks a.md used) (h : a.apply opt u = .ok a')
    (hcalls : ∀ c ∈ (u.specCall a used).toList, c.KeepsMeaning) :
    Sound a'.md (used ++ (u.specCall a used).toList.flatMap (·.fields)) ∧
      ∀ c ∈ (u.specCall a used).toList, c.AssignedAbove := by
  cases hcall : u.specCall a used with
  | none =>
      obtain ⟨-, hlast⟩ := apply_of_no_call h hcall
      rw [Option.toList_none, List.flatMap_nil, List.append_nil]
      exact ⟨⟨hlast ▸ hs.below, hs.meaning⟩, by simp⟩
  | some c =>
      obtain ⟨given, last, hfields, hclast, hused, hpairs, hgiven, hmd⟩ := apply_of_call h hcall
      obtain ⟨hwrap, hkept⟩ := hcalls c (by simp [hcall])
      rw [hclast, hgiven] at hwrap
      have habove : c.AssignedAbove := by
        unfold SpecCall.AssignedAbove
        rw [hused, hpairs]
        exact specFields_assignedAbove hwrap hs.below hfields
      rw [Option.toList_some, List.flatMap_singleton]
      refine ⟨⟨fun f hf => ?_, hs.meaning.append (specFields_nodup hfields).1 ?_⟩, by simpa⟩
      · rcases hmd with ⟨heq, hsub⟩ | ⟨-, hlast⟩
        · rw [heq]
          rcases List.mem_append.mp hf with hf | hf
          · exact hs.below f hf
          · exact hs.below f (hk.present (hsub hf))
        · rw [hlast]
          rcases List.mem_append.mp hf with hf | hf
          · exact le_trans (hs.below f hf) (le_max_left _ _)
          · exact le_trans ((specFields_le hwrap hfields).2 f hf) (le_max_right _ _)
      · intro f hf g hg
        obtain ⟨x, hx, rfl⟩ := List.mem_map.mp hf
        rw [← hused] at hg
        cases hxk : x.1.kept with
        | none =>
            have hlt := habove.lt x hx hxk g hg
            intro heq
            omega
        | some id => exact hkept x hx (by simp [hxk]) g hg

/-- The other way round: where the ids are as they should be, the call was harmless. -/
theorem Tracks.keepsMeaning (hk : Tracks a.md used) (h : a.apply opt u = .ok a') {c : SpecCall}
    (hcall : u.specCall a used = some c) (habove : c.AssignedAbove)
    (hone : OneMeaning (used ++ c.fields)) : c.KeepsMeaning := by
  obtain ⟨given, last, hfields, hclast, hused, hpairs, hgiven, -⟩ := apply_of_call h hcall
  unfold SpecCall.AssignedAbove at habove
  rw [hused, hpairs] at habove
  refine ⟨?_, fun x hx _ g hg => ?_⟩
  · rw [hclast, hgiven]
    exact specFields_noWrap hk.reached hfields habove
  · exact hone g (List.mem_append_left _ (hused ▸ hg)) x.2
      (List.mem_append_right _ (List.mem_map_of_mem hx))

/-! ## Commits -/

/-- All actions of a request. -/
theorem specCalls_spec {us : List Update} (hk : Tracks a.md used)
    (h : us.foldlM (fun a u => Applier.apply a opt u) a = .ok a') :
    Tracks a'.md (used ++ (specCalls opt a used us).flatMap (·.fields)) ∧
    (Sound a.md used → (∀ c ∈ specCalls opt a used us, c.KeepsMeaning) →
      Sound a'.md (used ++ (specCalls opt a used us).flatMap (·.fields)) ∧
        ∀ c ∈ specCalls opt a used us, c.AssignedAbove) ∧
    ((∀ c ∈ specCalls opt a used us, c.AssignedAbove) →
      OneMeaning (used ++ (specCalls opt a used us).flatMap (·.fields)) →
      ∀ c ∈ specCalls opt a used us, c.KeepsMeaning) := by
  induction us generalizing a used with
  | nil =>
      cases h
      simp only [specCalls, List.flatMap_nil, List.append_nil]
      exact ⟨hk, fun hs _ => ⟨hs, by simp⟩, fun _ _ => by simp⟩
  | cons u us ih =>
      rw [List.foldlM_cons] at h
      obtain ⟨a₁, hstep, hrun⟩ := of_bind_ok h
      obtain ⟨htracks, hsound, hkeeps⟩ := ih (hk.apply hstep) hrun
      simp only [specCalls, hstep, List.flatMap_append, ← List.append_assoc, List.forall_mem_append]
      refine ⟨htracks, fun hs hcalls => ?_, fun habove hone => ⟨fun c hc => ?_, ?_⟩⟩
      · obtain ⟨hs₁, habove⟩ := hs.apply hk hstep hcalls.1
        obtain ⟨hs', habove'⟩ := hsound hs₁ hcalls.2
        exact ⟨hs', habove, habove'⟩
      · refine hk.keepsMeaning hstep (Option.mem_toList.mp hc) (habove.1 c hc) (hone.mono ?_)
        intro f hf
        refine List.mem_append_left _ (List.mem_append.mpr ((List.mem_append.mp hf).imp_right ?_))
        exact fun hf => List.mem_flatMap.mpr ⟨c, hc, hf⟩
      · exact hkeeps habove.2 hone

/-! ## New tables -/

theorem initialSpecFields_increasing {remap : SortedMap Int Int} {fieldIds : List Int} {last : Int}
    {given : List ClientPartitionField} {fields : List PartitionField}
    (h : initialSpecFields remap fieldIds last given = .ok fields) :
    fields.Pairwise (fun f g => f.fieldId < g.fieldId) ∧ (∀ f ∈ fields, last < f.fieldId) ∧
      (given.length = 0 ∨ ∃ f ∈ fields, f.fieldId = last + given.length) := by
  induction given generalizing last fields with
  | nil =>
      cases h
      simp
  | cons g given ih =>
      obtain ⟨src, -, h⟩ := of_bind_ok h
      obtain ⟨-, -, h⟩ := of_bind_ok h
      obtain ⟨rest, hrest, h⟩ := of_bind_ok h
      cases h
      obtain ⟨hpair, hlt, hlast⟩ := ih hrest
      refine ⟨List.pairwise_cons.mpr ⟨hlt, hpair⟩, fun f hf => ?_, .inr ?_⟩
      · rcases List.mem_cons.mp hf with rfl | hf
        · exact Int.lt_succ last
        · have := hlt f hf
          omega
      · rw [List.length_cons]
        rcases hlast with hzero | ⟨f, hf, heq⟩
        · exact ⟨_, List.mem_cons_self, by simp [hzero]⟩
        · exact ⟨f, List.mem_cons_of_mem _ hf, by omega⟩

theorem initialMetadata_partitions {i : CreateTableInput} {md : TableMetadata}
    (h : initialMetadata i = .ok md) :
    md.partitionFields.Pairwise (fun f g => f.fieldId < g.fieldId) ∧
      Tracks md md.partitionFields ∧ Sound md md.partitionFields := by
  have hbelow := (wellFormed_initial h).2.1
  unfold initialMetadata at h
  obtain ⟨-, -, h⟩ := of_bind_ok h
  obtain ⟨⟨fields, next⟩, hassign, h⟩ := of_bind_ok h
  obtain ⟨remap, -, h⟩ := of_bind_ok h
  obtain ⟨specFields, hspec, h⟩ := of_bind_ok h
  obtain ⟨orderFields, -, h⟩ := of_bind_ok h
  obtain ⟨⟨⟩, hvalid, h⟩ := of_bind_ok h
  cases h
  obtain ⟨_, _, heq⟩ := synchronize_eq _
  rw [heq] at hbelow ⊢
  obtain ⟨hpair, -, hlast⟩ := initialSpecFields_increasing hspec
  simp only [TableMetadata.partitionFields, List.flatMap_cons, List.flatMap_nil, List.append_nil]
  refine ⟨hpair, ⟨by simp [TableMetadata.partitionFields], ?_⟩, ⟨fun f hf => ?_, ?_⟩⟩
  · rcases hlast with hzero | hlast
    · exact .inl (by simp [hzero])
    · exact .inr hlast
  · exact hbelow f.fieldId (by simpa [TableMetadata.partitionFieldIds] using ⟨f, hf, rfl⟩)
  · have hnodup : (specFields.map (·.fieldId)).Nodup :=
      List.pairwise_map.mpr (hpair.imp (fun hlt => hlt.ne))
    have hnil : OneMeaning [] := by simp [OneMeaning]
    exact hnil.append hnodup (by simp)

/-! ## Histories -/

variable {vs : List TableMetadata} {first : List PartitionField} {calls : List SpecCall}

theorem finish_partitionFields (md : TableMetadata) (prev : Bytes) (now : Int) (keep : Nat) :
    (finishTransition (synchronizeVersionFields md) prev now keep).partitionFields =
      md.partitionFields := by
  rw [TableMetadata.partitionFields, (finish_same md prev now keep).partitionSpecs,
    TableMetadata.partitionFields]

theorem SpecHistory.tracks (h : SpecHistory opt vs first calls) :
    (∀ md ∈ vs.head?, Tracks md (first ++ calls.flatMap (·.fields))) ∧
      ∀ v ∈ vs, v.partitionFields ⊆ first ++ calls.flatMap (·.fields) := by
  induction h with
  | initial h =>
      have hk := (initialMetadata_partitions h).2.1
      rw [List.flatMap_nil, List.append_nil]
      exact ⟨fun md hmd => Option.some.inj hmd ▸ hk, fun v hv =>
        List.mem_singleton.mp hv ▸ hk.present⟩
  | @commit md md' older first calls c hist hc ih =>
      obtain ⟨a, ha, -, -, rfl⟩ := commit_ok hc
      obtain ⟨hk, -, -⟩ := specCalls_spec (ih.1 md rfl) ha
      have hsame := finish_same a.md c.prevMetadataLocation c.nowMs c.metadataLogKeep
      have hparts := finish_partitionFields a.md c.prevMetadataLocation c.nowMs c.metadataLogKeep
      rw [List.flatMap_append, ← List.append_assoc]
      refine ⟨fun v hv => ?_, fun v hv => ?_⟩
      · cases hv
        exact ⟨hparts ▸ hk.present, hsame.lastPartitionId ▸ hk.reached⟩
      · rcases List.mem_cons.mp hv with rfl | hv
        · rw [hparts]
          exact hk.present
        · exact fun f hf => List.mem_append_left _ (ih.2 v hv hf)

theorem SpecHistory.sound (h : SpecHistory opt vs first calls)
    (hcalls : ∀ c ∈ calls, c.KeepsMeaning) :
    (∀ md ∈ vs.head?, Sound md (first ++ calls.flatMap (·.fields))) ∧
      ∀ c ∈ calls, c.AssignedAbove := by
  induction h with
  | initial h =>
      have hs := (initialMetadata_partitions h).2.2
      rw [List.flatMap_nil, List.append_nil]
      exact ⟨fun md hmd => Option.some.inj hmd ▸ hs, by simp⟩
  | @commit md md' older first calls c hist hc ih =>
      obtain ⟨hold, hnew⟩ := List.forall_mem_append.mp hcalls
      obtain ⟨hs, habove⟩ := ih hold
      obtain ⟨a, ha, -, -, rfl⟩ := commit_ok hc
      obtain ⟨-, hsound, -⟩ := specCalls_spec (hist.tracks.1 md rfl) ha
      obtain ⟨hs', habove'⟩ := hsound (hs md rfl) hnew
      have hsame := finish_same a.md c.prevMetadataLocation c.nowMs c.metadataLogKeep
      rw [List.flatMap_append, ← List.append_assoc]
      refine ⟨fun v hv => ?_, List.forall_mem_append.mpr ⟨habove, habove'⟩⟩
      cases hv
      exact ⟨hsame.lastPartitionId ▸ hs'.below, hs'.meaning⟩

theorem SpecHistory.keepsMeaning (h : SpecHistory opt vs first calls)
    (hone : OneMeaning (first ++ calls.flatMap (·.fields)))
    (habove : ∀ c ∈ calls, c.AssignedAbove) : ∀ c ∈ calls, c.KeepsMeaning := by
  induction h with
  | initial _ => simp
  | @commit md md' older first calls c hist hc ih =>
      rw [List.flatMap_append, ← List.append_assoc] at hone
      obtain ⟨hold, hnew⟩ := List.forall_mem_append.mp habove
      obtain ⟨a, ha, -, -, rfl⟩ := commit_ok hc
      obtain ⟨-, -, hkeeps⟩ := specCalls_spec (hist.tracks.1 md rfl) ha
      exact List.forall_mem_append.mpr
        ⟨ih (hone.mono (List.subset_append_left _ _)) hold, hkeeps hnew hone⟩

theorem SpecHistory.first_increasing (h : SpecHistory opt vs first calls) :
    first.Pairwise (fun f g => f.fieldId < g.fieldId) := by
  induction h with
  | initial h => exact (initialMetadata_partitions h).1
  | commit _ _ ih => exact ih

/-- Partition field ids have one meaning in all specs that a table ever had, and the ids that the
server assigns are above all ids before them, exactly when every id that add-spec keeps for a
client means what it meant before and the counter does not wrap. -/
theorem partition_field_id_one_meaning (opt : TableBucket) (vs : List TableMetadata)
    (first : List PartitionField) (calls : List SpecCall) (h : SpecHistory opt vs first calls) :
    (∀ v ∈ vs, v.partitionFields ⊆ first ++ calls.flatMap (·.fields)) ∧
    ((OneMeaning (first ++ calls.flatMap (·.fields)) ∧
        first.Pairwise (fun f g => f.fieldId < g.fieldId) ∧ ∀ c ∈ calls, c.AssignedAbove) ↔
      ∀ c ∈ calls, c.KeepsMeaning) := by
  refine ⟨h.tracks.2, fun ⟨hone, _, habove⟩ => h.keepsMeaning hone habove, fun hcalls => ?_⟩
  obtain ⟨hsound, habove⟩ := h.sound hcalls
  have hne : ∃ md, vs.head? = some md := by cases h <;> exact ⟨_, rfl⟩
  obtain ⟨md, hmd⟩ := hne
  exact ⟨(hsound md hmd).meaning, h.first_increasing, habove⟩

/-- The first column in buckets. -/
def byBucket (fieldId : Option Int) : ClientPartitionField where
  sourceId := 1
  fieldId := fieldId
  name := ascii "id_bucket"
  transform := ascii "bucket[16]"

/-- A second spec keeps the id of the day and gets a new one for the buckets. -/
theorem partition_field_id_one_meaning_kept : ∃ vs first calls, SpecHistory lake vs first calls ∧
    calls.length = 2 ∧ OneMeaning (first ++ calls.flatMap (·.fields)) ∧
    ∀ c ∈ calls, c.AssignedAbove := by
  have hrun : ∃ md ∈ (initialMetadata orders).toOption,
      ∃ md₁ ∈ (commit lake md (addSpecStep [byDay none])).toOption,
      ∃ md₂ ∈ (commit lake md₁ (addSpecStep [byDay (some 1000), byBucket none])).toOption,
      let first := md.partitionFields
      let calls₁ := specCalls lake { md } first (inOrder (addSpecStep [byDay none]).updates)
      let calls₂ := specCalls lake { md := md₁ } (first ++ calls₁.flatMap (·.fields))
        (inOrder (addSpecStep [byDay (some 1000), byBucket none]).updates)
      (calls₁ ++ calls₂).length = 2 ∧ ∀ c ∈ calls₁ ++ calls₂, c.KeepsMeaning := by
    decide +kernel
  obtain ⟨md, h, md₁, h₁, md₂, h₂, hlength, hcalls⟩ := hrun
  have hnew : SpecHistory lake [md] md.partitionFields [] := .initial (toOption_eq_some.mp h)
  have hist := (hnew.commit (toOption_eq_some.mp h₁)).commit (toOption_eq_some.mp h₂)
  rw [List.nil_append, List.flatMap_nil, List.append_nil] at hist
  obtain ⟨hone, -, habove⟩ := (partition_field_id_one_meaning _ _ _ _ hist).2.mpr hcalls
  exact ⟨_, _, _, hist, hlength, hone, habove⟩

/-- The id of the day is given to the buckets of another column. -/
theorem partition_field_id_two_meanings : ∃ vs first calls, SpecHistory lake vs first calls ∧
    ∃ v ∈ vs, ∃ f ∈ v.partitionFields, ∃ g ∈ v.partitionFields, f.fieldId = g.fieldId ∧
      f.sourceId ≠ g.sourceId ∧ f.transform ≠ g.transform := by
  have hrun : ∃ md ∈ (initialMetadata orders).toOption,
      ∃ md₁ ∈ (commit lake md (addSpecStep [byDay none])).toOption,
      ∃ md₂ ∈ (commit lake md₁ (addSpecStep [byBucket (some 1000)])).toOption,
      ∃ f ∈ md₂.partitionFields, ∃ g ∈ md₂.partitionFields, f.fieldId = g.fieldId ∧
        f.sourceId ≠ g.sourceId ∧ f.transform ≠ g.transform := by
    decide +kernel
  obtain ⟨md, h, md₁, h₁, md₂, h₂, hfields⟩ := hrun
  have hnew : SpecHistory lake [md] md.partitionFields [] := .initial (toOption_eq_some.mp h)
  have hist := (hnew.commit (toOption_eq_some.mp h₁)).commit (toOption_eq_some.mp h₂)
  exact ⟨_, _, _, hist, md₂, List.mem_cons_self, hfields⟩

end Lights3.Iceberg
