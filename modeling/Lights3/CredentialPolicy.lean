import Lights3.TableNames

/-!
# Credential policies

What a policy allows on a bucket and a key. Buckets are matched by `fnmatch`, which is a
parameter. Keys are matched by prefixes, so what is allowed on a directory is allowed on
everything below it.
-/
namespace Lights3
open ByteString

inductive Action where
  | Read | Write | Delete
  deriving DecidableEq

structure CredentialPolicy where
  buckets : List Bytes := []
  prefixes : List Bytes := []
  actions : List Action := []
  readonly : Bool := false
  deriving DecidableEq

namespace CredentialPolicy

variable (fnmatch : Bytes → Bytes → Bool) (p : CredentialPolicy)

/-- `allows_action`: without a list of actions, `readonly` decides. -/
def allowsAction (a : Action) : Bool :=
  if p.actions ≠ [] then a ∈ p.actions else !p.readonly || a = .Read

/-- `allows_bucket`. -/
def allowsBucket (bucket : Bytes) : Bool :=
  p.buckets = [] || bucket = [] || p.buckets.any (fun g => fnmatch g bucket)

/-- `allows_key`. -/
def allowsKey (key : Bytes) : Bool :=
  p.prefixes = [] || p.prefixes.any (fun pre => pre <+: key)

/-- `CredentialPolicy::allows`: an empty key is no object. -/
def allows (bucket key : Bytes) (a : Action) : Bool :=
  p.allowsAction a && p.allowsBucket fnmatch bucket &&
    (p.prefixes = [] || key = [] || p.allowsKey key)

/-- `RestApi::allows_table`. -/
def allowsTable (bucket : Bytes) (path : TablePath) (a : Action) : Bool :=
  let key := nsPath path.levels ++ [slash] ++ path.name
  p.allows fnmatch bucket key a || p.allows fnmatch bucket (key ++ [slash]) a

variable {fnmatch p}

theorem allowsKey_mono {k l : Bytes} (hkl : k <+: l) (h : p.allowsKey k = true) :
    p.allowsKey l = true := by
  simp only [allowsKey, Bool.or_eq_true, List.any_eq_true, decide_eq_true_eq] at h ⊢
  rcases h with hnil | ⟨pre, hpre, hk⟩
  · exact Or.inl hnil
  · exact Or.inr ⟨pre, hpre, hk.trans hkl⟩

theorem allowsKey_of_nil (h : p.prefixes = []) (k : Bytes) : p.allowsKey k = true := by
  simp [allowsKey, h]

variable {bucket : Bytes} {a : Action}

/-- For a key that is not empty the policy decides by its actions, buckets and prefixes. -/
theorem allows_iff {key : Bytes} (hkey : key ≠ []) :
    p.allows fnmatch bucket key a = true ↔
      p.allowsAction a = true ∧ p.allowsBucket fnmatch bucket = true ∧ p.allowsKey key = true := by
  simp only [allows, Bool.and_eq_true, Bool.or_eq_true, decide_eq_true_eq, and_assoc]
  constructor
  · rintro ⟨ha, hb, (hnil | hempty) | hk⟩
    · exact ⟨ha, hb, allowsKey_of_nil hnil key⟩
    · exact absurd hempty hkey
    · exact ⟨ha, hb, hk⟩
  · rintro ⟨ha, hb, hk⟩
    exact ⟨ha, hb, Or.inr hk⟩

theorem allows_mono {k l : Bytes} (hk : k ≠ []) (hkl : k <+: l)
    (h : p.allows fnmatch bucket k a = true) : p.allows fnmatch bucket l a = true := by
  have hl : l ≠ [] := by
    rintro rfl
    exact hk (List.prefix_nil.mp hkl)
  obtain ⟨ha, hb, hkey⟩ := (allows_iff hk).mp h
  exact (allows_iff hl).mpr ⟨ha, hb, allowsKey_mono hkl hkey⟩

/-- A table is allowed exactly when its directory is. -/
theorem allowsTable_iff {path : TablePath} :
    p.allowsTable fnmatch bucket path a = true ↔
      p.allows fnmatch bucket (dirPath slash path.val) a = true := by
  have hkey : nsPath path.levels ++ [slash] ++ path.name ≠ [] := by simp
  unfold allowsTable
  simp only [Bool.or_eq_true, path.dirPath_eq]
  constructor
  · rintro (h | h)
    · refine allows_mono hkey ?_ h
      rw [← path.dirPath_eq]
      exact List.prefix_append _ _
    · exact h
  · exact Or.inr

/-- What is allowed on a table is allowed on the tables whose path begins with its own. -/
theorem allowsTable_mono {path q : TablePath} (hq : path.val <+: q.val)
    (h : p.allowsTable fnmatch bucket path a = true) : p.allowsTable fnmatch bucket q a = true := by
  rw [allowsTable_iff] at h ⊢
  have hne : dirPath slash path.val ≠ [] := by
    rw [← path.dirPath_eq]
    simp
  exact allows_mono hne ((DirPath.prefix_iff path.slash_not_mem q.slash_not_mem).mpr hq) h

end CredentialPolicy

end Lights3
