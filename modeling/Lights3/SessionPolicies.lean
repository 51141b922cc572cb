import Lights3.CredentialPolicy
import Lights3.MemoryBackend

/-!
# Session policies

`narrow_policy` of `s3/auth/credential_store.cc`: the policy of a session is what its parent and a
requested narrow policy both allow. Empty lists mean no restriction, so a list that is filtered down
to nothing is refused and not stored. Bucket entries are patterns for `fnmatch`; a narrow entry is a
plain bucket name.
-/
namespace Lights3
open ByteString

namespace CredentialPolicy

def scopeExceeded : S3Error :=
  ⟨.AccessDenied, "requested session scope exceeds the caller's policy", []⟩

def noAction : S3Error := ⟨.AccessDenied, "requested session scope allows no action", []⟩

/-- The entries of a narrow list that the parent allows, or the parent's own list if the narrow one
is empty. -/
def narrowList (parent narrow : List Bytes) (allowed : Bytes → Bool) :
    Except S3Error (List Bytes) :=
  if narrow = [] then .ok parent
  else if narrow.filter allowed = [] then .error scopeExceeded
  else .ok (narrow.filter allowed)

def allActions : List Action := [.Read, .Write, .Delete]

variable (fnmatch : Bytes → Bytes → Bool)

/-- `narrow_policy`. -/
def narrowPolicy (parent : Option CredentialPolicy) (narrow : CredentialPolicy) :
    Except S3Error CredentialPolicy :=
  match parent with
  | none => .ok narrow
  | some parent => do
      let buckets ← narrowList parent.buckets narrow.buckets (parent.allowsBucket fnmatch)
      let prefixes ← narrowList parent.prefixes narrow.prefixes parent.allowsKey
      let actions := allActions.filter fun a => parent.allowsAction a && narrow.allowsAction a
      if actions = [] then .error noAction
      else .ok { buckets, prefixes, actions, readonly := parent.readonly || narrow.readonly }

/-- What a credential without a policy may do is not restricted. -/
def permits (p : Option CredentialPolicy) (bucket key : Bytes) (a : Action) : Bool :=
  p.all fun p => p.allows fnmatch bucket key a

def permitsKey (p : Option CredentialPolicy) (key : Bytes) : Bool := p.all fun p => p.allowsKey key

/-- A pattern without metacharacters. -/
def PlainPattern (g : Bytes) : Prop := ∀ c ∈ g, c ≠ 42 ∧ c ≠ 63 ∧ c ≠ 91 ∧ c ≠ 92

variable {fnmatch} {parent narrow p : CredentialPolicy}

theorem plainPattern_of_valid {b : Bytes} (h : validateBucketName b true = .ok ()) :
    PlainPattern b := by
  have hchars : ∀ c ∈ b, bucketNameChar c = true := by
    by_cases hsys : b = sysBucketName
    · subst hsys
      decide +kernel
    · have hok : bucketNameOk b = true := by
        by_contra hbad
        simp [validateBucketName, hsys, hbad] at h
      simp only [bucketNameOk, Bool.and_eq_true, List.all_eq_true] at hok
      exact hok.1.1.1.1.1.1.1.2
  intro c hc
  have hname := hchars c hc
  refine ⟨?_, ?_, ?_, ?_⟩ <;> rintro rfl <;> simp [bucketNameChar] at hname

/-! ## Lists -/

variable {outer inner out : List Bytes} {allowed : Bytes → Bool}

theorem narrowList_ok (h : narrowList outer inner allowed = .ok out) :
    (inner = [] ∧ out = outer) ∨ (inner ≠ [] ∧ out ≠ [] ∧ out = inner.filter allowed) := by
  unfold narrowList at h
  split_ifs at h with hnil hnone
  · exact Or.inl ⟨hnil, (Except.ok.inj h).symm⟩
  · have hout := Except.ok.inj h
    exact Or.inr ⟨hnil, hout ▸ hnone, hout.symm⟩

theorem narrowList_error_iff {e : S3Error} :
    narrowList outer inner allowed = .error e ↔
      e = scopeExceeded ∧ inner ≠ [] ∧ ∀ x ∈ inner, allowed x = false := by
  unfold narrowList
  split_ifs with hnil hnone
  · simp [hnil]
  · rw [List.filter_eq_nil_iff] at hnone
    simp only [Except.error.injEq, ne_eq, hnil, not_false_eq_true, true_and]
    exact ⟨fun he => ⟨he.symm, fun x hx => by simpa using hnone x hx⟩, fun h => h.1.symm⟩
  · rw [List.filter_eq_nil_iff] at hnone
    simp only [false_iff, not_and]
    exact fun _ _ hall => hnone fun x hx => by simp [hall x hx]

theorem mem_allActions (a : Action) : a ∈ allActions := by cases a <;> decide

/-- What a narrowed policy consists of. -/
theorem narrowPolicy_ok (h : narrowPolicy fnmatch (some parent) narrow = .ok p) :
    narrowList parent.buckets narrow.buckets (parent.allowsBucket fnmatch) = .ok p.buckets ∧
      narrowList parent.prefixes narrow.prefixes parent.allowsKey = .ok p.prefixes ∧
      p.actions ≠ [] ∧
      ∀ a, a ∈ p.actions ↔ parent.allowsAction a = true ∧ narrow.allowsAction a = true := by
  obtain ⟨buckets, hbuckets, h⟩ := of_bind_ok h
  obtain ⟨prefixes, hprefixes, h⟩ := of_bind_ok h
  dsimp only at h
  split_ifs at h with hactions
  obtain rfl := Except.ok.inj h
  refine ⟨hbuckets, hprefixes, hactions, fun a => ?_⟩
  simp [mem_allActions]

/-! ## A narrowed policy is within both -/

theorem allowsAction_narrow (h : narrowPolicy fnmatch (some parent) narrow = .ok p) {a : Action}
    (ha : p.allowsAction a = true) :
    parent.allowsAction a = true ∧ narrow.allowsAction a = true := by
  obtain ⟨-, -, hne, hmem⟩ := narrowPolicy_ok h
  rw [allowsAction, if_pos hne, decide_eq_true_eq] at ha
  exact (hmem a).mp ha

theorem allowsBucket_narrow (hfn : ∀ g b, PlainPattern g → fnmatch g b = true → b = g)
    (hvalid : ∀ b ∈ narrow.buckets, validateBucketName b true = .ok ())
    (h : narrowPolicy fnmatch (some parent) narrow = .ok p) {b : Bytes}
    (hb : p.allowsBucket fnmatch b = true) :
    parent.allowsBucket fnmatch b = true ∧ narrow.allowsBucket fnmatch b = true := by
  obtain ⟨hlist, -⟩ := narrowPolicy_ok h
  rcases narrowList_ok hlist with ⟨hnil, hsame⟩ | ⟨hne, hout, hfilter⟩
  · rw [allowsBucket, hsame] at hb
    exact ⟨hb, by simp [allowsBucket, hnil]⟩
  · by_cases hempty : b = []
    · simp [allowsBucket, hempty]
    · -- A plain name that matches is the bucket itself, and the parent allows it.
      simp only [allowsBucket, Bool.or_eq_true, decide_eq_true_eq, List.any_eq_true,
        hout, hempty, false_or] at hb
      obtain ⟨g, hg, hmatch⟩ := hb
      rw [hfilter, List.mem_filter] at hg
      obtain rfl := hfn g b (plainPattern_of_valid (hvalid g hg.1)) hmatch
      refine ⟨hg.2, ?_⟩
      simp only [allowsBucket, Bool.or_eq_true, List.any_eq_true]
      exact Or.inr ⟨b, hg.1, hmatch⟩

theorem allowsKey_narrow (h : narrowPolicy fnmatch (some parent) narrow = .ok p) {k : Bytes}
    (hk : p.allowsKey k = true) : parent.allowsKey k = true ∧ narrow.allowsKey k = true := by
  obtain ⟨-, hlist, -⟩ := narrowPolicy_ok h
  rcases narrowList_ok hlist with ⟨hnil, hsame⟩ | ⟨hne, hout, hfilter⟩
  · rw [allowsKey, hsame] at hk
    exact ⟨hk, allowsKey_of_nil hnil k⟩
  · simp only [allowsKey, Bool.or_eq_true, decide_eq_true_eq, List.any_eq_true, hout, false_or]
      at hk
    obtain ⟨pre, hpre, hprefix⟩ := hk
    rw [hfilter, List.mem_filter] at hpre
    refine ⟨allowsKey_mono hprefix hpre.2, ?_⟩
    simp only [allowsKey, Bool.or_eq_true, decide_eq_true_eq, List.any_eq_true]
    exact Or.inr ⟨pre, hpre.1, hprefix⟩

theorem allows_narrow (hfn : ∀ g b, PlainPattern g → fnmatch g b = true → b = g)
    (hvalid : ∀ b ∈ narrow.buckets, validateBucketName b true = .ok ())
    (h : narrowPolicy fnmatch (some parent) narrow = .ok p) {b k : Bytes} {a : Action}
    (hall : p.allows fnmatch b k a = true) :
    parent.allows fnmatch b k a = true ∧ narrow.allows fnmatch b k a = true := by
  by_cases hk : k = []
  · simp only [allows, hk, Bool.and_eq_true, Bool.or_eq_true, decide_true, or_true,
      true_or, and_true] at hall ⊢
    obtain ⟨ha, hb⟩ := hall
    obtain ⟨hap, han⟩ := allowsAction_narrow h ha
    obtain ⟨hbp, hbn⟩ := allowsBucket_narrow hfn hvalid h hb
    exact ⟨⟨hap, hbp⟩, han, hbn⟩
  · rw [allows_iff hk] at hall
    obtain ⟨ha, hb, hkey⟩ := hall
    obtain ⟨hap, han⟩ := allowsAction_narrow h ha
    obtain ⟨hbp, hbn⟩ := allowsBucket_narrow hfn hvalid h hb
    obtain ⟨hkp, hkn⟩ := allowsKey_narrow h hkey
    exact ⟨(allows_iff hk).mpr ⟨hap, hbp, hkp⟩, (allows_iff hk).mpr ⟨han, hbn, hkn⟩⟩

/-! ## Refusals -/

/-- Nothing of a narrow list, or no action, is left under the parent. -/
def NothingSurvives (fnmatch : Bytes → Bytes → Bool) (parent narrow : CredentialPolicy) : Prop :=
  (narrow.buckets ≠ [] ∧ ∀ b ∈ narrow.buckets, parent.allowsBucket fnmatch b = false) ∨
    (narrow.prefixes ≠ [] ∧ ∀ pre ∈ narrow.prefixes, parent.allowsKey pre = false) ∨
    ∀ a, ¬ (parent.allowsAction a = true ∧ narrow.allowsAction a = true)

theorem narrowPolicy_error_of_nothingSurvives (h : NothingSurvives fnmatch parent narrow) :
    ∃ e, narrowPolicy fnmatch (some parent) narrow = .error e ∧ e.code = .AccessDenied := by
  cases hres : narrowPolicy fnmatch (some parent) narrow with
  | ok p =>
      obtain ⟨hbuckets, hprefixes, hne, hmem⟩ := narrowPolicy_ok hres
      rcases h with hb | hp | ha
      · rw [narrowList_error_iff.mpr ⟨rfl, hb⟩] at hbuckets
        cases hbuckets
      · rw [narrowList_error_iff.mpr ⟨rfl, hp⟩] at hprefixes
        cases hprefixes
      · obtain ⟨a, hin⟩ := List.exists_mem_of_ne_nil _ hne
        exact absurd ((hmem a).mp hin) (ha a)
  | error e =>
      refine ⟨e, rfl, ?_⟩
      rcases bind_eq_error.mp hres with hbuckets | ⟨buckets, -, hres⟩
      · rw [(narrowList_error_iff.mp hbuckets).1]
        rfl
      · rcases bind_eq_error.mp hres with hprefixes | ⟨prefixes, -, hres⟩
        · rw [(narrowList_error_iff.mp hprefixes).1]
          rfl
        · dsimp only at hres
          split_ifs at hres
          rw [← Except.error.inj hres]
          rfl

/-- A session never exceeds its parent, and a narrow policy of which nothing is left is refused. -/
theorem narrowPolicy_within (fnmatch : Bytes → Bytes → Bool)
    (hfn : ∀ g b, PlainPattern g → fnmatch g b = true → b = g) (parent : Option CredentialPolicy)
    (narrow : CredentialPolicy)
    (hvalid : ∀ b ∈ narrow.buckets, validateBucketName b true = .ok ()) :
    (∀ p, narrowPolicy fnmatch parent narrow = .ok p →
      (∀ b k a, p.allows fnmatch b k a = true →
        permits fnmatch parent b k a = true ∧ narrow.allows fnmatch b k a = true) ∧
      ∀ k, p.allowsKey k = true → permitsKey parent k = true) ∧
    ∀ q, parent = some q → NothingSurvives fnmatch q narrow →
      ∃ e, narrowPolicy fnmatch parent narrow = .error e ∧ e.code = .AccessDenied := by
  constructor
  · intro p hp
    cases parent with
    | none =>
        obtain rfl := Except.ok.inj hp
        exact ⟨fun b k a h => ⟨rfl, h⟩, fun k _ => rfl⟩
    | some q => exact ⟨fun b k a h => allows_narrow hfn hvalid hp h, fun k h =>
      (allowsKey_narrow hp h).1⟩
  · rintro q rfl hnothing
    exact narrowPolicy_error_of_nothingSurvives hnothing

/-- A read-only parent of one prefix, and a request for a bucket and two prefixes. -/
theorem narrowPolicy_within_logs :
    (∃ p, narrowPolicy (fun g b => g = b) (some { prefixes := [ascii "logs/"], readonly := true })
        { buckets := [ascii "data"], prefixes := [ascii "logs/a", ascii "x"] } = .ok p ∧
      p.allows (fun g b => g = b) (ascii "data") (ascii "logs/ab") .Read = true) ∧
    ∀ p, narrowPolicy (fun g b => g = b) (some { prefixes := [ascii "logs/"], readonly := true })
        { buckets := [ascii "data"], prefixes := [ascii "logs/a", ascii "x"] } = .ok p →
      ∀ k, p.allowsKey k = true →
        permitsKey (some { prefixes := [ascii "logs/"], readonly := true }) k = true :=
  ⟨⟨_, rfl, by decide +kernel⟩, fun p hp =>
    ((narrowPolicy_within (fun g b => g = b) (by simp [eq_comm]) _ _ (by decide +kernel)).1 p hp).2⟩

end CredentialPolicy

end Lights3
