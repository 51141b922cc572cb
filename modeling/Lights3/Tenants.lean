import Lights3.StorageTypes

/-!
# Tenants and the owners of buckets

The tables of `s3/tenant.cc`. A bucket that is not in the owner table belongs to no tenant.
-/
namespace Lights3
open ByteString

/-- What a tenant may have; zero is no limit. -/
structure TenantQuota where
  maxBuckets : UInt64 := 0

/-- `TenantRegistry`. -/
structure TenantRegistry where
  tenants : SortedMap Bytes TenantQuota := .empty
  owners : SortedMap Bytes Bytes := .empty

/-- An identifier in a message. -/
def shown (b : Bytes) : String := String.ofList (b.map (fun c => Char.ofNat c.toNat))

namespace TenantRegistry

variable (t : TenantRegistry)

/-- `owner_of`; empty if there is none. -/
def ownerOf (b : Bytes) : Bytes := (t.owners.get? b).getD []

def find (id : Bytes) : Option TenantQuota := t.tenants.get? id

def bucketsOf (id : Bytes) : List Bytes :=
  (t.owners.entries.filter (fun e => e.2 = id)).map (·.1)

/-- `assign` with `force`, which does not ask who owns the bucket now. -/
def forceAssign (b tenant : Bytes) : TenantRegistry :=
  { t with owners := t.owners.insert b tenant }

def unassign (b : Bytes) : TenantRegistry := { t with owners := t.owners.erase b }

/-- `require_tenant_bucket`, when the owner is looked up. -/
inductive GateAnswer where
  | admitted
  | foreign

def gate (b tenant : Bytes) (creating : Bool) : GateAnswer :=
  if t.ownerOf b = tenant then .admitted
  else if creating && t.ownerOf b = [] then .admitted
  else .foreign

/-- The answer of `require_tenant_bucket` to a tenant that does not own the bucket. -/
def foreignError (b tenant : Bytes) (bucketExists : Bool) : S3Error :=
  if !bucketExists then ⟨.NoSuchBucket, "The specified bucket does not exist", b⟩
  else ⟨.AccessDenied, "Access denied: bucket is not owned by tenant '" ++ shown tenant ++ "'.", b⟩

/-- `create_bucket`: the tenant exists and may have another bucket. -/
def admitBucket (b tenant : Bytes) : Except S3Error Unit :=
  match t.find tenant with
  | none => .error ⟨.AccessDenied, "The credential's tenant no longer exists.", b⟩
  | some q =>
      if q.maxBuckets ≠ 0 ∧ q.maxBuckets.toNat ≤ (t.bucketsOf tenant).length then
        .error ⟨.QuotaExceeded, "The tenant has reached its bucket limit (" ++
          toString q.maxBuckets.toNat ++ ").", b⟩
      else .ok ()

variable {t : TenantRegistry}

theorem ownerOf_forceAssign (b b' tenant : Bytes) :
    (t.forceAssign b tenant).ownerOf b' = if b' = b then tenant else t.ownerOf b' := by
  by_cases h : b' = b
  · simp [ownerOf, forceAssign, SortedMap.get?_insert, h]
  · simp [ownerOf, forceAssign, SortedMap.get?_insert, h]

theorem ownerOf_unassign (b b' : Bytes) :
    (t.unassign b).ownerOf b' = if b' = b then [] else t.ownerOf b' := by
  by_cases h : b' = b
  · simp [ownerOf, unassign, SortedMap.get?_erase, h]
  · simp [ownerOf, unassign, SortedMap.get?_erase, h]

end TenantRegistry

end Lights3
