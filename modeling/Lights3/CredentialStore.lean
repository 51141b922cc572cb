import Lights3.CredentialPolicy
import Lights3.Lib.Interleaving

/-!
# One credential of the credential store

`generate`, `remove`, `update` and `sync_now` of `s3/auth/credential_store.cc` for one access key:
its entry in memory, its object in storage and its tombstone. A move is one critical section or one
call of the backend; a call may fail, before or after it has taken effect. A `generate` appears here
if it draws this key. Secrets at rest, sessions, and the other entries of the table are left out,
except that a round of `sync_now` is told whether there are others.
-/
namespace Lights3
open ByteString Interleaving

inductive CredSource where
  | kStatic
  | kFile
  | kDynamic
  deriving DecidableEq

/-- `CredentialInfo`. -/
structure CredentialInfo where
  secretKey : Bytes := []
  comment : Bytes := []
  policy : Option CredentialPolicy := none
  tenant : Bytes := []
  tenantAdmin : Bool := false
  rev : Nat := 1
  source : CredSource := .kDynamic
  storageEtag : Bytes := []
  deriving DecidableEq

/-- `CredentialStore::Update`; `policy` is set to nothing by `some none`. -/
structure CredentialUpdate where
  comment : Option Bytes := none
  policy : Option (Option CredentialPolicy) := none
  tenant : Option Bytes := none
  tenantAdmin : Option Bool := none
  deriving DecidableEq

def CredentialUpdate.apply (u : CredentialUpdate) (c : CredentialInfo) : CredentialInfo :=
  let tenant := u.tenant.getD c.tenant
  { c with
    comment := u.comment.getD c.comment
    policy := u.policy.getD c.policy
    tenant
    tenantAdmin := if tenant = [] then false else u.tenantAdmin.getD c.tenantAdmin
    rev := c.rev + 1 }

/-- An object of a credential; what cannot be read back has no content. -/
structure CredentialObject where
  content : Option CredentialInfo
  etag : Bytes

/-- What the operations on the key share. -/
structure CredentialCell where
  entry : Option CredentialInfo := none
  object : Option CredentialObject := none
  tombstone : Option Nat := none
  /-- The steady clock, in seconds. -/
  now : Nat := 0

/-- `CredentialLookup`. -/
structure CredentialLookup where
  secretKey : Bytes
  policy : Option CredentialPolicy
  tenant : Bytes
  tenantAdmin : Bool

def CredentialCell.lookup (s : CredentialCell) : Option CredentialLookup :=
  s.entry.map fun c => ⟨c.secretKey, c.policy, c.tenant, c.tenantAdmin⟩

/-- What a move finds out: whether the call succeeds, whether a failed call took effect, the etag
that storage gives, and whether the table has other entries. -/
structure CredentialInput where
  ok : Bool := true
  did : Bool := false
  etag : Bytes := []
  others : Bool := true

inductive CredentialTask where
  | removeCheck
  | removeTombstone
  | removeDelete
  /-- The delete failed: the tombstone is taken back. -/
  | removeFailed
  | removeErase
  | removed
  | updateRead (u : CredentialUpdate)
  | updatePut (c : CredentialInfo)
  | updateCommit (c : CredentialInfo)
  /-- The entry is gone: the object that was just written again is deleted. -/
  | updateUndo
  | generateCheck (c : CredentialInfo)
  | generatePut (c : CredentialInfo)
  | generateInsert (c : CredentialInfo)
  | syncSnapshot
  | syncList (known : Bool)
  | syncTombstones (known : Bool) (listed : Option Bytes)
  | syncFind (known revoked : Bool) (listed : Option Bytes)
  /-- `changed` says that there was an entry with another etag. -/
  | syncGet (etag : Bytes) (changed : Bool)
  | syncMerge (c : CredentialInfo) (changed : Bool)
  | syncGone
  /-- Returned, or failed. -/
  | done
  deriving DecidableEq

/-- `std::max(60, 2 * sync_interval_sec)`. -/
def tombstoneTtl (syncInterval : Nat) : Nat := max 60 (2 * syncInterval)

def isDynamic (c : Option CredentialInfo) : Bool := c.any fun c => c.source = .kDynamic

/-- A call that writes the object. -/
def CredentialCell.put (s : CredentialCell) (x : CredentialInput) (c : CredentialInfo) :
    CredentialCell :=
  if x.ok || x.did then
    { s with object := some ⟨some { c with source := .kDynamic, storageEtag := [] }, x.etag⟩ }
  else s

/-- A call that deletes the object. -/
def CredentialCell.delete (s : CredentialCell) (x : CredentialInput) : CredentialCell :=
  if x.ok || x.did then { s with object := none } else s

namespace CredentialTask

def move (ttl : Nat) (s : CredentialCell) (x : CredentialInput) :
    CredentialTask → CredentialCell × CredentialTask
  | .removeCheck => (s, if isDynamic s.entry then .removeTombstone else .done)
  | .removeTombstone => ({ s with tombstone := some s.now }, .removeDelete)
  | .removeDelete => (s.delete x, if x.ok then .removeErase else .removeFailed)
  | .removeFailed => ({ s with tombstone := none }, .done)
  | .removeErase => ({ s with entry := none }, .removed)
  | .removed => (s, .removed)
  | .updateRead u =>
      match s.entry with
      | some c => (s, if c.source = .kDynamic then .updatePut (u.apply c) else .done)
      | none => (s, .done)
  | .updatePut c =>
      (s.put x c, if x.ok then .updateCommit { c with storageEtag := x.etag } else .done)
  | .updateCommit c =>
      if isDynamic s.entry then ({ s with entry := some c }, .done) else (s, .updateUndo)
  | .updateUndo => (s.delete x, .done)
  | .generateCheck c => (s, if s.entry.isSome then .done else .generatePut c)
  | .generatePut c =>
      (s.put x c, if x.ok then .generateInsert { c with storageEtag := x.etag } else .done)
  | .generateInsert c => ({ s with entry := some c }, .done)
  | .syncSnapshot => (s, .syncList (isDynamic s.entry))
  | .syncList known => (s, if x.ok then .syncTombstones known (s.object.map (·.etag)) else .done)
  | .syncTombstones known listed =>
      match s.tombstone with
      | some recorded =>
          if ttl < s.now - recorded then
            ({ s with tombstone := none }, .syncFind known false listed)
          else (s, .syncFind known true listed)
      | none => (s, .syncFind known false listed)
  | .syncFind known revoked listed =>
      match listed with
      | none => (s, if known then .syncGone else .done)
      | some etag =>
          match s.entry with
          | some c =>
              (s, if c.source ≠ .kDynamic ∨ etag = [] ∨ c.storageEtag = etag then .done else
                .syncGet etag true)
          | none => (s, if revoked then .done else .syncGet etag false)
  | .syncGet etag changed =>
      match s.object.bind (·.content) with
      | some c => (s, if x.ok then .syncMerge { c with storageEtag := etag } changed else .done)
      | none => (s, .done)
  | .syncMerge c changed =>
      match s.entry with
      | some old =>
          if changed ∧ old.source = .kDynamic ∧ old.rev ≤ c.rev then
            ({ s with entry := some c }, .done)
          else (s, .done)
      | none => (if changed then s else { s with entry := some c }, .done)
  | .syncGone =>
      -- The last entry of the table is kept.
      (if isDynamic s.entry ∧ x.others then { s with entry := none } else s, .done)
  | .done => (s, .done)

end CredentialTask

inductive CredentialRequest where
  | remove
  | update (u : CredentialUpdate)
  | generate (secretKey comment : Bytes) (policy : Option CredentialPolicy) (tenant : Bytes)
    (tenantAdmin : Bool)
  | sync

def CredentialRequest.start : CredentialRequest → CredentialTask
  | .remove => .removeCheck
  | .update u => .updateRead u
  | .generate secretKey comment policy tenant tenantAdmin =>
      .generateCheck
        { secretKey, comment, policy, tenant, tenantAdmin := tenant ≠ [] && tenantAdmin }
  | .sync => .syncSnapshot

/-- The operations on one access key. Time passes between their moves. -/
def credentialMachine (syncInterval : Nat) :
    Machine CredentialCell CredentialTask CredentialRequest CredentialInput Nat where
  start := CredentialRequest.start
  move := CredentialTask.move (tombstoneTtl syncInterval)
  env s seconds := { s with now := s.now + seconds }

end Lights3
