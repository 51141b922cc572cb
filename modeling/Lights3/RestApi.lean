import Lights3.CredentialPolicy
import Lights3.TableMaintenance

/-!
# The Iceberg REST service

The requests that lead to deletions, the check of the caller's policy that goes with
each route, and the maintenance jobs that they start. A job works on the table it was
started for, one at a time per table, at any later moment. Jobs of other callers and what
they do to the catalog are steps of their own.
-/
namespace Lights3
open ByteString

/-! ## Requests -/

/-- A plan document, as `MaintenancePlan::from_json` reads it. -/
structure PlanDocument where
  bucket : Bytes
  plan : MaintenancePlan
  /-- The commit that expires snapshots, if the plan has any to expire. -/
  expire : Option CommitRequest := none
  manualReview : Bool := false

namespace PlanDocument

def candidates (doc : PlanDocument) : List Bytes :=
  doc.plan.metadataCandidates ++ doc.plan.orphanCandidates

end PlanDocument

/-- The settings of a table, as `resolve_maintenance` finds them. -/
structure EffectiveMaintenance where
  planner : PlannerOptions := {}
  deleteEnabled : Bool := false

/-- Where the plan of a run comes from. -/
inductive RunBody where
  | inline (doc : PlanDocument)
  | jobId (id : Nat)
  | latest

inductive RestRequest where
  | createNamespace (levels : Levels)
  | createTable (path : TablePath) (location : Option Bytes) (ids : NewIds)
  | registerTable (path : TablePath) (metadataLocation : Bytes) (ids : NewIds)
  | commitTable (call : CommitCall) (req : CommitRequest) (ids : NewIds)
  | renameTable (src dst : TablePath)
  | dropTable (path : TablePath) (purgeRequested : Bool)
  | planMaintenance (path : TablePath) (eff : EffectiveMaintenance)
  | runMaintenance (path : TablePath) (body : RunBody) (eff : EffectiveMaintenance)

/-- The check of the policy in `dispatch`, and the one that `rename_table` makes itself. The
namespace of a request that creates one is in its body, so the key has no levels. -/
def RestRequest.authorised (fnmatch : Bytes → Bytes → Bool) (p : CredentialPolicy)
    (bucket : Bytes) : RestRequest → Bool
  | createNamespace _ => p.allows fnmatch bucket (nsPath [] ++ [slash]) .Write
  | createTable path _ _ | registerTable path _ _ =>
      p.allows fnmatch bucket (nsPath path.levels ++ [slash]) .Write
  | commitTable call _ _ => p.allowsTable fnmatch bucket call.path .Write
  | renameTable src dst =>
      p.allows fnmatch bucket [] .Write && p.allowsTable fnmatch bucket src .Delete &&
        p.allowsTable fnmatch bucket dst .Write
  | dropTable path _ => p.allowsTable fnmatch bucket path .Delete
  | planMaintenance path _ | runMaintenance path _ _ => p.allowsTable fnmatch bucket path .Write

/-! ## Jobs -/

inductive TableJob where
  | plan (opt : PlannerOptions)
  | run (doc : PlanDocument) (deleteEnabled : Bool) (safetyWindowSec : Int)
  | purge

/-- The slot of the plan jobs of a table: the last one and its result. -/
structure PlanSlot where
  id : Nat
  stats : Option PlanDocument := none

structure RestState where
  lake : Lake := {}
  running : SortedMap TablePath TableJob := .empty
  plans : SortedMap TablePath PlanSlot := .empty
  nextId : Nat := 1

namespace RestState

/-- `AdminJobs::launch`: a table has one job at a time. The service answers the S3 error of
a busy table as an internal error. -/
def launch (s : RestState) (path : TablePath) (job : TableJob) : Except RestError RestState :=
  match s.running.get? path with
  | some _ => .error (restInternal (ascii "internal error"))
  | none =>
      .ok { s with
        running := s.running.insert path job
        plans :=
          match job with
          | .plan _ => s.plans.insert path { id := s.nextId }
          | _ => s.plans
        nextId := s.nextId + 1 }

/-- The plan document of a run: inline, by job id, or the last one of the table. -/
def planOf (s : RestState) (path : TablePath) : RunBody → Except RestError PlanDocument
  | .inline doc => .ok doc
  | .jobId id =>
      match (s.plans.get? path).filter (fun slot => slot.id = id) with
      | none => .error (badRequest (ascii "'job_id' is not a plan job of this table"))
      | some slot => statsOf slot
  | .latest =>
      match s.plans.get? path with
      | none => .error (badRequest (ascii "no completed plan for this table; run plan first"))
      | some slot => statsOf slot
where
  statsOf (slot : PlanSlot) : Except RestError PlanDocument :=
    match s.running.get? path, slot.stats with
    | some (.plan _), _ => .error (badRequest (ascii "the plan job is still running"))
    | _, none => .error (badRequest (ascii "no completed plan for this table; run plan first"))
    | _, some doc => .ok doc

def requireTable (s : RestState) (path : TablePath) : Except RestError Unit :=
  if (s.lake.tablePointer path).isSome then .ok ()
  else .error (notFoundTable (ascii "table " ++ path.display ++ ascii " does not exist"))

/-- `start_run`. -/
def startRun (b : TableBucket) (s : RestState) (path : TablePath) (body : RunBody)
    (eff : EffectiveMaintenance) : Except RestError RestState := do
  let doc ← s.planOf path body
  if doc.bucket ≠ b.bucket || doc.plan.path ≠ path then
    throw (badRequest (ascii "the plan belongs to another table"))
  else if doc.manualReview then
    throw (badRequest (ascii "the plan is marked for manual review; it cannot be run"))
  else s.launch path (.run doc eff.deleteEnabled eff.planner.safetyWindowSec)

/-- The operation on the catalog that a request asks for; the job requests have none. -/
def opOf : RestRequest → Option LakeOp
  | .createNamespace levels => some (.createNamespace levels)
  | .createTable path location ids => some (.createTable path location ids)
  | .registerTable path metadataLocation ids => some (.registerTable path metadataLocation ids)
  | .commitTable call req ids => some (.commitTable call req ids)
  | .renameTable src dst => some (.renameTable src dst)
  | .dropTable path _ => some (.dropTable path)
  | .planMaintenance .. | .runMaintenance .. => none

/-- A handler after the operation on the catalog succeeded. -/
def startJob (b : TableBucket) (s : RestState) : RestRequest → Except RestError RestState
  | .dropTable path true => s.launch path .purge
  | .planMaintenance path eff => do
      s.requireTable path
      s.launch path (.plan eff.planner)
  | .runMaintenance path body eff => do
      s.requireTable path
      s.startRun b path body eff
  | _ => .ok s

/-- A request that is authorised. The catalog keeps what was done to it when the job cannot
be started. -/
def handle (b : TableBucket) (s : RestState) (r : RestRequest) : RestState :=
  let done : Option RestState :=
    match opOf r with
    | none => some s
    | some op =>
        if s.lake.Enabled op then (s.lake.exec b op).toOption.map (fun l => { s with lake := l })
        else none
  match done with
  | none => s
  | some s' => (s'.startJob b r).toOption.getD s'

end RestState

inductive RestEvent where
  | request (r : RestRequest)
  /-- The job of the table runs; the ids are those its expiry commit draws. -/
  | finish (path : TablePath) (maintId : Bytes) (ids : NewIds)
  /-- Another caller or an S3 client. -/
  | other (op : LakeOp)

namespace RestState

/-- The commit of the snapshots that a plan expires. -/
def expiryOf (doc : PlanDocument) (maintId : Bytes) (ids : NewIds) : Option Lake.Expiry :=
  doc.expire.map (fun req =>
    { call := { path := doc.plan.path, commitId := ascii "maint-" ++ maintId }, req, ids })

/-- What a job does; a job that fails changes nothing. -/
def perform (b : TableBucket) (s : RestState) (path : TablePath) (maintId : Bytes) (ids : NewIds) :
    TableJob → RestState
  | .plan opt =>
      match s.lake.planTable b path opt with
      | .error _ => s
      | .ok (plan, review) =>
          { s with
            plans :=
              match s.plans.get? path with
              | none => s.plans
              | some slot => s.plans.insert path
                  { slot with stats := some { bucket := b.bucket, plan, manualReview := review } } }
  | .run doc deleteEnabled safetyWindowSec =>
      match s.lake.runTable b doc.plan (expiryOf doc maintId ids) deleteEnabled safetyWindowSec with
      | .error _ => s
      | .ok lake => { s with lake }
  | .purge =>
      match s.lake.purgeTable b path with
      | .error _ => s
      | .ok lake => { s with lake }

def finish (b : TableBucket) (s : RestState) (path : TablePath) (maintId : Bytes) (ids : NewIds) :
    RestState :=
  match s.running.get? path with
  | none => s
  | some job =>
      { s.perform b path maintId ids job with running := s.running.erase path }

/-- One step of the service for a caller with the policy. -/
def step (fnmatch : Bytes → Bytes → Bool) (p : CredentialPolicy) (b : TableBucket)
    (s : RestState) : RestEvent → RestState
  | .request r => if r.authorised fnmatch p b.bucket then s.handle b r else s
  | .finish path maintId ids => if s.lake.Fresh ids then s.finish b path maintId ids else s
  | .other op => { s with lake := s.lake.step b op }

end RestState

end Lights3
