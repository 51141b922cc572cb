import Lights3.Lib.Runs
import Lights3.Records

/-!
# The time wheel of the tiered backend

Access records and the slot files of `tiered/tiered_backend.cc`: touches are buffered and flushed to
access records, a flushed record enrolls its object in the slot of its deadline, and an incremental
scan reads the slots that are due. Rounds run one after the other; a scan gets its clock value and
which of its demotions succeed. Space-watermark eviction and the books of local bytes are left out.
-/
namespace Lights3
open ByteString

/-- Bucket and key. -/
abbrev ObjectName := Bytes ×ₗ Bytes

instance : LawfulBEq ObjectName := inferInstance

/-! ## Records -/

/-- `AccessRec`; the slot -1 is none. -/
structure AccessRec where
  atime : Int := 0
  hits : Nat := 0
  enrolled : Int := -1
  deriving DecidableEq

/-- `Touch`, since the last flush. -/
structure Touch where
  atime : Int := 0
  hits : Nat := 0
  deriving DecidableEq

/-- An object of the local side. In xattr mode its access record is with the data file. -/
structure LocalObject where
  tier : Tier := .kLocal
  localBytes : Nat
  mtime : Int
  xattr : Option AccessRec := none

structure WheelConfig where
  /-- `cold_after_for`; a negative value pins the object. -/
  coldAfter : ObjectName → Int
  /-- Access records are in a table and not with the data files. -/
  resident : Bool

structure TimeWheel where
  objects : SortedMap ObjectName LocalObject := SortedMap.empty
  table : SortedMap ObjectName AccessRec := SortedMap.empty
  dirty : SortedMap ObjectName Touch := SortedMap.empty
  /-- The slot files, by lines. -/
  slots : SortedMap Int (List ObjectName) := SortedMap.empty

def kWheelSlotSec : Int := 3600

/-- `wheel_slot_for`. -/
def wheelSlotFor (atime coldAfter : Int) : Int := (atime + coldAfter).tdiv kWheelSlotSec

/-- A key that can be written on a line: no tab and no line feed. -/
def Encodable (n : ObjectName) : Prop := (9 : UInt8) ∉ (ofLex n).2 ∧ (10 : UInt8) ∉ (ofLex n).2

instance (n : ObjectName) : Decidable (Encodable n) := inferInstanceAs (Decidable (_ ∧ _))

/-- A sum of hit counters, which stop at the largest `uint32_t`. -/
def addHits (a b : Nat) : Nat := min (a + b) (2 ^ 32 - 1)

namespace TimeWheel

/-! ## Access records -/

section Access

variable (c : WheelConfig) (w : TimeWheel)

/-- `load_access`. -/
def loadAccess (n : ObjectName) : Option AccessRec :=
  (if c.resident then none else (w.objects.get? n).bind (·.xattr)).or (w.table.get? n)

/-- `store_access`; the attribute of a missing data file cannot be set. -/
def storeAccess (n : ObjectName) (r : AccessRec) : TimeWheel :=
  match c.resident, w.objects.get? n with
  | false, some o =>
      { w with objects := w.objects.insert n { o with xattr := some r }, table := w.table.erase n }
  | _, _ => { w with table := w.table.insert n r }

/-- `wheel_append`. -/
def wheelAppend (slot : Int) (n : ObjectName) : TimeWheel :=
  if Encodable n then { w with slots := w.slots.insert slot ((w.slots.get? slot).getD [] ++ [n]) }
    else w

/-- `persist_access`. -/
def persistAccess (n : ObjectName) (r : AccessRec) : TimeWheel :=
  let ca := c.coldAfter n
  if 0 ≤ ca then
    let slot := wheelSlotFor r.atime ca
    if slot ≠ r.enrolled then (w.wheelAppend slot n).storeAccess c n { r with enrolled := slot }
    else w.storeAccess c n r
  else w.storeAccess c n r

/-- `access_of`. -/
def accessOf (n : ObjectName) (fallbackMtime : Int) : AccessRec :=
  let r := (w.loadAccess c n).getD { atime := fallbackMtime }
  match w.dirty.get? n with
  | none => r
  | some t => { r with atime := max r.atime t.atime, hits := addHits r.hits t.hits }

/-- A pending touch goes to the access record. -/
def flushed (n : ObjectName) (t : Touch) : AccessRec :=
  let r := (w.loadAccess c n).getD {}
  { r with atime := max r.atime t.atime, hits := addHits r.hits t.hits }

/-- `flush_access_sync`. -/
def flushAccess : TimeWheel :=
  { w.dirty.entries.foldl (fun w e => w.persistAccess c e.1 (w.flushed c e.1 e.2)) w with
    dirty := SortedMap.empty }

end Access

/-! ## Objects -/

section Objects

variable (w : TimeWheel)

/-- `touch`. -/
def touch (now : Nat) (n : ObjectName) : TimeWheel :=
  let t := (w.dirty.get? n).getD {}
  { w with
    dirty := w.dirty.insert n
      { atime := now, hits := if t.hits < 2 ^ 32 - 1 then t.hits + 1 else t.hits } }

/-- `forget_access`. -/
def forgetAccess (n : ObjectName) : TimeWheel :=
  { w with dirty := w.dirty.erase n, table := w.table.erase n }

/-- A write or a cache fill: a new data file, which has no access record. -/
def create (now : Nat) (n : ObjectName) (tier : Tier) (localBytes : Nat) : TimeWheel :=
  { w with objects := w.objects.insert n { tier, localBytes, mtime := now } }.touch now n

/-- `delete_object`. -/
def delete (n : ObjectName) : TimeWheel := { w with objects := w.objects.erase n }.forgetAccess n

/-- A demotion that succeeds. A stub whose data was not reclaimed is only finished. -/
def demote (n : ObjectName) : TimeWheel :=
  match w.objects.get? n with
  | none => w
  | some o =>
      let stub : LocalObject := { o with tier := .kRemote, localBytes := 0, xattr := none }
      if o.tier = .kRemote then if 0 <
        o.localBytes then { w with objects := w.objects.insert n stub } else w
      else { w with objects := w.objects.insert n stub }.forgetAccess n

end Objects

/-! ## Scans -/

/-- `ScanCtx`: the keys that were seen on a line, the keys that were picked and those of them whose
demotion has not been started. -/
structure ScanCtx where
  wheel : TimeWheel
  seen : List ObjectName := []
  chosen : List ObjectName := []
  batch : List ObjectName := []

def kScanBatch : Nat := 128

namespace ScanCtx

variable (c : WheelConfig) (demoted : ObjectName → Bool) (cx : ScanCtx)

/-- `drain_batch`. -/
def drain : ScanCtx :=
  { cx with
    wheel := cx.batch.foldl (fun w n => if demoted n then w.demote n else w) cx.wheel
    batch := [] }

/-- `pick`. -/
def pick (n : ObjectName) : ScanCtx :=
  if n ∈ cx.chosen then cx else { cx with chosen := n :: cx.chosen, batch := cx.batch ++ [n] }

def drainFull : ScanCtx := if kScanBatch ≤ cx.batch.length then cx.drain demoted else cx

/-- `consider`, for a line of a slot. -/
def consider (now : Nat) (n : ObjectName) (fromSlot : Int) : ScanCtx :=
  match cx.wheel.objects.get? n with
  | none => cx
  | some o =>
      if o.tier = .kRemote then if 0 < o.localBytes then cx.pick n else cx
      else
        let ca := c.coldAfter n
        if ca < 0 ∨ o.localBytes = 0 then cx
        else
          let a := cx.wheel.accessOf c n o.mtime
          if ca ≤ now - a.atime then (cx.pick n).drainFull demoted
          else
            -- the slot that is consumed is deleted afterwards
            let a := if a.enrolled = fromSlot then { a with enrolled := -1 } else a
            if a.enrolled ≠ wheelSlotFor a.atime ca then
              ({ cx with wheel := cx.wheel.persistAccess c n a } : ScanCtx).drainFull demoted
            else cx.drainFull demoted

/-- A line of a slot file. -/
def visit (now : Nat) (line : Int × ObjectName) : ScanCtx :=
  if line.2 ∈ cx.chosen ∨ line.2 ∈ cx.seen then cx
  else ({ cx with seen := line.2 :: cx.seen } : ScanCtx).consider c demoted now line.2 line.1

def visitAll (now : Nat) (lines : List (Int × ObjectName)) : ScanCtx :=
  lines.foldl (fun cx line => cx.visit c demoted now line) cx

end ScanCtx

variable (c : WheelConfig) (w : TimeWheel)

/-- The lines of the due slots, in the order of the slots. -/
def dueLines (now : Nat) : List (Int × ObjectName) :=
  (w.slots.entries.filter (fun e => e.1 ≤ (now : Int).tdiv kWheelSlotSec)).flatMap
    (fun e => e.2.map (fun n => (e.1, n)))

/-- `scan_incremental`: due slots are renamed aside before they are read. -/
def scanIncremental (now : Nat) (demoted : ObjectName → Bool) : ScanCtx :=
  ScanCtx.visitAll c demoted
    { wheel := { w with
        slots := w.slots.keep (fun slot => (now : Int).tdiv kWheelSlotSec < slot) } } now
    (w.dueLines now)

/-- `scan_once` of an incremental round. -/
def scanOnce (now : Nat) (demoted : ObjectName → Bool) : TimeWheel :=
  (((w.flushAccess c).scanIncremental c now demoted).drain demoted).wheel.flushAccess c

end TimeWheel

inductive WheelEvent where
  | touch (now : Nat) (n : ObjectName)
  | flush
  | create (now : Nat) (n : ObjectName) (tier : Tier) (localBytes : Nat)
  | delete (n : ObjectName)
  | scan (now : Nat) (demoted : ObjectName → Bool)

namespace TimeWheel

def step (c : WheelConfig) (w : TimeWheel) : WheelEvent → TimeWheel
  | .touch now n => w.touch now n
  | .flush => w.flushAccess c
  | .create now n tier localBytes => w.create now n tier localBytes
  | .delete n => w.delete n
  | .scan now demoted => w.scanOnce c now demoted

end TimeWheel

end Lights3
