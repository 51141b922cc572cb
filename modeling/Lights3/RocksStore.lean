import Lights3.Lib.OrderedScan
import Lights3.RecordCodecRoundTrip

/-!
# The RocksDB metadata store

The tables of `RocksMetaStore` with the keys of objects (`duostore/codec.cc`) and the check of a
conditional put (`duostore/meta_util.h`). Tables hold the record that their value decodes to. Engine
I/O failures and the other tables are not modelled; the queue of the collector is a table of its
own.
-/
namespace Lights3
open ByteString

/-! ## Object keys -/

/-- The bytes of `object_key`, without the check. -/
def objectKeyBytes (b k : Bytes) : Bytes := b ++ 0 :: k

def NoNul (s : Bytes) : Prop := (0 : UInt8) ∉ s

/-- A NUL-free component is determined by what precedes the first NUL. -/
theorem append_nul_inj {b b' s s' : Bytes} (hb : NoNul b) (hb' : NoNul b')
    (h : b ++ 0 :: s = b' ++ 0 :: s') : b = b' ∧ s = s' := by
  induction b generalizing b' with
  | nil =>
      cases b' with
      | nil => simpa using h
      | cons c b' =>
          simp only [List.nil_append, List.cons_append, List.cons.injEq] at h
          exact absurd (h.1 ▸ List.mem_cons_self) hb'
  | cons c b ih =>
      cases b' with
      | nil =>
          simp only [List.nil_append, List.cons_append, List.cons.injEq] at h
          exact absurd (h.1 ▸ List.mem_cons_self) hb
      | cons d b' =>
          simp only [List.cons_append, List.cons.injEq] at h
          have hb1 : NoNul b := fun hm => hb (List.mem_cons_of_mem c hm)
          have hb2 : NoNul b' := fun hm => hb' (List.mem_cons_of_mem d hm)
          obtain ⟨rfl, rfl⟩ := ih hb1 hb2 h.2
          exact ⟨by rw [h.1], rfl⟩

/-! ## Tables -/

def kIdSegment : Nat := 4096
def kMaxIdRun : Nat := 64

/-- The column families of buckets and objects. -/
structure Store where
  buckets : SortedMap Bytes Int64 := SortedMap.empty
  objects : SortedMap Bytes ObjectRec := SortedMap.empty

namespace Store

/-! ## Buckets -/

def noSuchBucket (b : Bytes) : S3Error :=
  ⟨.NoSuchBucket, "The specified bucket does not exist", b⟩

/-- `require_bucket_locked`. -/
def requireBucket (s : Store) (b : Bytes) : Except S3Error Unit :=
  if (s.buckets.get? b).isSome then .ok () else .error (noSuchBucket b)

/-! ## Garbage collection -/

/-- The loop of `peek_reclaims`, with the entries taken and extents counted so far. -/
def peekLoop (max maxExtents : Nat) :
    List (Nat × Reclaim) → Nat → Nat → List (Nat × Reclaim)
  | [], _, _ => []
  | x :: xs, taken, extents =>
      if taken < max then
        let extents := extents + x.2.extents.length
        if extents ≥ maxExtents then [x] else x :: peekLoop max maxExtents xs (taken + 1) extents
      else []

end Store

end Lights3
