/-
THE METHOD CACHE AS ITS WRITER SEES IT, ON ANY TARGET.

`cache_fill_nolock` and `cache_erase_nolock` on one cache, each as one call. A
target is a `CacheTarget`: the width of `mask_t`, whether the scan increments
to an end marker or decrements (`cache_next`), the sizes that decide which
caches share `_objc_empty_cache`, and the hash of a selector.

The shared empty buckets (`emptyBucketsList`) belong to all caches; an erasure
of another cache may extend the list between two calls.
-/
import ObjcRuntime.Cache.Model
import ObjcRuntime.Lib.CyclicProbe

namespace ObjcRuntime

open Lib

/-! ## Targets -/

structure CacheTarget where
  /-- The width of `mask_t`. -/
  MASK_BITS : Nat
  widths : MASK_BITS = 16 ∨ MASK_BITS = 32
  /-- The scan increments and wraps at a special bucket; without it the scan decrements. -/
  CACHE_END_MARKER : Bool
  /-- `sizeof(bucket_t)`. -/
  BUCKET_BYTES : Nat
  EMPTY_BYTES : Nat
  empty_room : BUCKET_BYTES ≤ EMPTY_BYTES
  cache_hash : Nat → Nat → Nat
  cache_hash_le : ∀ key mask, cache_hash key mask ≤ mask

namespace CacheTarget

variable (T : CacheTarget)

def cache_next (i mask : Nat) : Nat :=
  if T.CACHE_END_MARKER then (i + 1) &&& mask else if i ≠ 0 then i - 1 else mask

/-- `bytesForCapacity`; `cap + 1` is a `uint32_t`. -/
def bytesForCapacity (cap : Nat) : Nat :=
  if T.CACHE_END_MARKER then T.BUCKET_BYTES * ((cap + 1) % 2 ^ 32) else T.BUCKET_BYTES * cap

/-- `allocateBuckets`, as the array `id`: with an end marker if the target has one. -/
def allocateBuckets (id newCapacity : Nat) : BucketArray :=
  if T.CACHE_END_MARKER then ObjcRuntime.allocateBuckets id newCapacity
  else BucketArray.zeroed newCapacity

end CacheTarget

abbrev Selector := { key : SEL // key ≠ 0 }

/-! ## The cache -/

/-- One cache, the arrays of buckets, and the shared empty ones (the array 0 is
`_objc_empty_cache`). `inserted` are the selectors inserted since the last erasure. -/
structure BucketCache where
  arrays : Nat → BucketArray
  allocated : Nat
  emptyBucketsList : List Nat
  buckets : Nat
  mask : Nat
  occupied : Nat
  inserted : Finset SEL

/-- `bad_cache`, and the assertions of `reallocate`. -/
inductive CacheHalt where
  | badCache
  | assertCapacity
  deriving DecidableEq

namespace BucketCache

variable (T : CacheTarget)

def initializeToEmpty : BucketCache where
  arrays := fun _ => BucketArray.zeroed (T.EMPTY_BYTES / T.BUCKET_BYTES)
  allocated := 1
  emptyBucketsList := []
  buckets := 0
  mask := 0
  occupied := 0
  inserted := ∅

def bucketArray (c : BucketCache) : BucketArray := c.arrays c.buckets

def capacity (c : BucketCache) : Nat := if c.mask = 0 then 0 else (c.mask + 1) % 2 ^ T.MASK_BITS

/-- `emptyBucketsForCapacity(capacity, false)`. -/
def emptyBuckets (c : BucketCache) (capacity : Nat) : Option Nat :=
  if T.bytesForCapacity capacity ≤ T.EMPTY_BYTES then some 0
  else c.emptyBucketsList[Nat.log2 capacity]?

def allocate (c : BucketCache) (array : BucketArray) : BucketCache :=
  { c with arrays := Function.update c.arrays c.allocated array, allocated := c.allocated + 1 }

/-- `emptyBucketsForCapacity`: a new array is shared by all smaller sizes that have none. -/
def emptyBucketsForCapacity (c : BucketCache) (capacity : Nat) : Nat × BucketCache :=
  match c.emptyBuckets T capacity with
  | some a => (a, c)
  | none =>
    (c.allocated,
      { c.allocate (BucketArray.zeroed (T.bytesForCapacity capacity / T.BUCKET_BYTES)) with
        emptyBucketsList := c.emptyBucketsList
          ++ List.replicate (Nat.log2 capacity + 1 - c.emptyBucketsList.length) c.allocated })

def isConstantEmptyCache (c : BucketCache) : Prop :=
  c.occupied = 0 ∧ c.emptyBuckets T (c.capacity T) = some c.buckets

instance (c : BucketCache) : Decidable (c.isConstantEmptyCache T) :=
  inferInstanceAs (Decidable (_ ∧ _))

def setBucketsAndMask (c : BucketCache) (newBuckets newMask : Nat) : BucketCache :=
  { c with buckets := newBuckets, mask := newMask, occupied := 0 }

/-- `reallocate`; the old contents are not propagated. -/
def reallocate (c : BucketCache) (newCapacity : Nat) : Except CacheHalt BucketCache :=
  if newCapacity = 0 ∨ (newCapacity - 1) % 2 ^ T.MASK_BITS ≠ newCapacity - 1 then
    .error .assertCapacity
  else
    .ok ((c.allocate (T.allocateBuckets c.allocated newCapacity)).setBucketsAndMask c.allocated
      (newCapacity - 1))

def find (c : BucketCache) (k : Nat) : Except CacheHalt Nat :=
  match scan (stopsAt 0 c.bucketArray.key k) (T.cache_next · c.mask) (T.cache_hash k c.mask)
      (c.mask + 1) (T.cache_hash k c.mask) with
  | none => .error .badCache
  | some i => .ok i

/-- The new capacity in `expand`, a `uint32_t`. -/
def expandCapacity (oldCapacity : Nat) : Nat :=
  let newCapacity := if oldCapacity = 0 then INIT_CACHE_SIZE else oldCapacity * 2 % 2 ^ 32
  -- mask overflow - can't grow further
  if newCapacity % 2 ^ T.MASK_BITS ≠ newCapacity then oldCapacity else newCapacity

def expand (c : BucketCache) : Except CacheHalt BucketCache :=
  c.reallocate T (expandCapacity T (c.capacity T))

/-- `cache_getImp`; 0 is a miss. -/
def cache_getImp (c : BucketCache) (sel : SEL) : Except CacheHalt IMP :=
  match c.find T sel with
  | .error e => .error e
  | .ok i =>
    if c.bucketArray.key i = sel then
      match c.bucketArray.imp i with
      | .function imp => .ok imp
      | .firstBucket _ => .ok 0
    else .ok 0

/-- The end of `cache_fill_nolock`: the first unused slot, `incrementOccupied`, `bucket_t::set`. -/
def insert (c : BucketCache) (sel : SEL) (imp : IMP) : Except CacheHalt BucketCache :=
  match c.find T sel with
  | .error e => .error e
  | .ok i =>
    .ok { c with
      arrays := Function.update c.arrays c.buckets { c.bucketArray with
        key := Function.update c.bucketArray.key i sel
        imp := Function.update c.bucketArray.imp i (.function imp) }
      occupied := if c.bucketArray.key i = 0 then c.occupied + 1 else c.occupied
      inserted := Insert.insert sel c.inserted }

/-- The middle of `cache_fill_nolock`: room for one more entry. -/
def makeRoom (c : BucketCache) : Except CacheHalt BucketCache :=
  if c.isConstantEmptyCache T then
    -- cache is read-only, replace it
    c.reallocate T (if c.capacity T = 0 then INIT_CACHE_SIZE else c.capacity T)
  else if c.occupied + 1 ≤ c.capacity T / 4 * 3 then .ok c
  else c.expand T

def cache_fill_nolock (c : BucketCache) (isInitialized : Bool) (sel : SEL) (imp : IMP) :
    Except CacheHalt BucketCache :=
  if !isInitialized then .ok c
  else
    match c.cache_getImp T sel with
    | .error e => .error e
    | .ok cached =>
      if cached ≠ 0 then .ok c
      else
        match c.makeRoom T with
        | .error e => .error e
        | .ok c' => c'.insert T sel imp

def cache_erase_nolock (c : BucketCache) : BucketCache :=
  if 0 < c.capacity T ∧ 0 < c.occupied then
    { (c.emptyBucketsForCapacity T (c.capacity T)).2.setBucketsAndMask
        (c.emptyBucketsForCapacity T (c.capacity T)).1 (c.capacity T - 1) with inserted := ∅ }
  else { c with inserted := ∅ }

end BucketCache

/-! ## Runs -/

inductive CacheCall where
  | fill (isInitialized : Bool) (sel : Selector) (imp : IMP)
  | erase
  /-- Another cache of that capacity is erased. -/
  | eraseOther (capacity : Nat)

namespace BucketCache

def step (T : CacheTarget) (c : BucketCache) : CacheCall → Except CacheHalt BucketCache
  | .fill isInitialized sel imp => c.cache_fill_nolock T isInitialized sel imp
  | .erase => .ok (c.cache_erase_nolock T)
  | .eraseOther capacity => .ok (c.emptyBucketsForCapacity T capacity).2

def run (T : CacheTarget) : BucketCache → List CacheCall → Except CacheHalt BucketCache
  | c, [] => .ok c
  | c, call :: calls =>
    match c.step T call with
    | .error e => .error e
    | .ok c' => run T c' calls

end BucketCache

end ObjcRuntime
