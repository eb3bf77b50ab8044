/-
A METHOD CACHE WITH ONE WRITER AND READERS WITHOUT LOCKS.

objc-cache.mm and the macro CacheLookup of objc-msg-x86_64.s. The writer holds
`cacheUpdateLock`; `objc_msgSend` reads the mask, the buckets, keys and
implementations with no lock at all. Each store of the writer and each load
of a reader is one step.

`mask_t` and the capacities are `uint32_t`. Bucket arrays are never freed:
`cache_collect` waits until no reader is in the macro.
-/
import ObjcRuntime.Class.State
import ObjcRuntime.Lib.OpenAddressing
import ObjcRuntime.Lib.Transition

namespace ObjcRuntime

open Lib Function

/-! ## Bucket arrays -/

/-- `_imp` of a bucket: a function, or in an end marker the first bucket of the array. -/
inductive BucketImp where
  | function (imp : IMP)
  | firstBucket (array : Nat)
  deriving DecidableEq

structure BucketArray where
  size : Nat
  key : Nat → Nat
  imp : Nat → BucketImp

/-- `calloc`. -/
def BucketArray.zeroed (size : Nat) : BucketArray := ⟨size, fun _ => 0, fun _ => .function 0⟩

/-- `bytesForCapacity` in buckets; the sum is a `uint32_t`. -/
def bucketsForCapacity (cap : Nat) : Nat := (cap + 1) % 2 ^ 32

/-- EMPTY_BYTES in buckets. -/
def EMPTY_BUCKETS : Nat := 1024 + 1

/-- `allocateBuckets`, as the array `id`: the last bucket has the key 1 and leads to the first. -/
def allocateBuckets (id newCapacity : Nat) : BucketArray where
  size := bucketsForCapacity newCapacity
  key := update (fun _ => 0) (bucketsForCapacity newCapacity - 1) 1
  imp := update (fun _ => .function 0) (bucketsForCapacity newCapacity - 1)
    (.firstBucket id)

/-! ## The state -/

abbrev Entry := SEL × IMP

inductive WriterPC where
  | idle
  /-- `setBucketsAndMask`; after it the entry is inserted, if there is one -/
  | storeBuckets (newBuckets newMask : Nat) (entry : Option Entry)
  | storeMask (newMask : Nat) (entry : Option Entry)
  /-- `bucket_t::set` -/
  | storeImp (index : Nat) (entry : Entry)
  | storeKey (index : Nat) (entry : Entry)

/-- Where a reader is in its bucket array. `second` is the cloned loop after the wrap. -/
structure Scan where
  sel : SEL
  array : Nat
  index : Nat
  second : Bool
  wraps : Nat

inductive ReaderPC where
  | idle
  | loadBuckets (sel : SEL) (mask : Nat)
  /-- if (bucket->sel != _cmd) -/
  | compare (scan : Scan)
  /-- if (bucket->sel <= 1) -/
  | checkEnd (scan : Scan)
  /-- bucket->imp is really the first bucket -/
  | wrap (scan : Scan)
  /-- CacheHit -/
  | hit (scan : Scan)

inductive CacheEvent (R : Type) where
  | stored (entry : Entry)
  | dispatched (reader : R) (sel : SEL) (imp : IMP)

structure CacheState (R : Type) where
  arrays : Nat → BucketArray
  allocated : Nat
  emptyBucketsList : List Nat
  buckets : Nat
  mask : Nat
  occupied : Nat
  writer : WriterPC
  reader : R → ReaderPC
  trace : List (CacheEvent R)

namespace CacheState

variable {R : Type}

def bucketArray (s : CacheState R) : BucketArray := s.arrays s.buckets

def capacity (s : CacheState R) : Nat := if s.mask = 0 then 0 else (s.mask + 1) % 2 ^ 32

/-- `emptyBucketsForCapacity(capacity, false)`; the array 0 is `_objc_empty_cache`. -/
def emptyBuckets (s : CacheState R) (capacity : Nat) : Option Nat :=
  if bucketsForCapacity capacity ≤ EMPTY_BUCKETS then some 0
  else s.emptyBucketsList[Nat.log2 capacity]?

def allocate (s : CacheState R) (array : BucketArray) : CacheState R :=
  { s with arrays := update s.arrays s.allocated array
           allocated := s.allocated + 1 }

/-- `emptyBucketsForCapacity`: a new array is shared by all smaller sizes that have none. -/
def emptyBucketsForCapacity (s : CacheState R) (capacity : Nat) : Nat × CacheState R :=
  match s.emptyBuckets capacity with
  | some a => (a, s)
  | none =>
    (s.allocated, { s.allocate (BucketArray.zeroed (bucketsForCapacity capacity)) with
      emptyBucketsList := s.emptyBucketsList
        ++ List.replicate (Nat.log2 capacity + 1 - s.emptyBucketsList.length) s.allocated })

def isConstantEmptyCache (s : CacheState R) : Prop :=
  s.occupied = 0 ∧ s.emptyBuckets s.capacity = some s.buckets

instance (s : CacheState R) : Decidable s.isConstantEmptyCache :=
  inferInstanceAs (Decidable (_ ∧ _))

/-! ## The writer -/

def keys (s : CacheState R) : List (Option Nat) :=
  (List.range (s.mask + 1)).map fun i => some (s.bucketArray.key i)

/-- Where `find` stops: at a free bucket, or at one that has the key. -/
def findStops (k : Nat) (key : Option Nat) : Bool := decide (key = some 0 ∨ key = some k)

/-- `cache_t::find`, from the bucket of the hash on. -/
def find (s : CacheState R) (k : Nat) : Option Nat :=
  (probe s.keys (findStops k) (k &&& s.mask) (s.mask + 1) (k &&& s.mask) 0).map Prod.fst

/-- `cache_getImp`, called by the writer itself. -/
def getImp (s : CacheState R) (sel : SEL) : IMP :=
  match s.find sel with
  | none => 0
  | some i =>
    if s.bucketArray.key i = sel then
      match s.bucketArray.imp i with
      | .function imp => imp
      | .firstBucket _ => 0
    else 0

/-- The end of `cache_fill_nolock`; `none` is `bad_cache`. -/
def insert (s : CacheState R) (entry : Entry) : Option (CacheState R) :=
  match s.find entry.1 with
  | none => none
  | some i =>
    some { s with
      occupied := if s.bucketArray.key i = 0 then s.occupied + 1 else s.occupied
      writer := .storeImp i entry }

/-- `reallocate`, up to the store of the buckets. -/
def reallocate (s : CacheState R) (newCapacity : Nat) (entry : Entry) : CacheState R :=
  { s.allocate (allocateBuckets s.allocated newCapacity) with
    writer := .storeBuckets s.allocated ((newCapacity + 2 ^ 32 - 1) % 2 ^ 32) (some entry) }

/-- The new capacity in `expand`. The test for an overflow of the mask compares two
`uint32_t`. -/
def expandCapacity (oldCapacity : Nat) : Nat :=
  let newCapacity := if oldCapacity = 0 then INIT_CACHE_SIZE else oldCapacity * 2 % 2 ^ 32
  if newCapacity % 2 ^ 32 ≠ newCapacity then oldCapacity else newCapacity

/-- `cache_fill_nolock` for an initialized class. -/
def fill (s : CacheState R) (entry : Entry) : Option (CacheState R) :=
  if s.getImp entry.1 ≠ 0 then some s
  else if s.isConstantEmptyCache then
    some (s.reallocate (if s.capacity = 0 then INIT_CACHE_SIZE else s.capacity) entry)
  else if s.occupied + 1 ≤ s.capacity / 4 * 3 then s.insert entry
  else some (s.reallocate (expandCapacity s.capacity) entry)

/-- `cache_erase_nolock`. -/
def erase (s : CacheState R) : CacheState R :=
  if 0 < s.capacity ∧ 0 < s.occupied then
    { (s.emptyBucketsForCapacity s.capacity).2 with
      writer := .storeBuckets (s.emptyBucketsForCapacity s.capacity).1 (s.capacity - 1) none }
  else s

def store (s : CacheState R) : Option (CacheState R) :=
  match s.writer with
  | .idle => none
  | .storeBuckets newBuckets newMask entry =>
    some { s with buckets := newBuckets, writer := .storeMask newMask entry }
  | .storeMask newMask none => some { s with mask := newMask, occupied := 0, writer := .idle }
  | .storeMask newMask (some entry) => insert { s with mask := newMask, occupied := 0 } entry
  | .storeImp i entry =>
    some { s with
      arrays := update s.arrays s.buckets { s.bucketArray with
        imp := update s.bucketArray.imp i (.function entry.2) }
      writer := if s.bucketArray.key i ≠ entry.1 then .storeKey i entry else .idle
      trace := s.trace ++ [.stored entry] }
  | .storeKey i entry =>
    some { s with
      arrays := update s.arrays s.buckets { s.bucketArray with
        key := update s.bucketArray.key i entry.1 }
      writer := .idle }

/-! ## Readers -/

variable [DecidableEq R]

def goto (s : CacheState R) (r : R) (pc : ReaderPC) : CacheState R :=
  { s with reader := update s.reader r pc }

def load (s : CacheState R) (r : R) : Option (CacheState R) :=
  match s.reader r with
  | .idle => none
  | .loadBuckets sel mask => some (s.goto r (.compare ⟨sel, s.buckets, sel &&& mask, false, 0⟩))
  | .compare scan =>
    if (s.arrays scan.array).key scan.index = scan.sel then some (s.goto r (.hit scan))
    else some (s.goto r (.checkEnd scan))
  | .checkEnd scan =>
    if 1 < (s.arrays scan.array).key scan.index then
      some (s.goto r (.compare { scan with index := scan.index + 1 }))
    else if (s.arrays scan.array).key scan.index < 1 ∨ scan.second then
      -- LCacheMiss
      some (s.goto r .idle)
    else some (s.goto r (.wrap scan))
  | .wrap scan =>
    match (s.arrays scan.array).imp scan.index with
    | .function _ => none
    | .firstBucket a => some (s.goto r (.compare ⟨scan.sel, a, 0, true, scan.wraps + 1⟩))
  | .hit scan =>
    match (s.arrays scan.array).imp scan.index with
    | .firstBucket _ => none
    | .function imp =>
      some { s.goto r .idle with trace := s.trace ++ [.dispatched r scan.sel imp] }

end CacheState

/-! ## All interleavings -/

inductive CacheAction (R : Type) where
  | fill (entry : Entry)
  | erase
  | store
  | msgSend (reader : R) (sel : SEL)
  | load (reader : R)

variable {R : Type} [DecidableEq R]

def CacheState.act (s : CacheState R) : CacheAction R → Option (CacheState R)
  | .fill entry =>
    match s.writer with
    | .idle => if 1 < entry.1 then s.fill entry else none
    | _ => none
  | .erase =>
    match s.writer with
    | .idle => some s.erase
    | _ => none
  | .store => s.store
  | .msgSend r sel =>
    match s.reader r with
    | .idle => if 1 < sel then some (s.goto r (.loadBuckets sel s.mask)) else none
    | _ => none
  | .load r => s.load r

/-- `initializeToEmpty`. -/
def CacheState.start : CacheState R where
  arrays := fun _ => BucketArray.zeroed EMPTY_BUCKETS
  allocated := 1
  emptyBucketsList := []
  buckets := 0
  mask := 0
  occupied := 0
  writer := .idle
  reader := fun _ => .idle
  trace := []

def cacheSystem (R : Type) [DecidableEq R] : System (CacheState R) (CacheAction R) where
  init := fun s => s = CacheState.start
  step := fun s a => s.act a

end ObjcRuntime
