/-
@synchronized.

objc-sync.mm. An object that is synchronized on has a `SyncData` in the list
of its stripe; the record counts the threads that use it and holds a recursive
mutex. A record that no thread uses is given to another object. Each thread
caches the records it uses: one in a thread-local slot, the others in a list.

The threads interleave. A section under the list's lock, an update of the
thread's caches, an atomic change of `threadCount` and a mutex operation are
one step each; `SyncPC` is where a thread is between them.
-/
import Mathlib.Algebra.BigOperators.Group.Finset.Basic
import Mathlib.Data.List.Basic
import ObjcRuntime.Lib.Transition

namespace ObjcRuntime

open Lib Function

/-! ## Records, caches and threads -/

/-- `SyncCacheItem`; `data` is the address of a record. The lock count is an `unsigned int` in the
slow cache and a `uintptr_t` in the fast one. -/
structure SyncCacheItem where
  data : Nat
  lockCount : Nat
  deriving DecidableEq

/-- `SyncData`, with the mutex's owner and how often it holds it, which is one more than the mutex's
own `uint32_t` count. -/
structure SyncData (O T : Type) where
  object : O
  threadCount : Int
  owner : Option T
  recursion : Nat

inductive SyncPC (O : Type) where
  | idle
  /-- enter: the caches have no record, the list is searched next -/
  | acquireList (object : O)
  /-- enter: the record was found or made, the cache is updated next -/
  | acquireCache (object : O) (data : Nat)
  /-- enter: the mutex is locked next -/
  | acquireMutex (object : O) (data : Nat)
  /-- exit: the caches have no record, the list is searched next -/
  | releaseList (object : O)
  /-- exit: the record is out of the cache, its thread count is dropped next -/
  | releaseCount (object : O) (data : Nat)
  /-- exit: the mutex is unlocked next -/
  | releaseMutex (object : O) (data : Nat)
  /-- `_objc_fatal("id2data is buggy")` -/
  | fatal
  deriving DecidableEq

inductive SyncResult where
  | OBJC_SYNC_SUCCESS
  | OBJC_SYNC_NOT_OWNING_THREAD_ERROR
  deriving DecidableEq

/-- The records are numbered as they are allocated and never freed. `depth` is how many returned
enters of the object the thread has not begun to exit. -/
structure SyncState (ι O T : Type) where
  lists : ι → List Nat
  allocated : Nat
  data : Nat → SyncData O T
  fast : T → Option SyncCacheItem
  slow : T → List SyncCacheItem
  pc : T → SyncPC O
  result : T → SyncResult
  depth : T → O → Nat

variable {ι O T : Type}

namespace SyncState

variable [DecidableEq O]

/-! ## The caches of a thread -/

inductive CachePlace where
  | fast
  | slow (i : Nat)

def CachePlace.countBits : CachePlace → Nat
  | .fast => 64
  | .slow _ => 32

def searchSlow (s : SyncState ι O T) (object : O) :
    List SyncCacheItem → Nat → Option (CachePlace × SyncCacheItem)
  | [], _ => none
  | item :: items, i =>
    if (s.data item.data).object ≠ object then searchSlow s object items (i + 1)
    else some (.slow i, item)

def cachePlace (s : SyncState ι O T) (t : T) (object : O) : Option (CachePlace × SyncCacheItem) :=
  match s.fast t with
  | some item =>
    if (s.data item.data).object = object then some (.fast, item)
    else s.searchSlow object (s.slow t) 0
  | none => s.searchSlow object (s.slow t) 0

/-- `cache->list[i] = cache->list[--cache->used]` -/
def removeAt (items : List SyncCacheItem) (i : Nat) : List SyncCacheItem :=
  match items.getLast? with
  | none => items
  | some last => (items.set i last).dropLast

variable [DecidableEq T]

def setItem (s : SyncState ι O T) (t : T) (place : CachePlace) (item : SyncCacheItem) :
    SyncState ι O T :=
  match place with
  | .fast => { s with fast := update s.fast t (some item) }
  | .slow i => { s with slow := update s.slow t ((s.slow t).set i item) }

def dropItem (s : SyncState ι O T) (t : T) (place : CachePlace) : SyncState ι O T :=
  match place with
  | .fast => { s with fast := update s.fast t none }
  | .slow i => { s with slow := update s.slow t (removeAt (s.slow t) i) }

def goto (s : SyncState ι O T) (t : T) (pc : SyncPC O) : SyncState ι O T :=
  { s with pc := update s.pc t pc }

def setData (s : SyncState ι O T) (d : Nat) (r : SyncData O T) : SyncState ι O T :=
  { s with data := update s.data d r }

/-! ## The steps of `objc_sync_enter` -/

/-- The caches are searched; `id2data` with ACQUIRE counts the lock in the cache. -/
def objc_sync_enter (s : SyncState ι O T) (t : T) : Option O → SyncState ι O T
  -- @synchronized(nil) does nothing
  | none => { s with result := update s.result t .OBJC_SYNC_SUCCESS }
  | some object =>
    match s.cachePlace t object with
    | none => s.goto t (.acquireList object)
    | some (place, item) =>
      if (s.data item.data).threadCount ≤ 0 ∨ item.lockCount = 0 then s.goto t .fatal
      else
        (s.setItem t place ⟨item.data, (item.lockCount + 1) % 2 ^ place.countBits⟩).goto t
          (.acquireMutex object item.data)

def searchList (s : SyncState ι O T) (object : O) :
    List Nat → Option Nat → Option Nat × Option Nat
  | [], firstUnused => (none, firstUnused)
  | p :: rest, firstUnused =>
    if (s.data p).object = object then (some p, firstUnused)
    else searchList s object rest
      (if firstUnused = none ∧ (s.data p).threadCount = 0 then some p else firstUnused)

variable [DecidableEq ι] (stripe : O → ι)

/-- The section of `id2data` under the list's lock, for ACQUIRE. -/
def id2dataList (s : SyncState ι O T) (t : T) (object : O) : SyncState ι O T :=
  match s.searchList object (s.lists (stripe object)) none with
  | (some p, _) =>
    (s.setData p { s.data p with threadCount := (s.data p).threadCount + 1 }).goto t
      (.acquireCache object p)
  | (none, some p) =>
    (s.setData p { s.data p with object := object, threadCount := 1 }).goto t
      (.acquireCache object p)
  | (none, none) =>
    let result := s.allocated
    { (s.setData result ⟨object, 1, none, 0⟩).goto t (.acquireCache object result) with
      allocated := s.allocated + 1
      lists := update s.lists (stripe object) (result :: s.lists (stripe object)) }

/-- The new record goes to the fast cache if that is free. `directKeys` is
SUPPORT_DIRECT_THREAD_KEYS. -/
def saveInCache (directKeys : Bool) (s : SyncState ι O T) (t : T) (object : O) (result : Nat) :
    SyncState ι O T :=
  if (s.data result).object ≠ object then s.goto t .fatal
  else if directKeys ∧ s.fast t = none then
    { s.goto t (.acquireMutex object result) with
      fast := update s.fast t (some ⟨result, 1⟩) }
  else
    { s.goto t (.acquireMutex object result) with
      slow := update s.slow t (s.slow t ++ [⟨result, 1⟩]) }

/-- `data->mutex.lock()`, which waits while another thread has the mutex; then the enter returns. -/
def lockMutex (s : SyncState ι O T) (t : T) (object : O) (d : Nat) : Option (SyncState ι O T) :=
  if (s.data d).owner = none ∨ (s.data d).owner = some t then
    some
      { (s.setData d
            { s.data d with
              owner := some t
              recursion := (s.data d).recursion % 2 ^ 32 + 1 }).goto t .idle with
        result := update s.result t .OBJC_SYNC_SUCCESS
        depth := update s.depth t
          (update (s.depth t) object (s.depth t object + 1)) }
  else none

/-! ## The steps of `objc_sync_exit` -/

/-- The caches are searched; `id2data` with RELEASE takes the lock off the cache. -/
def objc_sync_exit (s : SyncState ι O T) (t : T) : Option O → SyncState ι O T
  | none => { s with result := update s.result t .OBJC_SYNC_SUCCESS }
  | some object =>
    match s.cachePlace t object with
    | none => s.goto t (.releaseList object)
    | some (place, item) =>
      if (s.data item.data).threadCount ≤ 0 ∨ item.lockCount = 0 then s.goto t .fatal
      else
        let depth := update (s.depth t) object (s.depth t object - 1)
        let s' := { s with depth := update s.depth t depth }
        if item.lockCount - 1 = 0 then
          (s'.dropItem t place).goto t (.releaseCount object item.data)
        else
          (s'.setItem t place ⟨item.data, item.lockCount - 1⟩).goto t
            (.releaseMutex object item.data)

/-- The section of `id2data` under the list's lock, for RELEASE. The answer is nil, but a record
that is found has been counted. -/
def id2dataListRelease (s : SyncState ι O T) (t : T) (object : O) : SyncState ι O T :=
  let s' :=
    match s.searchList object (s.lists (stripe object)) none with
    | (some p, _) => s.setData p { s.data p with threadCount := (s.data p).threadCount + 1 }
    | (none, _) => s
  { s'.goto t .idle with
    result := update s.result t .OBJC_SYNC_NOT_OWNING_THREAD_ERROR }

/-- `OSAtomicDecrement32Barrier(&result->threadCount)` -/
def releaseThreadCount (s : SyncState ι O T) (t : T) (object : O) (d : Nat) : SyncState ι O T :=
  (s.setData d { s.data d with threadCount := (s.data d).threadCount - 1 }).goto t
    (.releaseMutex object d)

/-- `data->mutex.tryUnlock()`; then the exit returns. -/
def tryUnlock (s : SyncState ι O T) (t : T) (d : Nat) : SyncState ι O T :=
  if (s.data d).owner = some t then
    let owner := if (s.data d).recursion - 1 = 0 then none else some t
    { (s.setData d { s.data d with owner := owner, recursion := (s.data d).recursion - 1 }).goto t
        .idle with
      result := update s.result t .OBJC_SYNC_SUCCESS }
  else
    { s.goto t .idle with
      result := update s.result t .OBJC_SYNC_NOT_OWNING_THREAD_ERROR }

end SyncState

/-! ## The system -/

inductive SyncAction (O T : Type) where
  | enter (t : T) (object : Option O)
  | exit (t : T) (object : Option O)
  | go (t : T)
  deriving DecidableEq

namespace SyncState

variable [DecidableEq O] [DecidableEq T] [DecidableEq ι]

def go (directKeys : Bool) (stripe : O → ι) (s : SyncState ι O T) (t : T) :
    Option (SyncState ι O T) :=
  match s.pc t with
  | .idle => none
  | .acquireList object => some (s.id2dataList stripe t object)
  | .acquireCache object d => some (s.saveInCache directKeys t object d)
  | .acquireMutex object d => s.lockMutex t object d
  | .releaseList object => some (s.id2dataListRelease stripe t object)
  | .releaseCount object d => some (s.releaseThreadCount t object d)
  | .releaseMutex _ d => some (s.tryUnlock t d)
  | .fatal => none

/-- `owned` is whether a thread may only exit what it has entered. -/
def step (owned : Bool) (directKeys : Bool) (stripe : O → ι) (s : SyncState ι O T) :
    SyncAction O T → Option (SyncState ι O T)
  | .enter t object => if s.pc t = .idle then some (s.objc_sync_enter t object) else none
  | .exit t object =>
    if s.pc t = .idle ∧ (owned = true → ∀ o ∈ object, 0 < s.depth t o) then
      some (s.objc_sync_exit t object)
    else none
  | .go t => s.go directKeys stripe t

def Initial (s : SyncState ι O T) : Prop :=
  (∀ i, s.lists i = []) ∧ s.allocated = 0 ∧
    (∀ d, (s.data d).threadCount = 0 ∧ (s.data d).owner = none ∧ (s.data d).recursion = 0) ∧
    (∀ t, s.fast t = none) ∧ (∀ t, s.slow t = []) ∧ (∀ t, s.pc t = .idle) ∧
    ∀ t o, s.depth t o = 0

end SyncState

def syncSystem [DecidableEq O] [DecidableEq T] [DecidableEq ι] (owned directKeys : Bool)
    (stripe : O → ι) : System (SyncState ι O T) (SyncAction O T) where
  init := SyncState.Initial
  step := SyncState.step owned directKeys stripe

end ObjcRuntime
