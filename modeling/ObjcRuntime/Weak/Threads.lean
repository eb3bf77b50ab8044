/-
WEAK VARIABLES, MANY THREADS.

`objc_storeWeak`, `objc_storeWeakOrNil`, `objc_loadWeakRetained`, `retain` and
the final `release` with the deallocation that follows it, one step at a time:

* a lock or an unlock of one side table,
* a read or a write of a weak variable,
* the rest of the work done under the locks, which is the code of
  `ObjcRuntime.Weak.Heap`.

`weak_clear_no_lock` writes variables too, so it is not one step: the lookup of
the entry, each referrer and the removal of the entry are steps of their own.

A retain or release outside the weak functions is one step; its own
interleavings are the subject of `ObjcRuntime.Object.Threads`. It is not made to
wait for a side-table lock, so there are more runs here than in the source.

Auxiliary state: `owned`, the references of each thread, guards the calls;
`loads` records the returned loads and is read by no step.
-/
import ObjcRuntime.Lib.Locks
import ObjcRuntime.Weak.Run

namespace ObjcRuntime

open Lib Function

/-! ## Program points -/

/-- The arguments of a `storeWeak`, and the class it has initialized. -/
structure StoreCall where
  location : Location
  newObj : ObjPtr
  crashIfDeallocating : Bool
  previouslyInitializedClass : Option Class
  deriving DecidableEq

/-- What a load returned; `held` and `deallocating` are what the variable held, and
whether that was deallocating, at the step that retained it. -/
structure LoadRecord (Tid : Type) where
  thread : Tid
  location : Location
  result : ObjPtr
  held : ObjPtr
  deallocating : Bool
  deriving DecidableEq

/-- Where `storeWeak` goes after `unlockTwo`. -/
inductive StoreNext where
  | retry (c : StoreCall)
  | runInitialize (c : StoreCall) (cls : Class)
  | done
  deriving DecidableEq

/-- Where `objc_loadWeakRetained` goes after the unlock. -/
inductive LoadNext (Tid : Type) where
  | retry (location : Location)
  | runInitialize (location : Location) (cls : Class)
  | done (record : LoadRecord Tid)
  deriving DecidableEq

inductive WeakPC (Tid : Type) where
  | idle
  -- storeWeak; `held` are the locks `lockTwo` has taken, `todo` those to take
  | storeRead (c : StoreCall)
  | storeLock (c : StoreCall) (oldObj : ObjPtr) (held todo : List Nat)
  | storeCheck (c : StoreCall) (oldObj : ObjPtr)
  | storeBody (c : StoreCall) (oldObj : ObjPtr)
  | storeWrite (c : StoreCall) (oldObj newObj : ObjPtr)
  | storeUnlock (todo : List Nat) (next : StoreNext)
  | storeInitialize (c : StoreCall) (cls : Class)
  -- objc_loadWeakRetained
  | loadRead (location : Location)
  | loadLock (location : Location) (obj : ObjPtr)
  | loadCheck (location : Location) (obj : ObjPtr)
  | loadBody (location : Location) (obj : ObjPtr)
  | loadUnlock (obj : ObjPtr) (next : LoadNext Tid)
  | loadInitialize (location : Location) (cls : Class)
  -- rootDealloc, clearDeallocating
  | rootDealloc (obj : ObjPtr)
  | clearDeallocating (obj : ObjPtr)
  | clearLock (obj : ObjPtr)
  | clearBody (obj : ObjPtr)
  | clearing (obj : ObjPtr) (referrers : List Location)
  | clearErase (obj : ObjPtr)
  | clearUnlock (obj : ObjPtr)
  | free (obj : ObjPtr)
  deriving DecidableEq

inductive WeakCall where
  | storeWeak (location : Location) (newObj : ObjPtr)
  | storeWeakOrNil (location : Location) (newObj : ObjPtr)
  | loadWeakRetained (location : Location)
  | retain (obj : ObjPtr)
  | release (obj : ObjPtr)
  deriving DecidableEq

/-- The locks of `lockTwo`, in the order in which it takes them. -/
def lockTwo (lock1 lock2 : Nat) : List Nat :=
  if lock1 < lock2 then [lock1, lock2]
  else if lock2 ≠ lock1 then [lock2, lock1]
  else [lock2]

/-- The locks of `unlockTwo`, in the order in which it gives them back. -/
def unlockTwo (lock1 lock2 : Nat) : List Nat :=
  if lock2 ≠ lock1 then [lock1, lock2] else [lock1]

/-- `lockTwo` for a store over `oldObj`. -/
def StoreCall.lockTwo (c : StoreCall) (oldObj : ObjPtr) : List Nat :=
  ObjcRuntime.lockTwo (indexForPointer oldObj) (indexForPointer c.newObj)

def StoreCall.unlockTwo (c : StoreCall) (oldObj : ObjPtr) : List Nat :=
  ObjcRuntime.unlockTwo (indexForPointer oldObj) (indexForPointer c.newObj)

namespace WeakPC

variable {Tid : Type}

/-- `lockTwo` goes on, or is through. -/
def storeLocking (c : StoreCall) (oldObj : ObjPtr) (held : List Nat) : List Nat → WeakPC Tid
  | [] => .storeCheck c oldObj
  | i :: todo => .storeLock c oldObj held (i :: todo)

def afterStore : StoreNext → WeakPC Tid
  | .retry c => .storeRead c
  | .runInitialize c cls => .storeInitialize c cls
  | .done => .idle

/-- `unlockTwo` goes on, or is through. -/
def storeUnlocking (next : StoreNext) : List Nat → WeakPC Tid
  | [] => afterStore next
  | i :: todo => .storeUnlock (i :: todo) next

def afterLoad : LoadNext Tid → WeakPC Tid
  | .retry location => .loadRead location
  | .runInitialize location cls => .loadInitialize location cls
  | .done _ => .idle

end WeakPC

/-! ## Moves of one thread -/

structure WeakMachine (L : Layout) (Tid : Type) where
  heap : Heap L
  /-- the holder of each side table's lock -/
  lock : Nat → Option Tid
  pc : Tid → WeakPC Tid
  /-- the initialized weak variables -/
  live : Location → Bool
  allocated : ObjPtr → Bool
  owned : Tid → ObjPtr → Nat
  loads : List (LoadRecord Tid)

namespace WeakMachine

variable {L : Layout} {Tid : Type} [DecidableEq Tid]

def goto (s : WeakMachine L Tid) (t : Tid) (p : WeakPC Tid) : WeakMachine L Tid :=
  { s with pc := update s.pc t p }

/-- `lock()` on side table `i`: blocks while it is taken. -/
def acquire (s : WeakMachine L Tid) (t : Tid) (i : Nat) (p : WeakPC Tid) :
    Option (WeakMachine L Tid) :=
  if s.lock i = none then some { s.goto t p with lock := update s.lock i (some t) }
  else none

/-- `unlock()` on side table `i`. -/
def unlock (s : WeakMachine L Tid) (t : Tid) (i : Nat) (p : WeakPC Tid) : WeakMachine L Tid :=
  { s.goto t p with lock := update s.lock i none }

/-- Thread `t` has `n` references to `o`. -/
def setOwned (s : WeakMachine L Tid) (t : Tid) (o : ObjPtr) (n : Nat) : WeakMachine L Tid :=
  { s with owned := update s.owned t (update (s.owned t) o n) }

def returnLoad (s : WeakMachine L Tid) (record : LoadRecord Tid) : WeakMachine L Tid :=
  { s with loads := record :: s.loads }

variable (C : Tid → ClassInfo L)

/-- `storeWeak` with both locks held and the location unchanged: a class that is not
initialized is initialized first; else unregister and register. -/
def storeBodied (s : WeakMachine L Tid) (t : Tid) (c : StoreCall) (oldObj : ObjPtr) :
    Option (WeakMachine L Tid) :=
  let cls := (s.heap.isa c.newObj).getIsa
  if c.newObj ≠ 0 ∧ c.previouslyInitializedClass ≠ some cls ∧ s.heap.initialized cls = false then
    some (s.goto t (.storeUnlock (c.unlockTwo oldObj) (.runInitialize c cls)))
  else
    match s.heap.storeWeakLocked (C t) true true c.crashIfDeallocating c.location oldObj c.newObj with
    | .error _ => none
    | .ok (heap, newObj) => some { s.goto t (.storeWrite c oldObj newObj) with heap := heap }

/-- `objc_loadWeakRetained` with the lock held and the location unchanged. -/
def loadBodied (s : WeakMachine L Tid) (t : Tid) (location : Location) (obj : ObjPtr) :
    WeakMachine L Tid :=
  let cls := (s.heap.isa obj).getIsa
  if s.heap.hasCustomRR (C t) cls && !s.heap.initialized cls && !(C t).initializing cls then
    s.goto t (.loadUnlock obj (.runInitialize location cls))
  else
    let (heap, result) := s.heap.loadWeakLocked (C t) obj
    let record : LoadRecord Tid :=
      ⟨t, location, result, s.heap.mem location, (s.heap.obj obj).rootIsDeallocating⟩
    let s' := { s.goto t (.loadUnlock obj (.done record)) with heap := heap }
    if result = 0 then s' else s'.setOwned t result (s.owned t result + 1)

/-- After the unlock of `objc_loadWeakRetained`. -/
def loadUnlocked (s : WeakMachine L Tid) (t : Tid) (obj : ObjPtr) (next : LoadNext Tid) :
    WeakMachine L Tid :=
  let s' := s.unlock t (indexForPointer obj) (.afterLoad next)
  match next with
  | .done record => s'.returnLoad record
  | _ => s'

/-- `clearDeallocating` decides without the lock whether there is work. -/
def clearDeallocatingRead (s : WeakMachine L Tid) (t : Tid) (obj : ObjPtr) : WeakMachine L Tid :=
  match s.heap.isa obj with
  | .raw _ => s.goto t (.clearLock obj)
  | .nonpointer b =>
    if b.weakly_referenced || b.has_sidetable_rc then s.goto t (.clearLock obj)
    else s.goto t (.free obj)

def clearBodied (s : WeakMachine L Tid) (t : Tid) (obj : ObjPtr) : Option (WeakMachine L Tid) :=
  if (s.heap.obj obj).isWeaklyReferenced then
    match s.heap.weak.referrers obj with
    | .error _ => none
    | .ok none => some (s.goto t (.clearErase obj))
    | .ok (some referrers) => some (s.goto t (.clearing obj referrers))
  else some (s.goto t (.clearErase obj))

def clearStepped (s : WeakMachine L Tid) (t : Tid) (obj : ObjPtr) :
    List Location → Option (WeakMachine L Tid)
  | [] =>
    match s.heap.weak.remove obj with
    | .error _ => none
    | .ok weak => some { s.goto t (.clearErase obj) with heap := { s.heap with weak := weak } }
  | referrer :: referrers =>
    let s' := s.goto t (.clearing obj referrers)
    if s.heap.mem referrer = obj then
      some { s' with heap := { s.heap with mem := update s.heap.mem referrer 0 } }
    else some s'

def clearErased (s : WeakMachine L Tid) (t : Tid) (obj : ObjPtr) : WeakMachine L Tid :=
  let counted := match s.heap.isa obj with
    | .raw _ => true
    | .nonpointer b => b.has_sidetable_rc
  let s' := s.goto t (.clearUnlock obj)
  if counted then { s' with heap := s.heap.eraseRefcnt obj } else s'

def released (s : WeakMachine L Tid) (t : Tid) (obj : ObjPtr) : WeakMachine L Tid :=
  let (v, dealloc) := (s.heap.obj obj).rootRelease
  ({ s.goto t (if dealloc then .rootDealloc obj else .idle) with
    heap := s.heap.setObj obj v }).setOwned t obj (s.owned t obj - 1)

/-- Start a `storeWeak` of an object the thread owns. -/
def startStore (s : WeakMachine L Tid) (t : Tid) (crash : Bool) (location : Location)
    (newObj : ObjPtr) : Option (WeakMachine L Tid) :=
  if s.live location = true ∧ (newObj = 0 ∨ 0 < s.owned t newObj) then
    some (s.goto t (.storeRead ⟨location, newObj, crash, none⟩))
  else none

/-- A thread with no call in progress starts one. It stores, retains and releases
only what it owns. -/
def start (s : WeakMachine L Tid) (t : Tid) : WeakCall → Option (WeakMachine L Tid)
  | .storeWeak location newObj => s.startStore t true location newObj
  | .storeWeakOrNil location newObj => s.startStore t false location newObj
  | .loadWeakRetained location =>
    if s.live location = true then some (s.goto t (.loadRead location)) else none
  | .retain obj =>
    if obj ≠ 0 ∧ 0 < s.owned t obj then
      some ({ s with heap := s.heap.setObj obj ((s.heap.obj obj).rootRetain false).1 }.setOwned t obj
        (s.owned t obj + 1))
    else none
  | .release obj => if obj ≠ 0 ∧ 0 < s.owned t obj then some (s.released t obj) else none

/-- One step of thread `t`; `call` is what it calls if it is idle. -/
def step (s : WeakMachine L Tid) (t : Tid) (call : WeakCall) : Option (WeakMachine L Tid) :=
  match s.pc t with
  | .idle => s.start t call
  | .storeRead c =>
    let oldObj := s.heap.mem c.location
    some (s.goto t (.storeLocking c oldObj [] (c.lockTwo oldObj)))
  | .storeLock c oldObj held todo =>
    match todo with
    | [] => none
    | i :: todo => s.acquire t i (.storeLocking c oldObj (held ++ [i]) todo)
  | .storeCheck c oldObj =>
    if s.heap.mem c.location ≠ oldObj then
      some (s.goto t (.storeUnlock (c.unlockTwo oldObj) (.retry c)))
    else some (s.goto t (.storeBody c oldObj))
  | .storeBody c oldObj => s.storeBodied C t c oldObj
  | .storeWrite c oldObj newObj =>
    some { s.goto t (.storeUnlock (c.unlockTwo oldObj) .done) with
      heap := { s.heap with mem := update s.heap.mem c.location newObj } }
  | .storeUnlock todo next =>
    match todo with
    | [] => none
    | i :: todo => some (s.unlock t i (.storeUnlocking next todo))
  | .storeInitialize c cls =>
    some { s.goto t (.storeRead { c with previouslyInitializedClass := some cls }) with
      heap := s.heap.classInitialize (C t) cls }
  | .loadRead location =>
    let obj := s.heap.mem location
    if obj = 0 then some ((s.goto t .idle).returnLoad ⟨t, location, 0, 0, false⟩)
    else some (s.goto t (.loadLock location obj))
  | .loadLock location obj => s.acquire t (indexForPointer obj) (.loadCheck location obj)
  | .loadCheck location obj =>
    if s.heap.mem location ≠ obj then some (s.goto t (.loadUnlock obj (.retry location)))
    else some (s.goto t (.loadBody location obj))
  | .loadBody location obj => some (s.loadBodied C t location obj)
  | .loadUnlock obj next => some (s.loadUnlocked t obj next)
  | .loadInitialize location cls =>
    some { s.goto t (.loadRead location) with heap := s.heap.classInitialize (C t) cls }
  | .rootDealloc obj =>
    if (s.heap.isa obj).freesImmediately then some (s.goto t (.free obj))
    else some (s.goto t (.clearDeallocating obj))
  | .clearDeallocating obj => some (s.clearDeallocatingRead t obj)
  | .clearLock obj => s.acquire t (indexForPointer obj) (.clearBody obj)
  | .clearBody obj => s.clearBodied t obj
  | .clearing obj referrers => s.clearStepped t obj referrers
  | .clearErase obj => some (s.clearErased t obj)
  | .clearUnlock obj => some (s.unlock t (indexForPointer obj) (.free obj))
  | .free obj =>
    some { s.goto t .idle with allocated := update s.allocated obj false }

structure Initial (s : WeakMachine L Tid) : Prop where
  tracks : s.heap.Tracks s.live s.allocated
  idle : ∀ t, s.pc t = .idle
  unlocked : ∀ i, s.lock i = none
  loads : s.loads = []

end WeakMachine

def weakThreads {L : Layout} {Tid : Type} [DecidableEq Tid] (C : Tid → ClassInfo L) :
    System (WeakMachine L Tid) (Tid × WeakCall) where
  init := WeakMachine.Initial
  step s a := s.step C a.1 a.2

end ObjcRuntime
