/-
RETAIN COUNTS OF ONE OBJECT, MANY THREADS.

The same functions as `ObjcRuntime.Object.RefCount`, now one atomic access at a
time: a `LoadExclusive`, a `StoreExclusive` (compare-and-swap on the isa word),
a read or a write of the side-table entry, a lock or an unlock of the side
table. A thread's program point (`PC`) holds the locals of the function it is
in; `step` performs the access at that point and moves to the next one.

`rootTryRetain` runs with the side-table lock held by its caller, as in
`objc_loadWeakRetained`: `tryLock` and `tryUnlock` are the caller's.

Auxiliary state, read by no step except the guard of a release: `owned`, the
references each thread holds (moved at the access that takes effect), and
`trueReturns`, the threads whose `rootRelease` has returned true.
-/
import ObjcRuntime.Lib.Transition
import ObjcRuntime.Object.RefCount

namespace ObjcRuntime

/-! ## Program points -/

inductive RcCall where
  | retain
  | release
  | tryRetain
  | changeIsa (newCls : Class) (f : ClassFlags)
  deriving DecidableEq

/-- Where a thread is. `ho`/`hu` are `handleOverflow`/`handleUnderflow`, `locked`
is `sideTableLocked`. -/
inductive PC (L : Layout) where
  | idle
  -- rootRetain
  | retainLoad (try_ ho locked : Bool)
  | retainLock (oldisa : IsaBits L)
  | retainStore (try_ ho locked : Bool) (oldisa : IsaBits L)
  | retainAddRead (try_ : Bool)
  | retainAddWrite (try_ : Bool) (oldRefcnt : SideWord)
  | retainUnlock
  -- rootRetain of a raw isa: sidetable_retain, sidetable_tryRetain
  | rawRetainUnlock
  | rawRetainLock
  | rawRetainRead
  | rawRetainWrite (refcnt : SideWord)
  | rawTryRead
  | rawTryWrite (refcnt : SideWord)
  -- the caller of rootTryRetain
  | tryLock
  | tryUnlock (result : Bool)
  -- rootRelease
  | releaseLoad (hu locked : Bool)
  | releaseStore (hu locked : Bool) (oldisa : IsaBits L)
  | releaseLock
  | borrowRead (oldisa : IsaBits L)
  | borrowWrite (oldisa : IsaBits L) (oldRefcnt : SideWord)
  | borrowStore (oldisa : IsaBits L) (borrowed : Nat)
  | borrowLoad2 (borrowed : Nat)
  | borrowStore2 (oldisa2 : IsaBits L) (borrowed : Nat)
  | putBackRead (borrowed : Nat)
  | putBackWrite (borrowed : Nat) (oldRefcnt : SideWord)
  | deallocStore (hu locked : Bool) (oldisa : IsaBits L)
  | overrelease
  | releaseUnlock (result : Bool)
  -- rootRelease of a raw isa: sidetable_release
  | rawReleaseUnlock
  | rawReleaseLock
  | rawReleaseRead
  | rawReleaseWrite (refcnt : SideWord)
  -- changeIsa
  | isaLoad (newCls : Class) (f : ClassFlags) (locked : Bool)
  | isaLock (newCls : Class) (f : ClassFlags) (oldisa : IsaBits L)
  | isaStore (newCls : Class) (f : ClassFlags) (locked : Bool) (oldisa : Isa L)
  | moveRead (oldisa : IsaBits L)
  | moveWrite (oldisa : IsaBits L) (oldRefcnt : SideWord)
  | isaUnlock
  deriving DecidableEq

structure Machine (L : Layout) (Tid : Type) where
  isa : Isa L
  refcnt : SideWord
  lock : Option Tid
  pc : Tid → PC L
  owned : Tid → Nat
  trueReturns : List Tid

variable {L : Layout} {Tid : Type} [DecidableEq Tid]

/-! ## Moves of one thread -/

namespace Machine

/-- Move thread `t` to `p`. -/
def goto (s : Machine L Tid) (t : Tid) (p : PC L) : Machine L Tid :=
  { s with pc := Function.update s.pc t p }

/-- `sidetable_lock`: blocks while the lock is taken. -/
def acquire (s : Machine L Tid) (t : Tid) (p : PC L) : Option (Machine L Tid) :=
  if s.lock = none then some { s.goto t p with lock := some t } else none

/-- `sidetable_unlock`. -/
def unlock (s : Machine L Tid) (t : Tid) (p : PC L) : Machine L Tid :=
  { s.goto t p with lock := none }

/-- Thread `t` now owns one reference more. -/
def gain (s : Machine L Tid) (t : Tid) : Machine L Tid :=
  { s with owned := Function.update s.owned t (s.owned t + 1) }

/-- Thread `t` gave up one reference. -/
def lose (s : Machine L Tid) (t : Tid) : Machine L Tid :=
  { s with owned := Function.update s.owned t (s.owned t - 1) }

/-- `rootRelease` returns to its caller. -/
def returnRelease (s : Machine L Tid) (t : Tid) (result : Bool) : Machine L Tid :=
  if result then { s.goto t .idle with trueReturns := t :: s.trueReturns } else s.goto t .idle

/-- After the isa is read in `rootRetain`. -/
def retainLoaded (s : Machine L Tid) (t : Tid) (try_ ho locked : Bool) : Machine L Tid :=
  match s.isa with
  | .raw _ =>
    if try_ then s.goto t .rawTryRead
    else if locked then s.goto t .rawRetainUnlock
    else s.goto t .rawRetainLock
  | .nonpointer oldisa =>
    if try_ && oldisa.deallocating then s.goto t (.tryUnlock false)
    else if (oldisa.addRC 1).2 then
      if !ho then s.goto t (.retainLoad try_ true false)
      else if !try_ && !locked then s.goto t (.retainLock oldisa)
      else s.goto t (.retainStore try_ ho true oldisa)
    else s.goto t (.retainStore try_ ho locked oldisa)

/-- The compare-and-swap of `rootRetain`. -/
def retainStored (s : Machine L Tid) (t : Tid) (try_ ho locked : Bool) (oldisa : IsaBits L) :
    Machine L Tid :=
  if s.isa = .nonpointer oldisa then
    if (oldisa.addRC 1).2 then
      ({ s with isa := .nonpointer (oldisa.addRC 1).1.leaveHalf }.gain t).goto t
        (.retainAddRead try_)
    else
      ({ s with isa := .nonpointer (oldisa.addRC 1).1 }.gain t).goto t
        (if try_ then .tryUnlock true else if locked then .retainUnlock else .idle)
  else s.goto t (.retainLoad try_ ho locked)

/-- The underflow path of `rootRelease` up to its next access. -/
def releaseUnderflow (s : Machine L Tid) (t : Tid) (hu locked : Bool) (oldisa : IsaBits L) :
    Machine L Tid :=
  if oldisa.has_sidetable_rc then
    if !hu then s.goto t (.releaseLoad true false)
    else if !locked then s.goto t .releaseLock
    else s.goto t (.borrowRead oldisa)
  else if oldisa.deallocating then s.goto t .overrelease
  else s.goto t (.deallocStore hu locked oldisa)

/-- After the isa is read in `rootRelease`. -/
def releaseLoaded (s : Machine L Tid) (t : Tid) (hu locked : Bool) : Machine L Tid :=
  match s.isa with
  | .raw _ => if locked then s.goto t .rawReleaseUnlock else s.goto t .rawReleaseLock
  | .nonpointer oldisa =>
    if oldisa.subRC.2 then s.releaseUnderflow t hu locked oldisa
    else s.goto t (.releaseStore hu locked oldisa)

def releaseStored (s : Machine L Tid) (t : Tid) (hu locked : Bool) (oldisa : IsaBits L) :
    Machine L Tid :=
  if s.isa = .nonpointer oldisa then
    let s' := { s with isa := .nonpointer oldisa.subRC.1 }.lose t
    if locked then s'.goto t (.releaseUnlock false) else s'.returnRelease t false
  else s.goto t (.releaseLoad hu locked)

/-- `sidetable_subExtraRC_nolock` looks at the entry: an empty one cannot be
borrowed from, and the release falls through to the dealloc path. -/
def borrowLooked (s : Machine L Tid) (t : Tid) (oldisa : IsaBits L) : Machine L Tid :=
  if s.refcnt.getD 0 = 0 then
    if oldisa.deallocating then s.goto t .overrelease
    else s.goto t (.deallocStore true true oldisa)
  else s.goto t (.borrowWrite oldisa s.refcnt)

def borrowStored (s : Machine L Tid) (t : Tid) (oldisa : IsaBits L) (borrowed : Nat) :
    Machine L Tid :=
  if s.isa = .nonpointer oldisa then
    ({ s with isa := .nonpointer (oldisa.setExtraRc (borrowed - 1)) }.lose t).goto t
      (.releaseUnlock false)
  else s.goto t (.borrowLoad2 borrowed)

def borrowLoaded2 (s : Machine L Tid) (t : Tid) (borrowed : Nat) : Machine L Tid :=
  match s.isa with
  | .raw _ => s.goto t (.putBackRead borrowed)
  | .nonpointer oldisa2 =>
    if (oldisa2.addRC (borrowed - 1)).2 then s.goto t (.putBackRead borrowed)
    else s.goto t (.borrowStore2 oldisa2 borrowed)

def borrowStored2 (s : Machine L Tid) (t : Tid) (oldisa2 : IsaBits L) (borrowed : Nat) :
    Machine L Tid :=
  if s.isa = .nonpointer oldisa2 then
    ({ s with isa := .nonpointer (oldisa2.addRC (borrowed - 1)).1 }.lose t).goto t
      (.releaseUnlock false)
  else s.goto t (.putBackRead borrowed)

def deallocStored (s : Machine L Tid) (t : Tid) (hu locked : Bool) (oldisa : IsaBits L) :
    Machine L Tid :=
  if s.isa = .nonpointer oldisa then
    let s' := { s with isa := .nonpointer { oldisa with deallocating := true } }.lose t
    if locked then s'.goto t (.releaseUnlock true) else s'.returnRelease t true
  else s.goto t (.releaseLoad hu locked)

/-- After the isa is read in `changeIsa`. -/
def isaLoaded (s : Machine L Tid) (t : Tid) (newCls : Class) (f : ClassFlags) (locked : Bool) :
    Machine L Tid :=
  match s.isa with
  | .raw c => s.goto t (.isaStore newCls f locked (.raw c))
  | .nonpointer oldisa =>
    if (changeIsaTo (.nonpointer oldisa) newCls f).2 && !locked then
      s.goto t (.isaLock newCls f oldisa)
    else s.goto t (.isaStore newCls f locked (.nonpointer oldisa))

/-- The compare-and-swap of `changeIsa`. -/
def isaStored (s : Machine L Tid) (t : Tid) (newCls : Class) (f : ClassFlags) (locked : Bool)
    (oldisa : Isa L) : Machine L Tid :=
  if s.isa = oldisa then
    let s' := { s with isa := (changeIsaTo oldisa newCls f).1 }
    match oldisa with
    | .nonpointer b =>
      if (changeIsaTo oldisa newCls f).2 then s'.goto t (.moveRead b)
      else s'.goto t (if locked then .isaUnlock else .idle)
    | .raw _ => s'.goto t (if locked then .isaUnlock else .idle)
  else s.goto t (.isaLoad newCls f locked)

def start (s : Machine L Tid) (t : Tid) : RcCall → Option (Machine L Tid)
  | .retain => some (s.goto t (.retainLoad false false false))
  | .release => if 0 < s.owned t then some (s.goto t (.releaseLoad false false)) else none
  | .tryRetain => some (s.goto t .tryLock)
  | .changeIsa newCls f => some (s.goto t (.isaLoad newCls f false))

/-! ## One atomic access -/

/-- Thread `t` performs its next access; `call` is what it starts when idle. -/
def step (s : Machine L Tid) (t : Tid) (call : RcCall) : Option (Machine L Tid) :=
  match s.pc t with
  | .idle => s.start t call
  | .retainLoad try_ ho locked => some (s.retainLoaded t try_ ho locked)
  | .retainLock oldisa => s.acquire t (.retainStore false true true oldisa)
  | .retainStore try_ ho locked oldisa => some (s.retainStored t try_ ho locked oldisa)
  | .retainAddRead try_ => some (s.goto t (.retainAddWrite try_ s.refcnt))
  | .retainAddWrite try_ r =>
    some ({ s with refcnt := (sidetable_addExtraRC_nolock L r (RC_HALF L)).1 }.goto t
      (if try_ then .tryUnlock true else .retainUnlock))
  | .retainUnlock => some (s.unlock t .idle)
  | .rawRetainUnlock => some (s.unlock t .rawRetainLock)
  | .rawRetainLock => s.acquire t .rawRetainRead
  | .rawRetainRead => some (s.goto t (.rawRetainWrite s.refcnt))
  | .rawRetainWrite r =>
    some (({ s with refcnt := sidetable_retain L r }.gain t).goto t .retainUnlock)
  | .rawTryRead =>
    some (if (sidetable_tryRetain L s.refcnt).2 then s.goto t (.rawTryWrite s.refcnt)
      else s.goto t (.tryUnlock false))
  | .rawTryWrite r =>
    some (({ s with refcnt := (sidetable_tryRetain L r).1 }.gain t).goto t (.tryUnlock true))
  | .tryLock => s.acquire t (.retainLoad true false false)
  | .tryUnlock _ => some (s.unlock t .idle)
  | .releaseLoad hu locked => some (s.releaseLoaded t hu locked)
  | .releaseStore hu locked oldisa => some (s.releaseStored t hu locked oldisa)
  | .releaseLock => s.acquire t (.releaseLoad true true)
  | .borrowRead oldisa => some (s.borrowLooked t oldisa)
  | .borrowWrite oldisa r =>
    some ({ s with refcnt := (sidetable_subExtraRC_nolock L r (RC_HALF L)).1 }.goto t
      (.borrowStore oldisa (sidetable_subExtraRC_nolock L r (RC_HALF L)).2))
  | .borrowStore oldisa borrowed => some (s.borrowStored t oldisa borrowed)
  | .borrowLoad2 borrowed => some (s.borrowLoaded2 t borrowed)
  | .borrowStore2 oldisa2 borrowed => some (s.borrowStored2 t oldisa2 borrowed)
  | .putBackRead borrowed => some (s.goto t (.putBackWrite borrowed s.refcnt))
  | .putBackWrite borrowed r =>
    some ({ s with refcnt := (sidetable_addExtraRC_nolock L r borrowed).1 }.goto t
      (.releaseLoad true true))
  | .deallocStore hu locked oldisa => some (s.deallocStored t hu locked oldisa)
  | .overrelease => none
  | .releaseUnlock result => some ({ s with lock := none }.returnRelease t result)
  | .rawReleaseUnlock => some (s.unlock t .rawReleaseLock)
  | .rawReleaseLock => s.acquire t .rawReleaseRead
  | .rawReleaseRead => some (s.goto t (.rawReleaseWrite s.refcnt))
  | .rawReleaseWrite r =>
    some (({ s with refcnt := (sidetable_release L r).1 }.lose t).goto t
      (.releaseUnlock (sidetable_release L r).2))
  | .isaLoad newCls f locked => some (s.isaLoaded t newCls f locked)
  | .isaLock newCls f oldisa => s.acquire t (.isaStore newCls f true (.nonpointer oldisa))
  | .isaStore newCls f locked oldisa => some (s.isaStored t newCls f locked oldisa)
  | .moveRead oldisa => some (s.goto t (.moveWrite oldisa s.refcnt))
  | .moveWrite oldisa r =>
    let refcnt := sidetable_moveExtraRC_nolock L r oldisa.extra_rc oldisa.deallocating
      oldisa.weakly_referenced
    some ({ s with refcnt := refcnt }.goto t .isaUnlock)
  | .isaUnlock => some (s.unlock t .idle)

def Initial (s : Machine L Tid) : Prop :=
  (∃ t, s.owned = fun u => if u = t then 1 else 0) ∧ s.refcnt = none ∧ s.lock = none
    ∧ (∀ t, s.pc t = .idle) ∧ s.trueReturns = [] ∧
    match s.isa with
    | .raw c => c ≠ none
    | .nonpointer b =>
      (b.extra_rc : Nat) = 0 ∧ b.deallocating = false ∧ b.weakly_referenced = false
        ∧ b.has_sidetable_rc = false

end Machine

def rcSystem (L : Layout) (Tid : Type) [DecidableEq Tid] :
    Lib.System (Machine L Tid) (Tid × RcCall) where
  init := Machine.Initial
  step s a := s.step a.1 a.2

end ObjcRuntime
