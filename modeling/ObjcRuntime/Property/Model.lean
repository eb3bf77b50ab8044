/-
ATOMIC PROPERTIES.

objc-accessors.mm, `objc_getProperty` and `reallySetProperty` for an atomic
property. Any number of threads get and set one slot of an object; each
access of the slot, retain, release, lock and unlock is one step. A setter
compares with the slot before it takes the lock, retains before it and
releases after it.

* `PropertyState.stepThread`: one step of a getter or a setter,
* `propertySystem`: with what the rest of the program does: it owns
  references, and takes the same lock for other slots.
-/
import ObjcRuntime.Lib.Linearizable
import ObjcRuntime.Lib.Transition

namespace ObjcRuntime

open Lib

/-! ## Calls -/

inductive SetKind where
  | retain
  | copy
  | mutableCopy
  deriving DecidableEq

inductive PropertyOp (V : Type) where
  | get
  | set (newValue : Option V) (kind : SetKind)

/-- Where a thread is. `arg` is the argument of a setter, `newValue` what it installs. -/
inductive Point (V : Type) where
  | getLock
  | getLoad
  | getRetain (value : Option V)
  | getUnlock (value : Option V)
  | getReturn (value : Option V)
  /-- The copy, or the comparison with the slot. -/
  | setBegin (arg : Option V) (kind : SetKind)
  | setRetain (arg : Option V)
  | setLock (arg : Option V) (kind : SetKind) (newValue : Option V)
  | setLoad (arg : Option V) (kind : SetKind) (newValue : Option V)
  | setStore (arg : Option V) (kind : SetKind) (newValue oldValue : Option V)
  /-- `origin` is the call that installed the old value; the runtime does not keep it. -/
  | setUnlock (arg : Option V) (kind : SetKind) (newValue oldValue : Option V)
      (origin : Option Nat)
  | setRelease (arg : Option V) (kind : SetKind) (newValue oldValue : Option V)
      (origin : Option Nat)
  | setReturn (arg : Option V) (kind : SetKind) (newValue : Option V)
  deriving DecidableEq

structure Frame (V : Type) where
  id : Nat
  point : Point V
  deriving DecidableEq

variable {V ι : Type}

def Point.op : Point V → PropertyOp V
  | .getLock | .getLoad | .getRetain _ | .getUnlock _ | .getReturn _ => .get
  | .setBegin arg kind | .setLock arg kind _ | .setLoad arg kind _ | .setStore arg kind _ _
  | .setUnlock arg kind _ _ _ | .setRelease arg kind _ _ _ | .setReturn arg kind _ => .set arg kind
  | .setRetain arg => .set arg .retain

def Point.result : Point V → Option (Option V)
  | .getRetain value | .getUnlock value | .getReturn value => some value
  | .setUnlock _ _ newValue _ _ | .setRelease _ _ newValue _ _ | .setReturn _ _ newValue =>
    some newValue
  | _ => none

def Point.locked : Point V → Bool
  | .getLoad | .getRetain _ | .getUnlock _ | .setLoad _ _ _ | .setStore _ _ _ _
  | .setUnlock _ _ _ _ _ => true
  | _ => false

def Point.origin : Point V → Option (Option Nat)
  | .setUnlock _ _ _ _ origin | .setRelease _ _ _ _ origin => some origin
  | _ => none

/-- A reference to `o`, seen from `v`. -/
def own [DecidableEq V] (o : Option V) (v : V) : Nat := if o = some v then 1 else 0

def Point.held [DecidableEq V] : Point V → V → Nat
  | .getLock, _ | .getLoad, _ | .getRetain _, _ => 0
  | .getUnlock value, v | .getReturn value, v => own value v
  | .setBegin arg _, v | .setRetain arg, v | .setReturn arg _ _, v => own arg v
  | .setLock arg _ newValue, v | .setLoad arg _ newValue, v | .setStore arg _ newValue _, v =>
    own arg v + own newValue v
  | .setUnlock arg _ _ oldValue _, v | .setRelease arg _ _ oldValue _, v =>
    own arg v + own oldValue v

/-! ## Steps -/

/-- `refs` are the reference counts. What follows them is not kept by the runtime: how many
references the rest of the program owns, the history, the order of the calls that have taken
effect, which calls have installed a value and which of these values were released. -/
structure PropertyState (V ι : Type) where
  slot : Option V
  /-- `PropertyLocks[slot]`; `some none` when a thread has it for another slot. -/
  lock : Option (Option ι)
  pc : ι → Option (Frame V)
  refs : V → Nat
  elsewhere : V → Nat
  nextId : Nat
  hist : List (Event (PropertyOp V) (Option V))
  order : List (Done (PropertyOp V) (Option V))
  /-- The call that installed the value in the slot; none installed the first one. -/
  origin : Option Nat
  installed : List (Option Nat)
  released : List (Option Nat)

namespace PropertyState

variable [DecidableEq V] [DecidableEq ι]

def objc_retain (s : PropertyState V ι) (value : Option V) : PropertyState V ι :=
  { s with refs := fun v => s.refs v + own value v }

def objc_release (s : PropertyState V ι) (value : Option V) : PropertyState V ι :=
  { s with refs := fun v => s.refs v - own value v }

def goTo (s : PropertyState V ι) (t : ι) (id : Nat) (point : Point V) : PropertyState V ι :=
  { s with pc := Function.update s.pc t (some ⟨id, point⟩) }

def takeEffect (s : PropertyState V ι) (id : Nat) (op : PropertyOp V) (res : Option V) :
    PropertyState V ι :=
  { s with order := s.order ++ [⟨id, op, res⟩] }

/-- The call returns, and gives a reference to its caller: the value got (it is autoreleased), or
the argument. -/
def finish (s : PropertyState V ι) (t : ι) (id : Nat) (res value : Option V) :
    PropertyState V ι :=
  { s with
    pc := Function.update s.pc t none
    elsewhere := fun v => s.elsewhere v + own value v
    hist := s.hist ++ [.ret id res] }

/-- The next step of the thread `t` in its call. -/
def stepThread (s : PropertyState V ι) (t : ι) (id : Nat) : Point V → Option (PropertyState V ι)
  | .getLock =>
    if s.lock = none then some ({ s with lock := some (some t) }.goTo t id .getLoad) else none
  | .getLoad => some ((s.goTo t id (.getRetain s.slot)).takeEffect id .get s.slot)
  | .getRetain value => some ((s.objc_retain value).goTo t id (.getUnlock value))
  | .getUnlock value => some ({ s with lock := none }.goTo t id (.getReturn value))
  | .getReturn value => some (s.finish t id value value)
  | .setBegin arg .retain =>
    if s.slot = arg then
      some ((s.goTo t id (.setReturn arg .retain arg)).takeEffect id (.set arg .retain) arg)
    else some (s.goTo t id (.setRetain arg))
  | .setBegin _ _ => none
  | .setRetain arg => some ((s.objc_retain arg).goTo t id (.setLock arg .retain arg))
  | .setLock arg kind newValue =>
    if s.lock = none then
      some ({ s with lock := some (some t) }.goTo t id (.setLoad arg kind newValue))
    else none
  | .setLoad arg kind newValue => some (s.goTo t id (.setStore arg kind newValue s.slot))
  | .setStore arg kind newValue oldValue =>
    some (({ s with
      slot := newValue
      origin := some id
      installed := s.installed ++ [some id] }.goTo t id
        (.setUnlock arg kind newValue oldValue s.origin)).takeEffect id (.set arg kind) newValue)
  | .setUnlock arg kind newValue oldValue origin =>
    some ({ s with lock := none }.goTo t id (.setRelease arg kind newValue oldValue origin))
  | .setRelease arg kind newValue oldValue origin =>
    some ({ s.objc_release oldValue with released := s.released ++ [origin] }.goTo t id
      (.setReturn arg kind newValue))
  | .setReturn arg _ newValue => some (s.finish t id newValue arg)

def begin (s : PropertyState V ι) (t : ι) (point : Point V) : PropertyState V ι :=
  { s with
    pc := Function.update s.pc t (some ⟨s.nextId, point⟩)
    nextId := s.nextId + 1
    hist := s.hist ++ [.call s.nextId point.op] }

end PropertyState

inductive PropertyAction (V ι : Type) where
  | get (t : ι)
  | set (t : ι) (newValue : Option V) (kind : SetKind)
  | step (t : ι)
  /-- `copyWithZone:` or `mutableCopyWithZone:` of the thread's argument returns. -/
  | copied (t : ι) (copy : Option V)
  /-- Elsewhere in the program. -/
  | retain (v : V)
  | release (v : V)
  | lock
  | unlock

variable [DecidableEq V] [DecidableEq ι]

def PropertyState.copied (s : PropertyState V ι) (t : ι) (id : Nat) (copy : Option V) :
    Point V → Option (PropertyState V ι)
  | .setBegin arg kind =>
    if kind ≠ .retain ∧ (arg = none → copy = none) then
      some ((s.objc_retain copy).goTo t id (.setLock arg kind copy))
    else none
  | _ => none

def PropertyState.perform (s : PropertyState V ι) : PropertyAction V ι → Option (PropertyState V ι)
  | .get t => if (s.pc t).isNone then some (s.begin t .getLock) else none
  | .set t newValue kind =>
    -- the caller has a reference to the argument, which the call borrows
    if (s.pc t).isNone ∧ ∀ v ∈ newValue, 0 < s.elsewhere v then
      some ({ s with elsewhere := fun v => s.elsewhere v - own newValue v }.begin t
        (.setBegin newValue kind))
    else none
  | .step t => (s.pc t).bind fun frame => s.stepThread t frame.id frame.point
  | .copied t copy => (s.pc t).bind fun frame => s.copied t frame.id copy frame.point
  | .retain v =>
    some { s.objc_retain (some v) with elsewhere := fun w => s.elsewhere w + own (some v) w }
  | .release v =>
    if 0 < s.elsewhere v then
      some { s.objc_release (some v) with elsewhere := fun w => s.elsewhere w - own (some v) w }
    else none
  | .lock => if s.lock = none then some { s with lock := some none } else none
  | .unlock => if s.lock = some none then some { s with lock := none } else none

def PropertyState.start (slot : Option V) (elsewhere : V → Nat) : PropertyState V ι where
  slot := slot
  lock := none
  pc := fun _ => none
  refs := fun v => elsewhere v + own slot v
  elsewhere := elsewhere
  nextId := 0
  hist := []
  order := []
  origin := none
  installed := [none]
  released := []

def propertySystem (slot : Option V) : System (PropertyState V ι) (PropertyAction V ι) where
  init := fun s => ∃ elsewhere, s = .start slot elsewhere
  step := fun s a => s.perform a

/-- A cell that is read and written at once. A setter that copies its argument writes the copy,
and the copy of nil is nil. -/
def cell : Option V → PropertyOp V → Option V → Option (Option V)
  | value, .get, res => if res = value then some value else none
  | _, .set newValue kind, res =>
    if (kind = .retain → res = newValue) ∧ (newValue = none → res = none) then some res else none

end ObjcRuntime
