/-
+initialize.

objc-initialize.mm. A thread that initializes a class first sees to the
superclass, sets CLS_INITIALIZING under classInitLock, records the class in a
list of its own, sends +initialize, and marks the class initialized; if the
superclass is not, this waits in the pending map until it is. A +initialize
may lead to `_class_initialize` of any class, and it may throw: the class is
marked all the same (`@finally`), and the exception goes on to the caller.

The threads interleave; each thread has a stack of calls. A change of a
class's flags is one step, and so is each test of them outside the lock.
-/
import Mathlib.Data.List.ReduceOption
import ObjcRuntime.Lib.Transition

namespace ObjcRuntime

open Lib Function

/-! ## Classes, calls and threads -/

structure ClassTree (C : Type) where
  superclass : C → Option C
  depth : C → Nat
  superclass_depth : ∀ c d, superclass c = some d → depth d < depth c

/-- Where a call of `_class_initialize` is. -/
inductive InitPC (C : Type) where
  | superCheck
  /-- the superclass has been seen to; CLS_INITIALIZING is tried next -/
  | trySet
  /-- `_setThisThreadIsInitializingClass` -/
  | record
  | callInitialize
  /-- in the +initialize of the class -/
  | inInitialize
  /-- `lockAndFinishInitializing`, before the lock -/
  | lockFinish
  /-- `_finishInitializing`, with the lock: the classes that are left to mark -/
  | finish (work : List C)
  | checkInitializing
  /-- `waitForInitializeToComplete` -/
  | wait
  | checkInitialized
  /-- one of the calls of `_objc_fatal` -/
  | fatal
  deriving DecidableEq

structure InitFrame (C : Type) where
  cls : C
  pc : InitPC C
  deriving DecidableEq

inductive InitEvent (C T : Type) where
  | sent (t : T) (cls : C)
  | returned (t : T) (cls : C)
  | threw (t : T) (cls : C)
  deriving DecidableEq

/-- `pending` is the pendingInitializeMap, `metaclasses` is each thread's list of classes, and
`owner` is the thread that set CLS_INITIALIZING, for the record. -/
structure InitState (C T : Type) where
  initialized : C → Bool
  initializing : C → Bool
  pending : C → List C
  metaclasses : T → List (Option C)
  stack : T → List (InitFrame C)
  lock : Option T
  owner : C → Option T
  trace : List (InitEvent C T)

variable {C T : Type}

namespace InitState

/-! ## A thread's list of classes -/

def fillSlot (cls : C) : List (Option C) → Option (List (Option C))
  | [] => none
  | none :: slots => some (some cls :: slots)
  | some d :: slots => (fillSlot cls slots).map (some d :: ·)

variable [DecidableEq C]

/-- `_setThisThreadIsInitializingClass`; `none` is the fatal error. A list is made with four
slots, and grows to twice the slots and one. -/
def setThisThreadIsInitializingClass (slots : List (Option C)) (cls : C) :
    Option (List (Option C)) :=
  let slots := if slots = [] then List.replicate 4 none else slots
  if some cls ∈ slots then none
  else
    match fillSlot cls slots with
    | some slots => some slots
    | none => some (slots ++ some cls :: List.replicate slots.length none)

/-- `_setThisThreadIsNotInitializingClass`; `none` is the fatal error. -/
def setThisThreadIsNotInitializingClass (cls : C) :
    List (Option C) → Option (List (Option C))
  | [] => none
  | slot :: slots =>
    if slot = some cls then some (none :: slots)
    else (setThisThreadIsNotInitializingClass cls slots).map (slot :: ·)

/-! ## The steps of a call -/

variable [DecidableEq T]

def setStack (s : InitState C T) (t : T) (frames : List (InitFrame C)) : InitState C T :=
  { s with stack := update s.stack t frames }

/-- Try to atomically set CLS_INITIALIZING. -/
def trySetInitializing (s : InitState C T) (t : T) (cls : C) (rest : List (InitFrame C)) :
    InitState C T :=
  if s.initialized cls = false ∧ s.initializing cls = false then
    { s.setStack t (⟨cls, .record⟩ :: rest) with
      initializing := update s.initializing cls true
      owner := update s.owner cls (some t) }
  else s.setStack t (⟨cls, .checkInitializing⟩ :: rest)

def lockAndFinishInitializing (s : InitState C T) (t : T) (cls : C) (supercls : Option C)
    (rest : List (InitFrame C)) : InitState C T :=
  match supercls with
  | none => { s.setStack t (⟨cls, .finish [cls]⟩ :: rest) with lock := some t }
  | some supercls =>
    if s.initialized supercls then
      { s.setStack t (⟨cls, .finish [cls]⟩ :: rest) with lock := some t }
    else
      -- _finishInitializingAfter
      { s.setStack t rest with
        pending := update s.pending supercls (cls :: s.pending supercls) }

/-- `_finishInitializing` of one class: it is marked, and the subclasses that waited for it are
marked next. -/
def finishInitializing (s : InitState C T) (t : T) (caller cls : C) (work : List C)
    (rest : List (InitFrame C)) : InitState C T :=
  let s := { s with
    initialized := update s.initialized cls true
    initializing := update s.initializing cls false }
  match setThisThreadIsNotInitializingClass cls (s.metaclasses t) with
  | none => s.setStack t (⟨caller, .fatal⟩ :: rest)
  | some slots =>
    { s.setStack t (⟨caller, .finish (s.pending cls ++ work)⟩ :: rest) with
      metaclasses := update s.metaclasses t slots
      pending := update s.pending cls [] }

/-- The next step of the call on top of the thread's stack; a thread in a +initialize has none. -/
def go (tree : ClassTree C) (s : InitState C T) (t : T) : Option (InitState C T) :=
  match s.stack t with
  | [] => none
  | ⟨cls, pc⟩ :: rest =>
    match pc with
    | .superCheck =>
      match tree.superclass cls with
      | none => some (s.setStack t (⟨cls, .trySet⟩ :: rest))
      | some supercls =>
        if s.initialized supercls then some (s.setStack t (⟨cls, .trySet⟩ :: rest))
        else some (s.setStack t (⟨supercls, .superCheck⟩ :: ⟨cls, .trySet⟩ :: rest))
    | .trySet => if s.lock = none then some (s.trySetInitializing t cls rest) else none
    | .record =>
      match setThisThreadIsInitializingClass (s.metaclasses t) cls with
      | none => some (s.setStack t (⟨cls, .fatal⟩ :: rest))
      | some slots =>
        some { s.setStack t (⟨cls, .callInitialize⟩ :: rest) with
          metaclasses := update s.metaclasses t slots }
    | .callInitialize =>
      some { s.setStack t (⟨cls, .inInitialize⟩ :: rest) with
        trace := s.trace ++ [.sent t cls] }
    | .inInitialize => none
    | .lockFinish =>
      if s.lock = none then
        some (s.lockAndFinishInitializing t cls (tree.superclass cls) rest)
      else none
    | .finish (c :: work) => some (s.finishInitializing t cls c work rest)
    | .finish [] => some { s.setStack t rest with lock := none }
    | .checkInitializing =>
      if s.initializing cls then
        -- _thisThreadIsInitializingClass
        if some cls ∈ s.metaclasses t then some (s.setStack t rest)
        else some (s.setStack t (⟨cls, .wait⟩ :: rest))
      else some (s.setStack t (⟨cls, .checkInitialized⟩ :: rest))
    | .wait =>
      if s.lock = none ∧ s.initialized cls = true then some (s.setStack t rest) else none
    | .checkInitialized =>
      if s.initialized cls then some (s.setStack t rest)
      else some (s.setStack t (⟨cls, .fatal⟩ :: rest))
    | .fatal => none

end InitState

/-! ## The system -/

/-- A thread calls `_class_initialize`, goes on, or leaves a +initialize. -/
inductive InitAction (C T : Type) where
  | call (t : T) (cls : C)
  | ret (t : T)
  | throw (t : T)
  | go (t : T)
  deriving DecidableEq

variable [DecidableEq C] [DecidableEq T]

/-- A thread calls `_class_initialize` outside of it or in a +initialize. -/
def InitState.step (tree : ClassTree C) (s : InitState C T) :
    InitAction C T → Option (InitState C T)
  | .call t cls =>
    match s.stack t with
    | [] => some (s.setStack t [⟨cls, .superCheck⟩])
    | ⟨c, .inInitialize⟩ :: rest =>
      some (s.setStack t (⟨cls, .superCheck⟩ :: ⟨c, .inInitialize⟩ :: rest))
    | _ => none
  | .ret t =>
    match s.stack t with
    | ⟨c, .inInitialize⟩ :: rest =>
      some { s.setStack t (⟨c, .lockFinish⟩ :: rest) with
        trace := s.trace ++ [.returned t c] }
    | _ => none
  | .throw t =>
    match s.stack t with
    | ⟨c, .inInitialize⟩ :: rest =>
      -- the calls that wait for this superclass have no handler; a +initialize around them may
      -- catch the exception, or throw in turn
      some { s.setStack t (⟨c, .lockFinish⟩ :: rest.dropWhile (·.pc = .trySet)) with
        trace := s.trace ++ [.threw t c] }
    | _ => none
  | .go t => s.go tree t

def InitState.start : InitState C T where
  initialized _ := false
  initializing _ := false
  pending _ := []
  metaclasses _ := []
  stack _ := []
  lock := none
  owner _ := none
  trace := []

def initSystem (tree : ClassTree C) : System (InitState C T) (InitAction C T) where
  init s := s = InitState.start
  step := InitState.step tree

end ObjcRuntime
