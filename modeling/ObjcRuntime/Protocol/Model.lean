/-
PROTOCOLS MADE AT RUN TIME.

objc-runtime-new.mm. A protocol is allocated, gets methods and incorporated
protocols while it is under construction, and is then registered under its
name. An incorporated protocol is kept as a pointer, but whoever follows the
pointer first looks up the protocol that has the name now (`remapProtocol`).

* `perform`: the four functions that build protocols,
* `fixupProtocol`, `protocol_getMethod`, `protocol_conformsToProtocol_nolock`:
  the functions that follow the pointers; `none` when they have not come
  back after so many nested calls.
-/
import ObjcRuntime.Class.MethodLists
import ObjcRuntime.Lib.Transition

namespace ObjcRuntime

open Lib

/-! ## Protocols -/

/-- A `method_list_t` of a protocol. -/
structure ProtocolMethodList where
  methods : List TypedMethod
  fixedUp : Bool
  deriving DecidableEq

/-- `protocol_t`; pointers to protocols are numbers. There are no extended method types. -/
structure ProtocolT (N : Type) where
  mangledName : N
  /-- Its isa is `__IncompleteProtocol`. -/
  incomplete : Bool
  fixedUp : Bool
  protocols : List Nat
  instanceMethods : Option ProtocolMethodList
  classMethods : Option ProtocolMethodList
  optionalInstanceMethods : Option ProtocolMethodList
  optionalClassMethods : Option ProtocolMethodList
  deriving DecidableEq

namespace ProtocolT

variable {N : Type}

def getProtocolMethodList (proto : ProtocolT N) (required instance_ : Bool) :
    Option ProtocolMethodList :=
  if required then if instance_ then proto.instanceMethods else proto.classMethods
  else if instance_ then proto.optionalInstanceMethods else proto.optionalClassMethods

def setProtocolMethodList (proto : ProtocolT N) (required instance_ : Bool)
    (mlist : Option ProtocolMethodList) : ProtocolT N :=
  if required then
    if instance_ then { proto with instanceMethods := mlist } else { proto with classMethods := mlist }
  else
    if instance_ then { proto with optionalInstanceMethods := mlist }
    else { proto with optionalClassMethods := mlist }

end ProtocolT

/-- `protocol_addMethod_nolock`: the method goes to the end; a new list is marked as fixed up. -/
def protocol_addMethod_nolock (list : Option ProtocolMethodList) (name : SEL)
    (types : Option String) : ProtocolMethodList :=
  let meth : TypedMethod := ⟨⟨name, 0⟩, types.getD ""⟩
  match list with
  | none => ⟨[meth], true⟩
  | some list => ⟨list.methods ++ [meth], list.fixedUp⟩

/-- `fixupProtocolMethodList` without extended method types. -/
def fixupProtocolMethodList (mlist : Option ProtocolMethodList) : Option ProtocolMethodList :=
  mlist.map fun mlist =>
    if mlist.fixedUp then mlist
    else ⟨mlist.methods.insertionSort fun a b => a.name ≤ b.name, true⟩

/-! ## The table, and how protocols are built -/

/-- The protocols at the numbers below `count`, and the table of names. -/
structure ProtocolState (N : Type) where
  proto : Nat → ProtocolT N
  count : Nat
  protocols : N → Option Nat

variable {N : Type}

/-- `copySwiftV1MangledName`. -/
abbrev SwiftNames (N : Type) := N → Option N

namespace ProtocolState

def getProtocol (swift : SwiftNames N) (s : ProtocolState N) (name : N) : Option Nat :=
  (s.protocols name).or ((swift name).bind s.protocols)

def remapProtocol (swift : SwiftNames N) (s : ProtocolState N) (p : Nat) : Nat :=
  (s.getProtocol swift (s.proto p).mangledName).getD p

def setProto (s : ProtocolState N) (p : Nat) (proto : ProtocolT N) : ProtocolState N :=
  { s with proto := Function.update s.proto p proto }

/-- `objc_allocateProtocol`; returns nil when the name is in use. -/
def objc_allocateProtocol (swift : SwiftNames N) (s : ProtocolState N) (name : N) :
    Option Nat × ProtocolState N :=
  if s.getProtocol swift name ≠ none then (none, s)
  else
    (some s.count,
      { s.setProto s.count ⟨name, true, false, [], none, none, none, none⟩ with
        count := s.count + 1 })

variable [DecidableEq N]

def objc_registerProtocol (s : ProtocolState N) (p : Nat) : ProtocolState N :=
  if (s.proto p).incomplete then
    { s.setProto p { s.proto p with incomplete := false } with
      protocols := Function.update s.protocols (s.proto p).mangledName (some p) }
  else s

omit [DecidableEq N] in
def protocol_addProtocol (s : ProtocolState N) (p addition : Nat) : ProtocolState N :=
  if (s.proto p).incomplete = false then s
  else if (s.proto addition).incomplete then s
  else s.setProto p { s.proto p with protocols := (s.proto p).protocols ++ [addition] }

omit [DecidableEq N] in
def protocol_addMethodDescription (s : ProtocolState N) (p : Nat) (name : SEL)
    (types : Option String) (isRequiredMethod isInstanceMethod : Bool) : ProtocolState N :=
  if (s.proto p).incomplete = false then s
  else
    s.setProto p ((s.proto p).setProtocolMethodList isRequiredMethod isInstanceMethod
      (some (protocol_addMethod_nolock
        ((s.proto p).getProtocolMethodList isRequiredMethod isInstanceMethod) name types)))

end ProtocolState

inductive ProtocolAction (N : Type) where
  | allocate (name : N)
  | addProtocol (p addition : Nat)
  | addMethodDescription (p : Nat) (name : SEL) (types : Option String)
      (isRequiredMethod isInstanceMethod : Bool)
  | register (p : Nat)

def ProtocolState.perform [DecidableEq N] (swift : SwiftNames N) (s : ProtocolState N) :
    ProtocolAction N → Option (ProtocolState N)
  | .allocate name => some (s.objc_allocateProtocol swift name).2
  | .addProtocol p addition =>
    if p < s.count ∧ addition < s.count then some (s.protocol_addProtocol p addition) else none
  | .addMethodDescription p name types isRequiredMethod isInstanceMethod =>
    if p < s.count then
      some (s.protocol_addMethodDescription p name types isRequiredMethod isInstanceMethod)
    else none
  | .register p => if p < s.count then some (s.objc_registerProtocol p) else none

/-! ## Following the pointers -/

namespace ProtocolState

def searchProtocols {β : Type} (search : Nat → Option (Option β)) : List Nat → Option (Option β)
  | [] => some none
  | q :: qs =>
    match search q with
    | none => none
    | some (some found) => some (some found)
    | some none => searchProtocols search qs

variable (swift : SwiftNames N) (s : ProtocolState N)

def protocol_getMethod_nolock (sel : SEL) (isRequiredMethod isInstanceMethod recursive : Bool) :
    Nat → Nat → Option (Option TypedMethod)
  | 0, _ => none
  | fuel + 1, p =>
    if sel = 0 then some none
    else
      match ((s.proto p).getProtocolMethodList isRequiredMethod isInstanceMethod).bind fun mlist =>
          (search_method_list mlist.methods mlist.fixedUp true sel).bind fun j =>
            mlist.methods[j]? with
      | some m => some (some m)
      | none =>
        if recursive then
          searchProtocols (fun q => protocol_getMethod_nolock sel isRequiredMethod
            isInstanceMethod true fuel (s.remapProtocol swift q)) (s.proto p).protocols
        else some none

/-- `protocol_conformsToProtocol_nolock`; `some (some ())` is YES. -/
def protocol_conformsToProtocol_nolock [DecidableEq N] (other : Nat) :
    Nat → Nat → Option (Option Unit)
  | 0, _ => none
  | fuel + 1, self =>
    if (s.proto self).mangledName = (s.proto other).mangledName then some (some ())
    else
      searchProtocols (fun q =>
        if (s.proto other).mangledName = (s.proto (s.remapProtocol swift q)).mangledName then
          some (some ())
        else protocol_conformsToProtocol_nolock other fuel (s.remapProtocol swift q))
        (s.proto self).protocols

end ProtocolState

def ProtocolT.fixupLists (proto : ProtocolT N) : ProtocolT N :=
  { proto with
    instanceMethods := fixupProtocolMethodList proto.instanceMethods
    classMethods := fixupProtocolMethodList proto.classMethods
    optionalInstanceMethods := fixupProtocolMethodList proto.optionalInstanceMethods
    optionalClassMethods := fixupProtocolMethodList proto.optionalClassMethods
    fixedUp := true }

namespace ProtocolState

variable (swift : SwiftNames N)

def forProtocols (body : ProtocolState N → Nat → Option (ProtocolState N)) :
    ProtocolState N → List Nat → Option (ProtocolState N)
  | s, [] => some s
  | s, q :: qs =>
    match body s q with
    | none => none
    | some s' => forProtocols body s' qs

/-- `fixupProtocol`: first the incorporated protocols. -/
def fixupProtocol : Nat → ProtocolState N → Nat → Option (ProtocolState N)
  | 0, _, _ => none
  | fuel + 1, s, p =>
    (forProtocols (fun s q =>
      if (s.proto (s.remapProtocol swift q)).fixedUp then some s
      else fixupProtocol fuel s (s.remapProtocol swift q)) s (s.proto p).protocols).map
      fun s' => s'.setProto p (s'.proto p).fixupLists

def fixupProtocolIfNeeded (fuel : Nat) (s : ProtocolState N) (p : Nat) :
    Option (ProtocolState N) :=
  if (s.proto p).fixedUp then some s else fixupProtocol swift fuel s p

def protocol_getMethod (fuel : Nat) (s : ProtocolState N) (p : Nat) (sel : SEL)
    (isRequiredMethod isInstanceMethod recursive : Bool) : Option (Option TypedMethod) :=
  match fixupProtocolIfNeeded swift fuel s p with
  | none => none
  | some s' =>
    s'.protocol_getMethod_nolock swift sel isRequiredMethod isInstanceMethod recursive fuel p

/-- `protocol_getMethodDescription`: the name and the types, or nil and nil. -/
def protocol_getMethodDescription (fuel : Nat) (s : ProtocolState N) (p : Nat) (sel : SEL)
    (isRequiredMethod isInstanceMethod : Bool) : Option (Option (SEL × String)) :=
  (protocol_getMethod swift fuel s p sel isRequiredMethod isInstanceMethod true).map
    fun m => m.map fun m => (m.name, m.types)

end ProtocolState

end ObjcRuntime
