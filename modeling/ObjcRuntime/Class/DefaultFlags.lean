/-
DEFAULT RETAIN/RELEASE AND DEFAULT ALLOC.

objc-runtime-new.mm. A class with the default-RR flag is retained and
released without a message, and a metaclass with the default-AWZ flag
allocates without one. The flags are set in `setInitialized` and cleared
when a method list with such a selector is attached, when the superclass is
not default, and when an implementation of NSObject's is replaced.

* `DefaultFlags.prepareMethodLists`, `DefaultFlags.updateCustomRR_AWZ` —
  the places that look for such selectors,
* `flaggedSystem`: the calls, with what they do to the classes and to the
  flags.
-/
import ObjcRuntime.Class.Lookup

namespace ObjcRuntime

open Lib

/-! ## Selectors -/

def SEL_retain : SEL := 16

def SEL_release : SEL := 17

def SEL_autorelease : SEL := 18

def SEL_retainCount : SEL := 19

def SEL_tryRetain : SEL := 20

def SEL_retainWeakReference : SEL := 21

def SEL_isDeallocating : SEL := 22

def SEL_allowsWeakReference : SEL := 23

def SEL_alloc : SEL := 24

def SEL_allocWithZone : SEL := 25

def isRRSelector (sel : SEL) : Bool :=
  sel == SEL_retain || sel == SEL_release || sel == SEL_autorelease || sel == SEL_retainCount
    || sel == SEL_tryRetain || sel == SEL_retainWeakReference || sel == SEL_isDeallocating
    || sel == SEL_allowsWeakReference

def isAWZSelector (sel : SEL) : Bool := sel == SEL_allocWithZone || sel == SEL_alloc

/-- Whether `search_method_list` finds the selector. -/
def MethodList.implements (mlist : MethodList) (sel : SEL) : Bool :=
  (findMethodInSortedMethodList sel mlist.methods).isSome

def methodListImplementsRR (mlist : MethodList) : Bool :=
  mlist.implements SEL_retain || mlist.implements SEL_release || mlist.implements SEL_autorelease
    || mlist.implements SEL_retainCount || mlist.implements SEL_tryRetain
    || mlist.implements SEL_isDeallocating || mlist.implements SEL_retainWeakReference
    || mlist.implements SEL_allowsWeakReference

def methodListImplementsAWZ (mlist : MethodList) : Bool :=
  mlist.implements SEL_allocWithZone || mlist.implements SEL_alloc

inductive DefaultFlag where
  | rr
  | awz
  deriving DecidableEq

namespace DefaultFlag

def isSelector : DefaultFlag → SEL → Bool
  | rr => isRRSelector
  | awz => isAWZSelector

def methodListImplements : DefaultFlag → MethodList → Bool
  | rr => methodListImplementsRR
  | awz => methodListImplementsAWZ

/-- The RR flag is one of classes, the AWZ flag one of metaclasses. -/
def ofMeta : DefaultFlag → Bool
  | rr => false
  | awz => true

end DefaultFlag

/-! ## The flags -/

/-- A class image with the root class NSObject. -/
structure NSObjectImage (C : Type) extends ClassImage C where
  classNSObject : C
  classNSObject_isMeta : isMeta classNSObject = false
  classNSObject_root : superclass classNSObject = none

variable {C : Type}

def NSObjectImage.special (K : NSObjectImage C) : DefaultFlag → C
  | .rr => K.classNSObject
  | .awz => K.isa K.classNSObject

/-- The flags of the classes, and `ClassNSObjectRRSwizzled` and `MetaclassNSObjectAWZSwizzled`.
`written` is not kept by the runtime: an implementation of such a method of NSObject was written. -/
structure DefaultFlags (C : Type) where
  hasDefault : DefaultFlag → C → Bool
  swizzled : DefaultFlag → Bool
  written : DefaultFlag → Bool

/-- From `beginCategoryMethodLists` to `endCategoryMethodLists`. -/
def categoryMethodLists (K : ClassImage C) (s : ClassState C) (cls : C) : List MethodList :=
  if s.methods cls = [] ∨ K.baseMethods cls = none then s.methods cls
  else (s.methods cls).dropLast

def nameAt (mlists : List MethodList) (place : MethodPlace) : Option SEL :=
  (mlists[place.1]?).bind fun mlist => (mlist.methods[place.2]?).map Method.name

instance (mlists : List MethodList) : Decidable (mlists = []) :=
  decidable_of_iff (mlists.isEmpty = true) List.isEmpty_iff

namespace DefaultFlags

variable [DecidableEq C]

def clear (F : DefaultFlags C) (k : DefaultFlag) (lost : C → Bool) : DefaultFlags C :=
  { F with hasDefault := Function.update F.hasDefault k fun c => F.hasDefault k c && !lost c }

def setDefault (F : DefaultFlags C) (k : DefaultFlag) (cls : C) : DefaultFlags C :=
  { F with hasDefault := Function.update F.hasDefault k (Function.update (F.hasDefault k) cls true) }

/-- An implementation was written: was it one of NSObject's? -/
def noteWritten (K : NSObjectImage C) (F : DefaultFlags C) (owner : C) (name : SEL) :
    DefaultFlags C :=
  { F with written := fun k => F.written k || (decide (owner = K.special k) && k.isSelector name) }

variable [Fintype C]

/-- `setHasCustomRR` and `setHasCustomAWZ`: the class and the initialized classes below it. -/
def setHasCustom (K : NSObjectImage C) (s : ClassState C) (k : DefaultFlag) (F : DefaultFlags C)
    (cls : C) : Option (DefaultFlags C) :=
  if F.hasDefault k cls = false then some F
  else
    (s.foreach_realized_class_and_subclass_2 cls K.unreasonableClassCount).map fun r =>
      F.clear k fun c =>
        decide (c ∈ r.2) && (decide (c = cls) || s.isInitialized K.toClassImage c)

def setHasCustomRR (K : NSObjectImage C) (s : ClassState C) (F : DefaultFlags C) (cls : C) :
    Option (DefaultFlags C) :=
  setHasCustom K s .rr F cls

def setHasCustomAWZ (K : NSObjectImage C) (s : ClassState C) (F : DefaultFlags C) (cls : C) :
    Option (DefaultFlags C) :=
  setHasCustom K s .awz F cls

/-- The loop of `prepareMethodLists`. -/
def scanLists (K : NSObjectImage C) (s : ClassState C) (cls : C) :
    Bool → Bool → DefaultFlags C → List MethodList → Option (DefaultFlags C)
  | _, _, F, [] => some F
  | scanForCustomRR, scanForCustomAWZ, F, mlist :: mlists =>
    let foundRR := scanForCustomRR && methodListImplementsRR mlist
    match if foundRR then F.setHasCustomRR K s cls else some F with
    | none => none
    | some F₁ =>
      let foundAWZ := scanForCustomAWZ && methodListImplementsAWZ mlist
      match if foundAWZ then F₁.setHasCustomAWZ K s cls else some F₁ with
      | none => none
      | some F₂ =>
        scanLists K s cls (scanForCustomRR && !foundRR) (scanForCustomAWZ && !foundAWZ) F₂
          mlists

/-- `prepareMethodLists`, but for base methods. -/
def prepareMethodLists (K : NSObjectImage C) (s : ClassState C) (F : DefaultFlags C) (cls : C)
    (addedLists : List MethodList) : Option (DefaultFlags C) :=
  scanLists K s cls (F.hasDefault .rr cls) (F.hasDefault .awz cls) F addedLists

/-- One half of `updateCustomRR_AWZ`: NSObject's methods, or those of its metaclass. -/
def updateCustom (K : NSObjectImage C) (s : ClassState C) (k : DefaultFlag) (F : DefaultFlags C)
    (cls : Option C) (owner : C) : Option (DefaultFlags C) :=
  if (s.isInitialized K.toClassImage (K.special k) ∧ F.hasDefault k (K.special k) = false) ∨
      F.swizzled k then some F
  else if cls = some (K.special k) ∨ owner = K.special k then
    if s.isInitialized K.toClassImage (K.special k) then setHasCustom K s k F (K.special k)
    else some { F with swizzled := Function.update F.swizzled k true }
  else some F

/-- `updateCustomRR_AWZ` for a method of the class `owner`; `cls` is nil when the caller does not
know the class. -/
def updateCustomRR_AWZ (K : NSObjectImage C) (s : ClassState C) (F : DefaultFlags C)
    (cls : Option C) (owner : C) (name : SEL) : Option (DefaultFlags C) :=
  if isRRSelector name then updateCustom K s .rr F cls owner
  else if isAWZSelector name then updateCustom K s .awz F cls owner
  else some F

/-- What `addSubclass` does to the flags. -/
def addSubclass (K : NSObjectImage C) (s : ClassState C) (F : DefaultFlags C)
    (supercls subcls : C) : Option (DefaultFlags C) :=
  match if F.hasDefault .rr supercls then some F else F.setHasCustomRR K s subcls with
  | none => none
  | some F₁ => if F₁.hasDefault .awz supercls then some F₁ else F₁.setHasCustomAWZ K s subcls

/-- The first scan of `setInitialized`; `none` when the superclass is nil. -/
def metaCustomAWZ (K : NSObjectImage C) (s : ClassState C) (F : DefaultFlags C) (metacls : C) :
    Option Bool :=
  if F.swizzled .awz then some true
  else if metacls = K.isa K.classNSObject then
    some ((categoryMethodLists K.toClassImage s metacls).any methodListImplementsAWZ)
  else
    match s.superclass metacls with
    | none => none
    | some supercls =>
      if F.hasDefault .awz supercls then some ((s.methods metacls).any methodListImplementsAWZ)
      else some true

/-- The second scan of `setInitialized`. -/
def clsCustomRR (K : NSObjectImage C) (s : ClassState C) (F : DefaultFlags C) (cls : C) : Bool :=
  F.swizzled .rr ||
    if cls = K.classNSObject then
      (categoryMethodLists K.toClassImage s cls).any methodListImplementsRR
    else
      match s.superclass cls with
      | none => true
      | some supercls =>
        if F.hasDefault .rr supercls then (s.methods cls).any methodListImplementsRR else true

/-- `setInitialized`: the metaclass, and then the class. -/
def setInitialized (K : NSObjectImage C) (s : ClassState C) (F : DefaultFlags C) (cls : C) :
    Option (DefaultFlags C) :=
  match F.metaCustomAWZ K s (K.isa cls) with
  | none => none
  | some custom =>
    let F₁ := if custom then F else F.setDefault .awz (K.isa cls)
    some (if F₁.clsCustomRR K s cls then F₁ else F₁.setDefault .rr cls)

end DefaultFlags

/-! ## The calls -/

structure FlaggedState (C : Type) where
  classes : ClassState C
  flags : DefaultFlags C

namespace FlaggedState

variable [DecidableEq C] [Fintype C]

/-- `realizeClass`. `methodizeClass` asserts that a class has neither flag when it gets its base
methods, so that nothing is scanned and `addSubclass` has nothing to clear. -/
def realizeClass (K : NSObjectImage C) (s : FlaggedState C) (cls : C) :
    Option (FlaggedState C) :=
  (s.classes.realizeClass K.toClassImage (Fintype.card C + 1) cls).bind fun classes =>
    if ∀ c, classes.realized c = true → s.classes.realized c = false →
        s.flags.hasDefault .rr c = false ∧ s.flags.hasDefault .awz c = false then
      some ⟨classes, s.flags⟩
    else none

/-- `setInitialized`: once, after the superclass. -/
def setInitialized (K : NSObjectImage C) (s : FlaggedState C) (cls : C) :
    Option (FlaggedState C) :=
  if K.isMeta cls = false ∧ s.classes.realized cls = true ∧
      s.classes.isInitialized K.toClassImage cls = false ∧
      (∀ supercls ∈ s.classes.superclass cls,
        s.classes.isInitialized K.toClassImage supercls = true) then
    (s.flags.setInitialized K s.classes cls).map fun flags =>
      ⟨s.classes.setInitialized K.toClassImage cls, flags⟩
  else none

def _method_setImplementation (K : NSObjectImage C) (s : FlaggedState C) (cls : Option C)
    (owner : C) (place : MethodPlace) (imp : IMP) : Option (FlaggedState C) :=
  (s.classes._method_setImplementation K.toClassImage cls owner place imp).bind fun r =>
    match nameAt (s.classes.methods owner) place with
    | none => some ⟨r.2, s.flags⟩
    | some name =>
      if imp = 0 then some ⟨r.2, s.flags⟩
      else
        ((s.flags.noteWritten K owner name).updateCustomRR_AWZ K s.classes cls owner name).map
          fun flags => ⟨r.2, flags⟩

def addMethod (K : NSObjectImage C) (s : FlaggedState C) (cls : C) (name : SEL) (imp : IMP)
    (replace : Bool) : Option (FlaggedState C) :=
  match getMethodNoSuper_nolock name (s.classes.methods cls) with
  | some place =>
    if replace ∧ s.classes.realized cls then s._method_setImplementation K (some cls) cls place imp
    else
      (s.classes.addMethod K.toClassImage cls name imp replace).map fun r => ⟨r.2, s.flags⟩
  | none =>
    (s.classes.addMethod K.toClassImage cls name imp replace).bind fun r =>
      (s.flags.prepareMethodLists K s.classes cls [fixupMethodList [⟨name, imp⟩]]).map
        fun flags => ⟨r.2, flags⟩

def method_exchangeImplementations (K : NSObjectImage C) (s : FlaggedState C) (owner₁ : C)
    (place₁ : MethodPlace) (owner₂ : C) (place₂ : MethodPlace) : Option (FlaggedState C) :=
  (s.classes.method_exchangeImplementations K.toClassImage owner₁ place₁ owner₂ place₂).bind
    fun classes =>
      match nameAt (s.classes.methods owner₁) place₁, nameAt (s.classes.methods owner₂) place₂ with
      | some name₁, some name₂ =>
        (((s.flags.noteWritten K owner₁ name₁).noteWritten K owner₂ name₂).updateCustomRR_AWZ K
          s.classes none owner₁ name₁).bind fun flags =>
            (flags.updateCustomRR_AWZ K s.classes none owner₂ name₂).map fun flags =>
              ⟨classes, flags⟩
      | _, _ => some ⟨classes, s.flags⟩

def discoverCategoryFor (K : NSObjectImage C) (s : FlaggedState C) (cat : Category) (cls : C) :
    Option (FlaggedState C) :=
  (s.classes.discoverCategoryFor K.toClassImage cat cls).bind fun classes =>
    if s.classes.realized cls then
      (s.flags.prepareMethodLists K s.classes cls (ClassState.categoryLists K.toClassImage cls
        (s.classes.unattachedCategories cls ++ [cat]))).map fun flags => ⟨classes, flags⟩
    else some ⟨classes, s.flags⟩

/-- The body of the category loop of `_read_images`. -/
def discoverCategory (K : NSObjectImage C) (s : FlaggedState C) (cat : Category) (cls : C) :
    Option (FlaggedState C) :=
  let first :=
    if cat.instanceMethods.isSome ∨ cat.protocols ∨ cat.instanceProperties then
      s.discoverCategoryFor K cat cls
    else some s
  match first with
  | none => none
  | some s' =>
    if cat.classMethods.isSome ∨ cat.protocols ∨ cat.classProperties then
      s'.discoverCategoryFor K cat (K.isa cls)
    else some s'

/-- `class_setSuperclass`; the walks of `addSubclass` are over the new tree. -/
def setSuperclass (K : NSObjectImage C) (s : FlaggedState C) (cls newSuper : C) :
    Option (FlaggedState C) :=
  if s.classes.movable K.toClassImage cls newSuper then
    (s.classes.setSuperclass K.toClassImage cls newSuper).bind fun r =>
      (s.flags.addSubclass K r.2 newSuper cls).bind fun flags =>
        (flags.addSubclass K r.2 (K.isa newSuper) (K.isa cls)).map fun flags => ⟨r.2, flags⟩
  else none

end FlaggedState

inductive FlaggedOp (C : Type) where
  | realizeClass (cls : C)
  | setInitialized (cls : C)
  | class_addMethod (cls : C) (name : SEL) (imp : IMP)
  | class_replaceMethod (cls : C) (name : SEL) (imp : IMP)
  | method_setImplementation (owner : C) (place : MethodPlace) (imp : IMP)
  | method_exchangeImplementations (owner₁ : C) (place₁ : MethodPlace) (owner₂ : C)
      (place₂ : MethodPlace)
  | discoverCategory (cat : Category) (cls : C)
  | class_setSuperclass (cls newSuper : C)
  /-- A lookup on a realized class; those that a resolver makes are lookups of their own. -/
  | lookUpImpOrForward (cls : C) (sel : SEL)

variable [DecidableEq C] [Fintype C]

def FlaggedState.perform (K : NSObjectImage C) (s : FlaggedState C) :
    FlaggedOp C → Option (FlaggedState C)
  | .realizeClass cls => s.realizeClass K cls
  | .setInitialized cls => s.setInitialized K cls
  | .class_addMethod cls name imp => s.addMethod K cls name imp false
  | .class_replaceMethod cls name imp => s.addMethod K cls name imp true
  | .method_setImplementation owner place imp =>
    s._method_setImplementation K none owner place imp
  | .method_exchangeImplementations owner₁ place₁ owner₂ place₂ =>
    s.method_exchangeImplementations K owner₁ place₁ owner₂ place₂
  | .discoverCategory cat cls => s.discoverCategory K cat cls
  | .class_setSuperclass cls newSuper => s.setSuperclass K cls newSuper
  | .lookUpImpOrForward cls sel =>
    if s.classes.realized cls then
      (ClassState.lookUpImpOrForward K.toClassImage (.mk cls sel true false []) s.classes).map
        fun r => { s with classes := r.2 }
    else none

def NSObjectImage.start (K : NSObjectImage C) : FlaggedState C where
  classes := K.load
  flags := ⟨fun _ _ => false, fun _ => false, fun _ => false⟩

def flaggedSystem (K : NSObjectImage C) : System (FlaggedState C) (FlaggedOp C) where
  init := fun s => s = K.start
  step := fun s op => s.perform K op

end ObjcRuntime
