/-
CLASSES, THEIR TREE, THEIR METHODS AND THEIR CACHES.

objc-runtime-new.mm. A class image is what the compiler emits: classes and
metaclasses in pairs, superclasses, base methods. The state is what the
runtime keeps about them: the links of the tree of realized classes, the
attached method lists, the categories that wait for their class, the caches.

`none` is a failed assertion, a nil dereference or a fatal error. All of it
runs under `runtimeLock`, one call after the other.
-/
import ObjcRuntime.Class.Methods
import ObjcRuntime.Lib.Forest

namespace ObjcRuntime

open Lib Function

/-! ## Constants, categories and class images -/

def _objc_msgForward_impcache : IMP := 1

def objc_noop_imp : IMP := 2

/-- The selector of `+initialize`. -/
def initializeSEL : SEL := 1

def SEL_cxx_construct : SEL := 2

def SEL_cxx_destruct : SEL := 3

def INIT_CACHE_SIZE : Nat := 4

/-- `category_t`; of protocols and properties, whether it has some. -/
structure Category where
  instanceMethods : Option (List Method)
  classMethods : Option (List Method)
  protocols : Bool
  instanceProperties : Bool
  classProperties : Bool

def Category.methodsForMeta (cat : Category) (isMeta : Bool) : Option (List Method) :=
  if isMeta then cat.classMethods else cat.instanceMethods

structure ClassImage (C : Type) where
  isa : C → C
  isMeta : C → Bool
  superclass : C → Option C
  baseMethods : C → Option (List Method)
  /-- RO_HAS_CXX_STRUCTORS -/
  hasCxxStructors : C → Bool
  /-- RO_HAS_CXX_DTOR_ONLY -/
  hasCxxDtorOnly : C → Bool
  isa_isMeta : ∀ c, isMeta (isa c) = true
  isa_inj : ∀ c d, isMeta c = false → isMeta d = false → isa c = isa d → c = d
  /-- Every metaclass is the metaclass of a class. -/
  meta_pair : ∀ m, isMeta m = true → ∃ c, isMeta c = false ∧ isa c = m
  /-- The isa of a metaclass is a root metaclass. -/
  meta_isa : ∀ m, isMeta m = true → ∃ r, isMeta r = false ∧ superclass r = none ∧ isa m = isa r
  /-- The metaclasses inherit as their classes do, and the root's from the root. -/
  pair_superclass : ∀ c, isMeta c = false →
    superclass (isa c) = some ((superclass c).elim c isa)
  /-- The superclass of a class is a class. -/
  superclass_isMeta : ∀ c d, isMeta c = false → superclass c = some d → isMeta d = false
  ranked : ∃ rank, Ranked superclass rank

variable {C : Type}

def ClassImage.getMeta (K : ClassImage C) (c : C) : C := if K.isMeta c then c else K.isa c

/-- `unreasonableClassCount()`. Every class is in the table of named classes. -/
def ClassImage.unreasonableClassCount [Fintype C] (K : ClassImage C) : Nat :=
  ((Finset.univ.filter fun c => K.isMeta c = false).card + 1) * 16

/-! ## Method caches -/

/-- A `cache_t`, one call at a time: its capacity and the buckets in use. -/
structure MethodCache where
  capacity : Nat
  entries : List (SEL × IMP)

namespace MethodCache

/-- `cache_getImp`; nil when there is no entry. -/
def getImp (cache : MethodCache) (sel : SEL) : IMP := (cache.entries.lookup sel).getD 0

/-- The room that `cache_fill_nolock` makes: an empty cache gets buckets of its own, a cache
that is three quarters full gets twice as many, without what was in it. `none` when `expand`
doubles 2^31: in 32 bits that is 0, and the entry is stored outside of the array. -/
def makeRoom (cache : MethodCache) : Option MethodCache :=
  if cache.entries = [] then
    some { cache with capacity := if cache.capacity = 0 then INIT_CACHE_SIZE else cache.capacity }
  else if cache.entries.length + 1 ≤ cache.capacity / 4 * 3 then some cache
  else if cache.capacity * 2 < 2 ^ 32 then some ⟨cache.capacity * 2, []⟩
  else none

/-- `cache_fill_nolock` for an initialized class. -/
def fill (cache : MethodCache) (sel : SEL) (imp : IMP) : Option MethodCache :=
  if cache.getImp sel ≠ 0 then some cache
  else
    cache.makeRoom.map fun room =>
      { room with entries := (sel, imp) :: room.entries.filter fun e => decide (e.1 ≠ sel) }

/-- `cache_erase_nolock`. -/
def erase (cache : MethodCache) : MethodCache :=
  if 0 < cache.capacity ∧ cache.entries ≠ [] then { cache with entries := [] } else cache

end MethodCache

/-! ## The state, and walks over the tree -/

/-- `links.parent` is `superclass`, `links.first` is `firstSubclass` (of no class: the first root
class), `links.next` is `nextSiblingClass`. -/
structure ClassState (C : Type) where
  links : Links C
  realized : C → Bool
  /-- RW_INITIALIZED, which is kept in the metaclass. -/
  initialized : C → Bool
  methods : C → List MethodList
  unattachedCategories : C → List Category
  cache : C → MethodCache
  hasCxxCtor : C → Bool
  hasCxxDtor : C → Bool

namespace ClassState

def superclass (s : ClassState C) : C → Option C := s.links.parent

def isInitialized (K : ClassImage C) (s : ClassState C) (cls : C) : Bool :=
  s.initialized (K.getMeta cls)

/-- `cache_getImp(cls, sel)`. -/
def cache_getImp (s : ClassState C) (cls : C) (sel : SEL) : IMP := (s.cache cls).getImp sel

variable [DecidableEq C]

def cache_fill (K : ClassImage C) (s : ClassState C) (cls : C) (sel : SEL) (imp : IMP) :
    Option (ClassState C) :=
  if s.isInitialized K cls then
    ((s.cache cls).fill sel imp).map fun cache => { s with cache := update s.cache cls cache }
  else some s

def cacheFound (K : ClassImage C) (s : ClassState C) (cls : C) (sel : SEL) (imp : IMP) :
    Option (IMP × ClassState C) :=
  (s.cache_fill K cls sel imp).map fun s' => (imp, s')

def foreach_realized_class_and_subclass_2 (s : ClassState C) (top : C) (count : Nat) :
    Option (Nat × List C) :=
  walk s.links top (2 * count) .visit count top []

/-- The loop of `foreach_realized_class_and_metaclass` over the roots; they share one count. -/
def foreachRoot (s : ClassState C) : Nat → Option C → Nat → List C → Option (List C)
  | 0, _, _, _ => none
  | _ + 1, none, _, visited => some visited
  | fuel + 1, some top, count, visited =>
    match s.foreach_realized_class_and_subclass_2 top count with
    | none => none
    | some (count', vs) => foreachRoot s fuel (s.links.next top) count' (visited ++ vs)

def eraseCaches (s : ClassState C) (classes : List C) : ClassState C :=
  { s with cache := fun c => if c ∈ classes then (s.cache c).erase else s.cache c }

/-! ## Flushing caches -/

variable [Fintype C]

/-- `flushCaches`: of a class and what is below it, or of all classes. -/
def flushCaches (K : ClassImage C) (s : ClassState C) (cls : Option C) :
    Option (ClassState C) :=
  match cls with
  | some c =>
    (s.foreach_realized_class_and_subclass_2 c K.unreasonableClassCount).map
      fun r => s.eraseCaches r.2
  | none =>
    (s.foreachRoot (Fintype.card C + 1) (s.links.first none) K.unreasonableClassCount []).map
      s.eraseCaches

/-! ## Method lists -/

/-- `attachLists`: the new lists come first. -/
def attachLists (s : ClassState C) (cls : C) (mlists : List MethodList) : ClassState C :=
  { s with methods := update s.methods cls (mlists ++ s.methods cls) }

/-- `_method_setImplementation` for a method of the class `owner`; `cls` is nil when the caller
does not know the class. -/
def _method_setImplementation (K : ClassImage C) (s : ClassState C) (cls : Option C) (owner : C)
    (place : MethodPlace) (imp : IMP) : Option (IMP × ClassState C) :=
  match impAt (s.methods owner) place with
  | none => some (0, s)
  | some old =>
    if imp = 0 then some (0, s)
    else
      (flushCaches K { s with
        methods := update s.methods owner (setImpAt (s.methods owner) place imp) }
        cls).map fun s' => (old, s')

def method_setImplementation (K : ClassImage C) (s : ClassState C) (owner : C)
    (place : MethodPlace) (imp : IMP) : Option (IMP × ClassState C) :=
  s._method_setImplementation K none owner place imp

def method_exchangeImplementations (K : ClassImage C) (s : ClassState C) (owner₁ : C)
    (place₁ : MethodPlace) (owner₂ : C) (place₂ : MethodPlace) : Option (ClassState C) :=
  match impAt (s.methods owner₁) place₁, impAt (s.methods owner₂) place₂ with
  | some imp₁, some imp₂ =>
    let methods := update s.methods owner₁ (setImpAt (s.methods owner₁) place₁ imp₂)
    flushCaches K { s with
      methods := update methods owner₂ (setImpAt (methods owner₂) place₂ imp₁) } none
  | _, _ => some s

def addMethod (K : ClassImage C) (s : ClassState C) (cls : C) (name : SEL) (imp : IMP)
    (replace : Bool) : Option (IMP × ClassState C) :=
  if s.realized cls then
    match getMethodNoSuper_nolock name (s.methods cls) with
    | some place =>
      if replace then s._method_setImplementation K (some cls) cls place imp
      else some ((impAt (s.methods cls) place).getD 0, s)
    | none =>
      (flushCaches K (s.attachLists cls [fixupMethodList [⟨name, imp⟩]]) (some cls)).map
        fun s' => (0, s')
  else none

def categoryLists (K : ClassImage C) (cls : C) (cats : List Category) : List MethodList :=
  (cats.reverse.filterMap fun cat => cat.methodsForMeta (K.isMeta cls)).map fixupMethodList

def attachCategories (K : ClassImage C) (s : ClassState C) (cls : C) (cats : List Category)
    (flush_caches : Bool) : Option (ClassState C) :=
  if flush_caches ∧ categoryLists K cls cats ≠ [] then
    flushCaches K (s.attachLists cls (categoryLists K cls cats)) (some cls)
  else some (s.attachLists cls (categoryLists K cls cats))

/-- `unattachedCategoriesForClass` takes the categories off the table. -/
def takeUnattached (s : ClassState C) (cls : C) : ClassState C :=
  { s with unattachedCategories := update s.unattachedCategories cls [] }

def attachBaseMethods (K : ClassImage C) (s : ClassState C) (cls : C) : ClassState C :=
  match K.baseMethods cls with
  | none => s
  | some list => s.attachLists cls [fixupMethodList list]

/-- Root metaclasses get a bonus `+initialize`. -/
def addBonusMethod (K : ClassImage C) (s : ClassState C) (cls : C) :
    Option (IMP × ClassState C) :=
  if K.isa cls = cls then s.addMethod K cls initializeSEL objc_noop_imp false else some (0, s)

def methodizeClass (K : ClassImage C) (s : ClassState C) (cls : C) : Option (ClassState C) :=
  match (s.attachBaseMethods K cls).addBonusMethod K cls with
  | none => none
  | some (_, s') =>
    (s'.takeUnattached cls).attachCategories K cls (s'.unattachedCategories cls) false

def remethodizeClass (K : ClassImage C) (s : ClassState C) (cls : C) : Option (ClassState C) :=
  (s.takeUnattached cls).attachCategories K cls (s.unattachedCategories cls) true

def addUnattachedCategoryForClass (s : ClassState C) (cat : Category) (cls : C) : ClassState C :=
  { s with unattachedCategories :=
      update s.unattachedCategories cls (s.unattachedCategories cls ++ [cat]) }

/-- One half of the category loop of `_read_images`, for the class or for its metaclass. -/
def discoverCategoryFor (K : ClassImage C) (s : ClassState C) (cat : Category) (cls : C) :
    Option (ClassState C) :=
  let s' := s.addUnattachedCategoryForClass cat cls
  if s'.realized cls then s'.remethodizeClass K cls else some s'

/-- The body of the category loop of `_read_images`. -/
def discoverCategory (K : ClassImage C) (s : ClassState C) (cat : Category) (cls : C) :
    Option (ClassState C) :=
  let first :=
    if cat.instanceMethods.isSome ∨ cat.protocols ∨ cat.instanceProperties then
      s.discoverCategoryFor K cat cls
    else some s
  match first with
  | none => none
  | some s' =>
    if cat.classMethods.isSome ∨ cat.protocols ∨ cat.classProperties then
      s'.discoverCategoryFor K cat (K.isa cls)
    else some s'

/-! ## The tree of realized classes -/

/-- `addSubclass`, with the C++ flags that it hands down. -/
def addSubclass (s : ClassState C) (supercls subcls : C) : Option (ClassState C) :=
  if s.realized supercls ∧ s.realized subcls then
    some { s with
      links := s.links.insert (some supercls) subcls
      hasCxxCtor := update s.hasCxxCtor subcls
        (s.hasCxxCtor supercls || s.hasCxxCtor subcls)
      hasCxxDtor := update s.hasCxxDtor subcls
        (s.hasCxxDtor supercls || s.hasCxxDtor subcls) }
  else none

def addRootClass (s : ClassState C) (cls : C) : Option (ClassState C) :=
  if s.realized cls then some { s with links := s.links.insert none cls } else none

def removeSubclass (s : ClassState C) (supercls subcls : C) : Option (ClassState C) :=
  if s.realized supercls ∧ s.realized subcls ∧ s.superclass subcls = some supercls then
    (s.links.remove (Fintype.card C) (some supercls) subcls).map fun L => { s with links := L }
  else none

/-- The flags that `realizeClass` copies from the read-only data. -/
def setCxxFlags (K : ClassImage C) (s : ClassState C) (cls : C) : ClassState C :=
  if K.hasCxxStructors cls then
    { s with
      hasCxxDtor := update s.hasCxxDtor cls true
      hasCxxCtor :=
        if K.hasCxxDtorOnly cls then s.hasCxxCtor else update s.hasCxxCtor cls true }
  else s

/-- RW_REALIZED is set before anything else is done. -/
def mark (s : ClassState C) (cls : C) : ClassState C :=
  { s with realized := update s.realized cls true }

/-- The part of `realizeClass` that puts the class into the tree. -/
def link (K : ClassImage C) (s : ClassState C) (cls : C) : Option (ClassState C) :=
  match s.superclass cls with
  | some supercls => (s.setCxxFlags K cls).addSubclass supercls cls
  | none => (s.setCxxFlags K cls).addRootClass cls

/-- `realizeClass`: first the superclass and the metaclass. -/
def realizeClass (K : ClassImage C) : Nat → ClassState C → C → Option (ClassState C)
  | 0, _, _ => none
  | fuel + 1, s, cls =>
    if s.realized cls then some s
    else
      match (s.superclass cls).elim (some (s.mark cls)) fun supercls =>
          realizeClass K fuel (s.mark cls) supercls with
      | none => none
      | some s₁ =>
        match realizeClass K fuel s₁ (K.isa cls) with
        | none => none
        | some s₂ =>
          match s₂.link K cls with
          | none => none
          | some s₃ => s₃.methodizeClass K cls

/-- `setSuperclass`; returns the old superclass. -/
def setSuperclass (K : ClassImage C) (s : ClassState C) (cls newSuper : C) :
    Option (C × ClassState C) :=
  if s.realized cls ∧ s.realized newSuper then
    match s.superclass cls with
    | none => none
    | some oldSuper =>
      match s.removeSubclass oldSuper cls with
      | none => none
      | some s₁ =>
        match s₁.removeSubclass (K.isa oldSuper) (K.isa cls) with
        | none => none
        | some s₂ =>
          let parent := update (update s₂.links.parent cls (some newSuper))
            (K.isa cls) (some (K.isa newSuper))
          match ({ s₂ with links := { s₂.links with parent := parent } }).addSubclass
              newSuper cls with
          | none => none
          | some s₃ =>
            match s₃.addSubclass (K.isa newSuper) (K.isa cls) with
            | none => none
            | some s₄ =>
              match s₄.flushCaches K (some cls) with
              | none => none
              | some s₅ =>
                (s₅.flushCaches K (some (K.isa cls))).map fun s₆ => (oldSuper, s₆)
  else none

/-! ## Lookup -/

/-- The loop of `lookUpImpOrForward` over the superclasses. `some none` when no implementation
was found, or a superclass has cached that it forwards. -/
def searchSuperclasses (s : ClassState C) (sel : SEL) : Nat → Option C → Option (Option IMP)
  | 0, _ => none
  | _ + 1, none => some none
  | attempts + 1, some curClass =>
    if attempts = 0 then none
    else if s.cache_getImp curClass sel ≠ 0 then
      if s.cache_getImp curClass sel ≠ _objc_msgForward_impcache then
        some (some (s.cache_getImp curClass sel))
      else some none
    else
      match methodImp (s.methods curClass) sel with
      | some imp => some (some imp)
      | none => searchSuperclasses s sel attempts (s.superclass curClass)

/-- From `retry` up to the method resolver: the implementation with the state after it was
cached, or nothing. -/
def searchOnce (K : ClassImage C) (s : ClassState C) (cls : C) (sel : SEL) :
    Option (Option (IMP × ClassState C)) :=
  if s.cache_getImp cls sel ≠ 0 then some (some (s.cache_getImp cls sel, s))
  else
    match methodImp (s.methods cls) sel with
    | some imp => (s.cacheFound K cls sel imp).map some
    | none =>
      match s.searchSuperclasses sel K.unreasonableClassCount (s.superclass cls) with
      | none => none
      | some none => some none
      | some (some imp) => (s.cacheFound K cls sel imp).map some

end ClassState

/-- A call of `lookUpImpOrForward`. A method resolver that adds no method only looks up methods,
with the same kind of calls: `_class_resolveMethod` itself, and the messages that the resolver
sends. -/
inductive LookUpCall (C : Type) where
  | mk (cls : C) (sel : SEL) (cache resolver : Bool) (during : List (LookUpCall C))

namespace ClassState

variable [DecidableEq C] [Fintype C]

mutual

/-- `lookUpImpOrForward` of a class that is initialized, or without `initialize`. -/
def lookUpImpOrForward (K : ClassImage C) : LookUpCall C → ClassState C →
    Option (IMP × ClassState C)
  | .mk cls sel cache resolver during, s =>
    if cache ∧ s.cache_getImp cls sel ≠ 0 then some (s.cache_getImp cls sel, s)
    else
      match s.realizeClass K (Fintype.card C + 1) cls with
      | none => none
      | some s₁ =>
        match s₁.searchOnce K cls sel with
        | none => none
        | some (some found) => some found
        | some none =>
          if resolver then
            match class_resolveMethod K during s₁ with
            | none => none
            | some s₂ =>
              match s₂.searchOnce K cls sel with
              | none => none
              | some (some found) => some found
              | some none => s₂.cacheFound K cls sel _objc_msgForward_impcache
          else s₁.cacheFound K cls sel _objc_msgForward_impcache

/-- `_class_resolveMethod`. -/
def class_resolveMethod (K : ClassImage C) : List (LookUpCall C) → ClassState C →
    Option (ClassState C)
  | [], s => some s
  | call :: calls, s =>
    match lookUpImpOrForward K call s with
    | none => none
    | some (_, s') => class_resolveMethod K calls s'

end

def lookupMethodInClassAndLoadCache (K : ClassImage C) (s : ClassState C) (cls : C) (sel : SEL) :
    Option (IMP × ClassState C) :=
  if sel = SEL_cxx_construct ∨ sel = SEL_cxx_destruct then
    if s.cache_getImp cls sel ≠ 0 then some (s.cache_getImp cls sel, s)
    else
      match methodImp (s.methods cls) sel with
      | some imp => s.cacheFound K cls sel imp
      | none => s.cacheFound K cls sel _objc_msgForward_impcache
  else none

end ClassState

/-! ## A root class and its direct subclasses -/

/-- The root class is `(none, false)`, a subclass `(some t, false)`; their metaclasses have
`true`. -/
def starImage (T : Type) (baseMethods : Option T × Bool → Option (List Method))
    (hasCxxStructors : Option T × Bool → Bool) : ClassImage (Option T × Bool) where
  isa := fun c => if c.2 then (none, true) else (c.1, true)
  isMeta := fun c => c.2
  superclass := fun c =>
    match c with
    | (none, false) => none
    | (none, true) => some (none, false)
    | (some _, isMeta) => some (none, isMeta)
  baseMethods := baseMethods
  hasCxxStructors := hasCxxStructors
  hasCxxDtorOnly := fun _ => false
  isa_isMeta := fun c => by cases hc : c.2 <;> simp
  isa_inj := fun c d hc hd h => by
    simp only [hc, hd, Bool.false_eq_true, if_false] at h
    exact Prod.ext (Prod.mk.inj h).1 (hc.trans hd.symm)
  meta_pair := fun m hm => ⟨(m.1, false), rfl, Prod.ext rfl hm.symm⟩
  meta_isa := fun m hm => ⟨(none, false), rfl, rfl, by simp [hm]⟩
  pair_superclass := fun c hc => by
    obtain ⟨t, isMeta⟩ := c
    obtain rfl : isMeta = false := hc
    cases t <;> rfl
  superclass_isMeta := fun c d hc hd => by
    obtain ⟨t, isMeta⟩ := c
    obtain rfl : isMeta = false := hc
    cases t with
    | none => cases hd
    | some t => rw [← Option.some.inj hd]
  ranked := by
    refine ⟨fun c => (if c.1 = none then 0 else 1) + if c.2 then 1 else 0, fun c p hp => ?_⟩
    obtain ⟨t, isMeta⟩ := c
    cases t with
    | none =>
      cases isMeta with
      | false => cases hp
      | true =>
        rw [← Option.some.inj hp]
        simp
    | some t =>
      rw [← Option.some.inj hp]
      simp

end ObjcRuntime
