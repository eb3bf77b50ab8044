/-
+load.

objc-loadmethod.mm and the scheduling of objc-runtime-new.mm. An image that is
loaded schedules the +load methods of its classes, superclasses first, and of
its categories; `call_load_methods` calls them. It detaches the array that it
goes through, and a +load that runs may load and unload images.
-/
import Mathlib.Data.List.Basic
import Mathlib.Data.List.Dedup
import Mathlib.Logic.Relation
import ObjcRuntime.Lib.Transition
import ObjcRuntime.Class.Methods

namespace ObjcRuntime

open Lib

/-! ## Images -/

/-- The classes and categories. An IMP of 0 is nil. `categoryClass` is `remapClass(cat->cls)`,
`none` for the class of an ignored weak link. -/
structure LoadProgram (C K : Type) where
  superclass : C → Option C
  /-- the class's height in the tree -/
  depth : C → Nat
  superclass_depth : ∀ c d, superclass c = some d → depth d < depth c
  getLoadMethod : C → IMP
  categoryClass : K → Option C
  categoryLoadMethod : K → IMP

variable {C K : Type}

/-- The lists of an image. The non-lazy classes are remapped; every class of the image that has a
+load is one of them. -/
structure Image (P : LoadProgram C K) where
  classes : List C
  nonlazyClasses : List (Option C)
  categories : List K
  nonlazyCategories : List K
  nonlazy_complete : ∀ c ∈ classes, P.getLoadMethod c ≠ 0 → some c ∈ nonlazyClasses
  nonlazyCategories_nodup : nonlazyCategories.Nodup
  nonlazyCategories_subset : ∀ k ∈ nonlazyCategories, k ∈ categories
  deriving DecidableEq

/-- `loadable_class` -/
structure LoadableClass (C : Type) where
  cls : Option C
  method : IMP
  deriving DecidableEq

/-- `loadable_category` -/
structure LoadableCategory (K : Type) where
  cat : Option K
  method : IMP
  deriving DecidableEq

/-- Where `call_load_methods` is. The lists are what is left of the detached array; of the array
of categories also what has been passed. -/
inductive LoadPC (C K : Type) where
  | idle
  | whileLoop
  | classLoop (rest : List (LoadableClass C))
  /-- in the +load of a class -/
  | classLoad (rest : List (LoadableClass C))
  | categoryLoop (passed rest : List (LoadableCategory K))
  /-- in the +load of the category `item` -/
  | categoryLoad (passed : List (LoadableCategory K)) (item : LoadableCategory K)
      (rest : List (LoadableCategory K))
  deriving DecidableEq

inductive LoadEvent (C K : Type) where
  | classLoad (cls : C) (method : IMP)
  | categoryLoad (cat : K) (cls : C) (method : IMP)
  deriving DecidableEq

/-- `loaded` is RW_LOADED, `images` are the images that are loaded. `removed` and
`removedCategory` are, for the record, what was removed from the lists and not scheduled since. -/
structure LoadState (P : LoadProgram C K) where
  loaded : C → Bool
  loadable_classes : List (LoadableClass C)
  loadable_categories : List (LoadableCategory K)
  pc : LoadPC C K
  images : List (Image P)
  trace : List (LoadEvent C K)
  removed : C → Bool
  removedCategory : K → Bool

namespace LoadState

variable {P : LoadProgram C K}

/-! ## Scheduling -/

def add_class_to_loadable_list (s : LoadState P) (cls : C) : LoadState P :=
  if P.getLoadMethod cls = 0 then s
  else { s with loadable_classes := s.loadable_classes ++ [⟨some cls, P.getLoadMethod cls⟩] }

def add_category_to_loadable_list (s : LoadState P) (cat : K) : LoadState P :=
  if P.categoryLoadMethod cat = 0 then s
  else
    { s with
      loadable_categories := s.loadable_categories ++ [⟨some cat, P.categoryLoadMethod cat⟩] }

variable [DecidableEq C]

/-- `schedule_class_load`, with a bound on the superclasses. -/
def scheduleClassLoad : Nat → LoadState P → Option C → LoadState P
  | 0, s, _ => s
  | _ + 1, s, none => s
  | n + 1, s, some cls =>
    if s.loaded cls then s
    else
      -- ensure superclass-first ordering
      let s := (scheduleClassLoad n s (P.superclass cls)).add_class_to_loadable_list cls
      { s with loaded := Function.update s.loaded cls true }

def schedule_class_load (s : LoadState P) (cls : Option C) : LoadState P :=
  scheduleClassLoad (cls.elim 0 P.depth + 1) s cls

def prepareCategory (s : LoadState P) (cat : K) : LoadState P :=
  match P.categoryClass cat with
  -- category for ignored weak-linked class
  | none => s
  | some _ => s.add_category_to_loadable_list cat

def prepare_load_methods (s : LoadState P) (image : Image P) : LoadState P :=
  image.nonlazyCategories.foldl prepareCategory
    (image.nonlazyClasses.foldl schedule_class_load s)

/-- The begin of `call_load_methods`; re-entrant calls do nothing. -/
def call_load_methods (s : LoadState P) : LoadState P :=
  match s.pc with
  | .idle => { s with pc := .whileLoop }
  | _ => s

def hasLoadMethods (image : Image P) : Bool :=
  0 < image.nonlazyClasses.length ∨ 0 < image.nonlazyCategories.length

def load_images (s : LoadState P) (image : Image P) : LoadState P :=
  let s := { s with images := image :: s.images }
  if hasLoadMethods image then (s.prepare_load_methods image).call_load_methods else s

/-! ## Unscheduling -/

variable [DecidableEq K]

/-- The loop sets the first entry of `a` to nil. -/
def removeFirst {α β : Type} [DecidableEq α] (key : β → Option α) (clear : β → β) (a : α) :
    List β → List β
  | [] => []
  | item :: items =>
    if key item = some a then clear item :: items else item :: removeFirst key clear a items

def removeClass (cls : C) : List (LoadableClass C) → List (LoadableClass C) :=
  removeFirst (·.cls) ({ · with cls := none }) cls

def removeCategory (cat : K) : List (LoadableCategory K) → List (LoadableCategory K) :=
  removeFirst (·.cat) ({ · with cat := none }) cat

def remove_class_from_loadable_list (s : LoadState P) (cls : C) : LoadState P :=
  { s with
    loadable_classes := removeClass cls s.loadable_classes
    removed := Function.update s.removed cls true }

def remove_category_from_loadable_list (s : LoadState P) (cat : K) : LoadState P :=
  { s with
    loadable_categories := removeCategory cat s.loadable_categories
    removedCategory := Function.update s.removedCategory cat true }

def imageClasses (image : Image P) : List C :=
  (image.classes ++ image.nonlazyClasses.filterMap id).dedup

/-- `_unload_image`. The classes are freed, and their RW_LOADED with them. -/
def unloadImage (s : LoadState P) (image : Image P) : LoadState P :=
  let s := (imageClasses image).foldl remove_class_from_loadable_list
    (image.categories.foldl remove_category_from_loadable_list s)
  { s with
    loaded := fun c => s.loaded c && decide (c ∉ imageClasses image)
    images := s.images.erase image }

/-! ## Calling -/

def isLoadable (_ : C) : Bool := true

/-- The next iteration of `call_class_loads`. -/
def classIteration (s : LoadState P) (item : LoadableClass C) (rest : List (LoadableClass C)) :
    LoadState P :=
  match item.cls with
  | none => { s with pc := .classLoop rest }
  | some cls =>
    { s with
      trace := s.trace ++ [.classLoad cls item.method]
      pc := .classLoad rest }

/-- The next iteration of `call_category_loads`. -/
def categoryIteration (s : LoadState P) (passed : List (LoadableCategory K))
    (item : LoadableCategory K) (rest : List (LoadableCategory K)) : LoadState P :=
  match item.cat with
  | none => { s with pc := .categoryLoop (passed ++ [item]) rest }
  | some cat =>
    match P.categoryClass cat with
    | none => { s with pc := .categoryLoop (passed ++ [item]) rest }
    | some cls =>
      if isLoadable cls then
        { s with
          trace := s.trace ++ [.categoryLoad cat cls item.method]
          pc := .categoryLoad passed item rest }
      else { s with pc := .categoryLoop (passed ++ [item]) rest }

/-- The end of `call_category_loads`: the array is compacted, new candidates are copied to it, and
it is reattached; then the test of the outer loop. -/
def categoryEnd (s : LoadState P) (passed : List (LoadableCategory K)) : LoadState P :=
  let new_categories_added := 0 < s.loadable_categories.length
  { s with
    loadable_categories := passed.filter (·.cat.isSome) ++ s.loadable_categories
    pc := if 0 < s.loadable_classes.length ∨ new_categories_added then .whileLoop else .idle }

def go (s : LoadState P) : Option (LoadState P) :=
  match s.pc with
  | .idle => none
  | .whileLoop =>
    if 0 < s.loadable_classes.length then
      some { s with
        loadable_classes := []
        pc := .classLoop s.loadable_classes }
    else
      some { s with
        loadable_categories := []
        pc := .categoryLoop [] s.loadable_categories }
  | .classLoop [] => some { s with pc := .whileLoop }
  | .classLoop (item :: rest) => some (s.classIteration item rest)
  | .classLoad rest => some { s with pc := .classLoop rest }
  | .categoryLoop passed [] => some (s.categoryEnd passed)
  | .categoryLoop passed (item :: rest) => some (s.categoryIteration passed item rest)
  | .categoryLoad passed item rest =>
    some { s with pc := .categoryLoop (passed ++ [{ item with cat := none }]) rest }

end LoadState

/-! ## The system -/

/-- Is other code running: outside `call_load_methods`, or in a +load? -/
def LoadPC.inProgram : LoadPC C K → Bool
  | .idle => true
  | .classLoad _ => true
  | .categoryLoad _ _ _ => true
  | _ => false

/-- An image is loaded or unloaded, or `call_load_methods` goes on. -/
inductive LoadAction (P : LoadProgram C K) where
  | load (image : Image P)
  | unload (image : Image P)
  | go

variable {P : LoadProgram C K} [DecidableEq C] [DecidableEq K]

def LoadState.reinstate (s before : LoadState P) (image : Image P) : LoadState P :=
  { s with
    removed := fun c => before.removed c && (before.loaded c || !s.loaded c)
    removedCategory := fun k => before.removedCategory k && decide (k ∉ image.categories) }

def LoadState.step (s : LoadState P) : LoadAction P → Option (LoadState P)
  | .load image =>
    if s.pc.inProgram ∧ ∀ other ∈ s.images, ∀ k ∈ image.categories, k ∉ other.categories then
      some ((s.load_images image).reinstate s image)
    else none
  | .unload image =>
    if s.pc.inProgram ∧ image ∈ s.images then some (s.unloadImage image) else none
  | .go => s.go

def LoadState.start (P : LoadProgram C K) : LoadState P where
  loaded _ := false
  loadable_classes := []
  loadable_categories := []
  pc := .idle
  images := []
  trace := []
  removed _ := false
  removedCategory _ := false

def loadSystem (P : LoadProgram C K) : System (LoadState P) (LoadAction P) where
  init s := s = LoadState.start P
  step := LoadState.step

end ObjcRuntime
