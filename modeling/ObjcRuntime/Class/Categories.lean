/-
TWO WAYS TO ATTACH CATEGORIES, ONE ORDER.

objc-runtime-new.mm. Categories that are loaded before their class is
realized wait in a table, the oldest first, and `methodizeClass` attaches all
of them at once, gathered from the back. Categories that come later are
attached by `remethodizeClass`, one at a time or several together.

Between the categories and the base list a root metaclass has its bonus
`+initialize`.
-/
import ObjcRuntime.Class.MethodLists
import ObjcRuntime.Class.State
import ObjcRuntime.Lib.Transition

namespace ObjcRuntime

open Lib List Option ListArray Typed TypedMethodList

/-! ## Categories and the class they are attached to -/

/-- A `category_t` with what `_read_images` and `attachCategories` read of its header. `P` are
property lists, `Q` are protocol lists. -/
structure CategoryLists (P Q : Type) where
  instanceMethods : Option TypedMethodList
  classMethods : Option TypedMethodList
  protocols : Option Q
  instanceProperties : Option P
  _classProperties : Option P
  hasCategoryClassProperties : Bool

/-- Of a `class_ro_t` and its class. -/
structure ClassBase (P Q : Type) where
  isMeta : Bool
  isRootMetaclass : Bool
  baseMethods : Option TypedMethodList
  baseProperties : Option P
  baseProtocols : Option Q

variable {P Q : Type}

namespace CategoryLists

def methodsForMeta (cat : CategoryLists P Q) (isMeta : Bool) : Option TypedMethodList :=
  if isMeta then cat.classMethods else cat.instanceMethods

def propertiesForMeta (cat : CategoryLists P Q) (isMeta : Bool) : Option P :=
  if isMeta then if cat.hasCategoryClassProperties then cat._classProperties else none
  else cat.instanceProperties

end CategoryLists

/-- The part of a `class_rw_t` that categories change, and the categories that wait for the class.
`loaded` is not kept by the runtime: all categories that were registered for the class. -/
structure MethodizedClass (P Q : Type) where
  realized : Bool
  methods : ListArray TypedMethodList
  properties : ListArray P
  protocols : ListArray Q
  unattachedCategories : List (CategoryLists P Q)
  loaded : List (CategoryLists P Q)

/-- The list that `addMethod` makes for one method. -/
def singleMethod (name : SEL) (imp : IMP) (types : String) : TypedMethodList where
  methods := [⟨⟨name, imp⟩, types⟩]
  fixedUp := true
  expectedSize := true
  sorted := fun _ => pairwise_singleton _ _

/-- The method lists of categories in load order, the newest first, as `prepareMethodLists` leaves
them. -/
def gatherMethods (isMeta : Bool) (cats : List (CategoryLists P Q)) : List TypedMethodList :=
  (cats.reverse.filterMap fun cat => cat.methodsForMeta isMeta).map TypedMethodList.prepare

def gatherProperties (isMeta : Bool) (cats : List (CategoryLists P Q)) : List P :=
  cats.reverse.filterMap fun cat => cat.propertiesForMeta isMeta

def gatherProtocols (cats : List (CategoryLists P Q)) : List Q :=
  cats.reverse.filterMap fun cat => cat.protocols

namespace MethodizedClass

def attachCategories (ro : ClassBase P Q) (s : MethodizedClass P Q)
    (cats : List (CategoryLists P Q)) : MethodizedClass P Q :=
  { s with
    methods := s.methods.attachLists (gatherMethods ro.isMeta cats)
    properties := s.properties.attachLists (gatherProperties ro.isMeta cats)
    protocols := s.protocols.attachLists (gatherProtocols cats) }

def attachBase (ro : ClassBase P Q) (s : MethodizedClass P Q) : MethodizedClass P Q :=
  { s with
    methods := s.methods.attachLists (ro.baseMethods.map TypedMethodList.prepare).toList
    properties := s.properties.attachLists ro.baseProperties.toList
    protocols := s.protocols.attachLists ro.baseProtocols.toList }

/-- `addMethod(cls, SEL_initialize, (IMP)&objc_noop_imp, "", NO)` for a root metaclass. -/
def addBonus (ro : ClassBase P Q) (s : MethodizedClass P Q) : MethodizedClass P Q :=
  if ro.isRootMetaclass ∧ Typed.getMethodNoSuper_nolock initializeSEL s.methods.lists = none then
    { s with methods := s.methods.attachLists [singleMethod initializeSEL objc_noop_imp ""] }
  else s

/-- `unattachedCategoriesForClass`. -/
def takeUnattached (s : MethodizedClass P Q) : MethodizedClass P Q :=
  { s with unattachedCategories := [] }

def methodizeClass (ro : ClassBase P Q) (s : MethodizedClass P Q) : MethodizedClass P Q :=
  ((s.attachBase ro).addBonus ro).takeUnattached.attachCategories ro s.unattachedCategories

def remethodizeClass (ro : ClassBase P Q) (s : MethodizedClass P Q) : MethodizedClass P Q :=
  s.takeUnattached.attachCategories ro s.unattachedCategories

def addUnattachedCategoryForClass (s : MethodizedClass P Q) (cat : CategoryLists P Q) :
    MethodizedClass P Q :=
  { s with
    unattachedCategories := s.unattachedCategories ++ [cat]
    loaded := s.loaded ++ [cat] }

end MethodizedClass

/-! ## Runs -/

inductive CategoryAction (P Q : Type) where
  | register (cat : CategoryLists P Q)
  | realize
  | remethodize

def MethodizedClass.unrealized : MethodizedClass P Q :=
  ⟨false, .empty, .empty, .empty, [], []⟩

def MethodizedClass.perform (ro : ClassBase P Q) (s : MethodizedClass P Q) :
    CategoryAction P Q → Option (MethodizedClass P Q)
  | .register cat => some (s.addUnattachedCategoryForClass cat)
  | .realize =>
    if s.realized then none else some { s.methodizeClass ro with realized := true }
  | .remethodize => if s.realized then some (s.remethodizeClass ro) else none

def categorySystem (ro : ClassBase P Q) : System (MethodizedClass P Q) (CategoryAction P Q) where
  init := fun s => s = .unrealized
  step := MethodizedClass.perform ro

/-! ## The order -/

def bonusLists (ro : ClassBase P Q) : List TypedMethodList :=
  if ro.isRootMetaclass ∧ ∀ m ∈ ro.baseMethods.elim [] TypedMethodList.methods,
      m.name ≠ initializeSEL then
    [singleMethod initializeSEL objc_noop_imp ""]
  else []

structure MethodizedClass.HasLists (ro : ClassBase P Q) (s : MethodizedClass P Q)
    (attached : List (CategoryLists P Q)) : Prop where
  methods : s.methods.lists = gatherMethods ro.isMeta attached ++
    (bonusLists ro ++ (ro.baseMethods.map TypedMethodList.prepare).toList)
  properties : s.properties.lists = gatherProperties ro.isMeta attached ++ ro.baseProperties.toList
  protocols : s.protocols.lists = gatherProtocols attached ++ ro.baseProtocols.toList

theorem gatherMethods_append (isMeta : Bool) (cats cats' : List (CategoryLists P Q)) :
    gatherMethods isMeta (cats ++ cats') = gatherMethods isMeta cats' ++ gatherMethods isMeta cats := by
  simp [gatherMethods]

theorem gatherProperties_append (isMeta : Bool) (cats cats' : List (CategoryLists P Q)) :
    gatherProperties isMeta (cats ++ cats')
      = gatherProperties isMeta cats' ++ gatherProperties isMeta cats := by
  simp [gatherProperties]

theorem gatherProtocols_append (cats cats' : List (CategoryLists P Q)) :
    gatherProtocols (cats ++ cats') = gatherProtocols cats' ++ gatherProtocols cats := by
  simp [gatherProtocols]

namespace MethodizedClass

variable {ro : ClassBase P Q} {s s' : MethodizedClass P Q}

theorem HasLists.attachCategories {attached : List (CategoryLists P Q)}
    (h : s.HasLists ro attached) (cats : List (CategoryLists P Q)) :
    (s.attachCategories ro cats).HasLists ro (attached ++ cats) where
  methods := by
    rw [MethodizedClass.attachCategories, lists_attachLists, h.methods,
      gatherMethods_append, append_assoc]
  properties := by
    rw [MethodizedClass.attachCategories, lists_attachLists, h.properties,
      gatherProperties_append, append_assoc]
  protocols := by
    rw [MethodizedClass.attachCategories, lists_attachLists, h.protocols,
      gatherProtocols_append, append_assoc]

theorem lookup_base (ro : ClassBase P Q) (sel : SEL) :
    lookup (ro.baseMethods.map prepare).toList sel
      = ro.baseMethods.bind fun mlist => mlist.methods.find? fun m => decide (m.name = sel) := by
  cases ro.baseMethods with
  | none => rfl
  | some mlist =>
    rw [map_some, toList_some, lookup_cons, find?_prepare]
    exact or_none

theorem addBonus_lists (hmethods : s.methods.lists
      = (ro.baseMethods.map prepare).toList) :
    (s.addBonus ro).methods.lists
      = bonusLists ro ++ (ro.baseMethods.map TypedMethodList.prepare).toList := by
  have hnone : Typed.getMethodNoSuper_nolock initializeSEL s.methods.lists = none ↔
      ∀ m ∈ ro.baseMethods.elim [] TypedMethodList.methods, m.name ≠ initializeSEL := by
    rw [getMethodNoSuper_eq_none_iff, hmethods, lookup_base]
    cases ro.baseMethods with
    | none => simp
    | some mlist => simp [find?_eq_none]
  unfold addBonus bonusLists
  simp only [hnone]
  split
  · rw [lists_attachLists, hmethods]
  · rw [hmethods, nil_append]

theorem addBonus_frame (ro : ClassBase P Q) (s : MethodizedClass P Q) :
    (s.addBonus ro).properties = s.properties ∧ (s.addBonus ro).protocols = s.protocols := by
  unfold addBonus
  split <;> exact ⟨rfl, rfl⟩

structure Inv (ro : ClassBase P Q) (s : MethodizedClass P Q) : Prop where
  waiting : s.realized = false → s.methods = .empty ∧ s.properties = .empty ∧ s.protocols = .empty ∧
    s.loaded = s.unattachedCategories
  attached : s.realized = true → ∃ attached, s.loaded = attached ++ s.unattachedCategories ∧
    s.HasLists ro attached

theorem hasLists_methodizeClass (h : s.Inv ro) (hnot : s.realized = false) :
    (s.methodizeClass ro).HasLists ro s.loaded := by
  obtain ⟨hmethods, hproperties, hprotocols, hloaded⟩ := h.waiting hnot
  have hbase : ((s.attachBase ro).addBonus ro).takeUnattached.HasLists ro [] := by
    obtain ⟨hprop, hproto⟩ := addBonus_frame ro (s.attachBase ro)
    refine ⟨addBonus_lists ?_, ?_, ?_⟩
    · rw [attachBase, lists_attachLists, hmethods]
      exact append_nil _
    · rw [takeUnattached, hprop, attachBase, lists_attachLists, hproperties]
      exact append_nil _
    · rw [takeUnattached, hproto, attachBase, lists_attachLists, hprotocols]
      exact append_nil _
  rw [hloaded]
  exact hbase.attachCategories s.unattachedCategories

theorem Inv.step (h : s.Inv ro) {a : CategoryAction P Q} (hstep : s.perform ro a = some s') :
    s'.Inv ro := by
  cases a with
  | register cat =>
    cases hstep
    refine ⟨fun hnot => ?_, fun hreal => ?_⟩
    · obtain ⟨hm, hp, hq, hloaded⟩ := h.waiting hnot
      exact ⟨hm, hp, hq, congrArg (fun l => l ++ [cat]) hloaded⟩
    obtain ⟨attached, hloaded, hlists⟩ := h.attached hreal
    refine ⟨attached, ?_, { hlists with }⟩
    show s.loaded ++ [cat] = attached ++ (s.unattachedCategories ++ [cat])
    rw [hloaded, append_assoc]
  | realize =>
    obtain ⟨hnot, ⟨⟩⟩ := ite_none_left_eq_some.mp hstep
    have hlists := hasLists_methodizeClass h (Bool.eq_false_iff.mpr hnot)
    refine ⟨fun hf => (by cases hf), fun _ => ⟨s.loaded, ?_, ?_⟩⟩
    · have hloaded : (s.methodizeClass ro).loaded = s.loaded := by
        unfold methodizeClass attachCategories takeUnattached addBonus
        split <;> rfl
      exact hloaded.trans (append_nil _).symm
    · exact { hlists with }
  | remethodize => ?_
  obtain ⟨hreal, ⟨⟩⟩ := ite_none_right_eq_some.mp hstep
  obtain ⟨attached, hloaded, hlists⟩ := h.attached hreal
  refine ⟨fun hf => ?_, fun _ => ⟨attached ++ s.unattachedCategories, ?_, ?_⟩⟩
  · rw [show (s.remethodizeClass ro).realized = s.realized from rfl, hreal] at hf
    cases hf
  · exact hloaded.trans (append_nil _).symm
  have htaken : s.takeUnattached.HasLists ro attached :=
    { hlists with }
  exact htaken.attachCategories s.unattachedCategories

theorem Inv.of_reachable (h : (categorySystem ro).Reachable (fun _ => True) s) : s.Inv ro := by
  refine h.invariant (fun s hs _ => ?_) fun s a s' hs _ hstep _ => hs.step hstep
  obtain rfl : s = .unrealized := hs
  exact ⟨fun _ => ⟨rfl, rfl, rfl, rfl⟩, nofun⟩

end MethodizedClass

/-! ## The lookup -/

theorem lookup_gatherMethods (isMeta : Bool) (cats : List (CategoryLists P Q)) (sel : SEL) :
    lookup (gatherMethods isMeta cats) sel = cats.reverse.findSome? fun cat =>
      (cat.methodsForMeta isMeta).bind fun mlist =>
        mlist.methods.find? fun m => decide (m.name = sel) := by
  unfold gatherMethods
  induction cats.reverse with
  | nil => rfl
  | cons cat rest ih => ?_
  rw [findSome?_cons, filterMap_cons]
  cases hm : cat.methodsForMeta isMeta with
  | none => exact ih
  | some mlist => ?_
  simp only [map_cons, bind_some]
  rw [lookup_cons, find?_prepare, ih]
  cases mlist.methods.find? fun m => decide (m.name = sel) with
  | none | some m => rfl

/-- **Newest category first, base list last**, however the loading was split: the lists depend on
the categories and their order only, and the lookup takes the first definition of the newest
category that has one, then the bonus `+initialize` of a root metaclass, then the base list. -/
theorem category_order (ro : ClassBase P Q) (s : MethodizedClass P Q)
    (hs : (categorySystem ro).Reachable (fun _ => True) s) (hreal : s.realized = true) :
    (∃ attached, s.loaded = attached ++ s.unattachedCategories ∧ s.HasLists ro attached ∧
      ∀ sel, Typed.lookup s.methods.lists sel =
        ((attached.reverse.findSome? fun cat => (cat.methodsForMeta ro.isMeta).bind fun mlist =>
            mlist.methods.find? fun m => decide (m.name = sel)).or
          (Typed.lookup (bonusLists ro) sel)).or
          (ro.baseMethods.bind fun mlist => mlist.methods.find? fun m => decide (m.name = sel))) ∧
    ∀ s', (categorySystem ro).Reachable (fun _ => True) s' → s'.realized = true →
      s.unattachedCategories = [] → s'.unattachedCategories = [] → s'.loaded = s.loaded →
      s'.methods.lists = s.methods.lists ∧ s'.properties.lists = s.properties.lists ∧
        s'.protocols.lists = s.protocols.lists := by
  obtain ⟨attached, hloaded, hlists⟩ := (MethodizedClass.Inv.of_reachable hs).attached hreal
  refine ⟨⟨attached, hloaded, hlists, fun sel => ?_⟩, fun s' hs' hreal' hnone hnone' hsame => ?_⟩
  · rw [hlists.methods, lookup_append, lookup_append, lookup_gatherMethods,
      MethodizedClass.lookup_base, Option.or_assoc]
  obtain ⟨attached', hloaded', hlists'⟩ :=
    (MethodizedClass.Inv.of_reachable hs').attached hreal'
  rw [hnone, append_nil] at hloaded
  rw [hnone', append_nil] at hloaded'
  obtain rfl : attached' = attached := hloaded'.symm.trans (hsame.trans hloaded)
  exact ⟨hlists'.methods.trans hlists.methods.symm,
    hlists'.properties.trans hlists.properties.symm,
    hlists'.protocols.trans hlists.protocols.symm⟩

def oneMethodCategory (name : SEL) (imp : IMP) : CategoryLists Unit Unit where
  instanceMethods := some (singleMethod name imp "v")
  classMethods := none
  protocols := none
  instanceProperties := none
  _classProperties := none
  hasCategoryClassProperties := false

def baseClass : ClassBase Unit Unit := ⟨false, false, some (singleMethod 7 1 "v"), none, none⟩

def threeCategories : MethodizedClass Unit Unit :=
  ((({ ((MethodizedClass.unrealized.addUnattachedCategoryForClass
      (oneMethodCategory 7 2)).methodizeClass baseClass) with
        realized := true }).addUnattachedCategoryForClass
      (oneMethodCategory 7 3)).addUnattachedCategoryForClass
      (oneMethodCategory 7 4)).remethodizeClass baseClass

theorem last_category_wins :
    (categorySystem baseClass).Reachable (fun _ => True) threeCategories ∧
      threeCategories.realized = true ∧
      Typed.lookup threeCategories.methods.lists 7 = some ⟨⟨7, 4⟩, "v"⟩ := by
  have hreach : (categorySystem baseClass).Reachable (fun _ => True) threeCategories :=
    .step (.step (.step (.step (.step (.init rfl trivial)
      (show (categorySystem baseClass).step _ (.register (oneMethodCategory 7 2)) = some _ from rfl)
      trivial) (show (categorySystem baseClass).step _ .realize = some _ from rfl) trivial)
      (show (categorySystem baseClass).step _ (.register (oneMethodCategory 7 3)) = some _ from rfl)
      trivial)
      (show (categorySystem baseClass).step _ (.register (oneMethodCategory 7 4)) = some _ from rfl)
      trivial) (show (categorySystem baseClass).step _ .remethodize = some _ from rfl) trivial
  refine ⟨hreach, rfl, ?_⟩
  obtain ⟨⟨attached, hloaded, _, hlookup⟩, _⟩ := category_order baseClass threeCategories hreach rfl
  have hall : attached = [oneMethodCategory 7 2, oneMethodCategory 7 3, oneMethodCategory 7 4] :=
    (hloaded.trans (append_nil attached)).symm
  rw [hlookup 7, hall]
  rfl

/-- A root metaclass without any method list has a method for `initialize`. -/
theorem bonus_initialize_is_found :
    ∃ (ro : ClassBase Unit Unit) (s : MethodizedClass Unit Unit),
      (categorySystem ro).Reachable (fun _ => True) s ∧ s.realized = true ∧ s.loaded = [] ∧
      ro.baseMethods = none ∧
      Typed.lookup s.methods.lists initializeSEL = some ⟨⟨initializeSEL, objc_noop_imp⟩, ""⟩ :=
  ⟨⟨true, true, none, none, none⟩, _,
    .step (.init rfl trivial)
      (show (categorySystem (⟨true, true, none, none, none⟩ : ClassBase Unit Unit)).step _ .realize
        = some _ from rfl) trivial, rfl, rfl, rfl, rfl⟩

end ObjcRuntime
