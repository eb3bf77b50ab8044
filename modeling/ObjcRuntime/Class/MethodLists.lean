/-
METHOD LISTS WITH TYPES, AND THE ARRAYS THAT HOLD THEM.

objc-runtime-new.h, `list_array_tt`, and objc-runtime-new.mm,
`search_method_list`. A class has no list, one list or an array of lists;
new lists are put in front. A list that is fixed up is bisected, any other
is searched from its start.

* `lookup_eq`: the method of a class is the first in its lists,
* `methodImp_forget`: without the types this is the search of the other
  modules.
-/
import ObjcRuntime.Class.Methods
import ObjcRuntime.Lib.StableSort

namespace ObjcRuntime

open Lib List Option

/-! ## `list_array_tt` -/

inductive ListArray (α : Type) where
  | empty
  | one (list : α)
  | array (lists : List α)

namespace ListArray

variable {α : Type}

/-- From `beginLists()` to `endLists()`. -/
def lists : ListArray α → List α
  | empty => []
  | one list => [list]
  | array lists => lists

def attachLists (a : ListArray α) (addedLists : List α) : ListArray α :=
  if addedLists = [] then a
  else
    match a, addedLists with
    | array lists, added => array (added ++ lists)
    | empty, [list] => one list
    | empty, added => array added
    | one oldList, added => array (added ++ [oldList])

@[simp] theorem lists_attachLists (a : ListArray α) (added : List α) :
    (a.attachLists added).lists = added ++ a.lists := by
  unfold attachLists
  split
  next h => rw [h, nil_append]
  rename_i h
  cases a with
  | empty =>
    cases added with
    | nil => exact absurd rfl h
    | cons list rest =>
      cases rest with
      | nil => rfl
      | cons list' rest => exact (append_nil _).symm
  | one oldList | array lists => rfl

end ListArray

/-! ## Methods with types -/

/-- `method_t`. -/
structure TypedMethod extends Method where
  types : String
  deriving DecidableEq

/-- `method_list_t`. Only a sorted list may be marked as fixed up; `expectedSize` says that its
entries have the size of `method_t`. -/
structure TypedMethodList where
  methods : List TypedMethod
  fixedUp : Bool
  expectedSize : Bool
  sorted : fixedUp = true → methods.Pairwise fun a b => a.name ≤ b.name

def firstPlace (methods : List TypedMethod) (sel : SEL) : Option Nat :=
  methods.findIdx? fun m => decide (m.name = sel)

def search_method_list (methods : List TypedMethod) (fixedUp expectedSize : Bool) (sel : SEL) :
    Option Nat :=
  if fixedUp && expectedSize then
    findMethodInSortedMethodList sel (methods.map TypedMethod.toMethod)
  else firstPlace methods sel

theorem findIdx?_map_toMethod (methods : List TypedMethod) (sel : SEL) :
    ((methods.map TypedMethod.toMethod).findIdx? fun m => decide (m.name = sel))
      = firstPlace methods sel := by
  rw [findIdx?_map]
  rfl

theorem search_method_list_eq {methods : List TypedMethod} {fixedUp : Bool}
    (hsorted : fixedUp = true → methods.Pairwise fun a b => a.name ≤ b.name)
    (expectedSize : Bool) (sel : SEL) :
    search_method_list methods fixedUp expectedSize sel = firstPlace methods sel := by
  unfold search_method_list
  split
  next h =>
    have hfixed : fixedUp = true := (Bool.and_eq_true _ _ ▸ h).1
    have hpair : (methods.map TypedMethod.toMethod).Pairwise fun a b => a.name ≤ b.name :=
      pairwise_map.mpr (hsorted hfixed)
    have heq := findMethodInSortedMethodList_eq ⟨methods.map TypedMethod.toMethod, hpair⟩ sel
    rw [heq]
    exact findIdx?_map_toMethod methods sel
  next => rfl

theorem firstPlace_bind (methods : List TypedMethod) (sel : SEL) :
    ((firstPlace methods sel).bind fun j => methods[j]?)
      = methods.find? fun m => decide (m.name = sel) := by
  unfold firstPlace
  cases hj : methods.findIdx? fun m => decide (m.name = sel) with
  | none =>
    symm
    rw [bind_none, find?_eq_none]
    intro m hm
    simpa using (findIdx?_eq_none_iff.mp hj) m hm
  | some j => ?_
  obtain ⟨hlt, hname, hfirst⟩ := findIdx?_eq_some_iff_getElem.mp hj
  symm
  rw [bind_some, getElem?_eq_getElem hlt, find?_eq_some_iff_getElem]
  exact ⟨hname, j, hlt, rfl, fun i hi => by simpa using hfirst i hi⟩

namespace TypedMethodList

/-- `fixupMethodList` of a list that is not fixed up yet. -/
def prepare (mlist : TypedMethodList) : TypedMethodList :=
  if mlist.fixedUp then mlist
  else
    { methods := mlist.methods.insertionSort fun a b => a.name ≤ b.name
      fixedUp := true
      expectedSize := mlist.expectedSize
      sorted := fun _ => pairwise_insertionSort (fun a b : TypedMethod => a.name ≤ b.name) _ }

theorem find?_prepare (mlist : TypedMethodList) (sel : SEL) :
    (mlist.prepare.methods.find? fun m => decide (m.name = sel))
      = mlist.methods.find? fun m => decide (m.name = sel) := by
  unfold prepare
  split
  next => rfl
  next => exact find?_insertionSort (fun m : TypedMethod => m.name) sel mlist.methods

end TypedMethodList

/-! ## The methods of a class -/

namespace Typed

def getMethodNoSuper_nolock (sel : SEL) : List TypedMethodList → Option MethodPlace
  | [] => none
  | mlist :: mlists =>
    match search_method_list mlist.methods mlist.fixedUp mlist.expectedSize sel with
    | some j => some (0, j)
    | none => (getMethodNoSuper_nolock sel mlists).map fun place => (place.1 + 1, place.2)

def methodAt (mlists : List TypedMethodList) (place : MethodPlace) : Option TypedMethod :=
  (mlists[place.1]?).bind fun mlist => mlist.methods[place.2]?

def lookup (mlists : List TypedMethodList) (sel : SEL) : Option TypedMethod :=
  (getMethodNoSuper_nolock sel mlists).bind (methodAt mlists)

theorem getMethodNoSuper_spec {sel : SEL} : ∀ {mlists : List TypedMethodList} {place : MethodPlace},
    getMethodNoSuper_nolock sel mlists = some place →
      ∃ m, methodAt mlists place = some m ∧ m.name = sel := by
  intro mlists
  induction mlists with
  | nil => intro place h; cases h
  | cons mlist mlists ih => ?_
  intro place h
  rw [getMethodNoSuper_nolock, search_method_list_eq mlist.sorted] at h
  cases hj : firstPlace mlist.methods sel with
  | some j =>
    rw [hj] at h
    cases h
    obtain ⟨hlt, hname, _⟩ := findIdx?_eq_some_iff_getElem.mp hj
    exact ⟨mlist.methods[j], by simp [methodAt, getElem?_eq_getElem hlt], of_decide_eq_true hname⟩
  | none =>
    rw [hj] at h
    obtain ⟨place', hplace, rfl⟩ := map_eq_some_iff.mp h
    exact ih hplace

variable (mlists : List TypedMethodList)

theorem getMethodNoSuper_eq_none_iff (sel : SEL) :
    getMethodNoSuper_nolock sel mlists = none ↔ lookup mlists sel = none := by
  unfold lookup
  cases hplace : getMethodNoSuper_nolock sel mlists with
  | none => simp
  | some place =>
    obtain ⟨m, hm, _⟩ := getMethodNoSuper_spec hplace
    simp [hm]

theorem lookup_cons (mlist : TypedMethodList) (mlists : List TypedMethodList) (sel : SEL) :
    lookup (mlist :: mlists) sel
      = (mlist.methods.find? fun m => decide (m.name = sel)).or (lookup mlists sel) := by
  rw [lookup, getMethodNoSuper_nolock, search_method_list_eq mlist.sorted, ← firstPlace_bind]
  cases hj : firstPlace mlist.methods sel with
  | some j =>
    obtain ⟨hlt, _⟩ := findIdx?_eq_some_iff_getElem.mp hj
    simp [methodAt, getElem?_eq_getElem hlt]
  | none => ?_
  rw [bind_none, none_or, lookup]
  cases getMethodNoSuper_nolock sel mlists with
  | none | some place => rfl

theorem lookup_eq (sel : SEL) :
    lookup mlists sel = mlists.findSome? fun mlist =>
      mlist.methods.find? fun m => decide (m.name = sel) := by
  induction mlists with
  | nil => rfl
  | cons mlist mlists ih => ?_
  rw [lookup_cons, ih, findSome?_cons]
  cases mlist.methods.find? fun m => decide (m.name = sel) with
  | none | some m => rfl

theorem lookup_append (mlists mlists' : List TypedMethodList) (sel : SEL) :
    lookup (mlists ++ mlists') sel = (lookup mlists sel).or (lookup mlists' sel) := by
  rw [lookup_eq, lookup_eq, lookup_eq, findSome?_append]

def forget (mlist : TypedMethodList) : MethodList :=
  fixupMethodList (mlist.methods.map TypedMethod.toMethod)

theorem methodImp_forget (sel : SEL) :
    methodImp (mlists.map forget) sel = (lookup mlists sel).map fun m => m.imp := by
  rw [methodImp_eq]
  induction mlists with
  | nil => rfl
  | cons mlist mlists ih => ?_
  have hsort : ((forget mlist).methods.find? fun m => decide (m.name = sel))
      = (mlist.methods.find? fun m => decide (m.name = sel)).map TypedMethod.toMethod := by
    rw [show (forget mlist).methods
        = (mlist.methods.map TypedMethod.toMethod).insertionSort fun a b => a.name ≤ b.name from
      rfl, find?_insertionSort Method.name sel, find?_map]
    rfl
  rw [map_cons, flatMap_cons, find?_append, lookup_cons, hsort]
  cases mlist.methods.find? fun m => decide (m.name = sel) with
  | some m => rfl
  | none => exact ih

end Typed

end ObjcRuntime
