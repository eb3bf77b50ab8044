/-
ADDING METHODS IN BULK AND ONE BY ONE.

objc-runtime-new.mm, `addMethod` and `addMethods`. The bulk version looks
each selector up in the lists as they are, collects what is new in one list,
sorts it and attaches it at the end. A selector that occurs twice in the
batch and is not defined yet is therefore new both times.
-/
import ObjcRuntime.Class.Categories
import ObjcRuntime.Class.ListSizes

namespace ObjcRuntime

open Lib List ListArray

/-! ## The two ways -/

/-- Write the implementation of the `j`-th method. -/
def TypedMethodList.setImp (mlist : TypedMethodList) (j : Nat) (imp : IMP) : TypedMethodList where
  methods := mlist.methods.modify j fun m => { m with imp := imp }
  fixedUp := mlist.fixedUp
  expectedSize := mlist.expectedSize
  sorted := fun hfixed => by
    have h := pairwise_map.mpr (mlist.sorted hfixed)
    rw [← map_modify_of_eq (fun m : TypedMethod => m.name) (fun m => { m with imp := imp })
      (fun _ => rfl) mlist.methods j] at h
    exact pairwise_map.mp h

/-- Change the `i`-th list in place. -/
def ListArray.modifyAt {α : Type} (a : ListArray α) (i : Nat) (f : α → α) : ListArray α :=
  match a with
  | .empty => .empty
  | .one list => .one (if i = 0 then f list else list)
  | .array lists => .array (lists.modify i f)

@[simp] theorem ListArray.lists_modifyAt {α : Type} (a : ListArray α) (i : Nat) (f : α → α) :
    (a.modifyAt i f).lists = a.lists.modify i f := by
  cases a with
  | empty => simp [modifyAt, lists]
  | one list =>
    cases i with
    | zero | succ i => simp [modifyAt, lists]
  | array lists => rfl

namespace Typed

abbrev MethodArray := ListArray TypedMethodList

/-- `_method_setImplementation` for a method of the class; returns the old implementation. -/
def _method_setImplementation (methods : MethodArray) (place : MethodPlace) (imp : IMP) :
    IMP × MethodArray :=
  match methodAt methods.lists place with
  | none => (0, methods)
  | some m =>
    if imp = 0 then (0, methods)
    else (m.imp, methods.modifyAt place.1 fun mlist => mlist.setImp place.2 imp)

def addMethod (methods : MethodArray) (new : TypedMethod) (replace : Bool) : IMP × MethodArray :=
  match getMethodNoSuper_nolock new.name methods.lists with
  | some place =>
    if replace then _method_setImplementation methods place new.imp
    else (((methodAt methods.lists place).map fun m => m.imp).getD 0, methods)
  | none => (0, methods.attachLists [singleMethod new.name new.imp new.types])

/-- `class_addMethod`: NO when there was an implementation. -/
def class_addMethod (methods : MethodArray) (new : TypedMethod) : Bool × MethodArray :=
  (decide ((addMethod methods new false).1 = 0), (addMethod methods new false).2)

def class_replaceMethod (methods : MethodArray) (new : TypedMethod) : IMP × MethodArray :=
  addMethod methods new true

/-- The loop of `addMethods`: the class's lists, the new list, the selectors that failed. -/
def addMethodsLoop (replace : Bool) : MethodArray → List TypedMethod → List SEL →
    List TypedMethod → MethodArray × List TypedMethod × List SEL
  | methods, newlist, failedNames, [] => (methods, newlist, failedNames)
  | methods, newlist, failedNames, new :: batch =>
    match getMethodNoSuper_nolock new.name methods.lists with
    | some place =>
      if replace then
        addMethodsLoop replace (_method_setImplementation methods place new.imp).2 newlist
          failedNames batch
      else
        addMethodsLoop replace methods newlist
          (failedNames ++ ((methodAt methods.lists place).map fun m => m.name).toList) batch
    | none => addMethodsLoop replace methods (newlist ++ [new]) failedNames batch

/-- The list that `addMethods` attaches. -/
def sortedList (newlist : List TypedMethod) : TypedMethodList :=
  TypedMethodList.prepare ⟨newlist, false, true, Bool.noConfusion⟩

/-- `addMethods`: the selectors that could not be added. `none` when the new methods do not fit in
the block for the batch, the size of which is computed in 32 bits. -/
def addMethods (methods : MethodArray) (batch : List TypedMethod) (replace : Bool) :
    Option (List SEL × MethodArray) :=
  let result := addMethodsLoop replace methods [] [] batch
  if neededSize 24 result.2.1.length ≤ addMethodsBlock (UInt32.ofNat batch.length) then
    some (result.2.2,
      if 0 < result.2.1.length then result.1.attachLists [sortedList result.2.1] else result.1)
  else none

def class_addMethodsBulk (methods : MethodArray) (batch : List TypedMethod) :
    Option (List SEL × MethodArray) := addMethods methods batch false

def class_replaceMethodsBulk (methods : MethodArray) (batch : List TypedMethod) :
    Option MethodArray := (addMethods methods batch true).map Prod.snd

/-- One call after the other; the selectors for which `class_addMethod` returned NO. -/
def addOneByOne : MethodArray → List TypedMethod → List SEL × MethodArray
  | methods, [] => ([], methods)
  | methods, new :: batch =>
    let rest := addOneByOne (class_addMethod methods new).2 batch
    (if (class_addMethod methods new).1 then rest.1 else new.name :: rest.1, rest.2)

def replaceOneByOne (methods : MethodArray) (batch : List TypedMethod) : MethodArray :=
  batch.foldl (fun methods new => (class_replaceMethod methods new).2) methods

/-! ## What one call does to the lookup -/

theorem find?_modify {l : List TypedMethod} {key : SEL} {j : Nat} (imp : IMP)
    (hj : firstPlace l key = some j) (sel : SEL) :
    ((l.modify j fun m => { m with imp := imp }).find? fun m => decide (m.name = sel))
      = if sel = key then (l.find? fun m => decide (m.name = key)).map fun m => { m with imp := imp }
        else l.find? fun m => decide (m.name = sel) := by
  induction l generalizing j with
  | nil => cases hj
  | cons m l ih => ?_
  unfold firstPlace at hj
  rw [findIdx?_cons] at hj
  by_cases hm : m.name = key
  · simp only [hm, decide_true, if_true] at hj
    cases hj
    by_cases hsel : sel = key
    · simp [hsel, hm]
    · have hne : ¬ m.name = sel := fun h => hsel (h.symm.trans hm)
      simp [hsel, hne]
  simp only [hm, decide_false, Bool.false_eq_true, if_false] at hj
  obtain ⟨j', hj', rfl⟩ := Option.map_eq_some_iff.mp hj
  rw [modify_succ_cons, find?_cons, ih hj']
  by_cases hsel : sel = key
  · simp [hsel, hm]
  · simp only [hsel, if_false, find?_cons]

theorem lookup_setImp {key : SEL} (imp : IMP) (sel : SEL) : ∀ {mlists : List TypedMethodList}
    {place : MethodPlace}, getMethodNoSuper_nolock key mlists = some place →
      lookup (mlists.modify place.1 fun mlist => mlist.setImp place.2 imp) sel
        = if sel = key then (lookup mlists key).map fun m => { m with imp := imp }
          else lookup mlists sel := by
  intro mlists
  induction mlists with
  | nil => intro place h; cases h
  | cons mlist mlists ih => ?_
  intro place h
  rw [getMethodNoSuper_nolock, search_method_list_eq mlist.sorted] at h
  cases hj : firstPlace mlist.methods key with
  | some j =>
    rw [hj] at h
    cases h
    have hfound : ∃ m, (mlist.methods.find? fun m => decide (m.name = key)) = some m := by
      rw [← firstPlace_bind, hj]
      obtain ⟨hlt, _⟩ := findIdx?_eq_some_iff_getElem.mp hj
      exact ⟨mlist.methods[j], by simp [getElem?_eq_getElem hlt]⟩
    obtain ⟨m, hm⟩ := hfound
    rw [modify_zero_cons, lookup_cons, lookup_cons, lookup_cons,
      show (mlist.setImp j imp).methods = mlist.methods.modify j _ from rfl,
      find?_modify imp hj, hm]
    by_cases hsel : sel = key <;> simp [hsel]
  | none => ?_
  rw [hj] at h
  obtain ⟨place', hplace, rfl⟩ := Option.map_eq_some_iff.mp h
  have hnone : (mlist.methods.find? fun m => decide (m.name = key)) = none := by
    rw [← firstPlace_bind, hj]
    rfl
  rw [modify_succ_cons, lookup_cons, lookup_cons, lookup_cons, ih hplace, hnone, Option.none_or]
  by_cases hsel : sel = key
  · rw [if_pos hsel, if_pos hsel, hsel, hnone, Option.none_or]
  · rw [if_neg hsel, if_neg hsel]

abbrev Table := SEL → Option TypedMethod

/-- What `class_addMethod` does to it. -/
def Table.add (table : Table) (new : TypedMethod) : Table := fun sel =>
  (table sel).or (if sel = new.name then some new else none)

/-- What `class_replaceMethod` does to it. -/
def Table.replace (table : Table) (new : TypedMethod) : Table := fun sel =>
  if sel = new.name then
    match table sel with
    | none => some new
    | some m => if new.imp = 0 then some m else some { m with imp := new.imp }
  else table sel

theorem lookup_setImplementation {methods : MethodArray} {place : MethodPlace} {new : TypedMethod}
    (hplace : getMethodNoSuper_nolock new.name methods.lists = some place) :
    lookup (_method_setImplementation methods place new.imp).2.lists
      = Table.replace (lookup methods.lists) new := by
  obtain ⟨m, hm, hname⟩ := getMethodNoSuper_spec hplace
  have hlookup : lookup methods.lists new.name = some m := by
    rw [lookup, hplace]
    exact hm
  funext sel
  unfold _method_setImplementation Table.replace
  rw [hm]
  by_cases himp : new.imp = 0
  · simp only [himp, if_true]
    by_cases hsel : sel = new.name
    · simp [hsel, hlookup]
    · simp [hsel]
  simp only [himp, if_false, lists_modifyAt]
  rw [lookup_setImp new.imp sel hplace]
  by_cases hsel : sel = new.name
  · simp [hsel, hlookup]
  · simp [hsel]

theorem lookup_single (new : TypedMethod) (mlists : List TypedMethodList) (sel : SEL) :
    lookup (singleMethod new.name new.imp new.types :: mlists) sel
      = (if sel = new.name then some new else none).or (lookup mlists sel) := by
  rw [lookup_cons, show (singleMethod new.name new.imp new.types).methods = [new] from rfl]
  by_cases hsel : sel = new.name
  · simp [hsel]
  · have hne : ¬ new.name = sel := fun h => hsel h.symm
    simp [hsel, hne]

variable (methods : MethodArray)

theorem lookup_addMethod (new : TypedMethod) :
    lookup (class_addMethod methods new).2.lists = Table.add (lookup methods.lists) new ∧
      ((class_addMethod methods new).1 = true ↔
        ∀ m, lookup methods.lists new.name = some m → m.imp = 0) := by
  unfold class_addMethod addMethod
  cases hplace : getMethodNoSuper_nolock new.name methods.lists with
  | some place =>
    obtain ⟨m, hm, _⟩ := getMethodNoSuper_spec hplace
    have hlookup : lookup methods.lists new.name = some m := by
      rw [lookup, hplace]
      exact hm
    refine ⟨?_, by simp [hm, hlookup]⟩
    funext sel
    simp only [Bool.false_eq_true, if_false, Table.add]
    by_cases hsel : sel = new.name
    · simp [hsel, hlookup]
    · simp [hsel]
  | none => ?_
  have hlookup := (getMethodNoSuper_eq_none_iff _ _).mp hplace
  refine ⟨?_, by simp [hlookup]⟩
  funext sel
  simp only [lists_attachLists, singleton_append, lookup_single, Table.add]
  by_cases hsel : sel = new.name
  · simp [hsel, hlookup]
  · simp [hsel]

theorem lookup_replaceMethod (new : TypedMethod) :
    lookup (class_replaceMethod methods new).2.lists
      = Table.replace (lookup methods.lists) new := by
  unfold class_replaceMethod addMethod
  cases hplace : getMethodNoSuper_nolock new.name methods.lists with
  | some place => exact lookup_setImplementation hplace
  | none => ?_
  have hlookup := (getMethodNoSuper_eq_none_iff _ _).mp hplace
  funext sel
  simp only [lists_attachLists, singleton_append, lookup_single, Table.replace]
  by_cases hsel : sel = new.name
  · simp [hsel, hlookup]
  · simp [hsel]

/-! ## What the bulk functions do to the lookup -/

def newMethods (table : Table) (batch : List TypedMethod) : List TypedMethod :=
  batch.filter fun new => (table new.name).isNone

theorem length_newMethods_le (table : Table) (batch : List TypedMethod) :
    (newMethods table batch).length ≤ batch.length := length_filter_le _ batch

theorem find?_newMethods (table : Table) (batch : List TypedMethod) (sel : SEL) :
    ((newMethods table batch).find? fun m => decide (m.name = sel))
      = if table sel = none then batch.find? fun m => decide (m.name = sel) else none := by
  unfold newMethods
  rw [find?_filter]
  by_cases hsel : table sel = none
  · rw [if_pos hsel]
    congr 1
    funext m
    by_cases hm : m.name = sel
    · simp [hm, hsel]
    · simp [hm]
  rw [if_neg hsel, find?_eq_none]
  intro m _
  by_cases hm : m.name = sel
  · simp [hm, hsel]
  · simp [hm]

theorem Table.replace_isNone (table : Table) (new : TypedMethod)
    (hthere : table new.name ≠ none) (sel : SEL) :
    (table.replace new sel).isNone = (table sel).isNone := by
  unfold Table.replace
  split
  next hsel =>
    rw [hsel]
    cases hm : table new.name with
    | none => exact absurd hm hthere
    | some m => ?_
    simp only
    split <;> rfl
  next => rfl

def Table.replaceThere (table : Table) : List TypedMethod → Table
  | [] => table
  | new :: batch =>
    if table new.name = none then table.replaceThere batch
    else (table.replace new).replaceThere batch

theorem addMethodsLoop_add (batch : List TypedMethod) :
    ∀ (newlist : List TypedMethod) (failedNames : List SEL),
      addMethodsLoop false methods newlist failedNames batch
        = (methods, newlist ++ newMethods (lookup methods.lists) batch,
            failedNames ++ (batch.filter fun new => (lookup methods.lists new.name).isSome).map
              fun new => new.name) := by
  induction batch with
  | nil => intro newlist failedNames; simp [addMethodsLoop, newMethods]
  | cons new batch ih => ?_
  intro newlist failedNames
  rw [addMethodsLoop]
  cases hplace : getMethodNoSuper_nolock new.name methods.lists with
  | some place =>
    obtain ⟨m, hm, hname⟩ := getMethodNoSuper_spec hplace
    have hlookup : lookup methods.lists new.name = some m := by
      rw [lookup, hplace]
      exact hm
    simp only [Bool.false_eq_true, if_false]
    rw [ih]
    simp [newMethods, hlookup, hm, hname]
  | none =>
    have hlookup := (getMethodNoSuper_eq_none_iff _ _).mp hplace
    rw [ih]
    simp [newMethods, hlookup]

variable (batch : List TypedMethod)

theorem addMethodsLoop_replace :
    ∀ (methods : MethodArray) (newlist : List TypedMethod) (failedNames : List SEL),
      lookup (addMethodsLoop true methods newlist failedNames batch).1.lists
          = Table.replaceThere (lookup methods.lists) batch ∧
        (addMethodsLoop true methods newlist failedNames batch).2.1
          = newlist ++ newMethods (lookup methods.lists) batch := by
  induction batch with
  | nil => intro methods newlist failedNames; simp [addMethodsLoop, newMethods, Table.replaceThere]
  | cons new batch ih => ?_
  intro methods newlist failedNames
  rw [addMethodsLoop, Table.replaceThere]
  cases hplace : getMethodNoSuper_nolock new.name methods.lists with
  | some place =>
    have hthere : lookup methods.lists new.name ≠ none := by
      intro hnone
      rw [(getMethodNoSuper_eq_none_iff _ _).mpr hnone] at hplace
      cases hplace
    simp only [if_true, if_neg hthere]
    obtain ⟨hlookup, hnew⟩ := ih (_method_setImplementation methods place new.imp).2 newlist
      failedNames
    rw [lookup_setImplementation hplace] at hlookup hnew
    refine ⟨hlookup, hnew.trans ?_⟩
    have hsame : newMethods (Table.replace (lookup methods.lists) new) batch
        = newMethods (lookup methods.lists) batch := by
      unfold newMethods
      simp only [Table.replace_isNone _ new hthere]
    have hskip : newMethods (lookup methods.lists) (new :: batch)
        = newMethods (lookup methods.lists) batch := by
      unfold newMethods
      rw [filter_cons_of_neg]
      simpa using hthere
    rw [hsame, hskip]
  | none => ?_
  have hnone := (getMethodNoSuper_eq_none_iff _ _).mp hplace
  simp only [hnone, if_true]
  obtain ⟨hlookup, hnew⟩ := ih methods (newlist ++ [new]) failedNames
  refine ⟨hlookup, hnew.trans ?_⟩
  simp [newMethods, hnone]

theorem lookup_attach (newlist : List TypedMethod) (sel : SEL) :
    lookup (if 0 < newlist.length then methods.attachLists [sortedList newlist]
        else methods).lists sel
      = (newlist.find? fun m => decide (m.name = sel)).or (lookup methods.lists sel) := by
  split
  next =>
    rw [lists_attachLists, singleton_append, lookup_cons, sortedList,
      TypedMethodList.find?_prepare]
  next hlen =>
    obtain rfl : newlist = [] := length_eq_zero_iff.mp (by omega)
    rfl

theorem neededSize_le_block {n count : Nat} (hle : n ≤ count) (hsize : count * 24 < 2 ^ 32) :
    neededSize 24 n ≤ addMethodsBlock (UInt32.ofNat count) := by
  rcases Nat.eq_zero_or_pos count with rfl | hpos
  · obtain rfl : n = 0 := Nat.le_zero.mp hle
    decide
  have hcount : (UInt32.ofNat count).toNat = count := Nat.mod_eq_of_lt (by omega)
  have hfits : method_list_t.Fits 24 (UInt32.ofNat count) := by
    refine ⟨fun hz => ?_, rfl, ?_⟩
    · rw [hz] at hcount
      exact absurd hcount (by simpa using hpos.ne)
    · rw [hcount]
      show (count - 1) * 24 < 2 ^ 32
      omega
  have hblock := (method_list_t.byteSize_iff 24 _).mpr hfits
  rw [addMethodsBlock, hblock, hcount]
  show listHeaderSize + n * 24 ≤ listHeaderSize + count * 24
  omega

theorem class_addMethodsBulk_spec (batch : List TypedMethod) (hsize : batch.length * 24 < 2 ^ 32) :
    ∃ r, class_addMethodsBulk methods batch = some r ∧
      r.1 = (batch.filter fun new => (lookup methods.lists new.name).isSome).map
        (fun new => new.name) ∧
      ∀ sel, lookup r.2.lists sel
        = (lookup methods.lists sel).or (batch.find? fun m => decide (m.name = sel)) := by
  unfold class_addMethodsBulk addMethods
  rw [addMethodsLoop_add]
  simp only [nil_append]
  rw [if_pos (neededSize_le_block (length_newMethods_le _ batch) hsize)]
  refine ⟨_, rfl, rfl, fun sel => ?_⟩
  rw [lookup_attach, find?_newMethods]
  cases hsel : lookup methods.lists sel with
  | none | some m => simp

theorem Table.replaceThere_isNone : ∀ (table : Table) (sel : SEL),
    (table.replaceThere batch sel).isNone = (table sel).isNone := by
  induction batch with
  | nil => intro table sel; rfl
  | cons new batch ih => ?_
  intro table sel
  rw [Table.replaceThere]
  split
  next => exact ih table sel
  next hthere => rw [ih, Table.replace_isNone table new hthere]

theorem class_replaceMethodsBulk_spec (batch : List TypedMethod)
    (hsize : batch.length * 24 < 2 ^ 32) :
    ∃ r, class_replaceMethodsBulk methods batch = some r ∧ ∀ sel, lookup r.lists sel
      = if lookup methods.lists sel = none then batch.find? fun m => decide (m.name = sel)
        else Table.replaceThere (lookup methods.lists) batch sel := by
  obtain ⟨hlookup, hnew⟩ := addMethodsLoop_replace batch methods [] []
  unfold class_replaceMethodsBulk addMethods
  simp only [hnew, nil_append]
  rw [if_pos (neededSize_le_block (length_newMethods_le _ batch) hsize)]
  refine ⟨_, rfl, fun sel => ?_⟩
  have hnone := Table.replaceThere_isNone batch (lookup methods.lists) sel
  rw [lookup_attach, hlookup, find?_newMethods]
  by_cases hsel : lookup methods.lists sel = none
  · rw [hsel, Option.isNone_none, Option.isNone_iff_eq_none] at hnone
    rw [hnone, Option.or_none]
  · rw [if_neg hsel, if_neg hsel, Option.none_or]

/-! ## One by one -/

theorem lookup_addOneByOne : ∀ (methods : MethodArray) (sel : SEL),
    lookup (addOneByOne methods batch).2.lists sel
      = (lookup methods.lists sel).or (batch.find? fun m => decide (m.name = sel)) := by
  induction batch with
  | nil => intro methods sel; exact Option.or_none.symm
  | cons new batch ih => ?_
  intro methods sel
  rw [addOneByOne, ih, (lookup_addMethod methods new).1, Table.add, Option.or_assoc, find?_cons]
  by_cases hsel : sel = new.name
  · simp [hsel]
  · have hne : ¬ new.name = sel := fun h => hsel h.symm
    simp [hsel, hne]

def lastImp (sel : SEL) (imp : IMP) (batch : List TypedMethod) : IMP :=
  batch.foldl (fun imp new => if new.name = sel ∧ new.imp ≠ 0 then new.imp else imp) imp

variable {sel : SEL}

theorem Table.replace_some {table : Table} {m : TypedMethod} (hm : table sel = some m)
    (new : TypedMethod) : table.replace new sel
      = some { m with imp := if new.name = sel ∧ new.imp ≠ 0 then new.imp else m.imp } := by
  unfold Table.replace
  by_cases hsel : sel = new.name
  · by_cases himp : new.imp = 0 <;> simp [← hsel, hm, himp]
  · have hne : ¬ new.name = sel := fun h => hsel h.symm
    simp [hsel, hne, hm]

theorem Table.replaceThere_some :
    ∀ {table : Table} {m : TypedMethod}, table sel = some m →
      table.replaceThere batch sel = some { m with imp := lastImp sel m.imp batch } := by
  induction batch with
  | nil => intro table m hm; exact hm
  | cons new batch ih => ?_
  intro table m hm
  rw [Table.replaceThere]
  split
  next hnone =>
    have hne : ¬ new.name = sel := by
      rintro rfl
      rw [hm] at hnone
      cases hnone
    rw [ih hm]
    simp [lastImp, hne]
  next => exact ih (Table.replace_some hm new)

theorem Table.replaceAll_some :
    ∀ {table : Table} {m : TypedMethod}, table sel = some m →
      batch.foldl Table.replace table sel = some { m with imp := lastImp sel m.imp batch } := by
  induction batch with
  | nil => intro table m hm; exact hm
  | cons new batch ih =>
    intro table m hm
    exact ih (Table.replace_some hm new)

theorem Table.replaceAll_none :
    ∀ {table : Table}, table sel = none → batch.foldl Table.replace table sel
      = (batch.find? fun m => decide (m.name = sel)).map
          fun m => { m with imp := lastImp sel m.imp batch } := by
  induction batch with
  | nil => intro table hnone; exact hnone
  | cons new batch ih => ?_
  intro table hnone
  rw [foldl_cons, find?_cons]
  by_cases hsel : new.name = sel
  · have hsome : table.replace new sel = some new := by
      unfold Table.replace
      simp [hsel, hnone]
    rw [Table.replaceAll_some batch hsome]
    simp [hsel, lastImp]
  have hsame : table.replace new sel = none := by
    unfold Table.replace
    rw [if_neg fun h => hsel h.symm, hnone]
  rw [ih hsame]
  simp [hsel, lastImp]

theorem lookup_replaceOneByOne : ∀ methods : MethodArray,
    lookup (replaceOneByOne methods batch).lists
      = batch.foldl Table.replace (lookup methods.lists) := by
  induction batch with
  | nil => intro methods; rfl
  | cons new batch ih => ?_
  intro methods
  refine (ih _).trans ?_
  rw [lookup_replaceMethod]
  rfl

/-! ## The reports -/

/-- Where the reports for a selector are the same: a method that the class has is not nil, and a
new selector is repeated only behind a nil implementation. -/
def ReportsAlike (table : Table) (batch : List TypedMethod) (sel : SEL) : Prop :=
  match table sel with
  | some m => m.imp ≠ 0
  | none => ∀ first, (batch.find? fun m => decide (m.name = sel)) = some first → first.imp ≠ 0 →
      (batch.filter fun m => decide (m.name = sel)).length ≤ 1

/-- The calls for `sel` that are still to come are all refused, or none is. -/
def Settled (isRefused : SEL → Bool) (table : Table) (batch : List TypedMethod) (sel : SEL) : Prop :=
  if isRefused sel then ∃ m, table sel = some m ∧ m.imp ≠ 0
  else (∃ m, table sel = some m ∧ m.imp = 0) ∨ table sel = none ∧ ReportsAlike table batch sel

theorem Settled.tail {isRefused : SEL → Bool} {table : Table} {new x : TypedMethod}
    (h : Settled isRefused table (new :: batch) x.name) (hx : x ∈ batch) :
    Settled isRefused (table.add new) batch x.name := by
  have hkeep : ∀ m, table x.name = some m → table.add new x.name = some m := by
    intro m hm
    rw [Table.add, hm, Option.some_or]
  unfold Settled at h ⊢
  by_cases hr : isRefused x.name = true
  · rw [if_pos hr] at h ⊢
    obtain ⟨m, hm, himp⟩ := h
    exact ⟨m, hkeep m hm, himp⟩
  rw [if_neg hr] at h ⊢
  rcases h with ⟨m, hm, himp⟩ | ⟨hnone, halike⟩
  · exact .inl ⟨m, hkeep m hm, himp⟩
  rw [ReportsAlike, hnone] at halike
  by_cases hname : new.name = x.name
  · -- the first call for the selector: a later one would be refused unless this one is nil
    refine .inl ⟨new, by rw [Table.add, hnone, Option.none_or, if_pos hname.symm], ?_⟩
    by_contra himp
    have hlen := halike new (by simp [hname]) himp
    have hmem : x ∈ batch.filter fun m => decide (m.name = x.name) := by simp [hx]
    have hpos := length_pos_of_mem hmem
    simp only [filter_cons, hname, decide_true, if_true, length_cons] at hlen
    omega
  have hnone' : table.add new x.name = none := by
    rw [Table.add, hnone, Option.none_or, if_neg fun h => hname h.symm]
  refine .inr ⟨hnone', ?_⟩
  rw [ReportsAlike, hnone']
  simpa only [find?_cons, filter_cons, hname, decide_false, Bool.false_eq_true, if_false] using halike

theorem addOneByOne_report (isRefused : SEL → Bool) : ∀ {methods : MethodArray},
    (∀ new ∈ batch, Settled isRefused (lookup methods.lists) batch new.name) →
      (addOneByOne methods batch).1
        = (batch.filter fun new => isRefused new.name).map fun new => new.name := by
  induction batch with
  | nil => intro methods _; rfl
  | cons new batch ih => ?_
  intro methods hsettled
  obtain ⟨htable, hyes⟩ := lookup_addMethod methods new
  have hrest := @ih (class_addMethod methods new).2 fun x hx => by
    rw [htable]
    exact (hsettled x (mem_cons_of_mem new hx)).tail batch hx
  have hhead := hsettled new mem_cons_self
  unfold Settled at hhead
  rw [addOneByOne, filter_cons]
  simp only [hrest]
  split at hhead
  next hr =>
    obtain ⟨m, hm, himp⟩ := hhead
    have hno : ¬ (class_addMethod methods new).1 = true := by
      rw [hyes]
      exact fun h => himp (h m hm)
    rw [if_neg hno, if_pos hr, map_cons]
  next hr =>
    have hyes' : (class_addMethod methods new).1 = true := by
      rw [hyes]
      intro m hm
      rcases hhead with ⟨m', hm', himp⟩ | ⟨hnone, _⟩
      · rw [Option.some.inj (hm.symm.trans hm'), himp]
      · rw [hnone] at hm
        cases hm
    rw [if_pos hyes', if_neg hr]

theorem mem_report_of_some {m : TypedMethod} : ∀ {methods : MethodArray},
    lookup methods.lists sel = some m →
      (sel ∈ (addOneByOne methods batch).1 ↔ m.imp ≠ 0 ∧ ∃ new ∈ batch, new.name = sel) := by
  induction batch with
  | nil => intro methods _; simp [addOneByOne]
  | cons new batch ih => ?_
  intro methods hm
  obtain ⟨htable, hyes⟩ := lookup_addMethod methods new
  have hrest := @ih (class_addMethod methods new).2 (by
    rw [htable, Table.add, hm, Option.some_or])
  rw [addOneByOne]
  by_cases hname : new.name = sel
  · have hyes' : (class_addMethod methods new).1 = true ↔ m.imp = 0 := by
      rw [hyes, hname]
      exact ⟨fun h => h m hm, fun h m' hm' => Option.some.inj (hm.symm.trans hm') ▸ h⟩
    by_cases himp : m.imp = 0
    · simp [hyes'.mpr himp, hrest, himp]
    · have hno := mt hyes'.mp himp
      simp [hno, hname, himp]
  · have hne : ¬ sel = new.name := fun h => hname h.symm
    cases (class_addMethod methods new).1 with
    | true | false => simp [hrest, hname, hne]

theorem mem_report_of_none {first : TypedMethod} : ∀ {methods : MethodArray},
    lookup methods.lists sel = none →
    (batch.find? fun m => decide (m.name = sel)) = some first → first.imp ≠ 0 →
      1 < (batch.filter fun m => decide (m.name = sel)).length →
      sel ∈ (addOneByOne methods batch).1 := by
  induction batch with
  | nil => intro methods _ hfind; cases hfind
  | cons new batch ih => ?_
  intro methods hnone hfind himp hlen
  obtain ⟨htable, _⟩ := lookup_addMethod methods new
  have hmem : sel ∈ (addOneByOne (class_addMethod methods new).2 batch).1 := by
    by_cases hname : new.name = sel
    · simp only [find?_cons, filter_cons, hname, decide_true, if_true, length_cons] at hfind hlen
      obtain rfl := Option.some.inj hfind
      have hsome : lookup (class_addMethod methods new).2.lists sel = some new := by
        rw [htable, Table.add, hnone, Option.none_or, if_pos hname.symm]
      obtain ⟨x, hx⟩ := exists_mem_of_length_pos
        (l := batch.filter fun m => decide (m.name = sel)) (by omega)
      obtain ⟨hx, hxname⟩ := mem_filter.mp hx
      exact (mem_report_of_some batch hsome).mpr ⟨himp, x, hx, of_decide_eq_true hxname⟩
    · simp only [find?_cons, filter_cons, hname, decide_false, Bool.false_eq_true, if_false]
        at hfind hlen
      refine ih ?_ hfind himp hlen
      rw [htable, Table.add, hnone, Option.none_or, if_neg fun h => hname h.symm]
  rw [addOneByOne]
  simp only
  split
  · exact hmem
  · exact mem_cons_of_mem _ hmem

theorem report_eq_iff (batch : List TypedMethod) :
    (batch.filter fun new => (lookup methods.lists new.name).isSome).map (fun new => new.name)
        = (addOneByOne methods batch).1 ↔
      ∀ new ∈ batch, ReportsAlike (lookup methods.lists) batch new.name := by
  constructor
  · intro heq new hnew
    have hmem : new.name ∈ (addOneByOne methods batch).1 ↔
        (lookup methods.lists new.name).isSome = true := by
      rw [← heq, mem_map]
      constructor
      · rintro ⟨x, hx, hname⟩
        exact hname ▸ (mem_filter.mp hx).2
      · exact fun h => ⟨new, mem_filter.mpr ⟨hnew, h⟩, rfl⟩
    cases hm : lookup methods.lists new.name with
    | some m =>
      rw [hm] at hmem
      rw [ReportsAlike, hm]
      exact ((mem_report_of_some batch hm).mp (hmem.mpr rfl)).1
    | none => ?_
    rw [hm] at hmem
    rw [ReportsAlike, hm]
    intro first hfind himp
    by_contra hlen
    cases hmem.mp (mem_report_of_none batch hm hfind himp (by omega))
  · intro halike
    refine (addOneByOne_report batch (fun sel => (lookup methods.lists sel).isSome)
      fun new hnew => ?_).symm
    have h := halike new hnew
    unfold Settled
    cases hm : lookup methods.lists new.name with
    | some m =>
      rw [ReportsAlike, hm] at h
      rw [if_pos (by simp only [hm]; rfl)]
      exact ⟨m, rfl, h⟩
    | none =>
      rw [if_neg (by simp only [hm]; decide)]
      exact .inr ⟨rfl, h⟩

/-! ## Both ways compared -/

/-- **Bulk against one by one**, for a batch of less than 4 GB.  Adding in bulk leaves the same
lookup; it reports the same selectors exactly when for each of them the reports are alike.
Replacing in bulk leaves the same lookup exactly when for each selector that the class does not
define the last implementation is the first one. -/
theorem bulk_matches_one_by_one (methods : MethodArray) (batch : List TypedMethod)
    (hsize : batch.length * 24 < 2 ^ 32) :
    (∃ failedNames added, class_addMethodsBulk methods batch = some (failedNames, added) ∧
      (∀ sel, lookup added.lists sel = lookup (addOneByOne methods batch).2.lists sel) ∧
      (failedNames = (addOneByOne methods batch).1 ↔
        ∀ new ∈ batch, ReportsAlike (lookup methods.lists) batch new.name)) ∧
    ∃ replaced, class_replaceMethodsBulk methods batch = some replaced ∧
      ((∀ sel, lookup replaced.lists sel = lookup (replaceOneByOne methods batch).lists sel) ↔
        ∀ sel, lookup methods.lists sel = none →
          ∀ first, (batch.find? fun m => decide (m.name = sel)) = some first →
            lastImp sel first.imp batch = first.imp) := by
  constructor
  · obtain ⟨⟨failedNames, added⟩, hadd, hreport, hlookup⟩ :=
      class_addMethodsBulk_spec methods batch hsize
    obtain rfl : failedNames = _ := hreport
    refine ⟨_, added, hadd, fun sel => ?_, report_eq_iff methods batch⟩
    rw [hlookup, lookup_addOneByOne]
  obtain ⟨replaced, hreplace, hlookup⟩ := class_replaceMethodsBulk_spec methods batch hsize
  refine ⟨replaced, hreplace, ?_⟩
  have hone := congrFun (lookup_replaceOneByOne batch methods)
  refine forall_congr' fun sel => ?_
  rw [hlookup, hone]
  cases hsel : lookup methods.lists sel with
  | some m =>
    simp only [reduceCtorEq, if_false, false_implies, iff_true]
    rw [Table.replaceThere_some batch hsel, Table.replaceAll_some batch hsel]
  | none => ?_
  simp only [if_true, forall_const]
  rw [Table.replaceAll_none batch hsel]
  cases hfind : batch.find? fun m => decide (m.name = sel) with
  | none => simp
  | some first => ?_
  simp only [Option.map_some, Option.some.injEq, forall_eq']
  constructor
  · intro heq
    exact (congrArg (fun m : TypedMethod => m.imp) heq).symm
  · intro heq
    rw [heq]

theorem distinct_batch_reports_alike :
    let batch : List TypedMethod := [⟨⟨5, 1⟩, "v"⟩, ⟨⟨3, 0⟩, "v"⟩, ⟨⟨3, 2⟩, "v"⟩]
    ∃ failedNames added, class_addMethodsBulk .empty batch = some (failedNames, added) ∧
      failedNames = (addOneByOne .empty batch).1 := by
  intro batch
  obtain ⟨⟨failedNames, added, hadd, _, hreport⟩, _⟩ :=
    bulk_matches_one_by_one .empty batch (by decide)
  refine ⟨failedNames, added, hadd, hreport.mpr fun new hnew => ?_⟩
  show ∀ first, _ → _
  intro first hfind himp
  rcases mem_cons.mp hnew with rfl | hnew
  · decide
  -- the other two are of the selector that comes with nil
  have hname : new.name = 3 := by
    rcases mem_cons.mp hnew with rfl | hnew
    · rfl
    · rw [mem_singleton.mp hnew]
  rw [hname] at hfind
  cases hfind
  exact absurd rfl himp

/-- **A new selector twice in the batch**: nothing is reported in bulk, and replacing in bulk keeps
the first implementation. A method of the class with a nil implementation is reported in bulk
only. -/
theorem repeated_selector_differs :
    let batch : List TypedMethod := [⟨⟨5, 1⟩, "v"⟩, ⟨⟨5, 2⟩, "v"⟩]
    let withNil : MethodArray := .one (singleMethod 7 0 "v")
    (class_addMethodsBulk .empty batch).map Prod.fst = some [] ∧
      (addOneByOne .empty batch).1 = [5] ∧
      (class_replaceMethodsBulk .empty batch).map (fun methods => lookup methods.lists 5)
        = some (some ⟨⟨5, 1⟩, "v"⟩) ∧
      lookup (replaceOneByOne .empty batch).lists 5 = some ⟨⟨5, 2⟩, "v"⟩ ∧
      (class_addMethodsBulk withNil [⟨⟨7, 1⟩, "v"⟩]).map Prod.fst = some [7] ∧
      (addOneByOne withNil [⟨⟨7, 1⟩, "v"⟩]).1 = [] := by
  decide +kernel

end Typed

end ObjcRuntime
