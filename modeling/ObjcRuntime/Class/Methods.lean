/-
METHOD LISTS.

A class has a list of method lists, the newest first. Every list has been
through `fixupMethodList`, so it is sorted by selector address, and it is
searched by bisection (objc-runtime-new.mm, `findMethodInSortedMethodList`).

* `findMethodInSortedMethodList_eq`: the bisection finds the first method
  of that name,
* `methodImp_eq`: so a class's method is the first one in its lists.
-/
import Mathlib.Data.List.Sort

namespace ObjcRuntime

open List Option

/-! ## Methods and their lists -/

abbrev SEL := Nat

abbrev IMP := Nat

/-- `method_t`. -/
structure Method where
  name : SEL
  imp : IMP
  deriving DecidableEq

structure MethodList where
  methods : List Method
  sorted : methods.Pairwise fun a b => a.name ≤ b.name

/-- The order that `fixupMethodList` sorts by. -/
def Method.sortsBefore (a b : Method) : Prop := a.name ≤ b.name

instance : DecidableRel Method.sortsBefore :=
  fun a b => inferInstanceAs (Decidable (a.name ≤ b.name))

instance : Std.Total Method.sortsBefore := ⟨fun a b => Nat.le_total a.name b.name⟩

instance : IsTrans Method Method.sortsBefore := ⟨fun _ _ _ => le_trans⟩

/-- `fixupMethodList`: a stable sort by selector address. -/
def fixupMethodList (mlist : List Method) : MethodList where
  methods := mlist.insertionSort Method.sortsBefore
  sorted := pairwise_insertionSort Method.sortsBefore mlist

theorem map_modify_of_eq {α β : Type} (f : α → β) (g : α → α) (hfg : ∀ a, f (g a) = f a) :
    ∀ (l : List α) (j : Nat), (l.modify j g).map f = l.map f := by
  intro l
  induction l with
  | nil => intro j; simp
  | cons a l ih => ?_
  intro j
  cases j with
  | zero => simp [hfg]
  | succ j => simp [ih j]

theorem map_name_modify (imp : IMP) (l : List Method) (j : Nat) :
    (l.modify j fun m => { m with imp := imp }).map Method.name = l.map Method.name :=
  map_modify_of_eq Method.name (fun m => { m with imp := imp }) (fun _ => rfl) l j

/-- Write the implementation of the `j`-th method; the names stay, and so does the order. -/
def MethodList.setImp (l : MethodList) (j : Nat) (imp : IMP) : MethodList where
  methods := l.methods.modify j fun m => { m with imp := imp }
  sorted := by
    have h := pairwise_map.mpr l.sorted
    rw [← map_name_modify imp l.methods j] at h
    exact pairwise_map.mp h

/-! ## Bisection -/

def rewind (list : List Method) (key : SEL) : Nat → Nat
  | 0 => 0
  | probe + 1 =>
    if (list[probe]?).map Method.name = some key then rewind list key probe else probe + 1

/-- The loop of `findMethodInSortedMethodList`; every round halves `count`. -/
def bisect (list : List Method) (key : SEL) : Nat → Nat → Nat → Option Nat
  | 0, _, _ => none
  | fuel + 1, base, count =>
    if count = 0 then none
    else
      match list[base + count / 2]? with
      | none => none
      | some probe =>
        if key = probe.name then some (rewind list key (base + count / 2))
        else if key > probe.name then
          bisect list key fuel (base + count / 2 + 1) ((count - 1) / 2)
        else bisect list key fuel base (count / 2)

def findMethodInSortedMethodList (key : SEL) (list : List Method) : Option Nat :=
  bisect list key (list.length + 1) 0 list.length

structure FirstAt (list : List Method) (key : SEL) (j : Nat) : Prop where
  here : (list[j]?).map Method.name = some key
  before : ∀ (i : Nat) (m : Method), i < j → list[i]? = some m → m.name < key

theorem rewind_spec {list : List Method} (hsorted : list.Pairwise fun a b => a.name ≤ b.name)
    {key : SEL} {probe : Nat} (hprobe : (list[probe]?).map Method.name = some key) :
    FirstAt list key (rewind list key probe) := by
  induction probe with
  | zero => exact ⟨hprobe, fun i _ hi => absurd hi (Nat.not_lt_zero i)⟩
  | succ probe ih => ?_
  rw [rewind]
  split
  next h => exact ih h
  rename_i h
  refine ⟨hprobe, fun i m hi hm => ?_⟩
  -- the name just before the match differs, and the list is sorted
  obtain ⟨m', hm', hname⟩ := map_eq_some_iff.mp hprobe
  have hlt : probe < list.length := by
    have := (List.getElem?_eq_some_iff.mp hm').1
    omega
  have hprev : list[probe].name < key := by
    have hle : list[probe].name ≤ m'.name := by
      obtain ⟨hlt', heq⟩ := List.getElem?_eq_some_iff.mp hm'
      have := pairwise_iff_getElem.mp hsorted probe (probe + 1) hlt hlt' (by omega)
      rwa [heq] at this
    have hne : list[probe].name ≠ key := by
      intro heq
      exact h (by rw [List.getElem?_eq_getElem hlt, map_some, heq])
    rw [hname] at hle
    exact Nat.lt_of_le_of_ne hle hne
  rcases Nat.lt_or_eq_of_le (Nat.le_of_lt_succ hi) with hlt' | rfl
  · obtain ⟨hil, heq⟩ := List.getElem?_eq_some_iff.mp hm
    have := pairwise_iff_getElem.mp hsorted i probe hil hlt hlt'
    rw [heq] at this
    exact lt_of_le_of_lt this hprev
  · rw [List.getElem?_eq_getElem hlt] at hm
    injection hm with hm
    rwa [hm] at hprev

theorem bisect_spec {list : List Method} (hsorted : list.Pairwise fun a b => a.name ≤ b.name)
    (key : SEL) : ∀ fuel base count : Nat, count < fuel → base + count ≤ list.length →
      (∀ (i : Nat) (m : Method), i < base → list[i]? = some m → m.name < key) →
      (∀ (i : Nat) (m : Method), base + count ≤ i → list[i]? = some m → key < m.name) →
      match bisect list key fuel base count with
      | some j => FirstAt list key j
      | none => ∀ (i : Nat) (m : Method), list[i]? = some m → m.name ≠ key := by
  intro fuel
  induction fuel with
  | zero =>
    intro _ _ h
    exact absurd h (Nat.not_lt_zero _)
  | succ fuel ih => ?_
  intro base count hfuel hle hlow hhigh
  rw [bisect]
  by_cases hcount : count = 0
  · rw [if_pos hcount]
    intro i m hm
    rcases Nat.lt_or_ge i base with hi | hi
    · exact ne_of_lt (hlow i m hi hm)
    · exact Nat.ne_of_gt (hhigh i m (by omega) hm)
  rw [if_neg hcount]
  have hlt : base + count / 2 < list.length := by omega
  have hprobe : list[base + count / 2]? = some list[base + count / 2] :=
    List.getElem?_eq_getElem hlt
  simp only [hprobe]
  by_cases heq : key = list[base + count / 2].name
  · rw [if_pos heq]
    exact rewind_spec hsorted (by rw [hprobe, map_some, ← heq])
  rw [if_neg heq]
  by_cases hgt : key > list[base + count / 2].name
  · rw [if_pos hgt]
    refine ih _ _ (by omega) (by omega) (fun i m hi hm => ?_) fun i m hi hm => ?_
    · obtain ⟨hil, hget⟩ := List.getElem?_eq_some_iff.mp hm
      rcases Nat.lt_or_eq_of_le (Nat.le_of_lt_succ hi) with hi' | rfl
      · have := pairwise_iff_getElem.mp hsorted i _ hil hlt hi'
        rw [hget] at this
        exact lt_of_le_of_lt this hgt
      · exact hget ▸ hgt
    · exact hhigh i m (by omega) hm
  rw [if_neg hgt]
  have hlt' : key < list[base + count / 2].name :=
    Nat.lt_of_le_of_ne (Nat.le_of_not_lt hgt) heq
  refine ih _ _ (by omega) (by omega) hlow fun i m hi hm => ?_
  obtain ⟨hil, hget⟩ := List.getElem?_eq_some_iff.mp hm
  rcases Nat.lt_or_eq_of_le hi with hi' | rfl
  · have := pairwise_iff_getElem.mp hsorted _ i hlt hil hi'
    rw [hget] at this
    exact lt_of_lt_of_le hlt' this
  · exact hget ▸ hlt'

theorem findMethodInSortedMethodList_eq (l : MethodList) (key : SEL) :
    findMethodInSortedMethodList key l.methods
      = l.methods.findIdx? fun m => decide (m.name = key) := by
  have h := bisect_spec l.sorted key (l.methods.length + 1) 0 l.methods.length (by omega) (by omega)
    (fun i _ hi => absurd hi (Nat.not_lt_zero i))
    (fun i m hi hm => by
      have := (List.getElem?_eq_some_iff.mp hm).1
      omega)
  rw [findMethodInSortedMethodList]
  cases hb : bisect l.methods key (l.methods.length + 1) 0 l.methods.length with
  | some j =>
    rw [hb] at h
    obtain ⟨m, hm, hname⟩ := map_eq_some_iff.mp h.here
    obtain ⟨hlt, hget⟩ := List.getElem?_eq_some_iff.mp hm
    symm
    rw [findIdx?_eq_some_iff_getElem]
    refine ⟨hlt, by simpa [hget] using hname, fun i hi => ?_⟩
    have := h.before i l.methods[i] hi (List.getElem?_eq_getElem (by omega))
    simpa using ne_of_lt this
  | none => ?_
  rw [hb] at h
  symm
  rw [findIdx?_eq_none_iff]
  intro m hm
  obtain ⟨i, hi⟩ := List.mem_iff_getElem?.mp hm
  simpa using h i m hi

/-! ## The methods of a class -/

abbrev MethodPlace := Nat × Nat

def getMethodNoSuper_nolock (sel : SEL) : List MethodList → Option MethodPlace
  | [] => none
  | mlist :: mlists =>
    match findMethodInSortedMethodList sel mlist.methods with
    | some j => some (0, j)
    | none => (getMethodNoSuper_nolock sel mlists).map fun place => (place.1 + 1, place.2)

def impAt (mlists : List MethodList) (place : MethodPlace) : Option IMP :=
  (mlists[place.1]?).bind fun mlist => (mlist.methods[place.2]?).map Method.imp

def methodImp (mlists : List MethodList) (sel : SEL) : Option IMP :=
  (getMethodNoSuper_nolock sel mlists).bind (impAt mlists)

theorem methodImp_eq (mlists : List MethodList) (sel : SEL) :
    methodImp mlists sel
      = ((mlists.flatMap MethodList.methods).find? fun m => decide (m.name = sel)).map
          Method.imp := by
  induction mlists with
  | nil => rfl
  | cons mlist mlists ih => ?_
  rw [flatMap_cons, find?_append, methodImp, getMethodNoSuper_nolock,
    findMethodInSortedMethodList_eq]
  cases hj : mlist.methods.findIdx? fun m => decide (m.name = sel) with
  | some j =>
    obtain ⟨hlt, hname, hfirst⟩ := findIdx?_eq_some_iff_getElem.mp hj
    have hfind : (mlist.methods.find? fun m => decide (m.name = sel)) = some mlist.methods[j] := by
      rw [find?_eq_some_iff_getElem]
      exact ⟨hname, j, hlt, rfl, fun i hi => by simpa using hfirst i hi⟩
    simp [hfind, impAt, List.getElem?_eq_getElem hlt]
  | none => ?_
  have hfind : (mlist.methods.find? fun m => decide (m.name = sel)) = none := by
    rw [find?_eq_none]
    intro m hm
    simpa using (findIdx?_eq_none_iff.mp hj) m hm
  rw [hfind, none_or, ← ih, methodImp]
  cases getMethodNoSuper_nolock sel mlists with
  | none | some place => rfl

def setImpAt (mlists : List MethodList) (place : MethodPlace) (imp : IMP) : List MethodList :=
  mlists.modify place.1 fun mlist => mlist.setImp place.2 imp

end ObjcRuntime
