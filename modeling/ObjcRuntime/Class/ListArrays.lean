/-
A LIST ARRAY IS ONE SEQUENCE.

objc-runtime-new.h, `list_array_tt`: attaching lists, counting what is in
them, and the nested iterator. Both counts of the class, that of the lists
and that of their elements, have 32 bits, and so has the offset of the end of
an `entsize_list_tt`.
-/
import Mathlib.Data.Nat.Bitwise
import ObjcRuntime.Class.MethodLists

namespace ObjcRuntime.ListArray

open List Nat

variable {α ε : Type}

/-! ## Attaching and counting -/

/-- `attachLists`. `newCount` has 32 bits: from 2^32 lists on the block that is allocated is too
small, and the old lists are moved past its end. -/
def attachLists32 (a : ListArray α) (addedLists : List α) : Option (ListArray α) :=
  if addedLists = [] then some a
  else if a.lists.length + addedLists.length < 2 ^ 32 then some (a.attachLists addedLists)
  else none

def attachAll : ListArray α → List (List α) → Option (ListArray α)
  | a, [] => some a
  | a, addedLists :: calls => (a.attachLists32 addedLists).bind fun a' => attachAll a' calls

/-- `count()`. -/
def count (a : ListArray (List ε)) : Nat :=
  a.lists.foldl (fun result list => (result + list.length) % 2 ^ 32) 0

theorem foldl_count_eq (lists : List (List ε)) : ∀ result : Nat, result < 2 ^ 32 →
    lists.foldl (fun result list => (result + list.length) % 2 ^ 32) result
      = (result + lists.flatten.length) % 2 ^ 32 := by
  induction lists with
  | nil =>
    intro result hlt
    exact (Nat.mod_eq_of_lt hlt).symm
  | cons list lists ih =>
    intro result _
    rw [foldl_cons, ih _ (Nat.mod_lt _ (Nat.two_pow_pos 32)), Nat.mod_add_mod, flatten_cons,
      length_append, Nat.add_assoc]

theorem count_eq (a : ListArray (List ε)) : a.count = a.lists.flatten.length % 2 ^ 32 := by
  rw [count, foldl_count_eq _ _ (Nat.two_pow_pos 32), Nat.zero_add]

/-! ## The iterator -/

/-- How the end of a list is computed: `entsize_list_tt` multiplies the count and the size of an
element in 32 bits, `protocol_list_t` adds the count to a pointer. -/
structure ListEnd where
  entsize : Nat
  bits : Nat
  entsize_pos : 0 < entsize

/-- The offset of `end()` from the first element. -/
def ListEnd.offset (k : ListEnd) (list : List ε) : Nat := list.length * k.entsize % 2 ^ k.bits

/-- `property_list_t`. -/
def propertyList : ListEnd := ⟨16, 32, Nat.succ_pos 15⟩

/-- The lists from `lists` to `listsEnd`, and the index of `m` in the first of them. -/
structure Iterator (ε : Type) where
  lists : List (List ε)
  m : Nat

def Iterator.start (lists : List (List ε)) : Iterator ε := ⟨lists, 0⟩

def begin_ (a : ListArray (List ε)) : Iterator ε := .start a.lists

variable (k : ListEnd)

/-- `operator ++`; `none` when `m` is `mEnd`, which is asserted. -/
def Iterator.next (it : Iterator ε) : Option (Iterator ε) :=
  match it.lists with
  | [] => none
  | list :: lists =>
    if it.m * k.entsize = k.offset list then none
    else if (it.m + 1) * k.entsize = k.offset list then some (.start lists)
    else some { it with m := it.m + 1 }

/-- The loop from an iterator to `end()`: that is reached when no list is left. `none` is also a
read outside of a list. -/
def Iterator.collect : Nat → Iterator ε → Option (List ε)
  | 0, _ => none
  | fuel + 1, it =>
    if it.lists = [] then some []
    else
      match (it.lists.headD [])[it.m]?, it.next k with
      | some element, some it' => (collect fuel it').map (element :: ·)
      | _, _ => none

def ListEnd.Fits (list : List ε) : Prop := list.length * k.entsize < 2 ^ k.bits

variable {k} {lists : List (List ε)}

theorem collect_list {rest : List ε} {fuel : Nat}
    (hrest : (Iterator.start lists).collect k fuel = some rest) {list : List ε}
    (hfits : k.Fits list) (n : Nat) : ∀ i, i + n + 1 = list.length →
    Iterator.collect k (fuel + n + 1) ⟨list :: lists, i⟩ = some (list.drop i ++ rest) := by
  have hoffset : k.offset list = list.length * k.entsize := Nat.mod_eq_of_lt hfits
  have hne : ∀ i, i ≠ list.length → ¬ i * k.entsize = list.length * k.entsize :=
    fun i hi heq => hi (Nat.eq_of_mul_eq_mul_right k.entsize_pos heq)
  induction n with
  | zero =>
    intro i hi
    have hlast : list.drop (i + 1) = [] := drop_eq_nil_of_le (by omega)
    rw [Iterator.collect, if_neg (cons_ne_nil _ _), Iterator.next]
    simp only [headD_cons, hoffset]
    rw [getElem?_eq_getElem (by omega), if_neg (hne i (by omega)), if_pos (by rw [← hi]),
      drop_eq_getElem_cons (by omega), hlast]
    simp only [hrest]
    rfl
  | succ n ih =>
    intro i hi
    rw [Iterator.collect, if_neg (cons_ne_nil _ _), Iterator.next]
    simp only [headD_cons, hoffset]
    rw [getElem?_eq_getElem (by omega), if_neg (hne i (by omega)),
      if_neg (hne (i + 1) (by omega)), drop_eq_getElem_cons (by omega)]
    simp only
    rw [← add_assoc, ih (i + 1) (by omega)]
    rfl

theorem collect_eq (h : ∀ l ∈ lists, l ≠ []) (hfits : ∀ l ∈ lists, k.Fits l) :
    (Iterator.start lists).collect k (lists.flatten.length + 1) = some lists.flatten := by
  induction lists with
  | nil => rfl
  | cons list lists ih => ?_
  have hpos := length_pos_of_ne_nil (h list mem_cons_self)
  have hall := collect_list (ih (fun l hl => h l (mem_cons_of_mem _ hl))
    fun l hl => hfits l (mem_cons_of_mem _ hl)) (hfits list mem_cons_self) (list.length - 1) 0
    (by omega)
  rw [flatten_cons, length_append, show list.length + lists.flatten.length + 1
    = lists.flatten.length + 1 + (list.length - 1) + 1 by omega]
  exact hall

def Iterator.left (it : Iterator ε) : Nat :=
  (it.lists.headD []).length - it.m + it.lists.tail.flatten.length

/-- **An iteration yields no more than what is left**, and all of it only if the ends fit. By
induction on the fuel: the first list is left early, if its end does not fit. -/
theorem collect_length (fuel : Nat) : ∀ {it : Iterator ε} {elements : List ε},
    it.collect k fuel = some elements → elements.length ≤ it.left ∧
      (elements.length = it.left → ∀ l ∈ it.lists, k.Fits l) := by
  induction fuel with
  | zero => exact fun h => nomatch h
  | succ fuel ih => ?_
  intro it elements h
  rw [Iterator.collect] at h
  split at h
  next hnil =>
    cases h
    rw [hnil]
    exact ⟨Nat.zero_le _, fun _ => nofun⟩
  obtain ⟨lists, m⟩ := it
  obtain ⟨list, lists, rfl⟩ := exists_cons_of_ne_nil ‹_›
  split at h
  next e it' hget hnext =>
    obtain ⟨elements', hrun, rfl⟩ := Option.map_eq_some_iff.mp h
    obtain ⟨hle, hall⟩ := ih hrun
    obtain ⟨hlt, -⟩ := List.getElem?_eq_some_iff.mp hget
    simp only [headD_cons] at hlt
    rw [Iterator.next] at hnext
    simp only at hnext
    split at hnext
    next => cases hnext
    split at hnext
    next hend =>
      cases hnext
      have hleft : (Iterator.start lists).left = lists.flatten.length := by
        cases lists <;> simp [Iterator.left, Iterator.start]
      rw [hleft] at hle hall
      simp only [Iterator.left, headD_cons, tail_cons, length_cons]
      refine ⟨by omega, fun heq l hl => ?_⟩
      rcases mem_cons.mp hl with rfl | hl
      · -- the list was left at its last element
        rw [show m + 1 = l.length by omega] at hend
        rw [ListEnd.Fits, hend]
        exact Nat.mod_lt _ (Nat.two_pow_pos _)
      · exact hall (by omega) l hl
    next =>
      cases hnext
      simp only [Iterator.left, headD_cons, tail_cons, length_cons] at hle hall ⊢
      exact ⟨by omega, fun heq => hall (by omega)⟩
  next => cases h

/-! ## Runs -/

theorem length_le_flatten (h : ∀ l ∈ lists, l ≠ []) : lists.length ≤ lists.flatten.length := by
  induction lists with
  | nil => exact le_refl 0
  | cons list lists ih => ?_
  have hpos := length_pos_of_ne_nil (h list mem_cons_self)
  have hle := ih fun l hl => h l (mem_cons_of_mem _ hl)
  rw [flatten_cons, length_append, length_cons]
  omega

def attached (a : ListArray α) (calls : List (List α)) : List α := calls.reverse.flatten ++ a.lists

theorem attachAll_spec (calls : List (List α)) : ∀ a : ListArray α,
    (attached a calls).length < 2 ^ 32 →
    ∃ a', a.attachAll calls = some a' ∧ a'.lists = attached a calls := by
  induction calls with
  | nil =>
    intro a _
    exact ⟨a, rfl, rfl⟩
  | cons added calls ih => ?_
  intro a hlt
  have hattached : attached a (added :: calls) = attached (a.attachLists added) calls := by
    simp [attached]
  rw [hattached] at hlt ⊢
  obtain ⟨a', hrun, hlists⟩ := ih _ hlt
  refine ⟨a', ?_, hlists⟩
  rw [attached, lists_attachLists, length_append, length_append] at hlt
  rw [attachAll, attachLists32]
  -- a call with no lists returns at once
  by_cases hnil : added = []
  · rw [if_pos hnil]
    rwa [hnil, show a.attachLists [] = a from if_pos rfl] at hrun
  · rw [if_neg hnil, if_pos (by omega)]
    exact hrun

/-- **A list array is the concatenation of the attached lists**, later calls first, to the iterator
and to `count()`, exactly if 32 bits can count the elements and hold the end of each list. -/
theorem list_array_is_concatenation_iff (k : ListEnd) (a : ListArray (List ε))
    (calls : List (List (List ε))) (hlists : ∀ l ∈ attached a calls, l ≠ []) :
    (∃ a', a.attachAll calls = some a' ∧
        a'.begin_.collect k ((attached a calls).flatten.length + 1)
          = some (attached a calls).flatten ∧
        a'.count = (attached a calls).flatten.length) ↔
      (attached a calls).flatten.length < 2 ^ 32 ∧ ∀ l ∈ attached a calls, k.Fits l := by
  have hle := length_le_flatten hlists
  constructor
  · rintro ⟨a', hrun, hcollect, hcount⟩
    have hlt : (attached a calls).flatten.length < 2 ^ 32 := by
      -- `count()` adds up in 32 bits
      rw [← hcount, count_eq]
      exact Nat.mod_lt _ (Nat.two_pow_pos 32)
    refine ⟨hlt, ?_⟩
    obtain ⟨a'', hrun', heq⟩ := attachAll_spec calls a (by omega)
    rw [hrun] at hrun'
    cases hrun'
    have hfits := (collect_length _ hcollect).2
    rw [← heq] at hfits ⊢
    refine hfits ?_
    unfold begin_ Iterator.start Iterator.left
    cases a'.lists <;> simp
  rintro ⟨hlt, hfits⟩
  obtain ⟨a', hrun, heq⟩ := attachAll_spec calls a (by omega)
  rw [← heq] at hlists hlt hfits ⊢
  refine ⟨a', hrun, collect_eq hlists hfits, ?_⟩
  rw [count_eq, Nat.mod_eq_of_lt hlt]

theorem three_calls_concatenate :
    ∃ a', attachAll empty [[[1]], [[2, 3], [4]], [[5]]] = some a' ∧
      a'.begin_.collect propertyList 6 = some [5, 2, 3, 4, 1] ∧ a'.count = 5 := by
  refine (list_array_is_concatenation_iff propertyList empty [[[1]], [[2, 3], [4]], [[5]]]
    (by decide)).mpr ⟨by decide, ?_⟩
  unfold ListEnd.Fits
  decide

theorem large_list_is_not_iterated :
    ∃ a', attachAll empty [[replicate (2 ^ 28) ()]] = some a' ∧ a'.count = 2 ^ 28 ∧
      ∀ fuel, a'.begin_.collect propertyList fuel = none := by
  have hoffset : propertyList.offset (replicate (2 ^ 28) ()) = 0 := by
    rw [ListEnd.offset, length_replicate]
    decide
  have hattach : attachAll empty [[replicate (2 ^ 28) ()]] = some (one (replicate (2 ^ 28) ())) := by
    rw [attachAll, attachLists32, if_neg (cons_ne_nil _ _), if_pos (by decide)]
    rfl
  refine ⟨_, hattach, ?_, fun fuel => ?_⟩
  · rw [count_eq, show (one (replicate (2 ^ 28) ())).lists.flatten = replicate (2 ^ 28) () from
      append_nil _, length_replicate]
    decide
  cases fuel with
  | zero => rfl
  | succ fuel =>
    have hnext : (Iterator.start [replicate (2 ^ 28) ()]).next propertyList = none := by
      rw [Iterator.next, Iterator.start]
      simp only [hoffset, Nat.zero_mul, if_true]
    rw [Iterator.collect, show (one (replicate (2 ^ 28) ())).begin_
      = Iterator.start [replicate (2 ^ 28) ()] from rfl, hnext, if_neg
        (show ¬ (Iterator.start [replicate (2 ^ 28) ()]).lists = [] from cons_ne_nil _ _)]
    split
    next h => cases h
    next => rfl

end ObjcRuntime.ListArray
