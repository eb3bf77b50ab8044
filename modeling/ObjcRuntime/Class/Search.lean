/-
A METHOD LIST IS SEARCHED WHERE IT WAS SORTED.

objc-runtime-new.mm, `fixupMethodList` and `findMethodInSortedMethodList`.
The names of a compiled list are C strings of their image; `fixupMethodList`
replaces each by the registered selector and sorts the list by address.
-/
import Mathlib.Data.Nat.Bitwise
import ObjcRuntime.Class.MethodLists

namespace ObjcRuntime

open Lib List Option

/-! ## Every read checked -/

/-- `rewind` with its reads checked; `none` is a read outside of the list. -/
def rewindChecked (list : List Method) (key : SEL) : Nat → Option Nat
  | 0 => some 0
  | probe + 1 =>
    match list[probe]? with
    | none => none
    | some m => if m.name = key then rewindChecked list key probe else some (probe + 1)

def bisectChecked (list : List Method) (key : SEL) : Nat → Nat → Nat → Option (Option Nat)
  | 0, _, _ => none
  | fuel + 1, base, count =>
    if count = 0 then some none
    else
      match list[base + count / 2]? with
      | none => none
      | some probe =>
        if key = probe.name then (rewindChecked list key (base + count / 2)).map some
        else if key > probe.name then
          bisectChecked list key fuel (base + count / 2 + 1) ((count - 1) / 2)
        else bisectChecked list key fuel base (count / 2)

variable {list : List Method} {key : SEL}

theorem rewindChecked_eq {probe : Nat} (h : probe ≤ list.length) :
    rewindChecked list key probe = some (rewind list key probe) := by
  induction probe with
  | zero => rfl
  | succ probe ih => ?_
  have hget : list[probe]? = some list[probe] := getElem?_eq_getElem h
  rw [rewindChecked, rewind]
  simp only [hget, map_some, some_inj]
  by_cases hname : list[probe].name = key
  · rw [if_pos hname, if_pos hname]
    exact ih (Nat.le_of_succ_le h)
  · rw [if_neg hname, if_neg hname]

theorem bisectChecked_eq : ∀ fuel base count : Nat, count < fuel → base + count ≤ list.length →
    bisectChecked list key fuel base count = some (bisect list key fuel base count) := by
  intro fuel
  induction fuel with
  | zero => intro _ _ h; exact absurd h (Nat.not_lt_zero _)
  | succ fuel ih => ?_
  intro base count hfuel hle
  -- both halves stay inside of `[base, base + count)`, whatever the order of the list
  rw [bisectChecked, bisect]
  by_cases hcount : count = 0
  · rw [if_pos hcount, if_pos hcount]
  rw [if_neg hcount, if_neg hcount]
  have hget : list[base + count / 2]? = some list[base + count / 2] :=
    getElem?_eq_getElem (by omega)
  simp only [hget]
  by_cases heq : key = list[base + count / 2].name
  · rw [if_pos heq, if_pos heq, rewindChecked_eq (by omega), map_some]
  rw [if_neg heq, if_neg heq]
  by_cases hgt : key > list[base + count / 2].name
  · rw [if_pos hgt, if_pos hgt]
    exact ih _ _ (by omega) (by omega)
  · rw [if_neg hgt, if_neg hgt]
    exact ih _ _ (by omega) (by omega)

/-! ## Uniquing and sorting -/

/-- The method with its selector registered: `register` is `sel_registerNameNoLock` of
`sel_cname`. -/
def TypedMethod.uniqued (register : SEL → SEL) (m : TypedMethod) : TypedMethod :=
  { m with name := register m.name }

/-- The methods once `fixupMethodList` has uniqued and sorted them. -/
def uniquedAndSorted (register : SEL → SEL) (mlist : List TypedMethod) : List TypedMethod :=
  (mlist.map (TypedMethod.uniqued register)).insertionSort fun a b => a.name ≤ b.name

/-- `fixupMethodList` of a list whose methods have `entsize` bytes. Its loops run to `end()`, which
is computed in 32 bits: `none` if they leave the list. -/
def fixedUpList (register : SEL → SEL) (entsize : Nat) (mlist : List TypedMethod) :
    Option (List TypedMethod) :=
  if mlist.length * entsize < 2 ^ 32 then some (uniquedAndSorted register mlist) else none

/-- `search_method_list`, as the method that it returns; a `method_t` has 24 bytes. -/
def searchedMethod (methods : List TypedMethod) (fixedUp : Bool) (entsize : Nat) (sel : SEL) :
    Option TypedMethod :=
  (search_method_list methods fixedUp (decide (entsize = 24)) sel).bind fun j => methods[j]?

variable (register : SEL → SEL) (mlist : List TypedMethod) (entsize : Nat) (sel : SEL)

theorem searchedMethod_fixedUp :
    searchedMethod (uniquedAndSorted register mlist) true entsize sel
      = (mlist.map (TypedMethod.uniqued register)).find? fun m => decide (m.name = sel) := by
  have hsorted : (uniquedAndSorted register mlist).Pairwise fun a b => a.name ≤ b.name :=
    pairwise_insertionSort (fun a b : TypedMethod => a.name ≤ b.name) _
  -- the sort is stable, so the first of a selector stays the first
  rw [searchedMethod, search_method_list_eq fun _ => hsorted, firstPlace_bind]
  exact find?_insertionSort (fun m : TypedMethod => m.name) sel _

/-- **The search of a fixed-up list** that is smaller than 2^32 bytes reads inside of the list, and
returns the method that is the first of its selector in the original order.  A list whose selectors
were registered already is searched alike before and after. -/
theorem search_after_fixup (hlen : mlist.length * entsize < 2 ^ 32) :
    ∃ fixed, fixedUpList register entsize mlist = some fixed ∧
      bisectChecked (fixed.map TypedMethod.toMethod) sel (mlist.length + 1) 0 mlist.length
        = some (findMethodInSortedMethodList sel (fixed.map TypedMethod.toMethod)) ∧
      searchedMethod fixed true entsize sel
        = (mlist.find? fun m => decide (register m.name = sel)).map (TypedMethod.uniqued register) ∧
      ((∀ m ∈ mlist, register m.name = m.name) →
        searchedMethod fixed true entsize sel = searchedMethod mlist false entsize sel) := by
  have hlength : ((uniquedAndSorted register mlist).map TypedMethod.toMethod).length
      = mlist.length := by
    rw [length_map, uniquedAndSorted, length_insertionSort, length_map]
  refine ⟨uniquedAndSorted register mlist, if_pos hlen, ?_, ?_, fun hregistered => ?_⟩
  · rw [findMethodInSortedMethodList, hlength]
    exact bisectChecked_eq _ _ _ (by omega) (by omega)
  · rw [searchedMethod_fixedUp, find?_map]
    rfl
  have hsame : mlist.map (TypedMethod.uniqued register) = mlist := by
    conv_rhs => rw [← map_id mlist]
    refine map_congr_left fun m hm => ?_
    show { m with name := register m.name } = m
    rw [hregistered m hm]
  rw [searchedMethod_fixedUp, hsame, searchedMethod, search_method_list, if_neg (by simp),
    firstPlace_bind]

theorem first_duplicate_is_found :
    ∃ fixed, fixedUpList (fun sel => sel + 1) 24 [⟨⟨8, 1⟩, ""⟩, ⟨⟨5, 2⟩, ""⟩, ⟨⟨5, 3⟩, ""⟩]
        = some fixed ∧ searchedMethod fixed true 24 6 = some ⟨⟨6, 2⟩, ""⟩ := by
  obtain ⟨fixed, hfixed, -, hfound, -⟩ := search_after_fixup (fun sel => sel + 1)
    [⟨⟨8, 1⟩, ""⟩, ⟨⟨5, 2⟩, ""⟩, ⟨⟨5, 3⟩, ""⟩] 24 6 (by decide)
  exact ⟨fixed, hfixed, hfound⟩

/-- Before its selectors are uniqued a list is searched in vain: selector 5 is registered as 7. -/
theorem unregistered_selector_is_missed :
    searchedMethod [⟨⟨5, 1⟩, ""⟩] false 24 7 = none ∧
    (fixedUpList (fun _ => 7) 24 [⟨⟨5, 1⟩, ""⟩]).bind (searchedMethod · true 24 7)
      = some ⟨⟨7, 1⟩, ""⟩ := by
  decide +kernel

end ObjcRuntime
