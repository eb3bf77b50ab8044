/-
THE FIRST OF A KEY SURVIVES A STABLE SORT.

Sorting by a key with `insertionSort` keeps the order of the elements that
have one key, so what a search for a key finds first is found first
afterwards.

* `find?_insertionSort`: for a key into any linear order.
-/
import Mathlib.Data.List.Sort
import Mathlib.Order.Defs.LinearOrder

namespace ObjcRuntime.Lib

variable {α κ : Type*} [LinearOrder κ]

theorem find?_orderedInsert (key : α → κ) (k : κ) (a : α) (l : List α) :
    ((l.orderedInsert (fun a b => key a ≤ key b) a).find? fun b => decide (key b = k))
      = (a :: l).find? fun b => decide (key b = k) := by
  induction l with
  | nil => rfl
  | cons b l ih => ?_
  rw [List.orderedInsert_cons]
  by_cases hle : key a ≤ key b
  · rw [if_pos hle]
  rw [if_neg hle, List.find?_cons, ih]
  simp only [List.find?_cons]
  by_cases ha : key a = k
  · -- `b` is smaller, so it is not of this key
    have hb : key b ≠ k := fun hb => hle (by rw [ha, hb])
    simp [ha, hb]
  · simp [ha]

theorem find?_insertionSort (key : α → κ) (k : κ) (l : List α) :
    ((l.insertionSort fun a b => key a ≤ key b).find? fun b => decide (key b = k))
      = l.find? fun b => decide (key b = k) := by
  induction l with
  | nil => rfl
  | cons a l ih =>
    rw [List.insertionSort_cons, find?_orderedInsert, List.find?_cons, ih, List.find?_cons]

end ObjcRuntime.Lib
