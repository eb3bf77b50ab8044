/-
A LIST CUT INTO WINDOWS OF ONE SIZE.

`window n l i` are the elements of `l` from `i * n` up to `(i + 1) * n`. The
last element of a list lies in one window, and only that window changes when it
is added or removed.
-/
import Mathlib.Data.List.Basic

namespace ObjcRuntime.Lib

open List

variable {α : Type*} {n i k : Nat} {l : List α}

def window (n : Nat) (l : List α) (i : Nat) : List α := (l.drop (i * n)).take n

@[simp] theorem length_window : (window n l i).length = min n (l.length - i * n) := by
  simp [window]

theorem window_eq_nil (h : l.length ≤ i * n) : window n l i = [] := by
  rw [window, drop_eq_nil_of_le h, take_nil]

theorem getElem?_window {j : Nat} (h : j < n) : (window n l i)[j]? = l[i * n + j]? := by
  rw [window, getElem?_take_of_lt h, getElem?_drop]

theorem getElem?_window_div_mod (hn : 0 < n) (l : List α) (j : Nat) :
    (window n l (j / n))[j % n]? = l[j]? := by
  rw [getElem?_window (Nat.mod_lt j hn), Nat.div_add_mod']

theorem window_concat (hlow : i * n ≤ l.length) (hup : l.length < (i + 1) * n) (a : α) :
    window n (l ++ [a]) i = window n l i ++ [a] := by
  rw [Nat.succ_mul] at hup
  rw [window, window, drop_append_of_le_length hlow,
    take_of_length_le (by rw [length_append, length_drop, length_singleton]; omega),
    take_of_length_le (by rw [length_drop]; omega)]

theorem window_concat_of_ne (hlow : k * n ≤ l.length) (hup : l.length < (k + 1) * n) (a : α)
    (hne : i ≠ k) : window n (l ++ [a]) i = window n l i := by
  rcases Nat.lt_or_gt_of_ne hne with hlt | hgt
  · have hle : (i + 1) * n ≤ k * n := Nat.mul_le_mul_right n hlt
    rw [Nat.succ_mul] at hle
    rw [window, window, drop_append_of_le_length (by omega),
      take_append_of_le_length (by rw [length_drop]; omega)]
  · have hle : (k + 1) * n ≤ i * n := Nat.mul_le_mul_right n hgt
    rw [window_eq_nil (by rw [length_append, length_singleton]; omega), window_eq_nil (by omega)]

theorem length_window_of_le (hlow : i * n ≤ l.length) (hup : l.length ≤ (i + 1) * n) :
    (window n l i).length = l.length - i * n := by
  rw [Nat.succ_mul] at hup
  rw [length_window]
  omega

end ObjcRuntime.Lib
