/-
LEB128 NUMBERS OF THE EXCEPTION TABLES.

objc-exception.mm, `read_uleb` and `read_sleb`. The byte is promoted to a
32-bit int before it is shifted, so the fifth group is cut off and
sign-extended, and the sixth is shifted too far.
-/
import Mathlib.Data.Nat.Bitwise
import Mathlib.Tactic.IntervalCases
import Mathlib.Tactic.Ring

namespace ObjcRuntime

open List Nat Option

/-! ## The two readers -/

/-- `(byte & 0x7f) << shift` as an int of 32 bits, and then as a uintptr_t of 64. -/
def shiftedByte (byte : UInt8) (shift : Nat) : Option Nat :=
  let x := (byte &&& 0x7f).toNat <<< shift % 2 ^ 32
  -- a shift by the width or more is undefined
  if 32 ≤ shift then none else some (if x < 2 ^ 31 then x else x + (2 ^ 64 - 2 ^ 32))

def lebLoop : List UInt8 → Nat → Nat → Option (Nat × Nat × UInt8 × List UInt8)
  | [], _, _ => none
  | byte :: pp, result, shift =>
    (shiftedByte byte shift).bind fun x =>
      if byte &&& 0x80 ≠ 0 then lebLoop pp (result ||| x) (shift + 7)
      else some (result ||| x, shift + 7, byte, pp)

def read_uleb (pp : List UInt8) : Option (Nat × List UInt8) :=
  (lebLoop pp 0 0).map fun (result, _, _, pp) => (result, pp)

/-- A uintptr_t as an intptr_t. -/
def toSigned (x : Nat) : Int := if x < 2 ^ 63 then x else x - 2 ^ 64

def read_sleb (pp : List UInt8) : Option (Int × List UInt8) :=
  (lebLoop pp 0 0).map fun (result, shift, byte, pp) =>
    (toSigned (if shift < 64 ∧ byte &&& 0x40 ≠ 0 then result ||| (2 ^ 64 - 2 ^ shift) else result), pp)

/-! ## Encodings -/

def continued (g : Fin 128) : UInt8 := .ofNat (g + 128)

/-- The groups of seven bits, the lowest first, of which `last` is the last. -/
def encoding (init : List (Fin 128)) (last : Fin 128) : List UInt8 :=
  init.map continued ++ [.ofNat last]

def groupsValue : List (Fin 128) → Nat
  | [] => 0
  | g :: gs => g + 128 * groupsValue gs

def ulebValue (init : List (Fin 128)) (last : Fin 128) : Nat := groupsValue (init ++ [last])

def slebValue (init : List (Fin 128)) (last : Fin 128) : Int :=
  ulebValue init last - if (last : Nat) < 64 then 0 else 2 ^ (7 * init.length + 7)

theorem groupsValue_append (gs : List (Fin 128)) (g : Fin 128) :
    groupsValue (gs ++ [g]) = groupsValue gs + 2 ^ (7 * gs.length) * g := by
  induction gs with
  | nil => simp [groupsValue]
  | cons g' gs ih =>
    rw [cons_append, groupsValue, ih, groupsValue, length_cons]
    ring

theorem groupsValue_lt (gs : List (Fin 128)) : groupsValue gs < 2 ^ (7 * gs.length) := by
  induction gs with
  | nil => exact one_pos
  | cons g gs ih =>
    rw [groupsValue, length_cons, mul_add, pow_add]
    omega

/-! ## The loop -/

/-- What is left of group number `k`: of the fifth three bits are lost, and the fourth is taken for
the sign. -/
def arrived (k g : Nat) : Nat :=
  if k < 4 then g else if g % 16 < 8 then g % 16 else g % 16 + (2 ^ 36 - 16)

theorem shiftedByte_eq : ∀ (k : Fin 5) (g : Fin 128),
    shiftedByte (continued g) (7 * k) = some (2 ^ (7 * (k : Nat)) * arrived k g) ∧
    shiftedByte (.ofNat g) (7 * k) = some (2 ^ (7 * (k : Nat)) * arrived k g) := by
  decide +kernel

theorem continued_ne_zero : ∀ g, continued g &&& 0x80 ≠ 0 := by
  decide +kernel

theorem last_bits : ∀ g : Fin 128, UInt8.ofNat g &&& 0x80 = 0 ∧
    (UInt8.ofNat g &&& 0x40 ≠ 0 ↔ ¬ (g : Nat) < 64) := by
  decide +kernel

theorem or_eq_add {n result : Nat} (h : result < 2 ^ n) (x : Nat) :
    result ||| 2 ^ n * x = result + 2 ^ n * x := by
  rw [Nat.or_comm, ← Nat.two_pow_add_eq_or_of_lt h, Nat.add_comm]

variable (init : List (Fin 128)) (last : Fin 128) (rest : List UInt8)

theorem lebLoop_groups : ∀ {k result : Nat}, k + init.length ≤ 4 → result < 2 ^ (7 * k) →
    lebLoop (init.map continued ++ rest) result (7 * k)
      = lebLoop rest (result + 2 ^ (7 * k) * groupsValue init) (7 * (k + init.length)) := by
  induction init with
  | nil =>
    intro k result _ _
    rfl
  | cons g init ih => ?_
  intro k result hle hlt
  rw [length_cons] at hle ⊢
  have hnext : result + 2 ^ (7 * k) * g < 2 ^ (7 * (k + 1)) := by
    have hmul := mul_le_mul_left (2 ^ (7 * k)) (le_of_lt_succ g.isLt)
    rw [mul_add, pow_add]
    omega
  have hshift := (shiftedByte_eq ⟨k, by omega⟩ g).1
  rw [arrived, if_pos (show k < 4 by omega)] at hshift
  rw [map_cons, cons_append, lebLoop, hshift, bind_some, if_pos (continued_ne_zero g),
    or_eq_add hlt, show 7 * k + 7 = 7 * (k + 1) by ring, ih (by omega) hnext, groupsValue]
  congr 1
  · ring
  · ring

theorem lebLoop_none (byte : UInt8) : ∀ {shift result : Nat}, 32 ≤ shift + 7 * init.length →
    lebLoop (init.map continued ++ byte :: rest) result shift = none := by
  induction init with
  | nil =>
    intro shift result h
    rw [map_nil, nil_append, lebLoop, shiftedByte, if_pos (show 32 ≤ shift from h), bind_none]
  | cons g init ih => ?_
  intro shift result h
  rw [length_cons] at h
  rw [map_cons, cons_append, lebLoop]
  cases shiftedByte (continued g) shift with
  | none => rfl
  | some x => rw [bind_some, if_pos (continued_ne_zero g), ih (by omega)]

theorem lebLoop_encoding (h : init.length ≤ 4) : lebLoop (encoding init last ++ rest) 0 0
    = some (groupsValue init + 2 ^ (7 * init.length) * arrived init.length last,
      7 * init.length + 7, .ofNat last, rest) := by
  rw [encoding, append_assoc, show 0 = 7 * 0 from rfl, lebLoop_groups init _ (by omega) one_pos,
    singleton_append, lebLoop, zero_add, (shiftedByte_eq ⟨init.length, by omega⟩ last).2,
    bind_some, (last_bits last).1, mul_zero, pow_zero, one_mul, zero_add,
    or_eq_add (groupsValue_lt init)]
  rfl

theorem or_high {n result : Nat} (h : result < 2 ^ n) (hn : n ≤ 57) (x : Nat) :
    (result + 2 ^ n * x) ||| (2 ^ 64 - 2 ^ (n + 7))
      = result + 2 ^ n * (x ||| (2 ^ (64 - n) - 2 ^ 7)) := by
  have hmul : 2 ^ 64 - 2 ^ (n + 7) = 2 ^ n * (2 ^ (64 - n) - 2 ^ 7) := by
    rw [Nat.mul_sub, ← pow_add, ← pow_add, Nat.add_sub_cancel' (by omega)]
  have hor : 2 ^ n * (x ||| (2 ^ (64 - n) - 2 ^ 7)) = 2 ^ n * x ||| 2 ^ n * (2 ^ (64 - n) - 2 ^ 7) := by
    rw [Nat.mul_comm, ← Nat.shiftLeft_eq, Nat.shiftLeft_or_distrib, Nat.shiftLeft_eq, Nat.shiftLeft_eq,
      Nat.mul_comm x, Nat.mul_comm (2 ^ (64 - n) - 2 ^ 7)]
  rw [hmul, ← or_eq_add h, Nat.or_assoc, ← hor, or_eq_add h]

theorem arrived_cases : ∀ (k : Fin 5) (g : Fin 128) (high : Nat),
    high = 2 ^ (64 - 7 * (k : Nat)) - 2 ^ 7 →
    (k : Nat) < 4 ∧ arrived k g = g ∧ arrived k g ||| high = g + high ∨
    (k : Nat) = 4 ∧ (g : Nat) % 16 < 8 ∧ arrived k g = g % 16 ∧ arrived k g ||| high = g % 16 + high ∨
    (k : Nat) = 4 ∧ 8 ≤ (g : Nat) % 16 ∧ arrived k g = g % 16 + (2 ^ 36 - 16) ∧
      arrived k g ||| high = arrived k g := by
  simp only [forall_eq]
  decide +kernel

/-- **`read_uleb` and `read_sleb` read an encoding** exactly if its value fits in 31 bits of an
int: the fifth group is the last, and only its low three bits differ from the sign. -/
theorem leb_is_read_iff :
    (read_uleb (encoding init last ++ rest) = some (ulebValue init last, rest) ↔
      init.length < 4 ∨ init.length = 4 ∧ (last : Nat) < 8) ∧
    (read_sleb (encoding init last ++ rest) = some (slebValue init last, rest) ↔
      init.length < 4 ∨ init.length = 4 ∧ ((last : Nat) < 8 ∨ 120 ≤ (last : Nat))) := by
  rcases lt_or_ge 4 init.length with hlen | hlen
  · -- the sixth group is shifted by 35
    have hnone : lebLoop (encoding init last ++ rest) 0 0 = none := by
      rw [encoding, append_assoc, singleton_append, lebLoop_none init rest _ (by omega)]
    rw [read_uleb, read_sleb, hnone]
    exact ⟨iff_of_false (by simp) (by omega), iff_of_false (by simp) (by omega)⟩
  have hlt := groupsValue_lt init
  have hsign := (last_bits last).2
  have harrived := arrived_cases ⟨init.length, by omega⟩ last _ rfl
  have hloop := lebLoop_encoding init last rest hlen
  have hvalue : ulebValue init last = _ := groupsValue_append init last
  rw [read_uleb, read_sleb, hloop, slebValue, hvalue]
  simp only [map_some, some.injEq, Prod.mk.injEq, and_true]
  simp only at harrived
  generalize init.length = n at hlen hlt harrived ⊢
  refine ⟨?_, ?_⟩
  · rw [Nat.add_left_cancel_iff, Nat.mul_right_inj (Nat.two_pow_pos _).ne']
    omega
  rw [or_high hlt (by omega)]
  by_cases hneg : (last : Nat) < 64
  · rw [if_neg fun h => hsign.mp h.2 hneg, if_pos hneg, toSigned]
    interval_cases n <;> omega
  · rw [if_pos ⟨by omega, hsign.mpr hneg⟩, if_neg hneg, toSigned]
    interval_cases n <;> omega

/-- 2^31 in five bytes is read as 2^64 - 2^31. -/
theorem large_uleb_is_extended :
    ulebValue [0, 0, 0, 0] 8 = 2 ^ 31 ∧
      read_uleb (encoding [0, 0, 0, 0] 8) = some (2 ^ 64 - 2 ^ 31, []) := by
  decide +kernel

end ObjcRuntime
