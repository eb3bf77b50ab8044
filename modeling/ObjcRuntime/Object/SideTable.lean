/-
THE SIDE-TABLE WORD.

`RefcountMap` maps an object to one word:

bit 0                  SIDE_TABLE_WEAKLY_REFERENCED
bit 1                  SIDE_TABLE_DEALLOCATING
bits 2 .. WORD_BITS-2  the count (unit SIDE_TABLE_RC_ONE)
bit WORD_BITS-1        SIDE_TABLE_RC_PINNED

An object may have no word at all (`none`). Every side-table function of
NSObject.mm is a transformer of that optional word; the sequential and the
interleaved models both apply these transformers. Each has one spec lemma
in terms of the three readings `rcOf`, `deallocatingOf` and `weakOf`.
-/
import Mathlib.Data.Nat.Bitwise
import ObjcRuntime.Object.Isa

namespace ObjcRuntime

open Option Nat Bool

/-! ## Constants and readings -/

def SIDE_TABLE_WEAKLY_REFERENCED : Nat := 1
def SIDE_TABLE_DEALLOCATING : Nat := 2
def SIDE_TABLE_RC_ONE : Nat := 4
def SIDE_TABLE_RC_SHIFT : Nat := 2
def SIDE_TABLE_FLAG_MASK : Nat := SIDE_TABLE_RC_ONE - 1

variable (L : Layout)

def SIDE_TABLE_RC_PINNED : Nat := 2 ^ (L.WORD_BITS - 1)

def pinLimit : Nat := 2 ^ (L.WORD_BITS - 3)

/-- The entry of an object in `RefcountMap`. -/
abbrev SideWord := Option Nat

def rcOf (r : SideWord) : Nat := r.getD 0 >>> SIDE_TABLE_RC_SHIFT

def deallocatingOf (r : SideWord) : Bool := (r.getD 0 &&& SIDE_TABLE_DEALLOCATING) != 0

def weakOf (r : SideWord) : Bool := (r.getD 0 &&& SIDE_TABLE_WEAKLY_REFERENCED) != 0

@[simp] theorem rcOf_none : rcOf none = 0 := by decide
@[simp] theorem deallocatingOf_none : deallocatingOf none = false := by decide
@[simp] theorem weakOf_none : weakOf none = false := by decide

def isPinned (w : Nat) : Bool := (w &&& SIDE_TABLE_RC_PINNED L) != 0

/-! ## The readings as arithmetic -/

theorem and_two_pow_ne_zero (w i : Nat) : ((w &&& 2 ^ i) != 0) = w.testBit i := by
  rw [and_two_pow]
  cases h : w.testBit i <;> simp

theorem rcOf_eq (r : SideWord) : rcOf r = r.getD 0 / 4 := by
  unfold rcOf SIDE_TABLE_RC_SHIFT
  rw [shiftRight_eq_div_pow]

theorem deallocatingOf_eq (r : SideWord) : deallocatingOf r = decide (r.getD 0 / 2 % 2 = 1) := by
  show ((r.getD 0 &&& 2 ^ 1) != 0) = _
  rw [and_two_pow_ne_zero (r.getD 0) 1, testBit_eq_decide_div_mod_eq, pow_one]

theorem weakOf_eq (r : SideWord) : weakOf r = decide (r.getD 0 % 2 = 1) := by
  show ((r.getD 0 &&& 2 ^ 0) != 0) = _
  rw [and_two_pow_ne_zero (r.getD 0) 0, Nat.testBit_eq_decide_div_mod_eq, Nat.pow_zero, Nat.div_one]

theorem or_deallocating (w : Nat) : w ||| SIDE_TABLE_DEALLOCATING = w / 4 * 4 + 2 + w % 2 := by
  have hdecomp : w / 4 * 4 + 2 + w % 2 = 2 ^ 2 * (w / 4) + (2 + w % 2) := by ring
  apply eq_of_testBit_eq
  intro i
  rw [hdecomp, testBit_two_pow_mul_add _ (by omega), testBit_or]
  unfold SIDE_TABLE_DEALLOCATING
  match i with
  | 0 =>
    rcases mod_two_eq_zero_or_one w with h | h <;> simp [testBit_zero, h]
  | 1 =>
    have h2 : testBit 2 1 = true := by decide
    have h3 : testBit 3 1 = true := by decide
    rcases mod_two_eq_zero_or_one w with h | h <;> simp [h, h2, h3]
  | i + 2 =>
    have h2 : Nat.testBit 2 (i + 2) = false := Nat.testBit_lt_two_pow (by
      rw [Nat.pow_add]; have := Nat.two_pow_pos i; omega)
    rw [h2, Bool.or_false, if_neg (by omega), Nat.add_sub_cancel,
        show w / 4 = w / 2 ^ 2 from rfl, testBit_div_two_pow]

theorem or_weakly_referenced (w : Nat) : w ||| SIDE_TABLE_WEAKLY_REFERENCED = w / 2 * 2 + 1 := by
  have hdecomp : w / 2 * 2 + 1 = 2 ^ 1 * (w / 2) + 1 := by ring
  apply eq_of_testBit_eq
  intro i
  rw [hdecomp, testBit_two_pow_mul_add _ (by omega), testBit_or]
  unfold SIDE_TABLE_WEAKLY_REFERENCED
  match i with
  | 0 => simp
  | i + 1 =>
    have h1 : Nat.testBit 1 (i + 1) = false := Nat.testBit_lt_two_pow (by
      rw [Nat.pow_succ]; have := Nat.two_pow_pos i; omega)
    rw [h1, Bool.or_false, if_neg (by omega), Nat.add_sub_cancel,
        show w / 2 = w / 2 ^ 1 from rfl, testBit_div_two_pow]

theorem pinned_eq : SIDE_TABLE_RC_PINNED L = 4 * pinLimit L := by
  have h := L.fits
  unfold SIDE_TABLE_RC_PINNED pinLimit
  rw [show L.WORD_BITS - 1 = 2 + (L.WORD_BITS - 3) by omega, Nat.pow_add]

theorem word_eq : 2 ^ L.WORD_BITS = 8 * pinLimit L := by
  have h := L.fits
  unfold pinLimit
  rw [show L.WORD_BITS = 3 + (L.WORD_BITS - 3) by omega, pow_add]
  simp

theorem isPinned_eq_false {w : Nat} (h : w < 4 * pinLimit L) : isPinned L w = false := by
  unfold isPinned SIDE_TABLE_RC_PINNED
  rw [and_two_pow_ne_zero]
  refine testBit_lt_two_pow ?_
  rw [← pinned_eq] at h
  exact h

/-! ## The transformers, as NSObject.mm writes them -/

/-- `sidetable_retain`: `table.refcnts[this]` creates the entry. -/
def sidetable_retain (r : SideWord) : SideWord :=
  let refcnt := r.getD 0
  if isPinned L refcnt then some refcnt
  else some ((refcnt + SIDE_TABLE_RC_ONE) % 2 ^ L.WORD_BITS)

def sidetable_tryRetain (r : SideWord) : SideWord × Bool :=
  match r with
  | none => (some SIDE_TABLE_RC_ONE, true)
  | some w =>
    if deallocatingOf (some w) then (some w, false)
    else if isPinned L w then (some w, true)
    else (some ((w + SIDE_TABLE_RC_ONE) % 2 ^ L.WORD_BITS), true)

/-- `sidetable_release`; the result says whether to deallocate. -/
def sidetable_release (r : SideWord) : SideWord × Bool :=
  match r with
  | none => (some SIDE_TABLE_DEALLOCATING, true)
  | some w =>
    if w < SIDE_TABLE_DEALLOCATING then
      -- SIDE_TABLE_WEAKLY_REFERENCED may be set and stays
      (some (w ||| SIDE_TABLE_DEALLOCATING), true)
    else if isPinned L w then (some w, false)
    else (some ((w + 2 ^ L.WORD_BITS - SIDE_TABLE_RC_ONE) % 2 ^ L.WORD_BITS), false)

/-- `sidetable_addExtraRC_nolock`; the result says whether the object is now pinned. -/
def sidetable_addExtraRC_nolock (r : SideWord) (delta_rc : Nat) : SideWord × Bool :=
  let oldRefcnt := r.getD 0
  if isPinned L oldRefcnt then (some oldRefcnt, true)
  else
    let (newRefcnt, carry) :=
      addc L.WORD_BITS oldRefcnt (delta_rc <<< SIDE_TABLE_RC_SHIFT % 2 ^ L.WORD_BITS) 0
    if carry then
      (some (SIDE_TABLE_RC_PINNED L ||| (oldRefcnt &&& SIDE_TABLE_FLAG_MASK)), true)
    else (some newRefcnt, false)

/-- `sidetable_subExtraRC_nolock`; the result is the count actually removed. -/
def sidetable_subExtraRC_nolock (r : SideWord) (delta_rc : Nat) : SideWord × Nat :=
  match r with
  | none => (none, 0)
  | some 0 => (some 0, 0)
  | some oldRefcnt =>
    (some ((oldRefcnt + 2 ^ L.WORD_BITS - delta_rc <<< SIDE_TABLE_RC_SHIFT % 2 ^ L.WORD_BITS)
      % 2 ^ L.WORD_BITS), delta_rc)

def sidetable_moveExtraRC_nolock (r : SideWord) (extra_rc : Nat)
    (isDeallocating weaklyReferenced : Bool) : SideWord :=
  let oldRefcnt := r.getD 0
  let (sum, carry) :=
    addc L.WORD_BITS oldRefcnt (extra_rc <<< SIDE_TABLE_RC_SHIFT % 2 ^ L.WORD_BITS) 0
  let refcnt := if carry then SIDE_TABLE_RC_PINNED L else sum
  let refcnt := if isDeallocating then refcnt ||| SIDE_TABLE_DEALLOCATING else refcnt
  let refcnt := if weaklyReferenced then refcnt ||| SIDE_TABLE_WEAKLY_REFERENCED else refcnt
  some refcnt

def sidetable_setWeaklyReferenced_nolock (r : SideWord) : SideWord :=
  some (r.getD 0 ||| SIDE_TABLE_WEAKLY_REFERENCED)

def sidetable_retainCount (r : SideWord) : Nat := 1 + rcOf r

/-! ## Spec lemmas -/

variable {L}

theorem readings_of_parts (c : Nat) (d w : Bool) :
    rcOf (some (4 * c + 2 * d.toNat + w.toNat)) = c
      ∧ deallocatingOf (some (4 * c + 2 * d.toNat + w.toNat)) = d
      ∧ weakOf (some (4 * c + 2 * d.toNat + w.toNat)) = w := by
  rw [rcOf_eq, deallocatingOf_eq, weakOf_eq]
  refine ⟨?_, ?_, ?_⟩ <;> cases d <;> cases w <;> simp <;> omega

theorem word_parts (r : SideWord) :
    r.getD 0 = 4 * rcOf r + 2 * (deallocatingOf r).toNat + (weakOf r).toNat := by
  rw [rcOf_eq, deallocatingOf_eq, weakOf_eq]
  by_cases h1 : r.getD 0 / 2 % 2 = 1 <;> by_cases h2 : r.getD 0 % 2 = 1 <;>
    simp [h1, h2] <;> omega

variable {r : SideWord}

theorem word_lt (h : rcOf r < pinLimit L) : r.getD 0 < 4 * pinLimit L := by
  have hw := word_parts r
  have hd := toNat_le (deallocatingOf r)
  have hk := toNat_le (weakOf r)
  omega

theorem readings_add (n : Nat) :
    rcOf (some (r.getD 0 + 4 * n)) = rcOf r + n
      ∧ deallocatingOf (some (r.getD 0 + 4 * n)) = deallocatingOf r
      ∧ weakOf (some (r.getD 0 + 4 * n)) = weakOf r := by
  have hw := word_parts r
  have hp := readings_of_parts (rcOf r + n) (deallocatingOf r) (weakOf r)
  rw [show r.getD 0 + 4 * n
        = 4 * (rcOf r + n) + 2 * (deallocatingOf r).toNat + (weakOf r).toNat by omega]
  exact hp

variable {n : Nat}

theorem readings_sub (h : n ≤ rcOf r) :
    rcOf (some (r.getD 0 - 4 * n)) = rcOf r - n
      ∧ deallocatingOf (some (r.getD 0 - 4 * n)) = deallocatingOf r
      ∧ weakOf (some (r.getD 0 - 4 * n)) = weakOf r := by
  have hw := word_parts r
  have hp := readings_of_parts (rcOf r - n) (deallocatingOf r) (weakOf r)
  rw [show r.getD 0 - 4 * n
        = 4 * (rcOf r - n) + 2 * (deallocatingOf r).toNat + (weakOf r).toNat by omega]
  exact hp

theorem shiftLeft_rc (n : Nat) : n <<< SIDE_TABLE_RC_SHIFT = 4 * n := by
  unfold SIDE_TABLE_RC_SHIFT
  rw [shiftLeft_eq, mul_comm]

theorem sidetable_retain_spec (h : rcOf r < pinLimit L) :
    rcOf (sidetable_retain L r) = rcOf r + 1
      ∧ deallocatingOf (sidetable_retain L r) = deallocatingOf r
      ∧ weakOf (sidetable_retain L r) = weakOf r := by
  have hlt := word_lt h
  have hstep : sidetable_retain L r = some (r.getD 0 + 4 * 1) := by
    unfold sidetable_retain SIDE_TABLE_RC_ONE
    simp only [isPinned_eq_false L hlt, false_eq_true, if_false]
    rw [mod_eq_of_lt (by rw [word_eq]; omega)]
  rw [hstep]
  exact readings_add 1

theorem sidetable_tryRetain_spec (h : rcOf r < pinLimit L) :
    sidetable_tryRetain L r
      = if deallocatingOf r then (r, false) else (sidetable_retain L r, true) := by
  have hlt := word_lt h
  unfold sidetable_tryRetain sidetable_retain
  cases r with
  | none =>
    have hz : isPinned L 0 = false := isPinned_eq_false L (by simpa using hlt)
    have hd : deallocatingOf none = false := rfl
    have hm : SIDE_TABLE_RC_ONE < 2 ^ L.WORD_BITS := by
      have := Nat.two_pow_pos (L.WORD_BITS - 3)
      rw [word_eq]; unfold SIDE_TABLE_RC_ONE pinLimit; omega
    simp [hz, hd, mod_eq_of_lt hm]
  | some w =>
    have hz : isPinned L w = false := isPinned_eq_false L (by simpa using hlt)
    simp [hz]

theorem sidetable_release_last (h : rcOf r = 0) (hd : deallocatingOf r = false) :
    (sidetable_release L r).2 = true ∧ rcOf (sidetable_release L r).1 = 0
      ∧ deallocatingOf (sidetable_release L r).1 = true
      ∧ weakOf (sidetable_release L r).1 = weakOf r := by
  have hw := word_parts r
  rw [h, hd] at hw
  cases r with
  | none =>
    rw [show sidetable_release L none = (some 2, true) from rfl]
    decide
  | some w => ?_
  simp only [getD_some, toNat_false, mul_zero, zero_add] at hw
  have hcase : w = 0 ∨ w = 1 := by
    have hk := toNat_le (weakOf (some w))
    omega
  rcases hcase with rfl | rfl
  · rw [show sidetable_release L (some 0) = (some 2, true) from rfl]
    decide
  · rw [show sidetable_release L (some 1) = (some 3, true) from rfl]
    decide

theorem sidetable_release_counted (hc : 0 < rcOf r) (h : rcOf r < pinLimit L) :
    (sidetable_release L r).2 = false ∧ rcOf (sidetable_release L r).1 = rcOf r - 1
      ∧ deallocatingOf (sidetable_release L r).1 = deallocatingOf r
      ∧ weakOf (sidetable_release L r).1 = weakOf r := by
  have hlt := word_lt h
  have hw := word_parts r
  have hstep : sidetable_release L r = (some (r.getD 0 - 4 * 1), false) := by
    cases r with
    | none => exact absurd hc (by decide)
    | some w => ?_
    simp only [getD_some] at hw hlt
    have hge : ¬ w < SIDE_TABLE_DEALLOCATING := by unfold SIDE_TABLE_DEALLOCATING; omega
    unfold sidetable_release SIDE_TABLE_RC_ONE
    simp only [if_neg hge, isPinned_eq_false L hlt, false_eq_true, if_false, getD_some]
    have hword := word_eq L
    rw [show w + 2 ^ L.WORD_BITS - 4 = w - 4 * 1 + 2 ^ L.WORD_BITS by omega,
        add_mod_right, mod_eq_of_lt (by rw [word_eq]; omega)]
  rw [hstep]
  exact ⟨rfl, readings_sub hc⟩

theorem sidetable_addExtraRC_spec (h : rcOf r + n < pinLimit L) :
    (sidetable_addExtraRC_nolock L r n).2 = false
      ∧ rcOf (sidetable_addExtraRC_nolock L r n).1 = rcOf r + n
      ∧ deallocatingOf (sidetable_addExtraRC_nolock L r n).1 = deallocatingOf r
      ∧ weakOf (sidetable_addExtraRC_nolock L r n).1 = weakOf r := by
  have hlt := word_lt (L := L) (r := r) (by omega)
  have hstep : sidetable_addExtraRC_nolock L r n = (some (r.getD 0 + 4 * n), false) := by
    unfold sidetable_addExtraRC_nolock addc
    simp only [isPinned_eq_false L hlt, false_eq_true, if_false, shiftLeft_rc]
    have hn : 4 * n % 2 ^ L.WORD_BITS = 4 * n := mod_eq_of_lt (by rw [word_eq]; omega)
    have hsum : r.getD 0 + 4 * n < 2 ^ L.WORD_BITS := by rw [word_eq]; omega
    rw [hn, add_zero, mod_eq_of_lt hsum, decide_eq_false (by omega)]
    rfl
  rw [hstep]
  exact ⟨rfl, readings_add n⟩

theorem sidetable_subExtraRC_spec (hn : 0 < n) (hle : n ≤ rcOf r) (h : rcOf r < pinLimit L) :
    (sidetable_subExtraRC_nolock L r n).2 = n
      ∧ rcOf (sidetable_subExtraRC_nolock L r n).1 = rcOf r - n
      ∧ deallocatingOf (sidetable_subExtraRC_nolock L r n).1 = deallocatingOf r
      ∧ weakOf (sidetable_subExtraRC_nolock L r n).1 = weakOf r := by
  have hlt := word_lt h
  have hw := word_parts r
  have hstep : sidetable_subExtraRC_nolock L r n = (some (r.getD 0 - 4 * n), n) := by
    match r, hle, hw, hlt with
    | none, hle, _, _ => exact absurd hle (by rw [rcOf_eq]; simp; omega)
    | some 0, hle, _, _ => exact absurd hle (by rw [rcOf_eq]; simp; omega)
    | some (w + 1), hle, hw, hlt =>
      simp only [getD_some] at hw hlt
      unfold sidetable_subExtraRC_nolock
      simp only [shiftLeft_rc, getD_some]
      have hnw : 4 * n % 2 ^ L.WORD_BITS = 4 * n := mod_eq_of_lt (by rw [word_eq]; omega)
      rw [hnw, show w + 1 + 2 ^ L.WORD_BITS - 4 * n = w + 1 - 4 * n + 2 ^ L.WORD_BITS by omega,
          add_mod_right, mod_eq_of_lt (by rw [word_eq]; omega)]
  rw [hstep]
  exact ⟨rfl, readings_sub hle⟩

theorem sidetable_subExtraRC_empty (h : r.getD 0 = 0) :
    sidetable_subExtraRC_nolock L r n = (r, 0) := by
  match r, h with
  | none, _ => rfl
  | some 0, _ => rfl

theorem sidetable_moveExtraRC_spec {d w : Bool} (hd : deallocatingOf r = false)
    (hk : weakOf r = false) (h : rcOf r + n < pinLimit L) :
    rcOf (sidetable_moveExtraRC_nolock L r n d w) = rcOf r + n
      ∧ deallocatingOf (sidetable_moveExtraRC_nolock L r n d w) = d
      ∧ weakOf (sidetable_moveExtraRC_nolock L r n d w) = w := by
  have hw := word_parts r
  rw [hd, hk] at hw
  simp only [toNat_false, mul_zero, add_zero] at hw
  have hstep : sidetable_moveExtraRC_nolock L r n d w
      = some (4 * (rcOf r + n) + 2 * d.toNat + w.toNat) := by
    unfold sidetable_moveExtraRC_nolock addc
    have hn : 4 * n % 2 ^ L.WORD_BITS = 4 * n := mod_eq_of_lt (by rw [word_eq]; omega)
    have hsum : r.getD 0 + 4 * n < 2 ^ L.WORD_BITS := by rw [word_eq]; omega
    simp only [shiftLeft_rc, hn, add_zero, mod_eq_of_lt hsum,
      decide_eq_false (show ¬ 2 ^ L.WORD_BITS ≤ r.getD 0 + 4 * n by omega),
      false_eq_true, if_false]
    cases d <;> cases w <;>
      simp only [false_eq_true, if_false, if_true, or_deallocating, or_weakly_referenced,
        toNat_false, toNat_true, some.injEq] <;> omega
  rw [hstep]
  exact readings_of_parts _ _ _

theorem sidetable_setWeaklyReferenced_spec (r : SideWord) :
    rcOf (sidetable_setWeaklyReferenced_nolock r) = rcOf r
      ∧ deallocatingOf (sidetable_setWeaklyReferenced_nolock r) = deallocatingOf r
      ∧ weakOf (sidetable_setWeaklyReferenced_nolock r) = true := by
  have hw := word_parts r
  have hk := toNat_le (weakOf r)
  have hstep : sidetable_setWeaklyReferenced_nolock r
      = some (4 * rcOf r + 2 * (deallocatingOf r).toNat + true.toNat) := by
    unfold sidetable_setWeaklyReferenced_nolock
    rw [or_weakly_referenced, hw]
    simp only [toNat_true, some.injEq]
    omega
  rw [hstep]
  exact readings_of_parts _ _ _

end ObjcRuntime
