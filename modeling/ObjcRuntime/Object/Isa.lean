/-
THE `isa` WORD.

`isa_t` is a union: either a raw class pointer or a bit-field whose most
significant field is the inline retain count `extra_rc`. The bit-field's
width depends on the architecture (8 bits on x86_64, 19 on arm64, 7 on
armv7k), so the whole development is parametric in a `Layout`.

The model keeps the fields apart. That is sound for the retain-count code
because `extra_rc` is the MSB-most field: adding a multiple of `RC_ONE` to
the packed word adds to `extra_rc` and the carry out of the word is the
carry out of the field (`IsaBits.rc_packed`).
-/
import Mathlib.Data.Nat.Basic
import Mathlib.Tactic.Ring

namespace ObjcRuntime

open Nat

/-! ## Machine words -/

/-- `addc` of objc-os.h on `W`-bit words: the sum and the carry. -/
def addc (W lhs rhs carryin : Nat) : Nat × Bool :=
  ((lhs + rhs + carryin) % 2 ^ W, decide (2 ^ W ≤ lhs + rhs + carryin))

/-- `subc` of objc-os.h on `W`-bit words: the difference and the borrow. -/
def subc (W lhs rhs carryin : Nat) : Nat × Bool :=
  ((lhs + 2 ^ W - (rhs + carryin)) % 2 ^ W, decide (lhs < rhs + carryin))

/-- The two widths of a target: `uintptr_t` and the inline `extra_rc` field.
Six flag bits (`nonpointer` up to `has_sidetable_rc`) lie below the field. -/
structure Layout where
  WORD_BITS : Nat
  extraRcBits : Nat
  extraRcBits_pos : 0 < extraRcBits
  fits : extraRcBits + 6 ≤ WORD_BITS

/-- The x86_64 layout of isa.h. -/
def Layout.x86_64 : Layout := ⟨64, 8, by decide, by decide⟩

def Layout.narrow : Layout := ⟨8, 1, by decide, by decide⟩

variable (L : Layout)

/-- One unit of `extra_rc`, as an increment of the packed word. -/
def RC_ONE : Nat := 2 ^ (L.WORD_BITS - L.extraRcBits)

/-- The high bit of `extra_rc`: half of its range. -/
def RC_HALF : Nat := 2 ^ (L.extraRcBits - 1)

/-- The number of values of `extra_rc`. -/
def RC_RANGE : Nat := 2 ^ L.extraRcBits

theorem RC_HALF_pos : 0 < RC_HALF L := Nat.two_pow_pos _

theorem RC_HALF_add_self : RC_HALF L + RC_HALF L = RC_RANGE L := by
  have hpos := L.extraRcBits_pos
  unfold RC_HALF RC_RANGE
  rw [← two_mul, ← pow_succ', show (L.extraRcBits - 1).succ = L.extraRcBits by omega]

theorem RC_HALF_lt_range : RC_HALF L < RC_RANGE L := by
  have h := RC_HALF_add_self L
  have hp := RC_HALF_pos L
  omega

theorem RC_RANGE_pos : 0 < RC_RANGE L := Nat.two_pow_pos _

/-! ## The packed word and its carries -/

/-- The packed isa word: `low` holds every field below `extra_rc`. -/
def packed (extra low : Nat) : Nat := low + extra * RC_ONE L

theorem RC_ONE_mul_range : RC_RANGE L * RC_ONE L = 2 ^ L.WORD_BITS := by
  have hfit := L.fits
  unfold RC_RANGE RC_ONE
  rw [← pow_add, show L.extraRcBits + (L.WORD_BITS - L.extraRcBits) = L.WORD_BITS by omega]

theorem packed_mod (low m : Nat) (hlow : low < RC_ONE L) :
    (low + RC_ONE L * m) % 2 ^ L.WORD_BITS = packed L (m % RC_RANGE L) low := by
  rw [← RC_ONE_mul_range, mul_comm (RC_RANGE L), mod_mul, add_mul_mod_self_left,
    mod_eq_of_lt hlow, add_mul_div_left _ _ (lt_of_le_of_lt (zero_le _) hlow),
    div_eq_of_lt hlow, zero_add]
  unfold packed
  ring

theorem addc_packed (extra low n : Nat) (hlow : low < RC_ONE L) :
    addc L.WORD_BITS (packed L extra low) (RC_ONE L * n) 0
      = (packed L ((extra + n) % RC_RANGE L) low, decide (RC_RANGE L ≤ extra + n)) := by
  have hsum : packed L extra low + RC_ONE L * n + 0 = low + RC_ONE L * (extra + n) := by
    unfold packed; ring
  unfold addc
  rw [hsum, packed_mod L low _ hlow]
  refine Prod.ext rfl ?_
  show decide (2 ^ L.WORD_BITS ≤ low + RC_ONE L * (extra + n)) = _
  rw [← RC_ONE_mul_range, mul_comm (RC_RANGE L)]
  refine decide_eq_decide.mpr ⟨fun h => ?_, fun h => ?_⟩
  · by_contra hlt
    have hmul : RC_ONE L * (extra + n + 1) ≤ RC_ONE L * RC_RANGE L :=
      mul_le_mul_left _ (by omega)
    rw [mul_succ] at hmul
    omega
  · exact le_trans (mul_le_mul_left _ h) (le_add_left _ _)

theorem subc_packed (extra low : Nat) (hlow : low < RC_ONE L) :
    subc L.WORD_BITS (packed L extra low) (RC_ONE L) 0
      = (packed L ((extra + RC_RANGE L - 1) % RC_RANGE L) low, decide (extra = 0)) := by
  have hpos := RC_RANGE_pos L
  have hsum : packed L extra low + 2 ^ L.WORD_BITS - (RC_ONE L + 0)
      = low + RC_ONE L * (extra + RC_RANGE L - 1) := by
    rw [← RC_ONE_mul_range, Nat.mul_sub, Nat.mul_add, mul_comm (RC_RANGE L)]
    have hle : RC_ONE L * 1 ≤ RC_ONE L * RC_RANGE L := mul_le_mul_left _ hpos
    unfold packed
    rw [mul_comm extra]
    omega
  unfold subc
  rw [hsum, packed_mod L low _ hlow]
  refine Prod.ext rfl ?_
  show decide (packed L extra low < RC_ONE L + 0) = _
  refine decide_eq_decide.mpr ⟨fun h => ?_, fun h => ?_⟩
  · by_contra hne
    have hle : 1 * RC_ONE L ≤ extra * RC_ONE L := mul_le_mul_right _ (by omega)
    unfold packed at h
    omega
  · rw [h]
    unfold packed
    omega

/-! ## The two representations of an isa -/

abbrev Class := Nat

/-- What `changeIsa` asks of the new class. -/
structure ClassFlags where
  isFuture : Bool
  canAllocNonpointer : Bool
  hasCxxDtor : Bool
  deriving DecidableEq

/-- `ISA_BITFIELD` of isa.h. `nonpointer` and `magic` are constant and left out;
`cls` is the class that `shiftcls` (or `indexcls`) names. -/
structure IsaBits where
  has_assoc : Bool
  has_cxx_dtor : Bool
  cls : Class
  weakly_referenced : Bool
  deallocating : Bool
  has_sidetable_rc : Bool
  extra_rc : Fin (RC_RANGE L)
  deriving DecidableEq

/-- `isa_t`. A raw isa with no class is the all-zero word. -/
inductive Isa where
  | raw (cls : Option Class)
  | nonpointer (bits : IsaBits L)
  deriving DecidableEq

variable {L}

def Isa.isNonpointer : Isa L → Bool
  | .raw _ => false
  | .nonpointer _ => true

def Isa.extraRc : Isa L → Nat
  | .raw _ => 0
  | .nonpointer b => b.extra_rc

@[simp] theorem Isa.extraRc_raw (c : Option Class) : (Isa.raw c : Isa L).extraRc = 0 := rfl
@[simp] theorem Isa.extraRc_nonpointer (b : IsaBits L) :
    (Isa.nonpointer b).extraRc = b.extra_rc := rfl

/-- `newisa.extra_rc = n`, truncated to the field. -/
def IsaBits.setExtraRc (b : IsaBits L) (n : Nat) : IsaBits L :=
  { b with extra_rc := ⟨n % RC_RANGE L, Nat.mod_lt _ (RC_RANGE_pos L)⟩ }

/-- `addc(bits, RC_ONE * n, 0, &carry)` seen on the fields. -/
def IsaBits.addRC (b : IsaBits L) (n : Nat) : IsaBits L × Bool :=
  (b.setExtraRc (b.extra_rc + n), decide (RC_RANGE L ≤ b.extra_rc + n))

/-- `subc(bits, RC_ONE, 0, &carry)` seen on the fields. -/
def IsaBits.subRC (b : IsaBits L) : IsaBits L × Bool :=
  (b.setExtraRc (b.extra_rc + RC_RANGE L - 1), decide ((b.extra_rc : Nat) = 0))

variable (b : IsaBits L)

/-- **The fields are the word**: `addRC` and `subRC` are what `addc` and `subc` do to the packed
word, and the fields below the count stay. -/
theorem IsaBits.rc_packed (n low : Nat) (hlow : low < RC_ONE L) :
    addc L.WORD_BITS (packed L b.extra_rc low) (RC_ONE L * n) 0
        = (packed L (b.addRC n).1.extra_rc low, (b.addRC n).2) ∧
      subc L.WORD_BITS (packed L b.extra_rc low) (RC_ONE L) 0
        = (packed L b.subRC.1.extra_rc low, b.subRC.2) :=
  ⟨addc_packed L b.extra_rc low n hlow, subc_packed L b.extra_rc low hlow⟩

theorem IsaBits.full_rc_carries :
    addc 64 (packed .x86_64 255 5) (RC_ONE .x86_64 * 1) 0 = (packed .x86_64 0 5, true) :=
  (IsaBits.rc_packed (L := .x86_64) ⟨false, false, 0, false, false, false, ⟨255, by decide⟩⟩
    1 5 (by decide)).1.trans (by decide)

@[simp] theorem IsaBits.setExtraRc_val (b : IsaBits L) (n : Nat) (h : n < RC_RANGE L) :
    ((b.setExtraRc n).extra_rc : Nat) = n := mod_eq_of_lt h

theorem IsaBits.addRC_val (n : Nat) (h : (b.addRC n).2 = false) :
    ((b.addRC n).1.extra_rc : Nat) = b.extra_rc + n := by
  have hlt : (b.extra_rc : Nat) + n < RC_RANGE L := by
    simpa [IsaBits.addRC] using h
  exact b.setExtraRc_val _ hlt

theorem IsaBits.subRC_val (h : b.subRC.2 = false) :
    (b.subRC.1.extra_rc : Nat) + 1 = b.extra_rc := by
  have hne : (b.extra_rc : Nat) ≠ 0 := by simpa [IsaBits.subRC] using h
  show ((b.extra_rc : Nat) + RC_RANGE L - 1) % RC_RANGE L + 1 = b.extra_rc
  rw [show (b.extra_rc : Nat) + RC_RANGE L - 1 = ((b.extra_rc : Nat) - 1) + RC_RANGE L by omega,
      add_mod_right, mod_eq_of_lt (by omega)]
  omega

end ObjcRuntime
