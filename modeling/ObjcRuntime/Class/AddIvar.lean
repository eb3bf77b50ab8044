/-
IVARS OF A CLASS UNDER CONSTRUCTION.

objc-runtime-new.mm, `class_addIvar`. Each new ivar goes to the end of the
instance, rounded up to its alignment. The size and the offset are computed
in 32 bits, the offset is stored in an `int32_t`, and only `size` itself is
checked.
-/
import ObjcRuntime.Class.Ivars

namespace ObjcRuntime

open List Nat Bool

/-! ## The class pair and `class_addIvar` -/

/-- The value of a `uint32_t` in an `int32_t`. -/
def toInt32 (n : Nat) : Int := if n < 2 ^ 31 then n else (n : Int) - 2 ^ 32

/-- An `ivar_t` that `class_addIvar` made; it always has an offset variable. -/
structure AddedIvar where
  offset : Int
  name : Option String
  type : String
  alignment_raw : Nat
  size : Nat
  deriving DecidableEq

/-- Of a class, what `class_addIvar` reads and writes. -/
structure ConstructedClass where
  isMeta : Bool
  /-- RW_CONSTRUCTING -/
  constructing : Bool
  instanceStart : Nat
  instanceSize : Nat
  ivars : List AddedIvar
  deriving DecidableEq

/-- The class of the pair that `objc_initializeClassPair_internal` makes, below a superclass of
the given instance size. -/
def objc_initializeClassPair_internal (is64 : Bool) : Option (Fin (2 ^ 32)) → ConstructedClass
  | some superSize => ⟨false, true, superSize, superSize, []⟩
  | none => ⟨false, true, 0, 2 ^ WORD_SHIFT is64, []⟩

/-- The arguments of `class_addIvar`; `size` is a `size_t`, `alignment` a `uint8_t`. -/
structure AddIvarCall where
  name : Option String
  size : Nat
  alignment : Nat
  type : Option String

def AddIvarCall.realName (call : AddIvarCall) : Option String :=
  call.name.filter fun name => decide (name ≠ "")

/-- `1<<alignment` of an `int`. The language does not say what comes out when the shift leaves
the type; `machine` does. -/
def oneShifted (machine : Nat → Nat) (alignment : Nat) : Nat :=
  if alignment < 31 then 2 ^ alignment else machine alignment

namespace ConstructedClass

def getIvar (cls : ConstructedClass) (name : String) : Option AddedIvar :=
  cls.ivars.find? fun ivar => decide (ivar.name = some name)

/-- The checks of `class_addIvar`. -/
def canAddIvar (cls : ConstructedClass) (call : AddIvarCall) : Bool :=
  !cls.isMeta && cls.constructing &&
    !(call.realName.any (fun name => (cls.getIvar name).isSome) || decide (call.size > 2 ^ 32 - 1))

def newOffset (machine : Nat → Nat) (cls : ConstructedClass) (alignment : Nat) : Nat :=
  let alignMask := u32 (oneShifted machine alignment + (2 ^ 32 - 1))
  u32 (cls.instanceSize + alignMask) &&& not32 alignMask

def class_addIvar (machine : Nat → Nat) (cls : ConstructedClass) (call : AddIvarCall) :
    Bool × ConstructedClass :=
  if cls.canAddIvar call then
    let offset := cls.newOffset machine call.alignment
    (true, { cls with
      ivars := cls.ivars ++
        [⟨toInt32 offset, call.realName, call.type.getD "", call.alignment, call.size⟩]
      instanceSize := u32 (offset + call.size) })
  else (false, cls)

def addIvars (machine : Nat → Nat) (cls : ConstructedClass) (calls : List AddIvarCall) :
    ConstructedClass :=
  calls.foldl (fun cls call => (cls.class_addIvar machine call).2) cls

/-! ## What a layout has to be -/

structure LayoutOK (superSize : Nat) (cls : ConstructedClass) : Prop where
  aligned : ∀ ivar ∈ cls.ivars, (2 : Int) ^ ivar.alignment_raw ∣ ivar.offset
  inside : ∀ ivar ∈ cls.ivars, (superSize : Int) ≤ ivar.offset ∧
    ivar.offset + (ivar.size : Int) ≤ cls.instanceSize
  disjoint : cls.ivars.Pairwise fun a b =>
    a.offset + (a.size : Int) ≤ b.offset ∨ b.offset + (b.size : Int) ≤ a.offset

/-- The first multiple of `2^alignment` from `n` on. -/
def alignUp (n alignment : Nat) : Nat := (n + (2 ^ alignment - 1)) / 2 ^ alignment * 2 ^ alignment

/-- The shift is defined, the offset fits an `int32_t` and the new size a `uint32_t`. -/
def Fits (cls : ConstructedClass) (call : AddIvarCall) : Prop :=
  call.alignment < 31 ∧ alignUp cls.instanceSize call.alignment < 2 ^ 31 ∧
    alignUp cls.instanceSize call.alignment + call.size < 2 ^ 32

instance (cls : ConstructedClass) (call : AddIvarCall) : Decidable (cls.Fits call) :=
  inferInstanceAs (Decidable (_ ∧ _))

def AllFit (machine : Nat → Nat) : ConstructedClass → List AddIvarCall → Prop
  | _, [] => True
  | cls, call :: calls => (cls.canAddIvar call = true → cls.Fits call) ∧
      AllFit machine (cls.class_addIvar machine call).2 calls

/-! ## Rounding -/

theorem alignUp_spec (n alignment : Nat) :
    n ≤ alignUp n alignment ∧ alignUp n alignment < n + 2 ^ alignment ∧
      2 ^ alignment ∣ alignUp n alignment := by
  have hdiv := div_add_mod (n + (2 ^ alignment - 1)) (2 ^ alignment)
  unfold alignUp
  rw [mul_comm] at hdiv
  refine ⟨?_, ?_, dvd_mul_left _ _⟩
  · omega
  · omega

variable {alignment : Nat}

theorem alignMask_eq (machine : Nat → Nat) (h : alignment < 31) :
    u32 (oneShifted machine alignment + (2 ^ 32 - 1)) = 2 ^ alignment - 1 := by
  have hlt : 2 ^ alignment < 2 ^ 31 := Nat.pow_lt_pow_right (by decide) h
  have hpos : 0 < 2 ^ alignment := Nat.two_pow_pos alignment
  rw [oneShifted, if_pos h, u32]
  omega

variable {machine : Nat → Nat} {cls : ConstructedClass}

theorem newOffset_eq (h : alignment < 31) :
    cls.newOffset machine alignment
      = (cls.instanceSize + (2 ^ alignment - 1)) % 2 ^ 32 / 2 ^ alignment * 2 ^ alignment := by
  unfold newOffset
  simp only [alignMask_eq machine h]
  exact land_not32 (mod_lt _ (by decide))

variable {call : AddIvarCall}

theorem newOffset_of_fits (machine : Nat → Nat) (h : cls.Fits call) :
    cls.newOffset machine call.alignment = alignUp cls.instanceSize call.alignment := by
  obtain ⟨hshift, hoffset, _⟩ := h
  have hle := (alignUp_spec cls.instanceSize call.alignment).1
  have hlt : 2 ^ call.alignment < 2 ^ 31 := Nat.pow_lt_pow_right (by decide) hshift
  rw [newOffset_eq hshift, mod_eq_of_lt (by omega), alignUp]

theorem newOffset_of_wraps (h : alignment < 31) (hsize : cls.instanceSize < 2 ^ 32)
    (hwraps : 2 ^ 32 ≤ cls.instanceSize + (2 ^ alignment - 1)) :
    cls.newOffset machine alignment = 0 := by
  have hsmall : (cls.instanceSize + (2 ^ alignment - 1)) % 2 ^ 32 < 2 ^ alignment := by omega
  rw [newOffset_eq h, div_eq_of_lt hsmall, zero_mul]

/-! ## One call -/

structure Placed (superSize : Nat) (cls : ConstructedClass) : Prop where
  layout : cls.LayoutOK superSize
  start_le : superSize ≤ cls.instanceSize
  size_lt : cls.instanceSize < 2 ^ 32
  last : (cls.instanceSize = superSize ∨ cls.instanceSize < 2 ^ 31) ∨
    ∃ ivar ∈ cls.ivars, ivar.offset + (ivar.size : Int) = cls.instanceSize ∧ ivar.offset < 2 ^ 31

theorem addIvar_of_can (h : cls.canAddIvar call = true) :
    cls.class_addIvar machine call = (true, { cls with
      ivars := cls.ivars ++ [⟨toInt32 (cls.newOffset machine call.alignment), call.realName,
        call.type.getD "", call.alignment, call.size⟩]
      instanceSize := u32 (cls.newOffset machine call.alignment + call.size) }) := if_pos h

theorem addIvar_of_cannot (h : ¬ cls.canAddIvar call = true) :
    cls.class_addIvar machine call = (false, cls) := if_neg h

variable {superSize : Nat}

theorem Placed.addIvar (h : cls.Placed superSize)
    (hfits : cls.canAddIvar call = true → cls.Fits call) :
    (cls.class_addIvar machine call).2.Placed superSize := by
  by_cases hcan : cls.canAddIvar call = true
  · have hfit := hfits hcan
    obtain ⟨hle, _, hdvd⟩ := alignUp_spec cls.instanceSize call.alignment
    have hoffset := newOffset_of_fits machine hfit
    obtain ⟨_, hoff, hsum⟩ := hfit
    rw [addIvar_of_can hcan, hoffset, toInt32, if_pos hoff, u32, mod_eq_of_lt hsum]
    have hstart := h.start_le
    refine ⟨⟨fun ivar hmem => ?_, fun ivar hmem => ?_, ?_⟩, by simp only; omega, hsum,
      .inr ⟨_, mem_append_right _ (mem_singleton_self _), by simp, by simp only; omega⟩⟩
    · rcases mem_append.mp hmem with hmem | hmem
      · exact h.layout.aligned ivar hmem
      rw [mem_singleton.mp hmem]
      show (2 : Int) ^ call.alignment ∣ (alignUp cls.instanceSize call.alignment : Nat)
      exact_mod_cast hdvd
    · rcases mem_append.mp hmem with hmem | hmem
      · obtain ⟨hlow, hhigh⟩ := h.layout.inside ivar hmem
        refine ⟨hlow, ?_⟩
        simp only
        omega
      · rw [mem_singleton.mp hmem]
        simp only
        omega
    refine pairwise_append.mpr ⟨h.layout.disjoint, pairwise_singleton _ _, fun a ha b hb => .inl ?_⟩
    -- whatever was there ends before the old size, and the new ivar starts after it
    have hend := (h.layout.inside a ha).2
    rw [mem_singleton.mp hb]
    simp only
    omega
  · rw [addIvar_of_cannot hcan]
    exact h

theorem Placed.not_layoutOK (h : cls.Placed superSize) (hcan : cls.canAddIvar call = true)
    (hshift : call.alignment < 31) (hfit : ¬ cls.Fits call) :
    ¬ (cls.class_addIvar machine call).2.LayoutOK superSize := by
  intro hok
  rw [addIvar_of_can hcan] at hok
  have hlt : 2 ^ call.alignment < 2 ^ 31 := Nat.pow_lt_pow_right (by decide) hshift
  have hin := hok.inside _ (mem_append_right _ (mem_singleton_self _))
  simp only at hin
  by_cases hwraps : 2 ^ 32 ≤ cls.instanceSize + (2 ^ call.alignment - 1)
  · -- the ivar is put at 0, and what ends at the old size is outside now
    rw [newOffset_of_wraps hshift h.size_lt hwraps] at hok hin
    have hsize : call.size < 2 ^ 32 := by
      unfold canAddIvar at hcan
      simp only [and_eq_true, not_eq_true', or_eq_false_iff, decide_eq_false_iff_not]
        at hcan
      omega
    have hzero : toInt32 0 = 0 := rfl
    rcases h.last with (hsuper | hsmall) | ⟨ivar, hmem, hend, hivar⟩
    · omega
    · omega
    have hold := hok.inside ivar (mem_append_left _ hmem)
    have hdis := (pairwise_append.mp hok.disjoint).2.2 ivar hmem _ (mem_singleton_self _)
    simp only [hzero, zero_add, u32, mod_eq_of_lt hsize] at hold hdis
    omega
  have hoffset : cls.newOffset machine call.alignment
      = alignUp cls.instanceSize call.alignment := by
    rw [newOffset_eq hshift, mod_eq_of_lt (by omega), alignUp]
  have hbound : alignUp cls.instanceSize call.alignment < 2 ^ 32 := by
    have := div_mul_le_self (cls.instanceSize + (2 ^ call.alignment - 1)) (2 ^ call.alignment)
    unfold alignUp
    omega
  rw [hoffset] at hin
  by_cases hoff : alignUp cls.instanceSize call.alignment < 2 ^ 31
  · -- the end of the ivar wraps around
    have hsum : ¬ alignUp cls.instanceSize call.alignment + call.size < 2 ^ 32 :=
      fun hsum => hfit ⟨hshift, hoff, hsum⟩
    unfold u32 at hin
    omega
  · -- the stored offset is negative
    rw [toInt32, if_neg hoff] at hin
    omega

/-! ## All calls -/

theorem Placed.addIvars (calls : List AddIvarCall) :
    ∀ {cls : ConstructedClass}, cls.Placed superSize → AllFit machine cls calls →
      (cls.addIvars machine calls).Placed superSize := by
  induction calls with
  | nil =>
    intro cls h _
    exact h
  | cons call calls ih =>
    intro cls h hfit
    exact ih (h.addIvar hfit.1) hfit.2

end ConstructedClass

open ConstructedClass

theorem placed_initially (is64 : Bool) (superclass : Option (Fin (2 ^ 32))) :
    (objc_initializeClassPair_internal is64 superclass).Placed
      (superclass.elim 0 fun superSize => superSize) := by
  cases superclass with
  | some superSize =>
    exact ⟨⟨nofun, nofun, .nil⟩,
      le_refl _, superSize.isLt, .inl (.inl rfl)⟩
  | none => ?_
  have hword : 2 ^ WORD_SHIFT is64 < 2 ^ 31 :=
    Nat.pow_lt_pow_right (by decide) (by cases is64 <;> decide)
  exact ⟨⟨nofun, nofun, .nil⟩,
    zero_le _, lt_trans hword (by decide), .inl (.inr hword)⟩

/-- **The ivars that were added are aligned, inside and disjoint** as long as every sum fits; the
first ivar whose sums do not fit is misplaced. -/
theorem added_ivars_are_laid_out (machine : Nat → Nat) (is64 : Bool)
    (superclass : Option (Fin (2 ^ 32))) (calls : List AddIvarCall)
    (hfit : AllFit machine (objc_initializeClassPair_internal is64 superclass) calls) :
    let superSize := superclass.elim 0 fun superSize => superSize.val
    let cls := (objc_initializeClassPair_internal is64 superclass).addIvars machine calls
    cls.LayoutOK superSize ∧
      ∀ call : AddIvarCall, cls.canAddIvar call = true → call.alignment < 31 →
        ((cls.class_addIvar machine call).2.LayoutOK superSize ↔ cls.Fits call) := by
  intro superSize cls
  have h : cls.Placed superSize := (placed_initially is64 superclass).addIvars calls hfit
  refine ⟨h.layout, fun call hcan hshift => ⟨fun hok => ?_, fun hfits => ?_⟩⟩
  · by_contra hnot
    exact h.not_layoutOK hcan hshift hnot hok
  · exact (h.addIvar fun _ => hfits).layout

theorem char_and_double_are_laid_out :
    ((objc_initializeClassPair_internal true (some 8)).addIvars (fun _ => 0)
      [⟨some "c", 1, 0, some "c"⟩, ⟨some "d", 8, 3, none⟩]).LayoutOK 8 :=
  (added_ivars_are_laid_out (fun _ => 0) true (some 8)
    [⟨some "c", 1, 0, some "c"⟩, ⟨some "d", 8, 3, none⟩]
    ⟨fun _ => by decide +kernel, fun _ => by decide +kernel, trivial⟩).1

/-- An ivar of the largest size that is accepted makes the instance shorter than it was. -/
theorem largest_ivar_shrinks_instance :
    let cls := objc_initializeClassPair_internal true (some 8)
    let added := cls.class_addIvar (fun _ => 0) ⟨some "big", 2 ^ 32 - 1, 0, none⟩
    added.1 = true ∧ added.2.instanceSize = 7 ∧ ¬ added.2.LayoutOK 8 := by
  intro cls added
  refine ⟨by decide +kernel, by decide +kernel, fun hok => ?_⟩
  have hin := hok.inside ⟨8, some "big", "", 0, 2 ^ 32 - 1⟩ (by decide +kernel)
  have hsize : added.2.instanceSize = 7 := by decide +kernel
  omega

end ObjcRuntime
