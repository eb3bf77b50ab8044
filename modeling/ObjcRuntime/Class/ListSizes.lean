/-
THE BLOCKS OF METHOD AND IVAR LISTS.

objc-runtime-new.h: `entsize_list_tt::byteSize` computes `(count-1)*entsize` in
32 bits, before the sum is a `size_t`.
-/
import Mathlib.Tactic.Ring

namespace ObjcRuntime

/-! ## The template and its users -/

/-- An instance of `entsize_list_tt<Element, List, FlagMask>`. -/
structure ListType where
  /-- sizeof(Element) -/
  element : Nat
  FlagMask : UInt32
  pos : 0 < element
  lt : element < 2 ^ 32

def method_list_t : ListType := ⟨24, 3, by decide, by decide⟩

def ivar_list_t : ListType := ⟨32, 0, by decide, by decide⟩

/-- The header without `first`. -/
def listHeaderSize : Nat := 8

variable {T : ListType}

/-- `sizeof(entsize_list_tt)`. -/
def ListType.sizeof (T : ListType) : Nat := listHeaderSize + T.element

/-- `byteSize(entsize, count)`. -/
def ListType.byteSize (T : ListType) (entsize count : UInt32) : Nat :=
  T.sizeof + ((count - 1) * entsize).toNat

structure EntsizeList (T : ListType) where
  entsizeAndFlags : UInt32
  count : UInt32

namespace EntsizeList

def entsize (list : EntsizeList T) : UInt32 := list.entsizeAndFlags &&& ~~~T.FlagMask

def byteSize (list : EntsizeList T) : Nat := T.byteSize list.entsize list.count

/-- The block that `duplicate` requests. -/
def duplicate (list : EntsizeList T) : Nat := list.byteSize

def blockForOneMore : Option (EntsizeList T) → Nat
  | some list => list.byteSize + list.entsize.toNat
  | none => T.sizeof

end EntsizeList

open EntsizeList

/-- The block that `addMethods` requests. -/
def addMethodsBlock (count : UInt32) : Nat := method_list_t.byteSize 24 count

/-- The block that `class_addIvar` requests. -/
def class_addIvarBlock (oldlist : Option (EntsizeList ivar_list_t)) : Nat := blockForOneMore oldlist

/-- The block that `protocol_addMethod_nolock` requests. -/
def protocol_addMethodBlock (list : Option (EntsizeList method_list_t)) : Nat :=
  blockForOneMore list

/-! ## The size that is needed -/

def neededSize (entsize count : Nat) : Nat := listHeaderSize + count * entsize

/-- There is an entry, entries are as large as `first`, and the others take less than 4 GB. -/
def ListType.Fits (T : ListType) (entsize count : UInt32) : Prop :=
  count ≠ 0 ∧ entsize.toNat = T.element ∧ (count.toNat - 1) * entsize.toNat < 2 ^ 32

theorem toNat_pred {count : UInt32} (h : count ≠ 0) : (count - 1).toNat = count.toNat - 1 := by
  have hpos : count.toNat ≠ 0 := fun hz => h (UInt32.toNat_inj.mp hz)
  have hlt := count.toNat_lt
  rw [UInt32.toNat_sub]
  show (2 ^ 32 - 1 + count.toNat) % 2 ^ 32 = _
  omega

theorem ListType.byteSize_iff (entsize count : UInt32) :
    T.byteSize entsize count = neededSize entsize.toNat count.toNat ↔ T.Fits entsize count := by
  have hpos := T.pos
  have hlt := T.lt
  unfold ListType.byteSize ListType.sizeof neededSize Fits
  rw [UInt32.toNat_mul]
  by_cases hcount : count = 0
  · subst hcount
    refine ⟨fun heq => ?_, fun h => absurd rfl h.1⟩
    rw [UInt32.toNat_zero, zero_mul] at heq
    omega
  have hc : count.toNat = count.toNat - 1 + 1 := by
    have : count.toNat ≠ 0 := fun hz => hcount (UInt32.toNat_inj.mp hz)
    omega
  rw [toNat_pred hcount]
  generalize count.toNat - 1 = n at hc ⊢
  rw [hc, add_one_mul]
  -- the product is its low word and a multiple of 2^32
  have hdiv := Nat.div_add_mod (n * entsize.toNat) (2 ^ 32)
  constructor
  · intro heq
    have hq : n * entsize.toNat / 2 ^ 32 = 0 := by omega
    exact ⟨hcount, by omega, by omega⟩
  · rintro ⟨-, hsize, hsmall⟩
    rw [Nat.mod_eq_of_lt hsmall]
    omega

theorem EntsizeList.blockForOneMore_iff (list : EntsizeList T) :
    blockForOneMore (some list) = neededSize list.entsize.toNat (list.count.toNat + 1) ↔
      T.Fits list.entsize list.count := by
  rw [← ListType.byteSize_iff]
  show list.byteSize + _ = listHeaderSize + (list.count.toNat + 1) * _ ↔
    list.byteSize = listHeaderSize + list.count.toNat * _
  rw [add_one_mul]
  omega

/-- **Blocks have the size of their entries** exactly if the lists fit. -/
theorem list_blocks_fit_iff (T : ListType) (entsize count : UInt32) (list : EntsizeList T)
    (ivars : EntsizeList ivar_list_t) (methods : EntsizeList method_list_t) :
    (T.byteSize entsize count = neededSize entsize.toNat count.toNat ↔ T.Fits entsize count) ∧
    (list.duplicate = neededSize list.entsize.toNat list.count.toNat ↔
      T.Fits list.entsize list.count) ∧
    (addMethodsBlock count = neededSize 24 count.toNat ↔ method_list_t.Fits 24 count) ∧
    (class_addIvarBlock (some ivars) = neededSize ivars.entsize.toNat (ivars.count.toNat + 1) ↔
      ivar_list_t.Fits ivars.entsize ivars.count) ∧
    (protocol_addMethodBlock (some methods)
      = neededSize methods.entsize.toNat (methods.count.toNat + 1) ↔
      method_list_t.Fits methods.entsize methods.count) ∧
    class_addIvarBlock none = neededSize 32 1 ∧ protocol_addMethodBlock none = neededSize 24 1 := by
  refine ⟨T.byteSize_iff _ _, T.byteSize_iff _ _, ?_, blockForOneMore_iff _, blockForOneMore_iff _,
    rfl, rfl⟩
  exact method_list_t.byteSize_iff 24 count

theorem no_methods_take_four_gigabytes :
    addMethodsBlock 0 = 2 ^ 32 + 8 ∧ addMethodsBlock 0 ≠ neededSize 24 0 := by
  decide

end ObjcRuntime
