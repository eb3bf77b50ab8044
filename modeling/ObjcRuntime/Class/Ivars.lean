/-
NON-FRAGILE INSTANCE VARIABLES.

objc-runtime-new.mm, `reconcileInstanceVariables` and `moveIvars`. When a
superclass has grown since a class was compiled, all of the class's ivars are
slid by one amount, rounded up to the largest alignment among them. Sums are
of 32 bits.
-/
import Mathlib.Data.List.Forall2
import Mathlib.Data.List.Induction
import Mathlib.Data.Nat.Bitwise

namespace ObjcRuntime

open List Option Nat

/-! ## Ivars and classes -/

/-- Arithmetic of `uint32_t`. -/
def u32 (n : Nat) : Nat := n % 2 ^ 32

/-- `~n` of a `uint32_t`. -/
def not32 (n : Nat) : Nat := 2 ^ 32 - (n + 1)

def WORD_SHIFT (is64 : Bool) : Nat := if is64 then 3 else 2

/-- `ivar_t`; `offset` is nil for an anonymous bitfield. -/
structure Ivar where
  offset : Option Nat
  alignment_raw : Nat
  size : Nat
  deriving DecidableEq

def Ivar.alignment (is64 : Bool) (ivar : Ivar) : Nat :=
  if ivar.alignment_raw = 2 ^ 32 - 1 then 2 ^ WORD_SHIFT is64 else 2 ^ ivar.alignment_raw

/-- Of a `class_ro_t`, what the ivars are laid out by. -/
structure ClassRO where
  instanceStart : Nat
  instanceSize : Nat
  ivars : Option (List Ivar)
  deriving DecidableEq

def ClassRO.ivarList (ro : ClassRO) : List Ivar := ro.ivars.getD []

def word_align (is64 : Bool) (x : Nat) : Nat :=
  u32 (x + (2 ^ WORD_SHIFT is64 - 1)) &&& not32 (2 ^ WORD_SHIFT is64 - 1)

/-- `alignedInstanceStart()`, the base of the ARC layout strings. -/
def ClassRO.alignedInstanceStart (is64 : Bool) (ro : ClassRO) : Nat :=
  word_align is64 ro.instanceStart

/-! ## Sliding -/

variable (is64 : Bool)

def maxAlignment (ivars : List Ivar) : Nat :=
  ivars.foldl (fun maxAlignment ivar =>
    if ivar.offset = none then maxAlignment
    else if ivar.alignment is64 > maxAlignment then ivar.alignment is64 else maxAlignment) 1

/-- `(diff + alignMask) & ~alignMask`. -/
def roundUp (diff alignment : Nat) : Nat :=
  u32 (diff + (alignment - 1)) &&& not32 (alignment - 1)

/-- By how much `moveIvars` slides. -/
def slideAmount (ro : ClassRO) (superSize : Nat) : Nat :=
  match ro.ivars with
  | none => superSize - ro.instanceStart
  | some ivars => roundUp (superSize - ro.instanceStart) (maxAlignment is64 ivars)

def Ivar.slide (diff : Nat) (ivar : Ivar) : Ivar :=
  { ivar with offset := ivar.offset.map fun oldOffset => u32 (oldOffset + diff) }

def moveIvars (ro : ClassRO) (superSize : Nat) : Option ClassRO :=
  if superSize > ro.instanceStart then
    let diff := slideAmount is64 ro superSize
    some
      { instanceStart := u32 (ro.instanceStart + diff)
        instanceSize := u32 (ro.instanceSize + diff)
        ivars := ro.ivars.map fun ivars => ivars.map (Ivar.slide diff) }
  else none

/-- `reconcileInstanceVariables`, with DebugNonFragileIvars off. -/
def reconcileInstanceVariables (ro super_ro : ClassRO) : Option ClassRO :=
  if ro.instanceStart ≥ super_ro.instanceSize then some ro
  else moveIvars is64 ro super_ro.instanceSize

/-- The classes below `super_ro`, each a subclass of the one before. -/
def realizeSubclasses : ClassRO → List ClassRO → Option (List ClassRO)
  | _, [] => some []
  | super_ro, ro :: rest =>
    match reconcileInstanceVariables is64 ro super_ro with
    | none => none
    | some ro' => (realizeSubclasses ro' rest).map fun rest' => ro' :: rest'

/-- `realizeClass` of the last class of a chain that starts at a root class: superclasses first. -/
def realizeChain : List ClassRO → Option (List ClassRO)
  | [] => some []
  | root :: rest => (realizeSubclasses is64 root rest).map fun rest' => root :: rest'

/-! ## What the compiler emits, and sums that fit -/

/-- The offsets, `instanceStart` and `instanceSize` of a class agree. -/
structure ClassRO.SelfConsistent (ro : ClassRO) : Prop where
  start_le : ro.instanceStart ≤ ro.instanceSize
  alignment_raw : ∀ ivar ∈ ro.ivarList,
    ivar.alignment_raw < 32 ∨ ivar.alignment_raw = 2 ^ 32 - 1
  inside : ∀ ivar ∈ ro.ivarList, ∀ offset, ivar.offset = some offset →
    ro.instanceStart ≤ offset ∧ offset + ivar.size ≤ ro.instanceSize
  aligned : ∀ ivar ∈ ro.ivarList, ∀ offset, ivar.offset = some offset →
    offset % ivar.alignment is64 = 0

def ClassRO.SumsFit (ro : ClassRO) (superSize : Nat) : Prop :=
  ro.instanceStart + (2 ^ WORD_SHIFT is64 - 1) < 2 ^ 32 ∧
    (ro.instanceStart < superSize →
      superSize - ro.instanceStart + (maxAlignment is64 ro.ivarList - 1) < 2 ^ 32 ∧
      ro.instanceStart + slideAmount is64 ro superSize + (2 ^ WORD_SHIFT is64 - 1) < 2 ^ 32 ∧
      ro.instanceSize + slideAmount is64 ro superSize < 2 ^ 32)

def SubclassesFit : ClassRO → List ClassRO → Prop
  | _, [] => True
  | super_ro, ro :: rest => ro.SumsFit is64 super_ro.instanceSize ∧
      ∀ ro', reconcileInstanceVariables is64 ro super_ro = some ro' → SubclassesFit ro' rest

def ChainFits : List ClassRO → Prop
  | [] => True
  | root :: rest => root.instanceStart + (2 ^ WORD_SHIFT is64 - 1) < 2 ^ 32 ∧
      SubclassesFit is64 root rest

/-! ## Rounding -/

theorem land_not32 {x k : Nat} (hx : x < 2 ^ 32) : x &&& not32 (2 ^ k - 1) = x / 2 ^ k * 2 ^ k := by
  have hpos : 0 < 2 ^ k := Nat.two_pow_pos k
  have hnot : not32 (2 ^ k - 1) = 2 ^ 32 - 2 ^ k := by
    unfold not32
    omega
  refine eq_of_testBit_eq fun i => ?_
  rw [testBit_and, hnot, testBit_mul_two_pow, testBit_div_two_pow]
  by_cases hk : k < 32
  · have hlt : 2 ^ k - 1 < 2 ^ 32 := by
      have := Nat.pow_lt_pow_right (a := 2) (by decide) hk
      omega
    rw [show 2 ^ 32 - 2 ^ k = 2 ^ 32 - (2 ^ k - 1 + 1) by omega,
      testBit_two_pow_sub_succ hlt, testBit_two_pow_sub_one]
    by_cases hik : k ≤ i
    · rw [show i - k + k = i by omega]
      by_cases hi : i < 32
      · simp [hik, hi]
      have hbit : x.testBit i = false :=
        Nat.testBit_lt_two_pow (lt_of_lt_of_le hx (Nat.pow_le_pow_right (by decide) (by omega)))
      simp [hbit]
    · simp [hik, show i < k by omega]
  have hge : 2 ^ 32 ≤ 2 ^ k := Nat.pow_le_pow_right (by decide) (by omega)
  have hzero : 2 ^ 32 - 2 ^ k = 0 := by omega
  rw [hzero, zero_testBit, Bool.and_false]
  by_cases hik : k ≤ i
  · have hbit : x.testBit i = false :=
      testBit_lt_two_pow (lt_of_lt_of_le hx
        (le_trans hge (Nat.pow_le_pow_right (by decide) hik)))
    rw [show i - k + k = i by omega, hbit, Bool.and_false]
  · simp [hik]

variable {diff : Nat}

theorem roundUp_eq {k : Nat} (h : diff + (2 ^ k - 1) < 2 ^ 32) :
    roundUp diff (2 ^ k) = (diff + (2 ^ k - 1)) / 2 ^ k * 2 ^ k := by
  have hlt : u32 (diff + (2 ^ k - 1)) < 2 ^ 32 := mod_lt _ (by decide)
  rw [roundUp, land_not32 hlt, u32, mod_eq_of_lt h]

theorem roundUp_spec {k : Nat} (h : diff + (2 ^ k - 1) < 2 ^ 32) :
    diff ≤ roundUp diff (2 ^ k) ∧ 2 ^ k ∣ roundUp diff (2 ^ k) := by
  rw [roundUp_eq h]
  refine ⟨?_, dvd_mul_left _ _⟩
  have hdiv := div_add_mod (diff + (2 ^ k - 1)) (2 ^ k)
  rw [mul_comm] at hdiv
  omega

theorem word_align_eq {x : Nat} (h : x + (2 ^ WORD_SHIFT is64 - 1) < 2 ^ 32) :
    word_align is64 x
      = (x + (2 ^ WORD_SHIFT is64 - 1)) / 2 ^ WORD_SHIFT is64 * 2 ^ WORD_SHIFT is64 := by
  have hlt : u32 (x + (2 ^ WORD_SHIFT is64 - 1)) < 2 ^ 32 := mod_lt _ (by decide)
  rw [word_align, land_not32 hlt, u32, mod_eq_of_lt h]

theorem word_align_add {x : Nat} (hdvd : 2 ^ WORD_SHIFT is64 ∣ diff)
    (h : x + diff + (2 ^ WORD_SHIFT is64 - 1) < 2 ^ 32) :
    word_align is64 (x + diff) = word_align is64 x + diff := by
  obtain ⟨q, rfl⟩ := hdvd
  rw [word_align_eq is64 h, word_align_eq is64 (by omega)]
  generalize 2 ^ WORD_SHIFT is64 = word at *
  rcases Nat.eq_zero_or_pos word with rfl | hpos
  · simp
  · rw [show x + word * q + (word - 1) = x + (word - 1) + word * q by omega,
      add_mul_div_left _ _ hpos, add_mul, mul_comm q word]

/-! ## The largest alignment -/

theorem Ivar.alignment_pow (ivar : Ivar) : ∃ k, ivar.alignment is64 = 2 ^ k := by
  unfold Ivar.alignment
  split <;> exact ⟨_, rfl⟩

theorem maxAlignment_spec (ivars : List Ivar) : ∃ K, maxAlignment is64 ivars = 2 ^ K ∧
    ∀ ivar ∈ ivars, ivar.offset ≠ none → ivar.alignment is64 ∣ 2 ^ K := by
  induction ivars using reverseRecOn with
  | nil =>
    refine ⟨0, rfl, fun ivar hmem => ?_⟩
    cases hmem
  | append_singleton ivars last ih => ?_
  obtain ⟨K, hK, hall⟩ := ih
  obtain ⟨k, hk⟩ := last.alignment_pow is64
  have hstep : maxAlignment is64 (ivars ++ [last])
      = if last.offset = none then 2 ^ K else if 2 ^ k > 2 ^ K then 2 ^ k else 2 ^ K := by
    rw [← hK, ← hk, maxAlignment, foldl_append]
    rfl
  -- the new maximum is a multiple of the old one
  have hnew : ∃ K', maxAlignment is64 (ivars ++ [last]) = 2 ^ K' ∧ K ≤ K' ∧
      (last.offset ≠ none → k ≤ K') := by
    rw [hstep]
    by_cases hnone : last.offset = none
    · exact ⟨K, if_pos hnone, le_refl K, fun hne => absurd hnone hne⟩
    rw [if_neg hnone]
    by_cases hgt : 2 ^ k > 2 ^ K
    · have hlt : K < k := (Nat.pow_lt_pow_iff_right (by decide)).mp hgt
      exact ⟨k, if_pos hgt, le_of_lt hlt, fun _ => le_refl k⟩
    · have hle : k ≤ K := (Nat.pow_le_pow_iff_right (by decide)).mp (Nat.le_of_not_lt hgt)
      exact ⟨K, if_neg hgt, le_refl K, fun _ => hle⟩
  obtain ⟨K', hK', hle, hlast⟩ := hnew
  refine ⟨K', hK', fun ivar hmem hne => ?_⟩
  rcases mem_append.mp hmem with hmem | hmem
  · exact dvd_trans (hall ivar hmem hne) (pow_dvd_pow 2 hle)
  rw [mem_singleton.mp hmem] at hne ⊢
  rw [hk]
  exact pow_dvd_pow 2 (hlast hne)

/-! ## One class -/

variable {is64} {ro : ClassRO}

theorem slideAmount_spec {superSize : Nat} (hlt : ro.instanceStart < superSize)
    (hfit : ro.SumsFit is64 superSize) :
    superSize - ro.instanceStart ≤ slideAmount is64 ro superSize ∧
      ∀ ivar ∈ ro.ivarList, ivar.offset ≠ none →
        ivar.alignment is64 ∣ slideAmount is64 ro superSize := by
  obtain ⟨hsum, _, _⟩ := hfit.2 hlt
  unfold slideAmount ClassRO.ivarList at *
  cases hivars : ro.ivars with
  | none =>
    refine ⟨le_refl _, fun ivar hmem => ?_⟩
    cases hmem
  | some ivars => ?_
  rw [hivars] at hsum
  obtain ⟨K, hK, hall⟩ := maxAlignment_spec is64 ivars
  simp only [getD_some, hK] at hsum ⊢
  obtain ⟨hle, hdvd⟩ := roundUp_spec hsum
  exact ⟨hle, fun ivar hmem hne => dvd_trans (hall ivar hmem hne) hdvd⟩

/-- The class after realization: everything has moved by `diff`. -/
structure ClassRO.Slid (is64 : Bool) (ro ro' : ClassRO) (diff : Nat) : Prop where
  start : ro'.instanceStart = ro.instanceStart + diff
  size : ro'.instanceSize = ro.instanceSize + diff
  ivars : ro'.ivars = ro.ivars.map fun ivars =>
    ivars.map fun ivar => { ivar with offset := ivar.offset.map fun offset => offset + diff }
  aligned : ∀ ivar ∈ ro'.ivarList, ∀ offset, ivar.offset = some offset →
    offset % ivar.alignment is64 = 0
  layout : ∀ ivar ∈ ro.ivarList, ∀ offset, ivar.offset = some offset →
    2 ^ WORD_SHIFT is64 ≤ ivar.alignment is64 →
    ((offset + diff : Nat) : Int) - ro'.alignedInstanceStart is64
      = offset - ro.alignedInstanceStart is64

theorem ClassRO.Slid.mem {ro' : ClassRO} (h : ro.Slid is64 ro' diff) {ivar : Ivar}
    (hmem : ivar ∈ ro'.ivarList) : ∃ old ∈ ro.ivarList, ivar.size = old.size ∧
      ivar.alignment is64 = old.alignment is64 ∧
      ivar.offset = old.offset.map fun offset => offset + diff := by
  unfold ClassRO.ivarList at *
  rw [h.ivars] at hmem
  cases hivars : ro.ivars with
  | none =>
    rw [hivars] at hmem
    cases hmem
  | some ivars =>
    rw [hivars] at hmem
    obtain ⟨old, hold, rfl⟩ := mem_map.mp hmem
    exact ⟨old, hold, rfl, rfl, rfl⟩

theorem ClassRO.Slid.inside {ro' : ClassRO} (h : ro.Slid is64 ro' diff)
    (hok : ro.SelfConsistent is64) :
    ro'.instanceStart ≤ ro'.instanceSize ∧ ∀ ivar ∈ ro'.ivarList, ∀ offset,
      ivar.offset = some offset →
        ro'.instanceStart ≤ offset ∧ offset + ivar.size ≤ ro'.instanceSize := by
  have hstart := h.start
  have hsize := h.size
  have hle := hok.start_le
  refine ⟨by omega, fun ivar hmem offset hoffset => ?_⟩
  obtain ⟨old, hold, hsz, _, hoff⟩ := h.mem hmem
  rw [hoff] at hoffset
  obtain ⟨offset0, h0, rfl⟩ := map_eq_some_iff.mp hoffset
  have hin := hok.inside old hold offset0 h0
  omega

section

variable (hok : ro.SelfConsistent is64)

include hok

theorem slid_zero : ro.Slid is64 ro 0 where
  start := rfl
  size := rfl
  ivars := by
    cases ro.ivars with
    | none => rfl
    | some ivars => simp
  aligned := hok.aligned
  layout := fun _ _ _ _ _ => rfl

theorem moveIvars_spec {superSize : Nat}
    (hlt : ro.instanceStart < superSize) (hfit : ro.SumsFit is64 superSize) :
    ∃ ro' diff, moveIvars is64 ro superSize = some ro' ∧ ro.Slid is64 ro' diff ∧
      superSize ≤ ro'.instanceStart := by
  obtain ⟨hcover, hdvd⟩ := slideAmount_spec hlt hfit
  obtain ⟨_, hstart, hsize⟩ := hfit.2 hlt
  generalize hdiff : slideAmount is64 ro superSize = diff at *
  have hstart' : u32 (ro.instanceStart + diff) = ro.instanceStart + diff :=
    mod_eq_of_lt (by omega)
  have hsize' : u32 (ro.instanceSize + diff) = ro.instanceSize + diff := mod_eq_of_lt hsize
  have hivars : (ro.ivars.map fun ivars => ivars.map (Ivar.slide diff)) = ro.ivars.map fun ivars =>
          ivars.map fun ivar => { ivar with offset := ivar.offset.map fun o => o + diff } := by
    cases hcase : ro.ivars with
    | none => rfl
    | some ivars => ?_
    refine congrArg some (map_congr_left fun ivar hmem => ?_)
    unfold Ivar.slide
    cases hoff : ivar.offset with
    | none => rfl
    | some offset =>
      have hin := hok.inside ivar (by unfold ClassRO.ivarList; rw [hcase]; exact hmem) offset hoff
      rw [map_some, map_some, u32, mod_eq_of_lt (by omega)]
  refine ⟨⟨ro.instanceStart + diff, ro.instanceSize + diff,
    ro.ivars.map fun ivars => ivars.map fun ivar =>
      { ivar with offset := ivar.offset.map fun o => o + diff }⟩, diff, ?_, ?_, ?_⟩
  · rw [moveIvars, if_pos hlt]
    simp only [hdiff, hstart', hsize', hivars]
  · refine ⟨rfl, rfl, rfl, fun ivar hmem offset hoffset => ?_,
      fun ivar hmem offset hoffset hword => ?_⟩
    · -- the slide is a multiple of the alignment
      have hmem' : ∃ old ∈ ro.ivarList,
          { old with offset := old.offset.map fun o => o + diff } = ivar := by
        unfold ClassRO.ivarList at *
        cases hcase : ro.ivars with
        | none =>
          rw [hcase] at hmem
          cases hmem
        | some ivars =>
          rw [hcase] at hmem
          exact mem_map.mp hmem
      obtain ⟨old, hold, rfl⟩ := hmem'
      obtain ⟨offset0, h0, rfl⟩ := map_eq_some_iff.mp hoffset
      have hal := dvd_of_mod_eq_zero (hok.aligned old hold offset0 h0)
      have hd := hdvd old hold (by rw [h0]; simp)
      exact Nat.mod_eq_zero_of_dvd (Nat.dvd_add hal hd)
    have hd := hdvd ivar hmem (by rw [hoffset]; simp)
    have hword' : 2 ^ WORD_SHIFT is64 ∣ diff := by
      obtain ⟨k, hk⟩ := ivar.alignment_pow is64
      rw [hk] at hd hword
      exact Nat.dvd_trans (Nat.pow_dvd_pow 2 ((Nat.pow_le_pow_iff_right (by decide)).mp hword)) hd
    have halign := word_align_add is64 hword' hstart
    show ((offset + diff : Nat) : Int) - (word_align is64 (ro.instanceStart + diff) : Nat)
      = offset - (word_align is64 ro.instanceStart : Nat)
    omega
  · show superSize ≤ ro.instanceStart + diff
    omega

theorem reconcile_spec {super_ro : ClassRO} (hfit : ro.SumsFit is64 super_ro.instanceSize) :
    ∃ ro' diff, reconcileInstanceVariables is64 ro super_ro = some ro' ∧ ro.Slid is64 ro' diff ∧
      super_ro.instanceSize ≤ ro'.instanceStart := by
  unfold reconcileInstanceVariables
  split
  next hge => exact ⟨ro, 0, rfl, slid_zero hok, hge⟩
  next hlt => exact moveIvars_spec hok (Nat.lt_of_not_le hlt) hfit

end

/-! ## A chain of classes -/

def ClassRO.Below (super_ro ro : ClassRO) : Prop :=
  super_ro.instanceSize ≤ ro.instanceStart ∧
    ∀ a ∈ super_ro.ivarList, ∀ b ∈ ro.ivarList, ∀ p q, a.offset = some p → b.offset = some q →
      p + a.size ≤ q

theorem realizeSubclasses_spec (rest : List ClassRO) : ∀ {super_ro : ClassRO},
    (∀ ro ∈ rest, ro.SelfConsistent is64) → SubclassesFit is64 super_ro rest →
    ∃ rest', realizeSubclasses is64 super_ro rest = some rest' ∧
      Forall₂ (fun ro ro' => ∃ diff, ro.Slid is64 ro' diff) rest rest' ∧
      (∀ ro' ∈ rest', super_ro.instanceSize ≤ ro'.instanceStart ∧
        ∀ ivar ∈ ro'.ivarList, ∀ offset, ivar.offset = some offset → ro'.instanceStart ≤ offset) ∧
      rest'.Pairwise ClassRO.Below := by
  induction rest with
  | nil =>
    intro super_ro _ _
    refine ⟨[], rfl, .nil, fun ro' hmem => ?_, .nil⟩
    cases hmem
  | cons ro rest ih => ?_
  intro super_ro hok hfit
  have hokRo := hok ro mem_cons_self
  obtain ⟨ro', diff, hrun, hslid, hstart⟩ := reconcile_spec hokRo hfit.1
  obtain ⟨rest', hrest, hforall, hbelow, hpair⟩ :=
    ih (fun r hr => hok r (mem_cons_of_mem _ hr)) (hfit.2 ro' hrun)
  obtain ⟨hle, hinside⟩ := hslid.inside hokRo
  refine ⟨ro' :: rest', by simp only [realizeSubclasses, hrun, hrest, map_some],
    .cons ⟨diff, hslid⟩ hforall, fun r hr => ?_, pairwise_cons.mpr ⟨fun r hr => ?_, hpair⟩⟩
  · rcases mem_cons.mp hr with rfl | hr
    · exact ⟨hstart, fun ivar hmem offset hoffset => (hinside ivar hmem offset hoffset).1⟩
    · exact ⟨le_trans (le_trans hstart hle) (hbelow r hr).1, (hbelow r hr).2⟩
  refine ⟨(hbelow r hr).1, fun a ha b hb p q hp hq => ?_⟩
  -- this class's ivars end before the lower class starts, whose ivars lie after that
  have hend := (hinside a ha p hp).2
  have hmid := (hbelow r hr).1
  have hin := (hbelow r hr).2 b hb q hq
  omega

variable (is64)

/-- **Realized ivars fit.**  After a chain of classes is realized, in every class all ivars, the
start and the size have moved by one amount; each ivar is aligned, and its place relative to the
aligned start is the same if its alignment is a word or more; and no ivar overlaps one of an
ancestor. -/
theorem realized_ivars_fit (chain : List ClassRO) (hok : ∀ ro ∈ chain, ro.SelfConsistent is64)
    (hfit : ChainFits is64 chain) :
    ∃ chain', realizeChain is64 chain = some chain' ∧
      Forall₂ (fun ro ro' => ∃ diff, ro.Slid is64 ro' diff) chain chain' ∧
      chain'.Pairwise ClassRO.Below := by
  cases chain with
  | nil => exact ⟨[], rfl, .nil, .nil⟩
  | cons root rest => ?_
  have hroot := hok root mem_cons_self
  obtain ⟨rest', hrun, hforall, hbelow, hpair⟩ := realizeSubclasses_spec rest
    (fun r hr => hok r (mem_cons_of_mem _ hr)) hfit.2
  refine ⟨root :: rest', by simp only [realizeChain, hrun, map_some],
    .cons ⟨0, slid_zero hroot⟩ hforall, pairwise_cons.mpr ⟨fun r hr => ?_, hpair⟩⟩
  refine ⟨(hbelow r hr).1, fun a ha b hb p q hp hq => ?_⟩
  have hend := (hroot.inside a ha p hp).2
  have hmid := (hbelow r hr).1
  have hin := (hbelow r hr).2 b hb q hq
  omega

/-- A root class that grew from 8 to 20 bytes under a class with a word and a 16-byte vector. -/
theorem grown_root_slides_ivars : ∃ chain',
    realizeChain true [⟨0, 20, some [⟨some 0, 3, 20⟩]⟩,
      ⟨8, 32, some [⟨some 8, 2 ^ 32 - 1, 8⟩, ⟨some 16, 4, 16⟩]⟩] = some chain' ∧
    chain'.map ClassRO.instanceStart = [0, 24] ∧ chain'.Pairwise ClassRO.Below := by
  obtain ⟨chain', hrun, _, hpair⟩ := realized_ivars_fit true
    [⟨0, 20, some [⟨some 0, 3, 20⟩]⟩,
      ⟨8, 32, some [⟨some 8, 2 ^ 32 - 1, 8⟩, ⟨some 16, 4, 16⟩]⟩]
    (by
      intro ro hmem
      rcases mem_cons.mp hmem with rfl | hmem
      · exact ⟨by decide, by decide, by simp [ClassRO.ivarList],
          by simp [ClassRO.ivarList, Ivar.alignment, WORD_SHIFT]⟩
      rw [mem_singleton.mp hmem]
      exact ⟨by decide, by decide, by simp [ClassRO.ivarList],
        by simp [ClassRO.ivarList, Ivar.alignment, WORD_SHIFT]⟩)
    (by
      refine ⟨by decide, ⟨by decide, fun _ => by decide⟩, fun _ _ => trivial⟩)
  refine ⟨chain', hrun, ?_, hpair⟩
  have hmap : (realizeChain true [⟨0, 20, some [⟨some 0, 3, 20⟩]⟩,
      ⟨8, 32, some [⟨some 8, 2 ^ 32 - 1, 8⟩, ⟨some 16, 4, 16⟩]⟩]).map
        (map ClassRO.instanceStart) = some [0, 24] := by decide +kernel
  rw [hrun, map_some] at hmap
  exact some.inj hmap

end ObjcRuntime
