/-
BLOCK TRAMPOLINES.

objc-block-trampolines.mm. A page group holds one payload word for each
trampoline. The word is a block while the trampoline is in use, the index of
the next free slot while it is on the free list, and 0 before its first use.
All page groups are on one list; those with room are on a second one, which
starts at the head page group.
-/
import Mathlib.Data.List.Basic
import Mathlib.Logic.Function.Basic

namespace ObjcRuntime

open Function List Nat

/-! ## The layout of a page group -/

structure TrampolineLayout where
  PAGE_MAX_SIZE : Nat
  slotSize : Nat
  headerSize : Nat
  textSegmentSize : Nat
  SUPPORT_STRET : Bool
  /-- What is added to the address of a trampoline: 1 for Thumb code. -/
  thumb : Nat
  /-- `_Block_has_signature(block) && _Block_use_stret(block)` -/
  Block_use_stret : Nat → Bool
  thumb_lt : thumb < slotSize
  headerSize_pos : 0 < headerSize
  headerSize_aligned : headerSize % slotSize = 0
  headerSize_room : headerSize + slotSize ≤ PAGE_MAX_SIZE
  /-- The text segment is a Mach-O page and the trampolines of each mode. -/
  textSegment_room : PAGE_MAX_SIZE * (if SUPPORT_STRET then 3 else 2) ≤ textSegmentSize

namespace TrampolineLayout

variable (T : TrampolineLayout)

def ArgumentModeCount : Nat := if T.SUPPORT_STRET then 2 else 1

def argumentModeForBlock (block : Nat) : Nat :=
  if T.SUPPORT_STRET ∧ T.Block_use_stret block then 1 else 0

def startIndex : Nat := T.headerSize / T.slotSize

def endIndex : Nat := T.PAGE_MAX_SIZE / T.slotSize

def validIndex (index : Nat) : Prop := T.startIndex ≤ index ∧ index < T.endIndex

instance (index : Nat) : Decidable (T.validIndex index) :=
  inferInstanceAs (Decidable (_ ∧ _))

def trampolinesForMode (pageGroup aMode : Nat) : Nat := pageGroup + T.PAGE_MAX_SIZE * (2 + aMode)

def trampoline (pageGroup aMode index : Nat) : Nat :=
  T.trampolinesForMode pageGroup aMode + index * T.slotSize + T.thumb

def indexForTrampoline (pageGroup tramp : Nat) : Nat :=
  ((range T.ArgumentModeCount).findSome? fun aMode =>
    let base := T.trampolinesForMode pageGroup aMode
    if base + T.startIndex * T.slotSize ≤ tramp ∧ tramp < base + T.endIndex * T.slotSize then
      some ((tramp - base) / T.slotSize)
    else none).getD 0

def regionSize : Nat := T.PAGE_MAX_SIZE + T.textSegmentSize

/-- What `vm_allocate` promises of two regions. -/
def Apart (pageGroup pageGroup' : Nat) : Prop :=
  pageGroup + T.regionSize ≤ pageGroup' ∨ pageGroup' + T.regionSize ≤ pageGroup

instance (pageGroup pageGroup' : Nat) : Decidable (T.Apart pageGroup pageGroup') :=
  inferInstanceAs (Decidable (_ ∨ _))

theorem slotSize_pos : 0 < T.slotSize := Nat.lt_of_le_of_lt (Nat.zero_le _) T.thumb_lt

theorem startIndex_pos : 0 < T.startIndex := by
  have hdvd : T.slotSize ∣ T.headerSize := dvd_of_mod_eq_zero T.headerSize_aligned
  exact div_pos (le_of_dvd T.headerSize_pos hdvd) T.slotSize_pos

theorem startIndex_lt_endIndex : T.startIndex < T.endIndex := by
  show T.headerSize / T.slotSize + 1 ≤ T.PAGE_MAX_SIZE / T.slotSize
  rw [← Nat.add_div_right _ T.slotSize_pos]
  exact Nat.div_le_div_right T.headerSize_room

theorem endIndex_mul_le : T.endIndex * T.slotSize ≤ T.PAGE_MAX_SIZE :=
  div_mul_le_self _ _

theorem argumentModeForBlock_lt (block : Nat) :
    T.argumentModeForBlock block < T.ArgumentModeCount := by
  unfold argumentModeForBlock ArgumentModeCount
  cases T.SUPPORT_STRET <;> cases T.Block_use_stret block <;> decide

theorem ArgumentModeCount_le : T.PAGE_MAX_SIZE * (2 + T.ArgumentModeCount) ≤ T.regionSize := by
  have h := T.textSegment_room
  unfold ArgumentModeCount regionSize
  cases hs : T.SUPPORT_STRET with
  | true | false => rw [hs] at h; simp at h ⊢; omega

end TrampolineLayout

/-! ## Page groups -/

structure Trampolines where
  /-- Along `nextPageGroup`, from `HeadPageGroup`. -/
  pageGroups : List Nat
  nextAvailablePage : Nat → Option Nat
  nextAvailable : Nat → Nat
  payload : Nat → Nat → Nat

namespace Trampolines

variable (T : TrampolineLayout)

/-- `dataAddress` is what `vm_allocate` returns; the memory is zero-filled. -/
def _allocateTrampolinesAndData (s : Trampolines) (dataAddress : Nat) :
    Option (Nat × Trampolines) :=
  let nextAvailable := update s.nextAvailable dataAddress T.startIndex
  let nextAvailablePage := update s.nextAvailablePage dataAddress none
  let payload := update s.payload dataAddress fun _ => 0
  match s.pageGroups with
  | [] => some (dataAddress, ⟨[dataAddress], nextAvailablePage, nextAvailable, payload⟩)
  | HeadPageGroup :: _ =>
    if s.nextAvailablePage HeadPageGroup = none then
      some (dataAddress, ⟨s.pageGroups ++ [dataAddress],
        update nextAvailablePage HeadPageGroup (some dataAddress),
        nextAvailable, payload⟩)
    else none

def getOrAllocatePageGroupWithNextAvailable (s : Trampolines) (dataAddress : Nat) :
    Option (Nat × Trampolines) :=
  match s.pageGroups with
  | [] => s._allocateTrampolinesAndData T dataAddress
  | HeadPageGroup :: _ =>
    if s.nextAvailable HeadPageGroup ≠ T.endIndex then some (HeadPageGroup, s)
    else
      match s.nextAvailablePage HeadPageGroup with
      | some pageGroup => some (pageGroup, s)
      | none => s._allocateTrampolinesAndData T dataAddress

def pageAndIndexContainingIMP (s : Trampolines) (anImp : Nat) : Option (Nat × Nat) :=
  s.pageGroups.findSome? fun pageGroup =>
    if T.indexForTrampoline pageGroup anImp ≠ 0 then
      some (pageGroup, T.indexForTrampoline pageGroup anImp)
    else none

/-- The loop that takes a full page group off the list of available ones: the page group before
it, or nil. -/
def pageBefore (nextAvailablePage : Nat → Option Nat) (pageGroup : Nat) :
    Nat → Option Nat → Option (Option Nat)
  | 0, _ => none
  | _ + 1, none => some none
  | fuel + 1, some iterator =>
    if nextAvailablePage iterator = some pageGroup then some (some iterator)
    else pageBefore nextAvailablePage pageGroup fuel (nextAvailablePage iterator)

def removeAvailable (s : Trampolines) (pageGroup : Nat) : Option Trampolines :=
  match pageBefore s.nextAvailablePage pageGroup (s.pageGroups.length + 2) s.pageGroups.head? with
  | none => none
  | some none => some s
  | some (some iterator) =>
    let next :=
      update s.nextAvailablePage iterator (s.nextAvailablePage pageGroup)
    some { s with nextAvailablePage := update next pageGroup none }

/-- `_imp_implementationWithBlockNoCopy`; returns the IMP. -/
def _imp_implementationWithBlockNoCopy (s : Trampolines) (dataAddress block : Nat) :
    Option (Nat × Trampolines) :=
  match s.getOrAllocatePageGroupWithNextAvailable T dataAddress with
  | none => none
  | some (pageGroup, s₁) =>
    let index := s₁.nextAvailable pageGroup
    if T.validIndex index then
      -- unused slots are zero, and are filled sequentially
      let nextAvailableIndex :=
        if s₁.payload pageGroup index = 0 then index + 1 else s₁.payload pageGroup index
      let s₂ := { s₁ with
        nextAvailable := update s₁.nextAvailable pageGroup nextAvailableIndex }
      let removed :=
        if nextAvailableIndex = T.endIndex then s₂.removeAvailable pageGroup else some s₂
      removed.map fun s₃ =>
        let payload := update (s₃.payload pageGroup) index block
        (T.trampoline pageGroup (T.argumentModeForBlock block) index,
          { s₃ with payload := update s₃.payload pageGroup payload })
    else none

/-- `imp_getBlock`; 0 is nil. -/
def imp_getBlock (s : Trampolines) (anImp : Nat) : Nat :=
  if anImp = 0 then 0
  else
    match s.pageAndIndexContainingIMP T anImp with
    | none => 0
    | some (pageGroup, index) =>
      if s.payload pageGroup index ≤ T.endIndex then 0 else s.payload pageGroup index

/-- The loop of `imp_removeBlock`: the page group before this one, or else the last one. -/
def pageBeforeOrLast (nextAvailablePage : Nat → Option Nat) (pageGroup : Nat) :
    Nat → Nat → Option Nat
  | 0, _ => none
  | fuel + 1, iterator =>
    match nextAvailablePage iterator with
    | none => some iterator
    | some next =>
      if next = pageGroup then some iterator
      else pageBeforeOrLast nextAvailablePage pageGroup fuel next

def addAvailable (s : Trampolines) (pageGroup : Nat) : Option Trampolines :=
  match s.pageGroups with
  | [] => none
  | HeadPageGroup :: _ =>
    match pageBeforeOrLast s.nextAvailablePage pageGroup (s.pageGroups.length + 1)
        HeadPageGroup with
    | none => none
    | some iterator =>
      if s.nextAvailablePage iterator = none then
        let next := update s.nextAvailablePage iterator (some pageGroup)
        some { s with nextAvailablePage := update next pageGroup none }
      else some s

/-- `imp_removeBlock`; returns the answer and what is handed to `Block_release`. -/
def imp_removeBlock (s : Trampolines) (anImp : Nat) : Option (Bool × Nat × Trampolines) :=
  if anImp = 0 then some (false, 0, s)
  else
    match s.pageAndIndexContainingIMP T anImp with
    | none => some (false, 0, s)
    | some (pageGroup, index) =>
      let block := s.payload pageGroup index
      let s₁ := { s with
        payload := update s.payload pageGroup
          (update (s.payload pageGroup) index (s.nextAvailable pageGroup))
        nextAvailable := update s.nextAvailable pageGroup index }
      (s₁.addAvailable pageGroup).map fun s₂ => (true, block, s₂)

end Trampolines

/-! ## Addresses and slots -/

namespace TrampolineLayout

variable {T : TrampolineLayout} {index : Nat}

theorem trampoline_bounds (pageGroup aMode : Nat) (h : T.validIndex index) :
    T.trampolinesForMode pageGroup aMode + T.startIndex * T.slotSize
        ≤ T.trampoline pageGroup aMode index ∧
      T.trampoline pageGroup aMode index
        < T.trampolinesForMode pageGroup aMode + T.endIndex * T.slotSize := by
  have hlow : T.startIndex * T.slotSize ≤ index * T.slotSize := mul_le_mul_right _ h.1
  have hhigh : (index + 1) * T.slotSize ≤ T.endIndex * T.slotSize := mul_le_mul_right _ h.2
  rw [succ_mul] at hhigh
  have hthumb := T.thumb_lt
  unfold trampoline
  omega

theorem indexForTrampoline_cases (T : TrampolineLayout) (pageGroup tramp : Nat) :
    (∃ aMode < T.ArgumentModeCount,
        T.trampolinesForMode pageGroup aMode + T.startIndex * T.slotSize ≤ tramp ∧
        tramp < T.trampolinesForMode pageGroup aMode + T.endIndex * T.slotSize ∧
        T.indexForTrampoline pageGroup tramp
          = (tramp - T.trampolinesForMode pageGroup aMode) / T.slotSize) ∨
      ((∀ aMode < T.ArgumentModeCount,
          ¬ (T.trampolinesForMode pageGroup aMode + T.startIndex * T.slotSize ≤ tramp ∧
            tramp < T.trampolinesForMode pageGroup aMode + T.endIndex * T.slotSize)) ∧
        T.indexForTrampoline pageGroup tramp = 0) := by
  unfold indexForTrampoline
  cases hfind : (range T.ArgumentModeCount).findSome? fun aMode =>
      if T.trampolinesForMode pageGroup aMode + T.startIndex * T.slotSize ≤ tramp ∧
          tramp < T.trampolinesForMode pageGroup aMode + T.endIndex * T.slotSize then
        some ((tramp - T.trampolinesForMode pageGroup aMode) / T.slotSize)
      else none with
  | some i =>
    left
    obtain ⟨aMode, hmem, heq⟩ := exists_of_findSome?_eq_some hfind
    split at heq
    next hin =>
      injection heq with heq
      exact ⟨aMode, mem_range.mp hmem, hin.1, hin.2, heq.symm⟩
    next => cases heq
  | none =>
    right
    refine ⟨fun aMode hmode hin => ?_, rfl⟩
    have := findSome?_eq_none_iff.mp hfind aMode (mem_range.mpr hmode)
    rw [if_pos hin] at this
    cases this

variable {pageGroup : Nat}

theorem validIndex_indexForTrampoline {tramp : Nat} (h : T.indexForTrampoline pageGroup tramp ≠ 0) :
    T.validIndex (T.indexForTrampoline pageGroup tramp) := by
  rcases indexForTrampoline_cases T pageGroup tramp with ⟨aMode, _, hlow, hhigh, heq⟩ | ⟨_, heq⟩
  · rw [heq]
    constructor
    · rw [le_div_iff_mul_le T.slotSize_pos]
      omega
    · rw [div_lt_iff_lt_mul T.slotSize_pos]
      omega
  · exact absurd heq h

theorem mode_page_le (T : TrampolineLayout) (pageGroup aMode : Nat) :
    T.trampolinesForMode pageGroup aMode + T.endIndex * T.slotSize
      ≤ T.trampolinesForMode pageGroup (aMode + 1) := by
  have h := T.endIndex_mul_le
  unfold trampolinesForMode
  rw [show 2 + (aMode + 1) = (2 + aMode) + 1 from rfl, mul_succ]
  omega

theorem trampolinesForMode_mono (T : TrampolineLayout) (pageGroup : Nat) {m n : Nat}
    (h : m ≤ n) : T.trampolinesForMode pageGroup m ≤ T.trampolinesForMode pageGroup n := by
  unfold trampolinesForMode
  have := Nat.mul_le_mul_left T.PAGE_MAX_SIZE (Nat.add_le_add_left h 2)
  omega

theorem indexForTrampoline_trampoline {aMode : Nat} (hmode : aMode < T.ArgumentModeCount)
    (hindex : T.validIndex index) :
    T.indexForTrampoline pageGroup (T.trampoline pageGroup aMode index) = index := by
  obtain ⟨hlow, hhigh⟩ := trampoline_bounds pageGroup aMode hindex
  rcases indexForTrampoline_cases T pageGroup (T.trampoline pageGroup aMode index) with
    ⟨m, _, hlow', hhigh', heq⟩ | ⟨hnone, _⟩
  · -- the pages of the modes do not overlap, so it is the same mode
    have hm : m = aMode := by
      rcases Nat.lt_trichotomy m aMode with hlt | heq' | hgt
      · have h1 := mode_page_le T pageGroup m
        have h2 := trampolinesForMode_mono T pageGroup (m := m + 1) hlt
        omega
      · exact heq'
      have h1 := mode_page_le T pageGroup aMode
      have h2 := trampolinesForMode_mono T pageGroup (m := aMode + 1) hgt
      omega
    subst hm
    rw [heq, trampoline, Nat.add_assoc, Nat.add_sub_cancel_left,
      Nat.div_eq_of_lt_le (Nat.le_add_right _ _)]
    rw [Nat.succ_mul]
    exact Nat.add_lt_add_left T.thumb_lt _
  · exact absurd ⟨hlow, hhigh⟩ (hnone aMode hmode)

theorem region_of_indexForTrampoline {tramp : Nat} (h : T.indexForTrampoline pageGroup tramp ≠ 0) :
    pageGroup ≤ tramp ∧ tramp < pageGroup + T.regionSize := by
  rcases indexForTrampoline_cases T pageGroup tramp with ⟨aMode, hmode, hlow, hhigh, _⟩ | ⟨_, heq⟩
  · have h1 := mode_page_le T pageGroup aMode
    have h2 := trampolinesForMode_mono T pageGroup (m := aMode + 1) hmode
    have h3 := T.ArgumentModeCount_le
    unfold trampolinesForMode at *
    omega
  · exact absurd heq h

theorem indexForTrampoline_ne_zero (pageGroup : Nat) {aMode : Nat}
    (hmode : aMode < T.ArgumentModeCount) (hindex : T.validIndex index) :
    T.indexForTrampoline pageGroup (T.trampoline pageGroup aMode index) ≠ 0 := by
  rw [indexForTrampoline_trampoline hmode hindex]
  have h1 := T.startIndex_pos
  have h2 := hindex.1
  omega

theorem trampoline_pos (pageGroup aMode : Nat) (hindex : T.validIndex index) :
    T.trampoline pageGroup aMode index ≠ 0 := by
  have h1 := Nat.mul_pos (Nat.lt_of_lt_of_le T.startIndex_pos hindex.1) T.slotSize_pos
  unfold trampoline
  omega

end TrampolineLayout

theorem Trampolines.pageAndIndexContainingIMP_trampoline {T : TrampolineLayout} {s : Trampolines}
    (hapart : s.pageGroups.Pairwise T.Apart) {pageGroup aMode index : Nat}
    (hpage : pageGroup ∈ s.pageGroups) (hmode : aMode < T.ArgumentModeCount)
    (hindex : T.validIndex index) :
    s.pageAndIndexContainingIMP T (T.trampoline pageGroup aMode index)
      = some (pageGroup, index) := by
  have hne := TrampolineLayout.indexForTrampoline_ne_zero pageGroup hmode hindex
  unfold pageAndIndexContainingIMP
  generalize s.pageGroups = pages at hapart hpage
  induction pages with
  | nil => cases hpage
  | cons first rest ih => ?_
  rw [findSome?_cons]
  obtain ⟨hfirst, hrest⟩ := pairwise_cons.mp hapart
  by_cases heq : first = pageGroup
  · subst heq
    rw [if_pos hne, TrampolineLayout.indexForTrampoline_trampoline hmode hindex]
  have hmem : pageGroup ∈ rest := (mem_cons.mp hpage).resolve_left (Ne.symm heq)
  -- the address cannot lie in two regions
  have hzero : T.indexForTrampoline first (T.trampoline pageGroup aMode index) = 0 := by
    by_contra h
    have h1 := TrampolineLayout.region_of_indexForTrampoline h
    have h2 := TrampolineLayout.region_of_indexForTrampoline hne
    rcases hfirst pageGroup hmem with h3 | h3 <;> omega
  rw [hzero]
  exact ih hrest hmem

theorem Trampolines.pageAndIndexContainingIMP_some {T : TrampolineLayout} {s : Trampolines}
    {anImp pageGroup index : Nat}
    (h : s.pageAndIndexContainingIMP T anImp = some (pageGroup, index)) :
    pageGroup ∈ s.pageGroups ∧ T.validIndex index := by
  obtain ⟨p, hmem, heq⟩ := exists_of_findSome?_eq_some h
  split at heq
  next hne =>
    injection heq with heq
    injection heq with hp hi
    subst hp hi
    exact ⟨hmem, TrampolineLayout.validIndex_indexForTrampoline hne⟩
  next => cases heq

end ObjcRuntime
