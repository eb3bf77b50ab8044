/-
RUNS OF THE BLOCK TRAMPOLINES.

A run makes and removes trampolines, in any order, on any number of page
groups. Beside the page groups it keeps which IMPs are in use, for which
block.

* `implementationWithBlock_spec`, `removeBlock_spec`: what a step does,
* `TrampolineRun.Inv.reachable`: the invariant of every run.
-/
import ObjcRuntime.Lib.Transition
import ObjcRuntime.Trampoline.Slots

namespace ObjcRuntime

open Lib Function List Option Trampolines

/-! ## Runs -/

/-- The page groups, and the IMPs in use with their blocks. -/
structure TrampolineRun where
  pages : Trampolines
  live : List (Nat × Nat)

inductive TrampolineOp where
  /-- `dataAddress` is what `vm_allocate` returns in case it is called. -/
  | implementationWithBlock (dataAddress block : Nat)
  | getBlock (anImp : Nat)
  | removeBlock (anImp : Nat)
  deriving DecidableEq

variable (T : TrampolineLayout)

def trampolineStep (r : TrampolineRun) : TrampolineOp → Option TrampolineRun
  | .implementationWithBlock dataAddress block =>
    if T.endIndex < block ∧ 0 < dataAddress ∧
        ∀ p ∈ r.pages.pageGroups, T.Apart p dataAddress then
      (r.pages._imp_implementationWithBlockNoCopy T dataAddress block).map fun res =>
        ⟨res.2, (res.1, block) :: r.live⟩
    else none
  | .getBlock _ => some r
  | .removeBlock anImp =>
    if anImp ∈ r.live.map Prod.fst then
      (r.pages.imp_removeBlock T anImp).map fun res =>
        ⟨res.2.2, r.live.filter fun e => decide (e.1 ≠ anImp)⟩
    else none

def TrampolineRun.initial : TrampolineRun :=
  ⟨⟨[], fun _ => none, fun _ => 0, fun _ _ => 0⟩, []⟩

def trampolineSystem : System TrampolineRun TrampolineOp where
  init := (· = TrampolineRun.initial)
  step := trampolineStep T

/-- Some IMP in use has this slot. -/
def TrampolineRun.SlotLive (r : TrampolineRun) (pageGroup index : Nat) : Prop :=
  T.validIndex index ∧
    ∃ e ∈ r.live, e.1 = T.trampoline pageGroup (T.argumentModeForBlock e.2) index

def Trampolines.RoomAvailable (s : Trampolines) : Prop :=
  ∀ HeadPageGroup rest, s.pageGroups = HeadPageGroup :: rest →
    ∀ p ∈ s.pageGroups, s.nextAvailable p ≠ T.endIndex → Under s.nextAvailablePage HeadPageGroup p

structure TrampolineRun.Inv (r : TrampolineRun) : Prop where
  apart : r.pages.pageGroups.Pairwise T.Apart
  slots : ∀ p ∈ r.pages.pageGroups, ∃ free unused,
    SlotsWF T (r.pages.payload p) (r.pages.nextAvailable p) (r.SlotLive T p) free unused
  live : ∀ e ∈ r.live, T.endIndex < e.2 ∧ ∃ p ∈ r.pages.pageGroups, ∃ i, T.validIndex i ∧
    e.1 = T.trampoline p (T.argumentModeForBlock e.2) i ∧ r.pages.payload p i = e.2
  nodup : (r.live.map Prod.fst).Nodup
  avail : ∀ HeadPageGroup rest, r.pages.pageGroups = HeadPageGroup :: rest →
    ∃ avail, r.pages.Available HeadPageGroup avail ∧
      ∀ p ∈ avail, r.pages.nextAvailable p ≠ T.endIndex

variable {T}

theorem TrampolineLayout.regionSize_pos (T : TrampolineLayout) : 0 < T.regionSize := by
  have h := T.headerSize_room
  have h' := T.headerSize_pos
  unfold TrampolineLayout.regionSize
  omega

theorem Trampolines.trampoline_inj {s : Trampolines} (hapart : s.pageGroups.Pairwise T.Apart)
    {p q i j block block' : Nat} (hp : p ∈ s.pageGroups) (hq : q ∈ s.pageGroups)
    (hi : T.validIndex i) (hj : T.validIndex j)
    (h : T.trampoline p (T.argumentModeForBlock block) i
      = T.trampoline q (T.argumentModeForBlock block') j) : p = q ∧ i = j := by
  have h1 := pageAndIndexContainingIMP_trampoline hapart hp (T.argumentModeForBlock_lt block) hi
  have h2 := pageAndIndexContainingIMP_trampoline hapart hq (T.argumentModeForBlock_lt block') hj
  rw [h, h2] at h1
  injection h1 with h1
  injection h1 with hp hi
  exact ⟨hp.symm, hi.symm⟩

namespace TrampolineRun

variable {r : TrampolineRun}

/-! ## Making a trampoline -/

theorem roomAvailable_iff {s : Trampolines} {HeadPageGroup : Nat} {rest avail : List Nat}
    (h : s.Available HeadPageGroup avail) (hpages : s.pageGroups = HeadPageGroup :: rest) :
    s.RoomAvailable T ↔
      ∀ p ∈ s.pageGroups, s.nextAvailable p ≠ T.endIndex → p ∈ HeadPageGroup :: avail := by
  constructor
  · intro hroom p hp hne
    exact h.list.under_iff.mp (hroom HeadPageGroup rest hpages p hp hne)
  intro hroom head' rest' hpages' p hp hne
  obtain ⟨rfl, _⟩ := cons.inj (hpages'.symm.trans hpages)
  exact h.list.under_iff.mpr (hroom p hp hne)

variable {dataAddress : Nat}

def withPage (T : TrampolineLayout) (s : Trampolines) (dataAddress : Nat)
    (next : Nat → Option Nat) : Trampolines :=
  ⟨s.pageGroups ++ [dataAddress], next, update s.nextAvailable dataAddress T.startIndex,
    update s.payload dataAddress fun _ => 0⟩

theorem ne_of_fresh (hfresh : ∀ p ∈ r.pages.pageGroups, T.Apart p dataAddress) :
    ∀ p ∈ r.pages.pageGroups, p ≠ dataAddress := by
  rintro p hp rfl
  have := T.regionSize_pos
  rcases hfresh p hp with h' | h' <;> omega

variable (h : r.Inv T)
include h

theorem Inv.with_new (hfresh : ∀ p ∈ r.pages.pageGroups, T.Apart p dataAddress)
    {next : Nat → Option Nat}
    (havail : ∀ HeadPageGroup rest, r.pages.pageGroups ++ [dataAddress] = HeadPageGroup :: rest →
      ∃ avail, (withPage T r.pages dataAddress next).Available HeadPageGroup avail ∧
        ∀ p ∈ avail, (withPage T r.pages dataAddress next).nextAvailable p ≠ T.endIndex) :
    Inv T ⟨withPage T r.pages dataAddress next, r.live⟩ := by
  have hself := ne_of_fresh hfresh
  have hapart : (r.pages.pageGroups ++ [dataAddress]).Pairwise T.Apart := by
    rw [pairwise_append]
    refine ⟨h.apart, pairwise_singleton _ _, fun a ha b hb => ?_⟩
    rw [mem_singleton.mp hb]
    exact hfresh a ha
  refine ⟨hapart, fun p hp => ?_, fun e he => ?_, h.nodup, havail⟩
  · show ∃ free unused, SlotsWF T (update r.pages.payload dataAddress (fun _ => 0) p)
      (update r.pages.nextAvailable dataAddress T.startIndex p) (r.SlotLive T p) free unused
    rcases mem_append.mp hp with hp | hp
    · rw [update_of_ne (hself p hp), update_of_ne (hself p hp)]
      exact h.slots p hp
    rw [mem_singleton.mp hp, update_self, update_self]
    refine ⟨[], T.startIndex, (SlotsWF.start T).congr_live fun i => ?_⟩
    -- no IMP in use lies in memory that was not allocated
    simp only [iff_false]
    rintro ⟨hi, e, he, heq⟩
    obtain ⟨_, q, hq, j, hj, heq', _⟩ := h.live e he
    have hinj := trampoline_inj
      (s := withPage T r.pages dataAddress next) hapart (mem_append_left _ hq)
      (mem_append_right _ (mem_singleton_self _)) hj hi (heq'.symm.trans heq)
    exact hself q hq hinj.1
  · obtain ⟨hblock, p, hp, i, hi, heq, hpayload⟩ := h.live e he
    refine ⟨hblock, p, mem_append_left _ hp, i, hi, heq, ?_⟩
    show update r.pages.payload dataAddress (fun _ => 0) p i = e.2
    rw [update_of_ne (hself p hp)]
    exact hpayload

theorem Inv.allocate (hfresh : ∀ p ∈ r.pages.pageGroups, T.Apart p dataAddress)
    (hnone : ∀ HeadPageGroup rest, r.pages.pageGroups = HeadPageGroup :: rest →
      r.pages.nextAvailablePage HeadPageGroup = none) :
    ∃ s₁ HeadPageGroup rest avail,
      r.pages._allocateTrampolinesAndData T dataAddress = some (dataAddress, s₁) ∧
      Inv T ⟨s₁, r.live⟩ ∧ s₁.pageGroups = r.pages.pageGroups ++ [dataAddress] ∧
      s₁.pageGroups = HeadPageGroup :: rest ∧ s₁.nextAvailable dataAddress ≠ T.endIndex ∧
      s₁.Available HeadPageGroup avail ∧
      (∀ p ∈ avail, s₁.nextAvailable p ≠ T.endIndex) ∧
      (dataAddress = HeadPageGroup ∨ avail = [dataAddress]) ∧
      ∀ p ∈ r.pages.pageGroups, s₁.nextAvailable p = r.pages.nextAvailable p := by
  have hself := ne_of_fresh hfresh
  have hroom : update r.pages.nextAvailable dataAddress T.startIndex dataAddress ≠ T.endIndex := by
    rw [update_self]
    exact ne_of_lt T.startIndex_lt_endIndex
  have hsame : ∀ p ∈ r.pages.pageGroups,
      update r.pages.nextAvailable dataAddress T.startIndex p = r.pages.nextAvailable p :=
    fun p hp => update_of_ne (hself p hp) _ _
  cases hpages : r.pages.pageGroups with
  | nil =>
    have hcons1 : r.pages.pageGroups ++ [dataAddress] = [dataAddress] := by rw [hpages, nil_append]
    have havail : (withPage T r.pages dataAddress
        (update r.pages.nextAvailablePage dataAddress none)).Available dataAddress [] := by
      refine ⟨?_, nodup_singleton _, nofun⟩
      show SiblingList _ (update r.pages.nextAvailablePage dataAddress none dataAddress) []
      rw [update_self]
      exact .nil
    refine ⟨_, dataAddress, [], [], ?_, h.with_new hfresh ?_, hcons1, hcons1, hroom, havail,
      nofun, .inl rfl, hpages ▸ hsame⟩
    · simp only [_allocateTrampolinesAndData, hpages, withPage, nil_append]
    intro head rest hcons
    obtain ⟨rfl, _⟩ := cons.inj (hcons1.symm.trans hcons)
    exact ⟨[], havail, nofun⟩
  | cons head rest => ?_
  have hcons1 : r.pages.pageGroups ++ [dataAddress] = head :: (rest ++ [dataAddress]) := by
    rw [hpages, cons_append]
  have hne : head ≠ dataAddress := hself head (hpages ▸ mem_cons_self)
  have havail : (withPage T r.pages dataAddress (update (update r.pages.nextAvailablePage
      dataAddress none) head (some dataAddress))).Available head [dataAddress] := by
    refine ⟨?_, ?_, fun p hp => ?_⟩
    · show SiblingList (update (update r.pages.nextAvailablePage dataAddress none) head
        (some dataAddress)) (update (update r.pages.nextAvailablePage dataAddress none) head
        (some dataAddress) head) [dataAddress]
      rw [update_self]
      refine .cons ?_
      rw [update_of_ne (Ne.symm hne), update_self]
      exact .nil
    · simpa using hne
    · rw [mem_singleton.mp hp]
      exact mem_append_right _ (mem_singleton_self _)
  have hroom' : ∀ p ∈ [dataAddress],
      update r.pages.nextAvailable dataAddress T.startIndex p ≠ T.endIndex := by
    intro p hp
    rw [mem_singleton.mp hp]
    exact hroom
  refine ⟨_, head, rest ++ [dataAddress], [dataAddress], ?_, h.with_new hfresh ?_, hcons1,
    hcons1, hroom, havail, hroom', .inr rfl, hpages ▸ hsame⟩
  · simp only [_allocateTrampolinesAndData, hpages, hnone head rest hpages, if_true, withPage]
  intro head' rest' hcons
  obtain ⟨rfl, _⟩ := cons.inj (hcons1.symm.trans hcons)
  exact ⟨[dataAddress], havail, hroom'⟩

structure Chosen (T : TrampolineLayout) (r : TrampolineRun) (s₁ : Trampolines)
    (pageGroup HeadPageGroup : Nat) (rest avail : List Nat) : Prop where
  inv : Inv T ⟨s₁, r.live⟩
  pages : s₁.pageGroups = HeadPageGroup :: rest
  mem : pageGroup ∈ s₁.pageGroups
  room : s₁.nextAvailable pageGroup ≠ T.endIndex
  available : s₁.Available HeadPageGroup avail
  availRoom : ∀ p ∈ avail, s₁.nextAvailable p ≠ T.endIndex
  first : pageGroup = HeadPageGroup ∨ ∃ avail', avail = pageGroup :: avail'
  roomAvailable : r.pages.RoomAvailable T → s₁.RoomAvailable T
  full : r.pages.RoomAvailable T → s₁.pageGroups ≠ r.pages.pageGroups →
    ∀ p ∈ r.pages.pageGroups, r.pages.nextAvailable p = T.endIndex

theorem Inv.chosen_new (hfresh : ∀ p ∈ r.pages.pageGroups, T.Apart p dataAddress)
    (hnone : ∀ HeadPageGroup rest, r.pages.pageGroups = HeadPageGroup :: rest →
      r.pages.nextAvailable HeadPageGroup = T.endIndex ∧
        r.pages.nextAvailablePage HeadPageGroup = none) :
    ∃ s₁ HeadPageGroup rest avail,
      r.pages._allocateTrampolinesAndData T dataAddress = some (dataAddress, s₁) ∧
      Chosen T r s₁ dataAddress HeadPageGroup rest avail := by
  obtain ⟨s₁, head, rest, avail, hrun, hinv, hpages1, hcons, hroom, havail, havailRoom, hfirst,
    hsame⟩ := h.allocate hfresh fun head rest hpages => (hnone head rest hpages).2
  have hfull : r.pages.RoomAvailable T →
      ∀ p ∈ r.pages.pageGroups, r.pages.nextAvailable p = T.endIndex := by
    intro hall p hp
    cases hpages : r.pages.pageGroups with
    | nil =>
      rw [hpages] at hp
      cases hp
    | cons head' rest' => ?_
    by_contra hne
    obtain ⟨hend, hnext⟩ := hnone head' rest' hpages
    have hunder := hall head' rest' hpages p hp hne
    by_cases heq : head' = p
    · exact hne (heq ▸ hend)
    obtain ⟨q, hq, _⟩ := hunder.parent_of_ne heq
    rw [hnext] at hq
    cases hq
  refine ⟨s₁, head, rest, avail, hrun, hinv, hcons, ?_, hroom, havail, havailRoom, ?_, ?_,
    fun hall _ => hfull hall⟩
  · rw [hpages1]
    exact mem_append_right _ (mem_singleton_self _)
  · rcases hfirst with heq | heq
    · exact .inl heq
    · exact .inr ⟨[], heq⟩
  intro hall
  rw [roomAvailable_iff havail hcons]
  intro p hp hne
  rw [hpages1] at hp
  rcases mem_append.mp hp with hp | hp
  · rw [hsame p hp] at hne
    exact absurd (hfull hall p hp) hne
  rw [mem_singleton.mp hp]
  rcases hfirst with heq | heq
  · exact heq ▸ mem_cons_self
  · rw [heq]
    exact mem_cons_of_mem _ (mem_singleton_self _)

theorem Inv.getOrAllocate (hfresh : ∀ p ∈ r.pages.pageGroups, T.Apart p dataAddress) :
    ∃ pageGroup s₁ HeadPageGroup rest avail,
      r.pages.getOrAllocatePageGroupWithNextAvailable T dataAddress = some (pageGroup, s₁) ∧
      Chosen T r s₁ pageGroup HeadPageGroup rest avail := by
  cases hpages : r.pages.pageGroups with
  | nil =>
    obtain ⟨s₁, head, rest, avail, hrun, hchosen⟩ := h.chosen_new hfresh
      (fun head rest hcons => by rw [hpages] at hcons; cases hcons)
    refine ⟨dataAddress, s₁, head, rest, avail, ?_, hchosen⟩
    simp only [getOrAllocatePageGroupWithNextAvailable, hpages, hrun]
  | cons head rest => ?_
  obtain ⟨avail, havail, havailRoom⟩ := h.avail head rest hpages
  have hsame : r.pages.RoomAvailable T → r.pages.pageGroups ≠ r.pages.pageGroups →
      ∀ p ∈ r.pages.pageGroups, r.pages.nextAvailable p = T.endIndex :=
    fun _ hne => absurd rfl hne
  by_cases hhead : r.pages.nextAvailable head = T.endIndex
  · cases hnext : r.pages.nextAvailablePage head with
    | some p =>
      -- the first page group on the head's list
      have hlist := havail.list
      rw [hnext] at hlist
      cases hlist with
      | @cons _ avail' _ =>
        refine ⟨p, r.pages, head, rest, p :: avail', ?_, h, hpages,
          havail.mem p mem_cons_self, havailRoom p mem_cons_self, havail,
          havailRoom, .inr ⟨avail', rfl⟩, id, hsame⟩
        simp only [getOrAllocatePageGroupWithNextAvailable, hpages, hhead,
          ne_eq, not_true_eq_false, if_false, hnext]
    | none => ?_
    obtain ⟨s₁, head', rest', avail', hrun, hchosen⟩ := h.chosen_new hfresh
      (fun head'' rest'' hcons => by
        rw [hpages] at hcons
        obtain ⟨rfl, _⟩ := cons.inj hcons
        exact ⟨hhead, hnext⟩)
    refine ⟨dataAddress, s₁, head', rest', avail', ?_, hchosen⟩
    simp only [getOrAllocatePageGroupWithNextAvailable, hpages, hhead,
      ne_eq, not_true_eq_false, if_false, hnext, hrun]
  · refine ⟨head, r.pages, head, rest, avail, ?_, h, hpages, hpages ▸ mem_cons_self,
      hhead, havail, havailRoom, .inl rfl, id, hsame⟩
    simp only [getOrAllocatePageGroupWithNextAvailable, hpages, ne_eq, hhead,
      not_false_eq_true, if_true]

omit h

theorem Chosen.removeIfFull {s₁ : Trampolines} {pageGroup HeadPageGroup : Nat}
    {rest avail : List Nat} (h : Chosen T r s₁ pageGroup HeadPageGroup rest avail) (index : Nat) :
    ∃ s3 avail3, (if index = T.endIndex then
          Trampolines.removeAvailable
            { s₁ with nextAvailable := update s₁.nextAvailable pageGroup index } pageGroup
        else some
          { s₁ with nextAvailable := update s₁.nextAvailable pageGroup index }) = some s3 ∧
      s3.pageGroups = s₁.pageGroups ∧
      s3.nextAvailable = update s₁.nextAvailable pageGroup index ∧
      s3.payload = s₁.payload ∧ s3.Available HeadPageGroup avail3 ∧
      (∀ p ∈ avail3, s3.nextAvailable p ≠ T.endIndex) ∧
      ∀ p ∈ HeadPageGroup :: avail, s3.nextAvailable p ≠ T.endIndex → p ∈ HeadPageGroup :: avail3 := by
  have havail : Available
      { s₁ with nextAvailable := update s₁.nextAvailable pageGroup index }
      HeadPageGroup avail := ⟨h.available.list, h.available.nodup, h.available.mem⟩
  have hnodup := nodup_cons.mp h.available.nodup
  by_cases hfull : index = T.endIndex
  · rw [if_pos hfull]
    rcases h.first with heq | ⟨avail', heq⟩
    · -- the head stays where it is
      refine ⟨{ s₁ with nextAvailable := update s₁.nextAvailable pageGroup index }, avail,
        ?_, rfl, rfl, rfl, havail, fun p hp => ?_, fun p hp _ => hp⟩
      · have := removeAvailable_head havail h.pages
        rwa [← heq] at this
      show update s₁.nextAvailable pageGroup index p ≠ T.endIndex
      have hne : p ≠ pageGroup := by
        rintro rfl
        exact hnodup.1 (heq ▸ hp)
      rw [update_of_ne hne]
      exact h.availRoom p hp
    subst heq
    obtain ⟨s3, hrun, hpages, hnext, hpayload, havail3⟩ :=
      removeAvailable_first havail h.pages
    have hne : ∀ p ∈ avail', p ≠ pageGroup := fun p hp hpp =>
      (nodup_cons.mp hnodup.2).1 (hpp ▸ hp)
    refine ⟨s3, avail', hrun, hpages, hnext, hpayload, havail3, fun p hp => ?_,
      fun p hp hroom => ?_⟩
    · rw [hnext]
      show update s₁.nextAvailable pageGroup index p ≠ T.endIndex
      rw [update_of_ne (hne p hp)]
      exact h.availRoom p (mem_cons_of_mem _ hp)
    rcases mem_cons.mp hp with rfl | hp
    · exact mem_cons_self
    rcases mem_cons.mp hp with rfl | hp
    · rw [hnext] at hroom
      exact absurd ((update_self _ _ _).trans hfull) hroom
    · exact mem_cons_of_mem _ hp
  · rw [if_neg hfull]
    refine ⟨_, avail, rfl, rfl, rfl, rfl, havail, fun p hp => ?_, fun p hp _ => hp⟩
    show update s₁.nextAvailable pageGroup index p ≠ T.endIndex
    by_cases hpp : p = pageGroup
    · rw [hpp, update_self]
      exact hfull
    · rw [update_of_ne hpp]
      exact h.availRoom p hp

include h

theorem implementationWithBlock_spec {block : Nat} (hblock : T.endIndex < block)
    (hfresh : ∀ p ∈ r.pages.pageGroups, T.Apart p dataAddress) :
    ∃ anImp s', r.pages._imp_implementationWithBlockNoCopy T dataAddress block = some (anImp, s') ∧
      Inv T ⟨s', (anImp, block) :: r.live⟩ ∧
      (r.pages.RoomAvailable T → s'.RoomAvailable T) ∧
      (r.pages.RoomAvailable T → s'.pageGroups ≠ r.pages.pageGroups →
        ∀ p ∈ r.pages.pageGroups, r.pages.nextAvailable p = T.endIndex) := by
  obtain ⟨pageGroup, s₁, head, rest, avail, hget, hchosen⟩ := h.getOrAllocate hfresh
  obtain ⟨free, unused, hslots⟩ := hchosen.inv.slots pageGroup hchosen.mem
  obtain ⟨hvalid, hnotLive⟩ := hslots.next_free hchosen.room
  obtain ⟨free', unused', htake⟩ := hslots.take hchosen.room block
  obtain ⟨s3, avail3, hremoved, hpages3, hnext₃, hpayload3, havail3, hroom3, hkeep⟩ :=
    hchosen.removeIfFull (if s₁.payload pageGroup (s₁.nextAvailable pageGroup) = 0
      then s₁.nextAvailable pageGroup + 1 else s₁.payload pageGroup (s₁.nextAvailable pageGroup))
  generalize hindex : s₁.nextAvailable pageGroup = index at *
  generalize hafter : (if s₁.payload pageGroup index = 0 then index + 1
    else s₁.payload pageGroup index) = after at *
  -- the slot of the new IMP is that slot, and no other
  have hinj : ∀ p ∈ s₁.pageGroups, ∀ i b, T.validIndex i →
      T.trampoline pageGroup (T.argumentModeForBlock block) index
        = T.trampoline p (T.argumentModeForBlock b) i → pageGroup = p ∧ index = i :=
    fun p hp i b hi heq =>
      trampoline_inj hchosen.inv.apart hchosen.mem hp hvalid hi heq
  refine ⟨T.trampoline pageGroup (T.argumentModeForBlock block) index, { s3 with
      payload := update s3.payload pageGroup
        (update (s3.payload pageGroup) index block) }, ?_, ⟨?_, ?_, ?_, ?_, ?_⟩, ?_, ?_⟩
  · simp only [_imp_implementationWithBlockNoCopy, hget, hindex, if_pos hvalid, hafter,
      hremoved, map_some]
  · rw [hpages3]
    exact hchosen.inv.apart
  · intro p hp
    have hp1 : p ∈ s₁.pageGroups := hpages3 ▸ hp
    show ∃ free unused, SlotsWF T (update s3.payload pageGroup
      (update (s3.payload pageGroup) index block) p) (s3.nextAvailable p) _ free unused
    rw [hpayload3, hnext₃]
    by_cases hpp : p = pageGroup
    · subst hpp
      rw [update_self, update_self]
      refine ⟨free', unused', htake.congr_live fun i => ?_⟩
      constructor
      · rintro ⟨hi, e, he, heq⟩
        rcases mem_cons.mp he with rfl | he
        · exact .inr (hinj p hp1 i block hi heq).2.symm
        · exact .inl ⟨hi, e, he, heq⟩
      · rintro (⟨hi, e, he, heq⟩ | rfl)
        · exact ⟨hi, e, mem_cons_of_mem _ he, heq⟩
        · exact ⟨hvalid, _, mem_cons_self, rfl⟩
    rw [update_of_ne hpp, update_of_ne hpp]
    obtain ⟨free2, unused2, hslots2⟩ := hchosen.inv.slots p hp1
    refine ⟨free2, unused2, hslots2.congr_live fun i => ?_⟩
    constructor
    · rintro ⟨hi, e, he, heq⟩
      rcases mem_cons.mp he with rfl | he
      · exact absurd (hinj p hp1 i block hi heq).1.symm hpp
      · exact ⟨hi, e, he, heq⟩
    · rintro ⟨hi, e, he, heq⟩
      exact ⟨hi, e, mem_cons_of_mem _ he, heq⟩
  · intro e he
    rcases mem_cons.mp he with rfl | hold
    · refine ⟨hblock, pageGroup, hpages3 ▸ hchosen.mem, index, hvalid, rfl, ?_⟩
      show update s3.payload pageGroup _ pageGroup index = block
      rw [update_self, update_self]
    obtain ⟨hb, p, hp, i, hi, heq, hpayload⟩ := hchosen.inv.live e hold
    refine ⟨hb, p, hpages3 ▸ hp, i, hi, heq, ?_⟩
    show update s3.payload pageGroup _ p i = e.2
    by_cases hpp : p = pageGroup
    · subst hpp
      -- a slot in use is not the one that was free
      have hne : i ≠ index := fun hii => hnotLive (hii ▸ ⟨hi, e, hold, heq⟩)
      rw [update_self, update_of_ne hne, hpayload3]
      exact hpayload
    · rw [update_of_ne hpp, hpayload3]
      exact hpayload
  · show ((T.trampoline pageGroup (T.argumentModeForBlock block) index)
      :: r.live.map Prod.fst).Nodup
    refine nodup_cons.mpr ⟨fun hmem => ?_, h.nodup⟩
    obtain ⟨e, he, heq⟩ := mem_map.mp hmem
    obtain ⟨_, p, hp, i, hi, heq', _⟩ := hchosen.inv.live e he
    obtain ⟨rfl, rfl⟩ := hinj p hp i e.2 hi (heq.symm.trans heq')
    exact hnotLive ⟨hi, e, he, heq'⟩
  · intro head' rest' hcons
    obtain ⟨rfl, _⟩ := cons.inj ((hpages3.trans hchosen.pages).symm.trans hcons)
    exact ⟨avail3, { havail3 with }, hroom3⟩
  · intro hall
    have hall1 := (roomAvailable_iff hchosen.available hchosen.pages).mp
      (hchosen.roomAvailable hall)
    have havail' : Available { s3 with
          payload := update s3.payload pageGroup
            (update (s3.payload pageGroup) index block) } head avail3 :=
      { havail3 with }
    rw [roomAvailable_iff havail' (hpages3.trans hchosen.pages)]
    intro p hp hne
    have hp1 : p ∈ s₁.pageGroups := hpages3 ▸ hp
    refine hkeep p (hall1 p hp1 ?_) hne
    by_cases hpp : p = pageGroup
    · exact hpp ▸ hchosen.room
    have hne' : s3.nextAvailable p ≠ T.endIndex := hne
    rw [hnext₃, update_of_ne hpp] at hne'
    exact hne'
  · intro hall hne
    exact hchosen.full hall fun heq => hne (hpages3.trans heq)

/-! ## Removing a trampoline -/

def HeadRemoval (T : TrampolineLayout) (r : TrampolineRun) (anImp : Nat) : Prop :=
  ∃ HeadPageGroup rest index, r.pages.pageGroups = HeadPageGroup :: rest ∧
    r.pages.pageAndIndexContainingIMP T anImp = some (HeadPageGroup, index) ∧
    ∃ p ∈ rest, r.pages.nextAvailable p ≠ T.endIndex

theorem Inv.lookup {e : Nat × Nat} (he : e ∈ r.live) :
    ∃ p ∈ r.pages.pageGroups, ∃ i, T.validIndex i ∧ e.1 ≠ 0 ∧
      e.1 = T.trampoline p (T.argumentModeForBlock e.2) i ∧
      r.pages.pageAndIndexContainingIMP T e.1 = some (p, i) ∧ r.pages.payload p i = e.2 := by
  obtain ⟨_, p, hp, i, hi, heq, hpayload⟩ := h.live e he
  refine ⟨p, hp, i, hi, ?_, heq, ?_, hpayload⟩
  · rw [heq]
    exact TrampolineLayout.trampoline_pos p _ hi
  · rw [heq]
    exact pageAndIndexContainingIMP_trampoline h.apart hp (T.argumentModeForBlock_lt e.2) hi

/-- **Removing a trampoline.** Its block is the one released. All room stays available, unless
the slot is the head page group's and another page group has room. -/
theorem removeBlock_spec {e : Nat × Nat} (he : e ∈ r.live) :
    ∃ s', r.pages.imp_removeBlock T e.1 = some (true, e.2, s') ∧
      Inv T ⟨s', r.live.filter fun e' => decide (e'.1 ≠ e.1)⟩ ∧
      (r.pages.RoomAvailable T → (s'.RoomAvailable T ↔ ¬ HeadRemoval T r e.1)) := by
  obtain ⟨pageGroup, hmem, index, hvalid, hpos, hImp, hlookup, hpayload⟩ := h.lookup he
  obtain ⟨free, unused, hslots⟩ := h.slots pageGroup hmem
  have hgive := hslots.give (i := index) ⟨hvalid, e, he, hImp⟩
  obtain ⟨head, rest, hpages⟩ : ∃ head rest, r.pages.pageGroups = head :: rest := by
    cases hpages : r.pages.pageGroups with
    | nil =>
      rw [hpages] at hmem
      cases hmem
    | cons head rest => exact ⟨head, rest, rfl⟩
  obtain ⟨avail, havail, havailRoom⟩ := h.avail head rest hpages
  have havail1 : Available { r.pages with
        payload := update r.pages.payload pageGroup (update
          (r.pages.payload pageGroup) index (r.pages.nextAvailable pageGroup))
        nextAvailable := update r.pages.nextAvailable pageGroup index } head avail :=
    { havail with }
  obtain ⟨s', hadd, hpages', hnext', hpayload', havail'⟩ :=
    addAvailable_spec havail1 hpages hmem
  have hroom : index ≠ T.endIndex := ne_of_lt hvalid.2
  -- the entries that stay are those of other slots
  have hother : ∀ e' ∈ r.live, ∀ p ∈ r.pages.pageGroups, ∀ i, T.validIndex i →
      e'.1 = T.trampoline p (T.argumentModeForBlock e'.2) i → e'.1 ≠ e.1 →
      ¬ (p = pageGroup ∧ i = index) := by
    rintro e' he' p hp i hi heq hne ⟨rfl, rfl⟩
    obtain ⟨_, q, hq, j, hj, heq', hpayload''⟩ := h.live e' he'
    obtain ⟨rfl, rfl⟩ := trampoline_inj h.apart hp hq hi hj (heq.symm.trans heq')
    rw [hpayload] at hpayload''
    rw [hImp, heq, ← hpayload''] at hne
    exact hne rfl
  refine ⟨s', ?_, ⟨?_, ?_, ?_, ?_, ?_⟩, ?_⟩
  · simp only [imp_removeBlock, if_neg hpos, hlookup]
    rw [hadd, map_some, hpayload]
  · rw [hpages']
    exact h.apart
  · intro p hp
    have hp1 : p ∈ r.pages.pageGroups := by
      rw [hpages'] at hp
      exact hp
    rw [hpayload', hnext']
    show ∃ free unused, SlotsWF T (update r.pages.payload pageGroup (update
      (r.pages.payload pageGroup) index (r.pages.nextAvailable pageGroup)) p)
      (update r.pages.nextAvailable pageGroup index p) _ free unused
    by_cases hpp : p = pageGroup
    · subst hpp
      rw [update_self, update_self]
      refine ⟨index :: free, unused, hgive.congr_live fun i => ?_⟩
      constructor
      · rintro ⟨hi, e', he', heq⟩
        obtain ⟨he', hne⟩ := mem_filter.mp he'
        exact ⟨⟨hi, e', he', heq⟩,
          fun hii => hother e' he' p hp1 i hi heq (by simpa using hne) ⟨rfl, hii⟩⟩
      rintro ⟨⟨hi, e', he', heq⟩, hne⟩
      refine ⟨hi, e', mem_filter.mpr ⟨he', ?_⟩, heq⟩
      rw [decide_eq_true_iff]
      intro hee
      rw [heq, hImp] at hee
      exact hne (trampoline_inj h.apart hp1 hp1 hi hvalid hee).2
    rw [update_of_ne hpp, update_of_ne hpp]
    obtain ⟨free2, unused2, hslots2⟩ := h.slots p hp1
    refine ⟨free2, unused2, hslots2.congr_live fun i => ?_⟩
    constructor
    · rintro ⟨hi, e', he', heq⟩
      exact ⟨hi, e', (mem_filter.mp he').1, heq⟩
    rintro ⟨hi, e', he', heq⟩
    refine ⟨hi, e', mem_filter.mpr ⟨he', ?_⟩, heq⟩
    rw [decide_eq_true_iff]
    intro hee
    rw [heq, hImp] at hee
    exact hpp (trampoline_inj h.apart hp1 hmem hi hvalid hee).1
  · intro e' he'
    obtain ⟨he', hne⟩ := mem_filter.mp he'
    obtain ⟨hb, p, hp, i, hi, heq, hpay⟩ := h.live e' he'
    refine ⟨hb, p, hpages' ▸ hp, i, hi, heq, ?_⟩
    show s'.payload p i = e'.2
    rw [hpayload']
    show update r.pages.payload pageGroup (update
      (r.pages.payload pageGroup) index (r.pages.nextAvailable pageGroup)) p i = e'.2
    have hnot := hother e' he' p hp i hi heq (by simpa using hne)
    by_cases hpp : p = pageGroup
    · subst hpp
      rw [update_self, update_of_ne fun hii => hnot ⟨rfl, hii⟩]
      exact hpay
    · rw [update_of_ne hpp]
      exact hpay
  · exact (h.nodup.sublist (filter_sublist.map _))
  · intro head' rest' hcons
    obtain ⟨rfl, _⟩ := cons.inj ((hpages'.trans hpages).symm.trans hcons)
    refine ⟨_, havail', fun p hp => ?_⟩
    show s'.nextAvailable p ≠ T.endIndex
    rw [hnext']
    show update r.pages.nextAvailable pageGroup index p ≠ T.endIndex
    by_cases hpp : p = pageGroup
    · rw [hpp, update_self]
      exact hroom
    rw [update_of_ne hpp]
    refine havailRoom p ?_
    split at hp
    next => cases hp
    split at hp
    next => exact hp
    exact (mem_append.mp hp).resolve_right fun h' => hpp (mem_singleton.mp h')
  intro hall
  have hall' := (roomAvailable_iff havail hpages).mp hall
  rw [roomAvailable_iff havail' (hpages'.trans hpages)]
  have hhead := (nodup_cons.mp havail.nodup).1
  constructor
  · rintro hroom' ⟨head', rest', index', hcons, hlookup', q, hq, hne⟩
    obtain ⟨rfl, rfl⟩ := cons.inj (hpages.symm.trans hcons)
    rw [hlookup] at hlookup'
    injection hlookup' with hlookup'
    injection hlookup' with hhead' _
    subst hhead'
    -- the list is lost, and with it the other page group
    have hnot : pageGroup ∉ rest := by
      have hapart := h.apart
      rw [hpages] at hapart
      intro hin
      have := T.regionSize_pos
      rcases (pairwise_cons.mp hapart).1 pageGroup hin with h' | h' <;> omega
    have hqp : q ≠ pageGroup := fun heq => hnot (heq ▸ hq)
    have hmem' := hroom' q (by rw [hpages', hpages]; exact mem_cons_of_mem _ hq) (by
      rw [hnext']
      show update r.pages.nextAvailable pageGroup index q ≠ T.endIndex
      rw [update_of_ne hqp]
      exact hne)
    rw [if_pos rfl, mem_singleton] at hmem'
    exact hqp hmem'
  intro hnot p hp hne
  have hp1 : p ∈ r.pages.pageGroups := by
    rw [hpages'] at hp
    exact hp
  by_cases hpp : p = pageGroup
  · subst hpp
    by_cases hph : p = head
    · exact hph ▸ mem_cons_self
    rw [if_neg hph]
    refine mem_cons_of_mem _ ?_
    split
    next hin => exact hin
    next => exact mem_append_right _ (mem_singleton_self _)
  rw [hnext'] at hne
  have hne' : update r.pages.nextAvailable pageGroup index p ≠ T.endIndex := hne
  rw [update_of_ne hpp] at hne'
  rcases mem_cons.mp (hall' p hp1 hne') with rfl | hin
  · exact mem_cons_self
  have hph : p ≠ head := fun heq => hhead (heq ▸ hin)
  have hrest : p ∈ rest := by
    rw [hpages] at hp1
    exact (mem_cons.mp hp1).resolve_left hph
  have hpg : pageGroup ≠ head := by
    rintro rfl
    exact hnot ⟨pageGroup, rest, index, hpages, hlookup, p, hrest, hne'⟩
  rw [if_neg hpg]
  refine mem_cons_of_mem _ ?_
  split
  next => exact hin
  next => exact mem_append_left _ hin

omit h

/-! ## The invariant of a run -/

theorem Inv.initial (T : TrampolineLayout) : Inv T TrampolineRun.initial where
  apart := Pairwise.nil
  slots := by
    intro p hp
    cases hp
  live := by
    intro e he
    cases he
  nodup := nodup_nil
  avail := by
    intro head rest hcons
    cases hcons

theorem Inv.step (h : r.Inv T) {op : TrampolineOp} {r' : TrampolineRun}
    (hstep : trampolineStep T r op = some r') : r'.Inv T := by
  cases op with
  | implementationWithBlock dataAddress block =>
    obtain ⟨hok, hstep⟩ := ite_none_right_eq_some.mp hstep
    obtain ⟨anImp, s', hrun, hinv, _⟩ := implementationWithBlock_spec h hok.1 hok.2.2
    rw [hrun, map_some] at hstep
    cases hstep
    exact hinv
  | getBlock anImp =>
    cases hstep
    exact h
  | removeBlock anImp => ?_
  obtain ⟨hok, hstep⟩ := ite_none_right_eq_some.mp hstep
  obtain ⟨e, he, rfl⟩ := mem_map.mp hok
  obtain ⟨s', hrun, hinv, _⟩ := removeBlock_spec h he
  rw [hrun, map_some] at hstep
  cases hstep
  exact hinv

theorem Inv.reachable {ok : TrampolineRun → Prop} (h : (trampolineSystem T).Reachable ok r) :
    r.Inv T := by
  refine h.invariant (fun s hs _ => ?_) fun s op s' hinv _ hstep _ => hinv.step hstep
  rw [show s = TrampolineRun.initial from hs]
  exact Inv.initial T

end TrampolineRun

end ObjcRuntime
