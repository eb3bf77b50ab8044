/-
WHAT HOLDS OF THE BLOCK TRAMPOLINES, AND WHAT DOES NOT.
-/
import ObjcRuntime.Trampoline.Run

namespace ObjcRuntime

open Lib Option Trampolines Nat TrampolineRun.Inv TrampolineRun Prod List

variable (T : TrampolineLayout)

/-! ## IMPs and their blocks -/

namespace TrampolineRun

structure Correct (r : TrampolineRun) : Prop where
  distinct : (r.live.map Prod.fst).Nodup
  getBlock_live : ∀ e ∈ r.live, r.pages.imp_getBlock T e.1 = e.2
  getBlock_free : ∀ anImp,
    (∀ p i, r.pages.pageAndIndexContainingIMP T anImp = some (p, i) → ¬ r.SlotLive T p i) →
      r.pages.imp_getBlock T anImp = 0
  removeBlock_live : ∀ e ∈ r.live, ∃ s', r.pages.imp_removeBlock T e.1 = some (true, e.2, s')
  slots : ∀ p ∈ r.pages.pageGroups, ∃ free unused,
    FreeList (r.pages.payload p) (r.pages.nextAvailable p) free unused ∧ free.Nodup ∧
      (∀ i ∈ free, T.validIndex i) ∧
      ∀ i, T.validIndex i →
        (r.SlotLive T p i ∧ i ∉ free ∧ i < unused) ∨
        (¬ r.SlotLive T p i ∧ i ∈ free ∧ i < unused) ∨
        (¬ r.SlotLive T p i ∧ i ∉ free ∧ unused ≤ i ∧ r.pages.payload p i = 0)
  /-- No assertion fails and the loops end. -/
  returns : ∀ dataAddress block, T.endIndex < block →
    (∀ p ∈ r.pages.pageGroups, T.Apart p dataAddress) →
      ∃ res, r.pages._imp_implementationWithBlockNoCopy T dataAddress block = some res

variable {T} {r : TrampolineRun}

theorem Inv.imp_getBlock_live (h : r.Inv T) {e : Nat × Nat} (he : e ∈ r.live) :
    r.pages.imp_getBlock T e.1 = e.2 := by
  obtain ⟨p, _, i, _, hpos, _, hlookup, hpayload⟩ := h.lookup he
  have hblock := (h.live e he).1
  simp only [imp_getBlock, if_neg hpos, hlookup, hpayload]
  rw [if_neg (by omega)]

variable {anImp : Nat}

theorem Inv.imp_getBlock_free (h : r.Inv T)
    (hfree : ∀ p i, r.pages.pageAndIndexContainingIMP T anImp = some (p, i) →
      ¬ r.SlotLive T p i) : r.pages.imp_getBlock T anImp = 0 := by
  unfold imp_getBlock
  split
  next => rfl
  cases hlookup : r.pages.pageAndIndexContainingIMP T anImp with
  | none => rfl
  | some found => ?_
  obtain ⟨p, i⟩ := found
  obtain ⟨hp, hi⟩ := pageAndIndexContainingIMP_some hlookup
  obtain ⟨free, unused, hslots⟩ := h.slots p hp
  have hle := hslots.payload_le hi (hfree p i hlookup)
  show (if r.pages.payload p i ≤ T.endIndex then 0 else r.pages.payload p i) = 0
  rw [if_pos hle]

theorem Inv.partition (h : r.Inv T) {p : Nat} (hp : p ∈ r.pages.pageGroups) :
    ∃ free unused, FreeList (r.pages.payload p) (r.pages.nextAvailable p) free unused ∧ free.Nodup ∧
        (∀ i ∈ free, T.validIndex i) ∧
        ∀ i, T.validIndex i → (r.SlotLive T p i ∧ i ∉ free ∧ i < unused) ∨
          (¬ r.SlotLive T p i ∧ i ∈ free ∧ i < unused) ∨
          (¬ r.SlotLive T p i ∧ i ∉ free ∧ unused ≤ i ∧ r.pages.payload p i = 0) := by
  obtain ⟨free, unused, hslots⟩ := h.slots p hp
  refine ⟨free, unused, hslots.list, hslots.nodup, fun i hi => ?_, fun i hi => ?_⟩
  · have hused := hslots.free_used i hi
    exact ⟨hused.1, lt_of_lt_of_le hused.2 hslots.unused_range.2⟩
  by_cases hmem : i ∈ free
  · exact Or.inr (Or.inl ⟨hslots.not_live_of_free hmem, hmem, (hslots.free_used i hmem).2⟩)
  by_cases hlt : i < unused
  · exact Or.inl ⟨(hslots.live_iff i).mpr ⟨hi.1, hlt, hmem⟩, hmem, hlt⟩
  · have hge : unused ≤ i := Nat.le_of_not_lt hlt
    exact Or.inr (Or.inr ⟨hslots.not_live_of_unused hge, hmem, hge,
      hslots.unused_zero i hge hi.2⟩)

theorem Inv.correct (h : r.Inv T) : r.Correct T where
  distinct := h.nodup
  getBlock_live := fun _ he => h.imp_getBlock_live he
  getBlock_free := fun _ hfree => h.imp_getBlock_free hfree
  removeBlock_live := by
    intro e he
    obtain ⟨s', hrun, _⟩ := removeBlock_spec h he
    exact ⟨s', hrun⟩
  slots := fun _ hp => h.partition hp
  returns := by
    intro dataAddress block hblock hfresh
    obtain ⟨anImp, s', hrun, _⟩ := implementationWithBlock_spec h hblock hfresh
    exact ⟨(anImp, s'), hrun⟩

end TrampolineRun

/-- **Every IMP in use leads to its block.**  In every run: no two blocks in use share an IMP, the
block of an IMP in use is the one it was made for, an address whose slot is not in use has none,
and the slots of each page group are live, free or never used. -/
theorem trampolines_serve_their_blocks (r : TrampolineRun)
    (h : (trampolineSystem T).Reachable (fun _ => True) r) : r.Correct T :=
  (reachable h).correct

theorem zero_lt_slotSize : 0 < 8 := by decide

def sixSlotLayout : TrampolineLayout where
  PAGE_MAX_SIZE := 64
  slotSize := 8
  headerSize := 16
  textSegmentSize := 192
  SUPPORT_STRET := true
  thumb := 0
  Block_use_stret := fun _ => false
  thumb_lt := zero_lt_slotSize
  headerSize_pos := by decide
  headerSize_aligned := by decide
  headerSize_room := by decide
  textSegment_room := by decide

def twoSlotLayout : TrampolineLayout where
  PAGE_MAX_SIZE := 32
  slotSize := 8
  headerSize := 16
  textSegmentSize := 96
  SUPPORT_STRET := false
  thumb := 0
  Block_use_stret := fun _ => false
  thumb_lt := zero_lt_slotSize
  headerSize_pos := by decide
  headerSize_aligned := by decide
  headerSize_room := by decide
  textSegment_room := by decide

theorem initial_reachable : (trampolineSystem T).Reachable (fun _ => True) .initial :=
  .init rfl trivial

def twoPagesRun : List TrampolineOp :=
  [.implementationWithBlock 1000 5000, .implementationWithBlock 2000 5001,
    .implementationWithBlock 2000 5002, .removeBlock 1088]

theorem two_page_groups_serve : ∃ r,
    (trampolineSystem twoSlotLayout).runFrom (fun _ => True) .initial twoPagesRun = some r ∧
    r.pages.pageGroups = [1000, 2000] ∧ r.live = [(2080, 5002), (1080, 5000)] ∧
    r.Correct twoSlotLayout := by
  have hrun : ((trampolineSystem twoSlotLayout).runFrom (fun _ => True) .initial twoPagesRun).map
      (fun r => (r.pages.pageGroups, r.live)) = some ([1000, 2000], [(2080, 5002), (1080, 5000)]) := by
    decide +kernel
  obtain ⟨r, hr, heq⟩ := map_eq_some_iff.mp hrun
  obtain ⟨hpages, hlive⟩ := mk.inj heq
  exact ⟨r, hr, hpages, hlive, trampolines_serve_their_blocks twoSlotLayout r
    (.of_run _ (initial_reachable twoSlotLayout) hr)⟩

/-- A slot has a trampoline for each argument mode: the one that was never handed out leads to the
block too. -/
theorem other_mode_leads_to_block : ¬ ∀ (T : TrampolineLayout) (r : TrampolineRun),
    (trampolineSystem T).Reachable (fun _ => True) r →
      ∀ anImp, anImp ∉ r.live.map Prod.fst → r.pages.imp_getBlock T anImp = 0 := by
  intro hall
  have hrun : ((trampolineSystem sixSlotLayout).runFrom (fun _ => True) .initial
      [.implementationWithBlock 1000 5000]).map
        (fun r => (r.live.map fst, r.pages.imp_getBlock sixSlotLayout 1208))
      = some ([1144], 5000) := by
    decide +kernel
  obtain ⟨r, hr, hobs⟩ := map_eq_some_iff.mp hrun
  injection hobs with hlive hget
  have := hall sixSlotLayout r (.of_run _ (initial_reachable sixSlotLayout) hr) 1208
    (by rw [hlive]; decide)
  rw [hget] at this
  cases this

/-! ## Removing what is not in use -/

def Trampolines.InNoSlot (s : Trampolines) (anImp : Nat) : Prop :=
  ∀ p ∈ s.pageGroups, ∀ aMode < T.ArgumentModeCount,
    ¬ (T.trampolinesForMode p aMode + T.startIndex * T.slotSize ≤ anImp ∧
      anImp < T.trampolinesForMode p aMode + T.endIndex * T.slotSize)

/-- Runs in which `imp_removeBlock` is applied to any address. -/
def trampolineStepAny (r : TrampolineRun) : TrampolineOp → Option TrampolineRun
  | .removeBlock anImp =>
    (r.pages.imp_removeBlock T anImp).map fun res =>
      ⟨res.2.2, r.live.filter fun e => decide (e.1 ≠ anImp)⟩
  | op => trampolineStep T r op

def trampolineSystemAny : System TrampolineRun TrampolineOp where
  init := (· = TrampolineRun.initial)
  step := trampolineStepAny T

variable {T}

theorem Trampolines.inNoSlot_iff {s : Trampolines} :
    s.InNoSlot T anImp ↔ s.pageAndIndexContainingIMP T anImp = none := by
  rw [pageAndIndexContainingIMP, findSome?_eq_none_iff]
  refine forall₂_congr fun p _ => ?_
  rcases TrampolineLayout.indexForTrampoline_cases T p anImp with
    ⟨aMode, hmode, hlow, hhigh, heq⟩ | ⟨hnone, heq⟩
  · have hpos : T.indexForTrampoline p anImp ≠ 0 := by
      have h1 : T.startIndex ≤ (anImp - T.trampolinesForMode p aMode) / T.slotSize := by
        rw [le_div_iff_mul_le T.slotSize_pos]
        omega
      have h2 := T.startIndex_pos
      omega
    rw [if_pos hpos]
    constructor
    · intro h
      exact absurd ⟨hlow, hhigh⟩ (h aMode hmode)
    · intro h
      cases h
  · rw [heq]
    exact ⟨fun _ => rfl, fun _ => hnone⟩

theorem Trampolines.imp_removeBlock_refuses_iff {s : Trampolines} :
    s.imp_removeBlock T anImp = some (false, 0, s) ↔ anImp = 0 ∨ s.InNoSlot T anImp := by
  rw [inNoSlot_iff]
  unfold imp_removeBlock
  by_cases hzero : anImp = 0
  · rw [if_pos hzero]
    exact ⟨fun _ => .inl hzero, fun _ => rfl⟩
  rw [if_neg hzero]
  cases hlookup : s.pageAndIndexContainingIMP T anImp with
  | none => exact ⟨fun _ => .inr rfl, fun _ => rfl⟩
  | some found => ?_
  constructor
  · intro h
    obtain ⟨s', _, heq⟩ := map_eq_some_iff.mp h
    injection heq with heq _
    cases heq
  · rintro (h | h)
    · exact absurd h hzero
    · cases h

theorem Trampolines.inNoSlot_zero (s : Trampolines) : s.InNoSlot T 0 := by
  rintro p _ aMode _ ⟨hlow, _⟩
  have := Nat.mul_pos T.startIndex_pos T.slotSize_pos
  omega

theorem TrampolineRun.Inv.stepAny {r r' : TrampolineRun} (h : r.Inv T) {op : TrampolineOp}
    (hok : ∀ anImp, op = .removeBlock anImp →
      anImp ∈ r.live.map Prod.fst ∨ r.pages.InNoSlot T anImp)
    (hstep : trampolineStepAny T r op = some r') : r'.Inv T := by
  cases op with
  | implementationWithBlock dataAddress block =>
    exact h.step (show trampolineStep T r (.implementationWithBlock dataAddress block) = some r'
      from hstep)
  | getBlock anImp => exact h.step (show trampolineStep T r (.getBlock anImp) = some r' from hstep)
  | removeBlock anImp => ?_
  by_cases hlive : anImp ∈ r.live.map fst
  · have hstep' : trampolineStep T r (.removeBlock anImp) = some r' := by
      rw [trampolineStep, if_pos hlive]
      exact hstep
    exact h.step hstep'
  have hslot := (hok anImp rfl).resolve_left hlive
  rw [trampolineStepAny, imp_removeBlock_refuses_iff.mpr (.inr hslot), map_some] at hstep
  injection hstep with hstep
  have hfilter : r.live.filter (fun e => decide (e.1 ≠ anImp)) = r.live := by
    rw [filter_eq_self]
    intro e he
    rw [decide_eq_true_iff]
    intro heq
    exact hlive (heq ▸ mem_map_of_mem he)
  rw [hfilter] at hstep
  exact hstep ▸ h

theorem TrampolineRun.Inv.allStates (ops : List TrampolineOp) : ∀ {r : TrampolineRun}, r.Inv T →
    (trampolineSystemAny T).AllSteps (fun r op => ∀ anImp, op = .removeBlock anImp →
      anImp ∈ r.live.map Prod.fst ∨ r.pages.InNoSlot T anImp) r ops →
    (trampolineSystemAny T).AllStates (fun r => (r.live.map Prod.fst).Nodup) r ops := by
  induction ops with
  | nil =>
    intro r h _
    exact h.nodup
  | cons op ops ih => ?_
  intro r h hsteps
  refine ⟨h.nodup, fun r' hstep => ?_⟩
  obtain ⟨hok, hrest⟩ := hsteps r' hstep
  exact ih (h.stepAny hok hstep) hrest

variable (T)

/-- **What `imp_removeBlock` refuses.**  Of the addresses whose slot is not in use it refuses just
those that have no slot at all; and in the runs that remove only IMPs in use and such addresses, no
two blocks in use share an IMP. -/
theorem removeBlock_refuses_iff :
    (∀ r, (trampolineSystem T).Reachable (fun _ => True) r → ∀ anImp,
      (∀ p i, r.pages.pageAndIndexContainingIMP T anImp = some (p, i) → ¬ r.SlotLive T p i) →
        (r.pages.imp_removeBlock T anImp = some (false, 0, r.pages) ↔
          r.pages.InNoSlot T anImp)) ∧
    ∀ ops, (trampolineSystemAny T).AllSteps (fun r op => ∀ anImp, op = .removeBlock anImp →
        anImp ∈ r.live.map Prod.fst ∨ r.pages.InNoSlot T anImp) .initial ops →
      (trampolineSystemAny T).AllStates (fun r => (r.live.map Prod.fst).Nodup) .initial ops := by
  refine ⟨fun r _ anImp _ => ?_, fun ops => ?_⟩
  · rw [imp_removeBlock_refuses_iff]
    constructor
    · rintro (rfl | h)
      · exact inNoSlot_zero r.pages
      · exact h
    · exact .inr
  · exact allStates ops (initial T)

/-- An address between the slots of two page groups; and a run that removes an IMP in use and this
address. -/
theorem address_without_slot_is_refused : (∃ r,
    (trampolineSystem twoSlotLayout).runFrom (fun _ => True) .initial twoPagesRun = some r ∧
      r.pages.imp_removeBlock twoSlotLayout 1096 = some (false, 0, r.pages)) ∧
    (trampolineSystemAny twoSlotLayout).AllStates (fun r => (r.live.map Prod.fst).Nodup) .initial
      [.implementationWithBlock 1000 5000, .removeBlock 1080, .removeBlock 1096] := by
  obtain ⟨hrefuses, hruns⟩ := removeBlock_refuses_iff twoSlotLayout
  have hnone : ∀ groups : List Nat, (∀ p ∈ groups, p = 1000 ∨ p = 2000) →
      ∀ p ∈ groups, ∀ aMode < twoSlotLayout.ArgumentModeCount,
        ¬ (twoSlotLayout.trampolinesForMode p aMode
            + twoSlotLayout.startIndex * twoSlotLayout.slotSize ≤ 1096 ∧
          1096 < twoSlotLayout.trampolinesForMode p aMode
            + twoSlotLayout.endIndex * twoSlotLayout.slotSize) := by
    intro groups hgroups p hp
    rcases hgroups p hp with rfl | rfl <;> decide
  constructor
  · have hrun : ((trampolineSystem twoSlotLayout).runFrom (fun _ => True) .initial twoPagesRun).map
        (fun r => r.pages.pageGroups) = some [1000, 2000] := by decide +kernel
    obtain ⟨r, hr, hpages⟩ := map_eq_some_iff.mp hrun
    have hslot : r.pages.InNoSlot twoSlotLayout 1096 := hnone _ (by simp [hpages])
    refine ⟨r, hr, (hrefuses r (.of_run _ (initial_reachable twoSlotLayout) hr) 1096
      fun p i hfound => ?_).mpr hslot⟩
    rw [inNoSlot_iff.mp hslot] at hfound
    cases hfound
  refine hruns _ fun r1 h1 => ⟨fun _ heq => (by cases heq), fun r2 h2 => ⟨fun _ heq => ?_,
    fun r3 h3 => ⟨fun _ heq => ?_, trivial⟩⟩⟩
  · cases heq
    have hlive : r1.live = [(1080, 5000)] := some.inj ((congrArg (Option.map live) h1).symm.trans
      (by decide +kernel))
    exact .inl (by rw [hlive]; decide)
  · cases heq
    have hpages : r2.pages.pageGroups = [1000] := by
      have hrun : ((trampolineSystemAny twoSlotLayout).runFrom (fun _ => True) .initial
          [.implementationWithBlock 1000 5000, .removeBlock 1080]).map
          (fun r => r.pages.pageGroups) = some [1000] := by decide +kernel
      simpa [System.runFrom, h1, h2] using hrun
    exact .inr (hnone _ (by simp [hpages]))

/-- The slot after the first is removed before its first use: the answer is YES, and the next two
blocks share its IMP. -/
theorem unused_slot_is_removed : ∃ r,
    (trampolineSystem sixSlotLayout).Reachable (fun _ => True) r ∧
    (∀ p i, r.pages.pageAndIndexContainingIMP sixSlotLayout 1152 = some (p, i) →
      ¬ r.SlotLive sixSlotLayout p i) ∧
    (∃ s', r.pages.imp_removeBlock sixSlotLayout 1152 = some (true, 0, s') ∧
      s'.payload 1000 3 ≠ r.pages.payload 1000 3) ∧
    ((trampolineSystemAny sixSlotLayout).runFrom (fun _ => True) r [.removeBlock 1152,
      .implementationWithBlock 2000 6000, .implementationWithBlock 2000 7000]).map
        TrampolineRun.live = some [(1152, 7000), (1152, 6000), (1144, 5000)] := by
  have hrun : ((trampolineSystem sixSlotLayout).runFrom (fun _ => True) .initial
      [.implementationWithBlock 1000 5000]).map (fun r =>
        ((r.live, r.pages.pageAndIndexContainingIMP sixSlotLayout 1152, r.pages.payload 1000 3),
        (r.pages.imp_removeBlock sixSlotLayout 1152).map fun res =>
          (res.1, res.2.1, res.2.2.payload 1000 3)))
      = some (([(1144, 5000)], some (1000, 3), 0), some (true, 0, 3)) := by
    decide +kernel
  have hrun' : ((trampolineSystem sixSlotLayout).runFrom (fun _ => True) .initial
      [.implementationWithBlock 1000 5000]).bind (fun r =>
        ((trampolineSystemAny sixSlotLayout).runFrom (fun _ => True) r [.removeBlock 1152,
          .implementationWithBlock 2000 6000, .implementationWithBlock 2000 7000]).map
            TrampolineRun.live) = some [(1152, 7000), (1152, 6000), (1144, 5000)] := by
    decide +kernel
  obtain ⟨r, hr, hobs⟩ := map_eq_some_iff.mp hrun
  simp only [Prod.mk.injEq] at hobs
  obtain ⟨⟨hlive, hslot, hpayload⟩, hremove⟩ := hobs
  rw [hr, bind_some] at hrun'
  refine ⟨r, .of_run _ (initial_reachable sixSlotLayout) hr, fun p i h => ?_, ?_, hrun'⟩
  · rw [hslot] at h
    injection h with h
    injection h with hp hi
    subst hp hi
    rintro ⟨_, e, he, heq⟩
    rw [hlive, List.mem_singleton] at he
    subst he
    exact absurd heq (by decide)
  obtain ⟨res, hres, hval⟩ := map_eq_some_iff.mp hremove
  obtain ⟨b, block, s'⟩ := res
  simp only [Prod.mk.injEq] at hval
  obtain ⟨rfl, rfl, hs'⟩ := hval
  exact ⟨s', hres, by rw [hs', hpayload]; decide⟩

/-! ## Page groups with room -/

def TrampolineRun.NoRoomLost (r : TrampolineRun) : Prop :=
  r.pages.RoomAvailable T ∧
    ∀ dataAddress block anImp s', T.endIndex < block →
      (∀ p ∈ r.pages.pageGroups, T.Apart p dataAddress) →
      r.pages._imp_implementationWithBlockNoCopy T dataAddress block = some (anImp, s') →
      s'.pageGroups ≠ r.pages.pageGroups →
      ∀ p ∈ r.pages.pageGroups, r.pages.nextAvailable p = T.endIndex

variable {T}

theorem TrampolineRun.Inv.noRoomLost_iff {r : TrampolineRun} (h : r.Inv T) :
    r.NoRoomLost T ↔ r.pages.RoomAvailable T := by
  constructor
  · exact fun h => h.1
  intro hroom
  refine ⟨hroom, fun dataAddress block anImp s' hblock hfresh hrun hne => ?_⟩
  obtain ⟨anImp', s'', hrun', _, _, hfull⟩ := implementationWithBlock_spec h hblock hfresh
  rw [hrun'] at hrun
  injection hrun with hrun
  injection hrun with _ hs
  subst hs
  exact hfull hroom hne

theorem TrampolineRun.Inv.roomAvailable_step_iff {r r' : TrampolineRun} (h : r.Inv T)
    (hroom : r.pages.RoomAvailable T) {op : TrampolineOp} (hstep : trampolineStep T r op = some r') :
    r'.pages.RoomAvailable T ↔ ∀ anImp, op = .removeBlock anImp → ¬ HeadRemoval T r anImp := by
  cases op with
  | implementationWithBlock dataAddress block =>
    obtain ⟨hok, hstep⟩ := ite_none_right_eq_some.mp hstep
    obtain ⟨anImp, s', hrun, _, hkeep, _⟩ := implementationWithBlock_spec h hok.1 hok.2.2
    rw [hrun, map_some] at hstep
    cases hstep
    exact ⟨fun _ _ heq => (by cases heq), fun _ => hkeep hroom⟩
  | getBlock anImp =>
    cases hstep
    exact ⟨fun _ _ heq => (by cases heq), fun _ => hroom⟩
  | removeBlock anImp => ?_
  obtain ⟨hok, hstep⟩ := ite_none_right_eq_some.mp hstep
  obtain ⟨e, he, rfl⟩ := mem_map.mp hok
  obtain ⟨s', hrun, _, hiff⟩ := removeBlock_spec h he
  rw [hrun, map_some] at hstep
  cases hstep
  rw [hiff hroom]
  constructor
  · rintro hnot _ heq
    cases heq
    exact hnot
  · exact fun hall => hall _ rfl

variable (T)

/-- **When room is lost.**  Along a run all page groups with room stay on the head's list, exactly
when no step gives back a slot of the head page group while another page group has room. -/
theorem room_available_iff (ops : List TrampolineOp) :
    (trampolineSystem T).AllStates (TrampolineRun.NoRoomLost T) .initial ops ↔
      (trampolineSystem T).AllSteps (fun r op => ∀ anImp, op = .removeBlock anImp →
        ¬ TrampolineRun.HeadRemoval T r anImp) .initial ops := by
  have hinitial := initial T
  refine System.allStates_iff_allSteps (Inv T)
    (fun r op r' hinv _ hstep _ => hinv.step hstep) (fun r op r' hinv hP hstep => ?_) ops hinitial
    (hinitial.noRoomLost_iff.mpr fun head rest hcons => by cases hcons)
  rw [(hinv.step hstep).noRoomLost_iff]
  exact hinv.roomAvailable_step_iff (hinv.noRoomLost_iff.mp hP) hstep

/-- Two page groups; a slot of the head's is given back.  The second one has room and is lost, and
after one more block a third one is allocated. -/
theorem second_page_is_lost : ∃ r,
    (trampolineSystem twoSlotLayout).runFrom (fun _ => True) .initial
      [.implementationWithBlock 1000 5000, .implementationWithBlock 2000 5001,
        .implementationWithBlock 2000 5002, .removeBlock 1080] = some r ∧
    ¬ r.NoRoomLost twoSlotLayout ∧
    ((trampolineSystem twoSlotLayout).runFrom (fun _ => True) r
      [.implementationWithBlock 3000 5003, .implementationWithBlock 3000 5004]).map
        (fun r' => (r'.pages.pageGroups, decide (r'.pages.nextAvailable 2000 = 4)))
      = some ([1000, 2000, 3000], false) := by
  have hrun : ((trampolineSystem twoSlotLayout).runFrom (fun _ => True) .initial
      [.implementationWithBlock 1000 5000, .implementationWithBlock 2000 5001,
        .implementationWithBlock 2000 5002, .removeBlock 1080]).map
        (fun r => ((r.pages.pageGroups, r.pages.nextAvailablePage 1000, r.pages.nextAvailable 2000),
          ((trampolineSystem twoSlotLayout).runFrom (fun _ => True) r
            [.implementationWithBlock 3000 5003, .implementationWithBlock 3000 5004]).map
              (fun r' => (r'.pages.pageGroups, decide (r'.pages.nextAvailable 2000 = 4)))))
      = some (([1000, 2000], none, 3), some ([1000, 2000, 3000], false)) := by
    decide +kernel
  obtain ⟨r, hr, hobs⟩ := map_eq_some_iff.mp hrun
  simp only [Prod.mk.injEq] at hobs
  obtain ⟨⟨hpages, hnext, havail⟩, hlater⟩ := hobs
  refine ⟨r, hr, fun hroom => ?_, hlater⟩
  have hunder := hroom.1 1000 [2000] hpages 2000 (by rw [hpages]; decide)
    (by rw [havail]; decide)
  obtain ⟨q, hq, _⟩ := hunder.parent_of_ne (by decide)
  rw [hnext] at hq
  cases hq

end ObjcRuntime
