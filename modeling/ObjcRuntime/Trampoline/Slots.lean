/-
THE SLOTS OF A PAGE GROUP, AND THE PAGE GROUPS WITH ROOM.

In a page group the free list is threaded through the payload words and ends
at the first slot that was never used; from there on the words are zero.
-/
import ObjcRuntime.Lib.Forest
import ObjcRuntime.Trampoline.Page

namespace ObjcRuntime

open Lib List Nat Function

/-! ## The free list -/

/-- The free list from `index`; it ends at the first slot that was never used. -/
def FreeList (payload : Nat → Nat) : Nat → List Nat → Nat → Prop
  | index, [], unused => index = unused
  | index, i :: free, unused => index = i ∧ FreeList payload (payload i) free unused

variable {free : List Nat} {unused : Nat}

theorem FreeList.congr {payload payload' : Nat → Nat} :
    ∀ {index : Nat}, FreeList payload index free unused →
      (∀ i ∈ free, payload' i = payload i) → FreeList payload' index free unused := by
  induction free with
  | nil =>
    intro index h _
    exact h
  | cons i free ih => ?_
  intro index h hsame
  refine ⟨h.1, ?_⟩
  rw [hsame i mem_cons_self]
  exact ih h.2 fun j hj => hsame j (mem_cons_of_mem _ hj)

theorem FreeList.index_cases {payload : Nat → Nat} {index : Nat}
    (h : FreeList payload index free unused) : index ∈ free ∨ index = unused := by
  cases free with
  | nil => exact .inr h
  | cons i free => exact .inl (h.1 ▸ mem_cons_self)

theorem FreeList.payload_cases {payload : Nat → Nat} :
    ∀ {index : Nat}, FreeList payload index free unused → ∀ i ∈ free,
      payload i ∈ free ∨ payload i = unused := by
  induction free with
  | nil =>
    intro _ _ i hi
    cases hi
  | cons j free ih => ?_
  intro index h i hi
  have hrest : payload i ∈ free ∨ payload i = unused := by
    rcases mem_cons.mp hi with rfl | hi
    · exact h.2.index_cases
    · exact ih h.2 i hi
  rcases hrest with hmem | heq
  · exact .inl (mem_cons_of_mem _ hmem)
  · exact .inr heq

/-! ## The slots of a page group -/

structure SlotsWF (T : TrampolineLayout) (payload : Nat → Nat) (nextAvailable : Nat)
    (live : Nat → Prop) (free : List Nat) (unused : Nat) : Prop where
  list : FreeList payload nextAvailable free unused
  nodup : free.Nodup
  free_used : ∀ i ∈ free, T.startIndex ≤ i ∧ i < unused
  unused_range : T.startIndex ≤ unused ∧ unused ≤ T.endIndex
  unused_zero : ∀ i, unused ≤ i → i < T.endIndex → payload i = 0
  live_iff : ∀ i, live i ↔ T.startIndex ≤ i ∧ i < unused ∧ i ∉ free

namespace SlotsWF

variable {T : TrampolineLayout} {payload : Nat → Nat} {nextAvailable : Nat} {live : Nat → Prop}
  {free : List Nat} {unused : Nat}

theorem congr_live {live' : Nat → Prop} (h : SlotsWF T payload nextAvailable live free unused)
    (hlive : ∀ i, live' i ↔ live i) : SlotsWF T payload nextAvailable live' free unused :=
  { h with live_iff := fun i => (hlive i).trans (h.live_iff i) }

theorem start (T : TrampolineLayout) :
    SlotsWF T (fun _ => 0) T.startIndex (fun _ => False) [] T.startIndex where
  list := rfl
  nodup := nodup_nil
  free_used := by
    intro i hi
    cases hi
  unused_range := ⟨le_refl _, le_of_lt T.startIndex_lt_endIndex⟩
  unused_zero := fun _ _ _ => rfl
  live_iff := fun i => by
    constructor
    · intro h
      cases h
    · rintro ⟨h1, h2, _⟩
      omega

variable {i : Nat}

section

variable (h : SlotsWF T payload nextAvailable live free unused)

include h

theorem not_live_of_free (hi : i ∈ free) :
    ¬ live i := fun hl => ((h.live_iff i).mp hl).2.2 hi

theorem not_live_of_unused
    (hi : unused ≤ i) : ¬ live i := fun hl => by
  have := ((h.live_iff i).mp hl).2.1
  omega

theorem next_free
    (hroom : nextAvailable ≠ T.endIndex) : T.validIndex nextAvailable ∧ ¬ live nextAvailable := by
  have hrange := h.unused_range
  rcases h.list.index_cases with hmem | heq
  · have hused := h.free_used _ hmem
    exact ⟨⟨hused.1, by omega⟩, h.not_live_of_free hmem⟩
  · exact ⟨⟨by omega, by omega⟩, h.not_live_of_unused (by omega)⟩

theorem payload_le (hvalid : T.validIndex i) (hi : ¬ live i) : payload i ≤ T.endIndex := by
  have hrange := h.unused_range
  by_cases hlt : i < unused
  · have hmem : i ∈ free := by
      by_contra hnot
      exact hi ((h.live_iff i).mpr ⟨hvalid.1, hlt, hnot⟩)
    rcases h.list.payload_cases i hmem with hnext | heq
    · have := h.free_used _ hnext
      omega
    · omega
  · have := h.unused_zero i (by omega) hvalid.2
    omega

theorem take (hroom : nextAvailable ≠ T.endIndex) (block : Nat) :
    ∃ free' unused', SlotsWF T (Function.update payload nextAvailable block)
      (if payload nextAvailable = 0 then nextAvailable + 1 else payload nextAvailable)
      (fun i => live i ∨ i = nextAvailable) free' unused' := by
  have hstart := T.startIndex_pos
  have hrange := h.unused_range
  cases free with
  | nil =>
    -- the first time through: the next slot after it is next
    have hnext : nextAvailable = unused := h.list
    subst hnext
    rw [if_pos (h.unused_zero _ (le_refl _) (by omega))]
    refine ⟨[], nextAvailable + 1, ⟨rfl, nodup_nil, fun i hi => ?_, by omega,
      fun i hi hlt => ?_, fun i => ?_⟩⟩
    · cases hi
    · rw [update_of_ne (by omega)]
      exact h.unused_zero i (by omega) hlt
    rw [h.live_iff]
    simp only [not_mem_nil, not_false_eq_true, and_true]
    omega
  | cons i free => ?_
  obtain ⟨hi, hlist⟩ := h.list
  subst hi
  obtain ⟨hnot, hnodup⟩ := nodup_cons.mp h.nodup
  have hused := h.free_used _ mem_cons_self
  have hne : payload nextAvailable ≠ 0 := by
    rcases hlist.index_cases with hmem | heq
    · have := h.free_used _ (mem_cons_of_mem _ hmem)
      omega
    · omega
  rw [if_neg hne]
  refine ⟨free, unused, ⟨hlist.congr fun j hj => update_of_ne ?_ _ _, hnodup,
    fun j hj => h.free_used j (mem_cons_of_mem _ hj), hrange, fun j hj hlt => ?_,
    fun j => ?_⟩⟩
  · rintro rfl
    exact hnot hj
  · rw [update_of_ne (by omega)]
    exact h.unused_zero j hj hlt
  rw [h.live_iff, mem_cons]
  constructor
  · rintro (⟨h1, h2, h3⟩ | rfl)
    · exact ⟨h1, h2, fun hmem => h3 (.inr hmem)⟩
    · exact ⟨hused.1, hused.2, hnot⟩
  rintro ⟨h1, h2, h3⟩
  by_cases heq : j = nextAvailable
  · exact .inr heq
  refine .inl ⟨h1, h2, ?_⟩
  rintro (hmem | hmem)
  · exact heq hmem
  · exact h3 hmem

theorem give (hi : live i) :
    SlotsWF T (Function.update payload i nextAvailable) i (fun j => live j ∧ j ≠ i)
      (i :: free) unused := by
  obtain ⟨h1, h2, h3⟩ := (h.live_iff i).mp hi
  refine ⟨⟨rfl, ?_⟩, nodup_cons.mpr ⟨h3, h.nodup⟩, fun j hj => ?_, h.unused_range,
    fun j hj hlt => ?_, fun j => ?_⟩
  · rw [update_self]
    refine h.list.congr fun j hj => update_of_ne ?_ _ _
    rintro rfl
    exact h3 hj
  · rcases mem_cons.mp hj with rfl | hj
    · exact ⟨h1, h2⟩
    · exact h.free_used j hj
  · rw [update_of_ne (by omega)]
    exact h.unused_zero j hj hlt
  rw [h.live_iff, mem_cons]
  constructor
  · rintro ⟨⟨h1, h2, h3⟩, hne⟩
    refine ⟨h1, h2, ?_⟩
    rintro (heq | hmem)
    · exact hne heq
    · exact h3 hmem
  · rintro ⟨h1, h2, h3⟩
    exact ⟨⟨h1, h2, fun hmem => h3 (.inr hmem)⟩, fun heq => h3 (.inl heq)⟩

end

end SlotsWF

/-! ## The loops over the page groups with room -/

namespace Trampolines

variable {next : Nat → Option Nat} {p : Nat}

theorem pageBefore_eq_none {a : Option Nat} {l : List Nat} (h : SiblingList next a l)
    (hne : ∀ c ∈ l, next c ≠ some p) :
    ∀ {fuel : Nat}, l.length < fuel → pageBefore next p fuel a = some none := by
  induction h with
  | nil =>
    intro fuel hfuel
    rcases fuel with _ | fuel
    · simp at hfuel
    rfl
  | @cons c l _ ih => ?_
  intro fuel hfuel
  rcases fuel with _ | fuel
  · simp at hfuel
  rw [length_cons] at hfuel
  rw [pageBefore, if_neg (hne c mem_cons_self)]
  exact ih (fun d hd => hne d (mem_cons_of_mem _ hd)) (by omega)

theorem pageBeforeOrLast_spec {l : List Nat} :
    ∀ {x fuel : Nat}, SiblingList next (next x) l → l.length < fuel →
      ∃ y ∈ x :: l, pageBeforeOrLast next p fuel x = some y ∧
        ((p ∈ l ∧ next y = some p) ∨ (p ∉ l ∧ next y = none)) := by
  induction l with
  | nil =>
    intro x fuel h hfuel
    rcases fuel with _ | fuel
    · simp at hfuel
    generalize hx : next x = a at h
    cases h
    refine ⟨x, mem_cons_self, ?_, .inr ⟨not_mem_nil, hx⟩⟩
    simp only [pageBeforeOrLast, hx]
  | cons z l ih => ?_
  intro x fuel h hfuel
  rcases fuel with _ | fuel
  · simp at hfuel
  rw [length_cons] at hfuel
  generalize hx : next x = a at h
  cases h with
  | cons h =>
    by_cases hz : z = p
    · refine ⟨x, mem_cons_self, ?_, .inl ⟨hz ▸ mem_cons_self, hz ▸ hx⟩⟩
      simp only [pageBeforeOrLast, hx, if_pos hz]
    obtain ⟨y, hy, hrun, hcases⟩ := ih h (by omega : l.length < fuel)
    refine ⟨y, mem_cons_of_mem _ hy, ?_, ?_⟩
    · simp only [pageBeforeOrLast, hx, if_neg hz]
      exact hrun
    rcases hcases with ⟨hp, hnext⟩ | ⟨hp, hnext⟩
    · exact .inl ⟨mem_cons_of_mem _ hp, hnext⟩
    refine .inr ⟨?_, hnext⟩
    rw [mem_cons]
    rintro (heq | hmem)
    · exact hz heq.symm
    · exact hp hmem

/-- `avail` are the page groups after the head on the list of available ones. -/
structure Available (s : Trampolines) (HeadPageGroup : Nat) (avail : List Nat) : Prop where
  list : SiblingList s.nextAvailablePage (s.nextAvailablePage HeadPageGroup) avail
  nodup : (HeadPageGroup :: avail).Nodup
  mem : ∀ p ∈ avail, p ∈ s.pageGroups

variable {s : Trampolines} {HeadPageGroup : Nat} {rest avail : List Nat}

variable (h : s.Available HeadPageGroup avail)
include h

theorem Available.length_le
    (hpages : s.pageGroups = HeadPageGroup :: rest) : avail.length < s.pageGroups.length := by
  have hsub : HeadPageGroup :: avail ⊆ s.pageGroups := by
    intro p hp
    rcases mem_cons.mp hp with rfl | hp
    · rw [hpages]
      exact mem_cons_self
    · exact h.mem p hp
  exact (h.nodup.subperm hsub).length_le

theorem removeAvailable_head
    (hpages : s.pageGroups = HeadPageGroup :: rest) :
    s.removeAvailable HeadPageGroup = some s := by
  have hlen := h.length_le hpages
  have hloop : pageBefore s.nextAvailablePage HeadPageGroup (s.pageGroups.length + 2)
      s.pageGroups.head? = some none := by
    rw [hpages, head?_cons, ← hpages]
    refine pageBefore_eq_none (.cons h.list) (fun c hc hnext => ?_) (by simp; omega)
    exact (nodup_cons.mp h.nodup).1 (h.list.mem_of_next hc hnext)
  simp only [removeAvailable, hloop]

omit h

theorem removeAvailable_first (h : s.Available HeadPageGroup (p :: avail))
    (hpages : s.pageGroups = HeadPageGroup :: rest) :
    ∃ s', s.removeAvailable p = some s' ∧ s'.pageGroups = s.pageGroups ∧
      s'.nextAvailable = s.nextAvailable ∧ s'.payload = s.payload ∧
      s'.Available HeadPageGroup avail := by
  obtain ⟨hlist, hnodup, hmem⟩ := h
  have hhead : s.nextAvailablePage HeadPageGroup = some p := by
    generalize s.nextAvailablePage HeadPageGroup = a at hlist
    cases hlist
    rfl
  rw [hhead] at hlist
  have hloop : pageBefore s.nextAvailablePage p (s.pageGroups.length + 2) s.pageGroups.head?
      = some (some HeadPageGroup) := by
    rw [hpages, head?_cons, pageBefore, if_pos hhead]
  cases hlist with
  | cons hlist =>
    obtain ⟨hhp, hnodup'⟩ := nodup_cons.mp hnodup
    have hne : HeadPageGroup ≠ p := fun heq => hhp (heq ▸ mem_cons_self)
    refine ⟨{ s with nextAvailablePage := update (update s.nextAvailablePage
      HeadPageGroup (s.nextAvailablePage p)) p none },
      by simp only [removeAvailable, hloop], rfl, rfl, rfl, ?_, ?_, ?_⟩
    · show SiblingList (update (update s.nextAvailablePage HeadPageGroup
        (s.nextAvailablePage p)) p none) (update (update s.nextAvailablePage
        HeadPageGroup (s.nextAvailablePage p)) p none HeadPageGroup) avail
      rw [update_of_ne hne, update_self]
      refine hlist.congr fun c hc => ?_
      have hcp : c ≠ p := fun heq => (nodup_cons.mp hnodup').1 (heq ▸ hc)
      have hch : c ≠ HeadPageGroup := fun heq => hhp (heq ▸ mem_cons_of_mem _ hc)
      rw [update_of_ne hcp, update_of_ne hch]
    · exact nodup_cons.mpr ⟨fun hin => hhp (mem_cons_of_mem _ hin), (nodup_cons.mp hnodup').2⟩
    · exact fun q hq => hmem q (mem_cons_of_mem _ hq)

include h

/-- **What `imp_removeBlock` does to the list.** A page group that is on the list stays there; one
that is not becomes the last one. But when the head page group is put there, the list is lost:
the head's link to it is cleared. -/
theorem addAvailable_spec
    (hpages : s.pageGroups = HeadPageGroup :: rest) (hp : p ∈ s.pageGroups) :
    ∃ s', s.addAvailable p = some s' ∧ s'.pageGroups = s.pageGroups ∧
      s'.nextAvailable = s.nextAvailable ∧ s'.payload = s.payload ∧
      s'.Available HeadPageGroup
        (if p = HeadPageGroup then [] else if p ∈ avail then avail else avail ++ [p]) := by
  have hlen := h.length_le hpages
  obtain ⟨y, hy, hrun, hcases⟩ := pageBeforeOrLast_spec (p := p) h.list (Nat.lt_succ_of_lt hlen)
  have hrun' : pageBeforeOrLast s.nextAvailablePage p ((HeadPageGroup :: rest).length + 1)
      HeadPageGroup = some y := by
    rw [← hpages]
    exact hrun
  have hhead := (nodup_cons.mp h.nodup).1
  rcases hcases with ⟨hmem, hnext⟩ | ⟨hmem, hnext⟩
  · have hne : p ≠ HeadPageGroup := fun heq => hhead (heq ▸ hmem)
    rw [if_neg hne, if_pos hmem]
    refine ⟨s, ?_, rfl, rfl, rfl, h⟩
    simp only [addAvailable, hpages, hrun', hnext]
    rw [if_neg (by simp)]
  refine ⟨{ s with nextAvailablePage :=
      Function.update (Function.update s.nextAvailablePage y (some p)) p none },
    by simp only [addAvailable, hpages, hrun', if_pos hnext], rfl, rfl, rfl, ?_⟩
  by_cases heq : p = HeadPageGroup
  · subst heq
    rw [if_pos rfl]
    refine ⟨?_, by simp, nofun⟩
    show SiblingList _
      (Function.update (Function.update s.nextAvailablePage y (some p)) p none p) []
    rw [Function.update_self]
    exact .nil
  rw [if_neg heq, if_neg hmem]
  have hnot : p ∉ HeadPageGroup :: avail := by
    rw [mem_cons]
    rintro (h' | h')
    · exact heq h'
    · exact hmem h'
  refine ⟨h.list.snoc h.nodup hnot hy hnext, ?_, fun q hq => ?_⟩
  · rw [← cons_append, nodup_append]
    refine ⟨h.nodup, nodup_singleton p, fun a ha b hb => ?_⟩
    rw [mem_singleton.mp hb]
    rintro rfl
    exact hnot ha
  · rcases mem_append.mp hq with hq | hq
    · exact h.mem q hq
    · exact (mem_singleton.mp hq) ▸ hp

end Trampolines

end ObjcRuntime
