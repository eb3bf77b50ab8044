/-
THE FLAGS OF AN OBJECT AND THE TABLES THAT REFER TO IT.

One thread runs retains, releases, class changes, weak-variable functions,
`objc_setAssociatedObject` and deallocations in any order. A deallocation is
several operations, because user code runs inside it: after `rootDealloc` has
chosen the slow path the C++ destructors run, after the associations are
removed their values are released, and only then the side table is cleared.
Any other operation may come in between, on the same object too.

`created o` remembers that a value was associated with `o` while `o` was being
deallocated, and `reused` that a new object got the address of such an `o`.
-/
import ObjcRuntime.Assoc.Table
import ObjcRuntime.Weak.Run

namespace ObjcRuntime

open Lib Function Obj Heap Bool Heap.Tracks ObjcRuntime.Runtime Layout

variable {L : Layout}

/-! ## Operations -/

inductive Phase where
  | alive
  /-- the flags are read (`assoc` is `hasAssociatedObjects`), the C++ destructors run -/
  | destructing (assoc : Bool)
  /-- the associations are removed, these values are still to be released -/
  | releasing (elements : List (ObjcAssociation ObjPtr))
  deriving DecidableEq

def Phase.isDestructing : Phase → Bool
  | .destructing _ => true
  | _ => false

def Phase.next : Phase → Option (ObjcAssociation ObjPtr)
  | .releasing (a :: _) => some a
  | _ => none

structure RuntimeState (L : Layout) where
  weak : WeakState L
  associations : AssociationsHashMap ObjPtr
  phase : ObjPtr → Phase
  created : ObjPtr → Bool
  reused : Bool

inductive RuntimeOp where
  | alloc (o : ObjPtr) (cls : Class) (nonpointer hasCxxDtor : Bool)
  /-- retain, release, tryRetain or changeIsa -/
  | call (o : ObjPtr) (op : RcOp)
  | weakVariable (op : WeakOp)
  | setAssociatedObject (c : SetCall)
  | rootDealloc (o : ObjPtr)
  /-- `_object_remove_assocations`, if the flag that was read says so -/
  | removeAssociations (o : ObjPtr)
  /-- the next `releaseValue` of `_object_remove_assocations` -/
  | releaseElement (o : ObjPtr)
  /-- `clearDeallocating`, and the memory is freed -/
  | clearDeallocating (o : ObjPtr)
  deriving DecidableEq

namespace RuntimeState

def runtime (s : RuntimeState L) : Runtime L := ⟨s.weak.heap, s.associations⟩

def Releasable (s : RuntimeState L) (a : ObjcAssociation ObjPtr) : Prop :=
  a.retained = true → s.weak.allocated a.value = true

instance (s : RuntimeState L) (a : ObjcAssociation ObjPtr) : Decidable (s.Releasable a) :=
  inferInstanceAs (Decidable (_ → _))

def Allowed (s : RuntimeState L) : RuntimeOp → Prop
  | .alloc o _ _ _ => o ≠ 0 ∧ s.weak.allocated o = false
  | .call o _ => s.weak.allocated o = true
  | .weakVariable op => op.onVariable = true ∧ s.weak.Allowed op
  | .setAssociatedObject c =>
    s.weak.allocated c.object = true ∧ (c.value = 0 ∨ s.weak.allocated c.value = true)
      ∧ ∀ old ∈ (s.runtime.assigned c).old, s.Releasable old
  | .rootDealloc o => o ≠ 0 ∧ s.weak.allocated o = true ∧ s.phase o = .alive
  | .removeAssociations o => (s.phase o).isDestructing = true
  | .releaseElement o => (s.phase o).next ≠ none ∧ ∀ a ∈ (s.phase o).next, s.Releasable a
  | .clearDeallocating o => s.phase o = .releasing []

instance (s : RuntimeState L) (op : RuntimeOp) : Decidable (s.Allowed op) := by
  cases op <;> unfold Allowed <;> infer_instance

def withHeap (s : RuntimeState L) (heap : Heap L) : RuntimeState L :=
  { s with weak := { s.weak with heap := heap } }

/-- The memory of `o` is freed. -/
def freed (s : RuntimeState L) (o : ObjPtr) : RuntimeState L :=
  { s with
    weak := { s.weak with allocated := update s.weak.allocated o false }
    phase := update s.phase o .alive }

/-- `rootDealloc`: free at once, or enter `objc_destructInstance`, which reads the flags. -/
def rootDealloc (s : RuntimeState L) (o : ObjPtr) : RuntimeState L :=
  if (s.weak.heap.isa o).freesImmediately then s.freed o
  else
    let assoc := (s.weak.heap.obj o).hasAssociatedObjects
    { s with phase := update s.phase o (.destructing assoc) }

def removeAssociations (s : RuntimeState L) (o : ObjPtr) : RuntimeState L :=
  match s.phase o with
  | .destructing true =>
    { s with
      associations := (remove_assocations s.associations o).1
      phase := update s.phase o (.releasing (remove_assocations s.associations o).2) }
  | .destructing false => { s with phase := update s.phase o (.releasing []) }
  | _ => s

def releaseElement (s : RuntimeState L) (o : ObjPtr) : RuntimeState L :=
  match s.phase o with
  | .releasing (a :: elements) =>
    { s.withHeap (releaseValue s.weak.heap a) with
      phase := update s.phase o (.releasing elements) }
  | _ => s

/-- `objc_setAssociatedObject`. -/
def setAssociatedObject (s : RuntimeState L) (c : SetCall) : RuntimeState L :=
  let created := s.created c.object || decide (s.phase c.object ≠ .alive ∧ c.new_value ≠ 0)
  { s.withHeap (s.runtime.setAssociatedObject c).heap with
    associations := (s.runtime.setAssociatedObject c).associations
    created := update s.created c.object created }

variable (C : ClassInfo L)

def perform (s : RuntimeState L) : RuntimeOp → Except Fatal (RuntimeState L)
  | .alloc o cls nonpointer hasCxxDtor =>
    match s.weak.perform C (.alloc o cls nonpointer hasCxxDtor) with
    | .error e => .error e
    | .ok weak => .ok { s with weak := weak, reused := s.reused || s.created o }
  | .call o op => .ok (s.withHeap (s.weak.heap.setObj o ((s.weak.heap.obj o).step op).1))
  | .weakVariable op =>
    match s.weak.perform C op with
    | .error e => .error e
    | .ok weak => .ok { s with weak := weak }
  | .setAssociatedObject c => .ok (s.setAssociatedObject c)
  | .rootDealloc o => .ok (s.rootDealloc o)
  | .removeAssociations o => .ok (s.removeAssociations o)
  | .releaseElement o => .ok (s.releaseElement o)
  | .clearDeallocating o =>
    match s.weak.heap.clearDeallocating o with
    | .error e => .error e
    | .ok heap => .ok ((s.withHeap heap).freed o)

def Initial (s : RuntimeState L) : Prop :=
  s.weak.Initial ∧ s.associations = (fun _ => none) ∧ s.phase = (fun _ => .alive)

/-- No new object has the address of one that got an association while it was being
deallocated. -/
abbrev NoReuse (s : RuntimeState L) : Prop := s.reused = false

end RuntimeState

def runtimeSystem (C : ClassInfo L) : System (RuntimeState L) RuntimeOp where
  init := RuntimeState.Initial
  step s op := if s.Allowed op then (s.perform C op).toOption else none

/-! ## Setting an association on the heap -/

namespace Runtime

variable {s : Runtime L} {live : Location → Bool} {allocated : ObjPtr → Bool} {c : SetCall}

theorem releaseValue_tracks {h : Heap L} (ht : h.Tracks live allocated)
    {a : ObjcAssociation ObjPtr} (ha : a.retained = true → allocated a.value = true) :
    (releaseValue h a).Tracks live allocated ∧ h.KeepsMarks (releaseValue h a) allocated := by
  unfold releaseValue
  split
  next hr =>
    have hv := ha hr
    have hkeep := rootRelease_keeps (ht.flagged _ hv)
    exact ⟨ht.setObj hv hkeep, ht.keepsMarks_setObj hv hkeep⟩
  next => exact ⟨ht, ht.keepsMarks fun _ => .inl rfl⟩

section

variable (ht : s.heap.Tracks live allocated)

include ht

theorem acquired_tracks (hv : c.value = 0 ∨ allocated c.value = true) :
    (s.acquired c).1.Tracks live allocated ∧ s.heap.KeepsMarks (s.acquired c).1 allocated := by
  have hsame : s.heap.KeepsMarks s.heap allocated := ht.keepsMarks fun _ => .inl rfl
  unfold acquired acquireValue
  split
  next => exact ⟨ht, hsame⟩
  rename_i hne
  split
  next =>
    have ha := hv.resolve_left hne
    have hkeep := rootRetain_keeps (ht.flagged _ ha) false
    exact ⟨ht.setObj ha hkeep, ht.keepsMarks_setObj ha hkeep⟩
  next => split <;> exact ⟨ht, hsame⟩

theorem marked_tracks (ho : allocated c.object = true)
    (hv : c.value = 0 ∨ allocated c.value = true) :
    (s.marked c).Tracks live allocated ∧ s.heap.KeepsMarks (s.marked c) allocated
      ∧ ((s.assigned c).first = true → ((s.marked c).obj c.object).hasAssociatedObjects = true) := by
  obtain ⟨ht1, hk1⟩ := acquired_tracks ht hv
  unfold marked
  split
  next =>
    obtain ⟨hkeep, hmark⟩ := setHasAssociatedObjects_keeps (ht1.flagged _ ho)
    refine ⟨ht1.setObj ho hkeep, hk1.trans (ht1.keepsMarks_setObj ho hkeep), fun _ => ?_⟩
    rw [obj_setObj, if_pos rfl]
    exact hmark
  next hno => exact ⟨ht1, hk1, fun hyes => absurd hyes hno⟩

theorem setAssociatedObject_tracks
    (ho : allocated c.object = true) (hv : c.value = 0 ∨ allocated c.value = true)
    (hold : ∀ old ∈ (s.assigned c).old, old.retained = true → allocated old.value = true) :
    (s.setAssociatedObject c).heap.Tracks live allocated
      ∧ s.heap.KeepsMarks (s.setAssociatedObject c).heap allocated
      ∧ ((s.assigned c).first = true →
          ((s.setAssociatedObject c).heap.obj c.object).hasAssociatedObjects = true) := by
  obtain ⟨ht1, hk1, hm1⟩ := marked_tracks ht ho hv
  unfold setAssociatedObject
  split
  next old heq =>
    obtain ⟨ht2, hk2⟩ := releaseValue_tracks ht1 (hold old heq)
    exact ⟨ht2, hk1.trans hk2, fun hf => (hk2 _ ho).assoc (hm1 hf)⟩
  next => exact ⟨ht1, hk1, hm1⟩

end

end Runtime

namespace RuntimeState

/-! ## The invariant -/

def Settled (s : RuntimeState L) (o : ObjPtr) : Prop :=
  s.weak.allocated o = false ∨ s.phase o = .destructing false
    ∨ ∃ elements, s.phase o = .releasing elements

structure Inv (s : RuntimeState L) : Prop where
  tracks : s.weak.Tracks
  marked : ∀ o, s.weak.allocated o = true → s.associations o ≠ none →
    (s.weak.heap.obj o).hasAssociatedObjects = true
  dying : ∀ o, s.phase o ≠ .alive → o ≠ 0 ∧ s.weak.allocated o = true
  clean : ∀ o, s.Settled o → s.created o = false → s.associations o = none

variable {s : RuntimeState L} {C : ClassInfo L}

theorem Inv.withHeap (h : s.Inv) {heap : Heap L} (ht : heap.Tracks s.weak.live s.weak.allocated)
    (hk : s.weak.heap.KeepsMarks heap s.weak.allocated) : (s.withHeap heap).Inv :=
  ⟨ht, fun o ha hassoc => (hk o ha).assoc (h.marked o ha hassoc), h.dying, h.clean⟩

variable {o : ObjPtr}

section

variable (h : s.Inv)

include h

theorem Inv.freesImmediately_clean (ha : s.weak.allocated o = true)
    (hfree : (s.weak.heap.isa o).freesImmediately = true) :
    ¬ s.weak.heap.weak.HasEntry o ∧ s.associations o = none ∧ s.weak.heap.refcnts o = none := by
  cases hisa : s.weak.heap.isa o with
  | raw c =>
    rw [hisa] at hfree
    exact Bool.noConfusion hfree
  | nonpointer b => ?_
  rw [hisa] at hfree
  simp only [Isa.freesImmediately, Bool.and_eq_true, Bool.not_eq_true'] at hfree
  obtain ⟨⟨⟨hweak, hassoc⟩, -⟩, hside⟩ := hfree
  refine ⟨fun hent => ?_, ?_, ?_⟩
  · have hmark := (h.tracks.entries o hent).2
    simp only [Obj.isWeaklyReferenced, Heap.obj, hisa, hweak] at hmark
    exact Bool.noConfusion hmark
  · by_contra hsome
    have hmark := h.marked o ha hsome
    simp only [Obj.hasAssociatedObjects, Heap.obj, hisa, hassoc] at hmark
    exact Bool.noConfusion hmark
  · have hflag := h.tracks.flagged o ha
    simp only [Obj.Flagged, Heap.obj, hisa] at hflag
    exact hflag hside

theorem Inv.freed (heap : Heap L) (ht : heap.Tracks s.weak.live (update s.weak.allocated o false))
    (hobj : ∀ o', o' ≠ o → heap.obj o' = s.weak.heap.obj o')
    (hclean : s.created o = false → s.associations o = none) : ((s.withHeap heap).freed o).Inv := by
  refine ⟨ht, fun o' ha hassoc => ?_, fun o' hph => ?_, fun o' hset hcr => ?_⟩
  · have hne : o' ≠ o := by
      rintro rfl
      exact Bool.noConfusion ((update_self ..).symm.trans ha)
    replace ha : update s.weak.allocated o false o' = true := ha
    rw [update_of_ne hne] at ha
    show (heap.obj o').hasAssociatedObjects = true
    rw [hobj o' hne]
    exact h.marked o' ha hassoc
  · have hne : o' ≠ o := by
      rintro rfl
      exact hph (update_self ..)
    replace hph : update s.phase o .alive o' ≠ .alive := hph
    rw [update_of_ne hne] at hph
    show o' ≠ 0 ∧ update s.weak.allocated o false o' = true
    rw [update_of_ne hne]
    exact h.dying o' hph
  by_cases hne : o' = o
  · subst hne
    exact hclean hcr
  refine h.clean o' ?_ hcr
  replace hset : update s.weak.allocated o false o' = false
    ∨ update s.phase o .alive o' = .destructing false
    ∨ ∃ els, update s.phase o .alive o' = .releasing els := hset
  rw [update_of_ne hne, update_of_ne hne] at hset
  exact hset

theorem Inv.toPhase {p : Phase} (ho : o ≠ 0 ∧ s.weak.allocated o = true)
    (hclean : p ≠ .destructing true → s.created o = false → s.associations o = none) :
    { s with phase := update s.phase o p }.Inv := by
  refine ⟨h.tracks, h.marked, fun o' hph => ?_, fun o' hset hcr => ?_⟩
  · by_cases hne : o' = o
    · rw [hne]
      exact ho
    replace hph : update s.phase o p o' ≠ .alive := hph
    rw [update_of_ne hne] at hph
    exact h.dying o' hph
  replace hset : s.weak.allocated o' = false ∨ update s.phase o p o' = .destructing false
    ∨ ∃ els, update s.phase o p o' = .releasing els := hset
  by_cases hne : o' = o
  · subst hne
    rw [update_self] at hset
    refine hclean ?_ hcr
    rintro rfl
    rcases hset with hno | hno | ⟨els, hno⟩
    · exact Bool.noConfusion (hno.symm.trans ho.2)
    · cases hno
    · cases hno
  · rw [update_of_ne hne] at hset
    exact h.clean o' hset hcr

/-! ## Each operation keeps it -/

theorem Inv.alloc (hop : s.weak.allocated o = false) (hcr : s.created o = false)
    (cls : Class) (nonpointer hasCxxDtor : Bool) {weak : WeakState L}
    (hrun : s.weak.perform C (.alloc o cls nonpointer hasCxxDtor) = .ok weak) :
    { s with weak := weak, reused := s.reused || s.created o }.Inv := by
  cases hrun
  have hother : ∀ o', o' ≠ o → { s.weak.heap with
      isa := update s.weak.heap.isa o (initIsa cls nonpointer hasCxxDtor) }.obj o'
        = s.weak.heap.obj o' := by
    intro o' hne
    show Obj.mk (update s.weak.heap.isa o _ o') _ = _
    rw [update_of_ne hne]
    rfl
  refine ⟨Heap.Tracks.alloc h.tracks hop cls nonpointer hasCxxDtor, fun o' ha hassoc => ?_,
    fun o' hph => ?_, fun o' hset hcr' => ?_⟩
  · have hne : o' ≠ o := by
      rintro rfl
      exact hassoc (h.clean o' (.inl hop) hcr)
    replace ha : update s.weak.allocated o true o' = true := ha
    rw [update_of_ne hne] at ha
    refine Eq.trans ?_ (h.marked o' ha hassoc)
    exact congrArg Obj.hasAssociatedObjects (hother o' hne)
  · obtain ⟨hne, ha⟩ := h.dying o' hph
    refine ⟨hne, ?_⟩
    show update s.weak.allocated o true o' = true
    by_cases heq : o' = o
    · rw [heq, update_self]
    · rw [update_of_ne heq]
      exact ha
  refine h.clean o' ?_ hcr'
  rcases hset with hno | hset
  · refine .inl ?_
    by_cases heq : o' = o
    · rw [heq]
      exact hop
    replace hno : update s.weak.allocated o true o' = false := hno
    rw [update_of_ne heq] at hno
    exact hno
  · exact .inr hset

theorem Inv.setAssociatedObject {c : SetCall} (hop : s.Allowed (.setAssociatedObject c)) :
    (s.setAssociatedObject c).Inv := by
  obtain ⟨ho, hv, hold⟩ := hop
  obtain ⟨ht, hk, hm⟩ := Runtime.setAssociatedObject_tracks (s := s.runtime) h.tracks ho hv hold
  refine ⟨ht, fun o ha hassoc => ?_, h.dying, fun o hset hcr => ?_⟩
  · by_cases hbefore : s.associations o = none
    · -- the table is new, so the object was marked
      by_cases heq : o = c.object
      · subst heq
        refine hm ((set_first_iff _ _ _).mpr ⟨hbefore, fun hnil => hassoc ?_⟩)
        exact (set_associations_self _ _ _).mpr ⟨hbefore, hnil⟩
      · exact absurd ((set_associations_other _ _ _ heq).trans hbefore) hassoc
    · exact (hk o ha).assoc (h.marked o ha hbefore)
  show (s.runtime.setAssociatedObject c).associations o = none
  rw [Runtime.setAssociatedObject_associations]
  replace hcr : update s.created c.object (s.created c.object
    || decide (s.phase c.object ≠ .alive ∧ c.new_value ≠ 0)) o = false := hcr
  by_cases heq : o = c.object
  · subst heq
    rw [update_self, Bool.or_eq_false_iff, decide_eq_false_iff_not] at hcr
    refine ⟨h.clean _ hset hcr.1, fun hassoc => hcr.2 ⟨fun halive => ?_, hassoc.2⟩⟩
    -- an allocated object that is settled is being deallocated
    rcases hset with hno | hno | ⟨els, hno⟩
    · exact Bool.noConfusion (hno.symm.trans ho)
    · cases halive.symm.trans hno
    · cases halive.symm.trans hno
  · rw [update_of_ne heq] at hcr
    exact ⟨h.clean o hset hcr, fun hassoc => heq hassoc.1.symm⟩

theorem Inv.rootDealloc (hop : s.Allowed (.rootDealloc o)) : (s.rootDealloc o).Inv := by
  obtain ⟨ho, ha, -⟩ := hop
  unfold RuntimeState.rootDealloc
  split
  next hfree =>
    obtain ⟨hent, hassoc, hrc⟩ := h.freesImmediately_clean ha hfree
    exact h.freed s.weak.heap (free h.tracks hent hrc) (fun _ _ => rfl) fun _ => hassoc
  refine h.toPhase ⟨ho, ha⟩ fun hne _ => ?_
  by_contra hsome
  exact hne (congrArg Phase.destructing (h.marked o ha hsome))

theorem Inv.removeAssociations (o : ObjPtr) : (s.removeAssociations o).Inv := by
  unfold RuntimeState.removeAssociations
  split
  next hph =>
    have hmem := h.dying o (by rw [hph]; exact Phase.noConfusion)
    have hbase : { s with associations := (remove_assocations s.associations o).1 }.Inv := by
      refine ⟨h.tracks, fun o' ha hassoc => ?_, h.dying, fun o' hset hcr => ?_⟩
      · have hne : o' ≠ o := fun heq => hassoc (heq ▸ remove_assocations_self)
        exact h.marked o' ha fun hnone => hassoc ((remove_assocations_other hne).trans hnone)
      show (remove_assocations s.associations o).1 o' = none
      by_cases heq : o' = o
      · rw [heq]
        exact remove_assocations_self
      · rw [remove_assocations_other heq]
        exact h.clean o' hset hcr
    exact hbase.toPhase hmem fun _ _ => remove_assocations_self
  next hph =>
    have hmem := h.dying o (by rw [hph]; exact Phase.noConfusion)
    exact h.toPhase hmem fun _ hcr => h.clean o (.inr (.inl hph)) hcr
  next => exact h

theorem Inv.releaseElement (hop : s.Allowed (.releaseElement o)) : (s.releaseElement o).Inv := by
  unfold RuntimeState.releaseElement
  split
  next a elements hph =>
    have hmem := h.dying o (by rw [hph]; exact Phase.noConfusion)
    have hval : s.Releasable a := hop.2 a (by rw [hph]; rfl)
    obtain ⟨ht, hk⟩ := releaseValue_tracks h.tracks hval
    exact (h.withHeap ht hk).toPhase hmem fun _ hcr => h.clean o (.inr (.inr ⟨_, hph⟩)) hcr
  next => exact h

theorem Inv.clearDeallocating (hph : s.phase o = .releasing []) :
    ∃ heap, s.weak.heap.clearDeallocating o = .ok heap ∧ ((s.withHeap heap).freed o).Inv
      ∧ ¬ heap.weak.HasEntry o ∧ heap.refcnts o = none := by
  obtain ⟨ho, ha⟩ := h.dying o (by rw [hph]; exact Phase.noConfusion)
  obtain ⟨heap, hrun, hcl, hrc, ht⟩ := Heap.Tracks.clearDeallocating h.tracks ho ha
  refine ⟨heap, hrun, ?_, hcl.gone, by rw [hrc, update_self]⟩
  exact h.freed heap ht (fun _ => hcl.obj_other hrc) fun hcr => h.clean o (.inr (.inr ⟨[], hph⟩)) hcr

end

def Halts (r : Except Fatal (RuntimeState L)) : Prop :=
  ∃ o, r = .error (.cannotFormWeakReference o)

theorem Inv.perform (h : s.Inv) {op : RuntimeOp} (hop : s.Allowed op)
    (hreuse : ∀ s', s.perform C op = .ok s' → s'.NoReuse) :
    Halts (s.perform C op) ∨ ∃ s', s.perform C op = .ok s' ∧ s'.Inv := by
  cases op with
  | alloc o cls nonpointer hasCxxDtor =>
    have hcr : s.created o = false := (Bool.or_eq_false_iff.mp (hreuse _ rfl)).2
    exact .inr ⟨_, rfl, h.alloc (C := C) hop.2 hcr cls nonpointer hasCxxDtor rfl⟩
  | call o op =>
    have hkeep := step_keeps (h.tracks.flagged o hop) op
    exact .inr ⟨_, rfl, h.withHeap (setObj h.tracks hop hkeep)
      (keepsMarks_setObj h.tracks hop hkeep)⟩
  | weakVariable op =>
    rcases WeakState.perform_variable (C := C) h.tracks hop.1 hop.2 with
      ⟨o, herr⟩ | ⟨weak, hok, ht, ha, hk⟩
    · exact .inl ⟨o, by simp only [RuntimeState.perform, herr]⟩
    refine .inr ⟨{ s with weak := weak }, by simp only [RuntimeState.perform, hok], ht,
      fun o hao hassoc => ?_, fun o hph => ?_, fun o hset hcr => ?_⟩
    · rw [ha] at hao
      exact (hk o hao).assoc (h.marked o hao hassoc)
    · show o ≠ 0 ∧ weak.allocated o = true
      rw [ha]
      exact h.dying o hph
    refine h.clean o ?_ hcr
    unfold Settled at hset ⊢
    rw [← ha]
    exact hset
  | setAssociatedObject c => exact .inr ⟨_, rfl, h.setAssociatedObject hop⟩
  | rootDealloc o => exact .inr ⟨_, rfl, h.rootDealloc hop⟩
  | removeAssociations o => exact .inr ⟨_, rfl, h.removeAssociations o⟩
  | releaseElement o => exact .inr ⟨_, rfl, h.releaseElement hop⟩
  | clearDeallocating o =>
    obtain ⟨heap, hrun, h', -⟩ := h.clearDeallocating hop
    exact .inr ⟨_, by simp only [RuntimeState.perform, hrun], h'⟩

theorem inv_of_initial (h : s.Initial) : s.Inv := by
  obtain ⟨hweak, hassoc, hphase⟩ := h
  refine ⟨WeakState.tracks_of_initial hweak, fun o _ hsome => ?_, fun o hph => ?_, fun o _ _ => ?_⟩
  · rw [hassoc] at hsome
    exact absurd rfl hsome
  · rw [hphase] at hph
    exact absurd rfl hph
  · rw [hassoc]

theorem inv_of_reachable (h : (runtimeSystem C).Reachable NoReuse s) : s.Inv := by
  refine h.invariant (fun s hs _ => inv_of_initial hs) fun s op s' hs _ hstep hok' => ?_
  unfold runtimeSystem at hstep
  simp only at hstep
  split at hstep
  next hop =>
    have hreuse : ∀ s1, s.perform C op = .ok s1 → s1.NoReuse := by
      intro s1 hs1
      rw [hs1] at hstep
      cases hstep
      exact hok'
    rcases hs.perform hop hreuse with ⟨o, herr⟩ | ⟨s1, hok, hs1⟩
    · rw [herr] at hstep
      cases hstep
    rw [hok] at hstep
    cases hstep
    exact hs1
  next => cases hstep

end RuntimeState

def RuntimeState.empty (L : Layout) : RuntimeState L where
  weak := WeakState.empty L
  associations _ := none
  phase _ := .alive
  created _ := false
  reused := false

/-- An object with a weak variable and a retained association, up to the end of its
deallocation. -/
def destructRun : List RuntimeOp :=
  [.alloc 16 1 true false, .alloc 4096 2 false false, .weakVariable (.initWeak 8 16),
    .setAssociatedObject ⟨16, 1, 4096, 1, 0⟩, .call 16 .release, .rootDealloc 16,
    .removeAssociations 16, .releaseElement 16]

/-- A value is associated with an object after its associations were removed, and a new object
gets the address. -/
def reuseRun : List RuntimeOp :=
  [.alloc 16 1 true false, .alloc 4096 2 true false, .setAssociatedObject ⟨16, 1, 4096, 0, 0⟩,
    .rootDealloc 16, .removeAssociations 16, .releaseElement 16,
    .setAssociatedObject ⟨16, 2, 4096, 0, 0⟩, .clearDeallocating 16, .alloc 16 1 true false]

end ObjcRuntime
