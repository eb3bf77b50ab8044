/-
WHOLE RUNS OVER WEAK VARIABLES, ONE THREAD.

A program that creates, reads, overwrites, copies, moves and destroys weak
variables, and allocates, retains, releases and deallocates objects, in any
order. `live` says which locations are weak variables now, `allocated` which
addresses are objects.
-/
import ObjcRuntime.Lib.Transition
import ObjcRuntime.Weak.Heap

namespace ObjcRuntime

open Lib Function Obj Heap Nat Bool Layout

variable {L : Layout}

/-! ## Copying and moving -/

namespace Heap

variable (C : ClassInfo L)

/-- `objc_copyWeak`; the answer is the object that the final `objc_release`
deallocated, if it did. -/
def objc_copyWeak (s : Heap L) (dst src : Location) : Except Fatal (Heap L × Option ObjPtr) :=
  let (s, obj) := s.objc_loadWeakRetained C src
  match s.objc_initWeak C dst obj with
  | .error e => .error e
  | .ok (s, _) =>
    match s.objc_release obj with
    | .error e => .error e
    | .ok (s, dealloc) => .ok (s, if dealloc then some obj else none)

def objc_moveWeak (s : Heap L) (dst src : Location) : Except Fatal (Heap L × Option ObjPtr) :=
  match s.objc_copyWeak C dst src with
  | .error e => .error e
  | .ok (s, gone) =>
    match s.objc_destroyWeak C src with
    | .error e => .error e
    | .ok (s, _) => .ok ({ s with mem := update s.mem src 0 }, gone)

end Heap

/-! ## The program's operations -/

structure WeakState (L : Layout) where
  heap : Heap L
  /-- the locations that are weak variables now -/
  live : Location → Bool
  /-- the addresses of objects not yet freed -/
  allocated : ObjPtr → Bool

inductive WeakOp where
  | alloc (o : ObjPtr) (cls : Class) (nonpointer hasCxxDtor : Bool)
  /-- a reference-counting call, or a change of class -/
  | call (o : ObjPtr) (op : RcOp)
  | initWeak (location : Location) (newObj : ObjPtr)
  | initWeakOrNil (location : Location) (newObj : ObjPtr)
  | storeWeak (location : Location) (newObj : ObjPtr)
  | storeWeakOrNil (location : Location) (newObj : ObjPtr)
  | loadWeakRetained (location : Location)
  | destroyWeak (location : Location)
  | copyWeak (dst src : Location)
  | moveWeak (dst src : Location)
  /-- `clearDeallocating`, then the memory is freed -/
  | dealloc (o : ObjPtr)
  /-- the memory of a location that is no weak variable is used for something else -/
  | reuse (location : Location) (value : ObjPtr)
  deriving DecidableEq

def WeakOp.onVariable : WeakOp → Bool
  | .initWeak .. => true
  | .initWeakOrNil .. => true
  | .storeWeak .. => true
  | .storeWeakOrNil .. => true
  | .loadWeakRetained .. => true
  | .destroyWeak .. => true
  | .reuse .. => true
  | _ => false

namespace WeakState

/-- No weak variable may be there yet: it was never initialized, or was destroyed, or
holds nil after a move. -/
def Vacant (s : WeakState L) (l : Location) : Prop := s.live l = false ∨ s.heap.mem l = 0

def Storable (s : WeakState L) (o : ObjPtr) : Prop := o = 0 ∨ s.allocated o = true

instance (s : WeakState L) (l : Location) : Decidable (s.Vacant l) :=
  inferInstanceAs (Decidable (_ ∨ _))

instance (s : WeakState L) (o : ObjPtr) : Decidable (s.Storable o) :=
  inferInstanceAs (Decidable (_ ∨ _))

def Allowed (s : WeakState L) : WeakOp → Prop
  | .alloc o _ _ _ => o ≠ 0 ∧ s.allocated o = false
  | .call o _ => s.allocated o = true
  | .initWeak l o => s.Vacant l ∧ s.Storable o
  | .initWeakOrNil l o => s.Vacant l ∧ s.Storable o
  | .storeWeak l o => s.live l = true ∧ s.Storable o
  | .storeWeakOrNil l o => s.live l = true ∧ s.Storable o
  | .loadWeakRetained l => s.live l = true
  | .destroyWeak l => s.live l = true
  | .copyWeak dst src => s.Vacant dst ∧ s.live src = true
  | .moveWeak dst src => s.Vacant dst ∧ s.live src = true
  | .dealloc o => o ≠ 0 ∧ s.allocated o = true
  | .reuse l _ => s.live l = false

instance (s : WeakState L) (op : WeakOp) : Decidable (s.Allowed op) := by
  cases op <;> unfold Allowed <;> infer_instance

/-- The state after the heap operation, with `l` a weak variable or not. -/
def withVariable (s : WeakState L) (l : Location) (live : Bool) :
    Except Fatal (Heap L × ObjPtr) → Except Fatal (WeakState L)
  | .error e => .error e
  | .ok (heap, _) => .ok { s with heap := heap, live := update s.live l live }

def without (allocated : ObjPtr → Bool) : Option ObjPtr → ObjPtr → Bool
  | none => allocated
  | some o => update allocated o false

/-- The state after a copy or a move to `dst`. -/
def withCopy (s : WeakState L) (dst : Location) :
    Except Fatal (Heap L × Option ObjPtr) → Except Fatal (WeakState L)
  | .error e => .error e
  | .ok (heap, gone) =>
    .ok ⟨heap, update s.live dst true, without s.allocated gone⟩

variable (C : ClassInfo L)

def perform (s : WeakState L) : WeakOp → Except Fatal (WeakState L)
  | .alloc o cls nonpointer hasCxxDtor =>
    let isa := update s.heap.isa o (initIsa cls nonpointer hasCxxDtor)
    .ok { s with heap := { s.heap with isa := isa }, allocated := update s.allocated o true }
  | .call o op => .ok { s with heap := s.heap.setObj o ((s.heap.obj o).step op).1 }
  | .initWeak l o => s.withVariable l true (s.heap.objc_initWeak C l o)
  | .initWeakOrNil l o => s.withVariable l true (s.heap.objc_initWeakOrNil C l o)
  | .storeWeak l o => s.withVariable l true (s.heap.objc_storeWeak C l o)
  | .storeWeakOrNil l o => s.withVariable l true (s.heap.objc_storeWeakOrNil C l o)
  | .loadWeakRetained l => .ok { s with heap := (s.heap.objc_loadWeakRetained C l).1 }
  | .destroyWeak l => s.withVariable l false (s.heap.objc_destroyWeak C l)
  | .copyWeak dst src => s.withCopy dst (s.heap.objc_copyWeak C dst src)
  | .moveWeak dst src => s.withCopy dst (s.heap.objc_moveWeak C dst src)
  | .dealloc o =>
    match s.heap.clearDeallocating o with
    | .error e => .error e
    | .ok heap => .ok { s with heap := heap, allocated := update s.allocated o false }
  | .reuse l v =>
    .ok { s with heap := { s.heap with mem := update s.heap.mem l v } }

def Initial (s : WeakState L) : Prop :=
  s.heap.weak = WeakTables.new ∧ s.heap.refcnts = (fun _ => none) ∧ s.live = (fun _ => false)
    ∧ s.allocated = fun _ => false

end WeakState

def weakSystem (C : ClassInfo L) : System (WeakState L) WeakOp where
  init := WeakState.Initial
  step s op := if s.Allowed op then (s.perform C op).toOption else none

/-! ## Variables and registrations agree -/

namespace Heap

/-- Each live variable is registered once, for what it holds; entries belong to
allocated objects that carry the mark; an address that is no object has no word. -/
structure Tracks (s : Heap L) (live : Location → Bool) (allocated : ObjPtr → Bool) : Prop where
  wf : s.weak.WF
  regs : ∀ o l, o ≠ 0 → s.weak.registrations o l = if live l = true ∧ s.mem l = o then 1 else 0
  entries : ∀ o, s.weak.HasEntry o → allocated o = true ∧ (s.obj o).isWeaklyReferenced = true
  flagged : ∀ o, allocated o = true → (s.obj o).Flagged
  unused : ∀ o, allocated o = false → s.refcnts o = none

variable {C : ClassInfo L} {s s' : Heap L} {live : Location → Bool} {allocated : ObjPtr → Bool}

def KeepsMarks (s s' : Heap L) (allocated : ObjPtr → Bool) : Prop :=
  ∀ o, allocated o = true → (s.obj o).Keeps (s'.obj o)

variable (h : s.Tracks live allocated)
include h

theorem Tracks.keepsMarks
    (hobj : ∀ o, s'.obj o = s.obj o ∨ allocated o = true ∧ (s.obj o).Keeps (s'.obj o)) :
    s.KeepsMarks s' allocated := by
  intro o ha
  rcases hobj o with heq | ⟨-, hkeep⟩
  · rw [heq]
    exact .refl (h.flagged o ha)
  · exact hkeep

theorem Tracks.of_objects (hweak : s'.weak = s.weak)
    (hmem : s'.mem = s.mem)
    (hobj : ∀ o, s'.obj o = s.obj o ∨ allocated o = true ∧ (s.obj o).Keeps (s'.obj o)) :
    s'.Tracks live allocated := by
  refine ⟨hweak ▸ h.wf, fun o l ho => ?_, fun o hent => ?_, fun o ha => ?_, fun o ha => ?_⟩
  · rw [hweak, hmem]
    exact h.regs o l ho
  · rw [hweak] at hent
    obtain ⟨ha, hmark⟩ := h.entries o hent
    refine ⟨ha, ?_⟩
    rcases hobj o with heq | ⟨-, hkeep⟩
    · rw [heq]
      exact hmark
    · exact hkeep.weak hmark
  · rcases hobj o with heq | ⟨-, hkeep⟩
    · rw [heq]
      exact h.flagged o ha
    · exact hkeep.flagged
  · rcases hobj o with heq | ⟨hyes, -⟩
    · exact (congrArg refcnt heq).trans (h.unused o ha)
    · exact absurd (ha.symm.trans hyes) (by decide)

variable {o : ObjPtr}

theorem Tracks.setObj (ha : allocated o = true) {v : Obj L}
    (hkeep : (s.obj o).Keeps v) : (s.setObj o v).Tracks live allocated := by
  refine h.of_objects rfl rfl fun o' => ?_
  rw [obj_setObj]
  by_cases heq : o' = o
  · rw [if_pos heq, heq]
    exact .inr ⟨ha, hkeep⟩
  · rw [if_neg heq]
    exact .inl rfl

theorem Tracks.keepsMarks_setObj (ha : allocated o = true)
    {v : Obj L} (hkeep : (s.obj o).Keeps v) :
    s.KeepsMarks (s.setObj o v) allocated := by
  refine h.keepsMarks fun o' => ?_
  rw [obj_setObj]
  by_cases heq : o' = o
  · rw [if_pos heq, heq]
    exact .inr ⟨ha, hkeep⟩
  · rw [if_neg heq]
    exact .inl rfl

omit h

theorem KeepsMarks.trans {s'' : Heap L} (h : s.KeepsMarks s' allocated)
    (h' : s'.KeepsMarks s'' allocated) : s.KeepsMarks s'' allocated := fun o ha =>
  (h o ha).trans (h' o ha)

variable {l : Location}

theorem Tracks.held_allocated (h : s.Tracks live allocated) (hl : live l = true)
    (hne : s.mem l ≠ 0) : allocated (s.mem l) = true := by
  by_contra hno
  have hz := registrations_eq_zero h.wf (fun hent => hno (h.entries _ hent).1) l
  rw [h.regs _ l hne, if_pos ⟨hl, rfl⟩] at hz
  exact absurd hz (by decide)

theorem not_held_of_vacant (hvacant : live l = false ∨ s.mem l = 0) (ho : o ≠ 0) :
    ¬ (live l = true ∧ s.mem l = o) := by
  rintro ⟨hlive, hmem⟩
  rcases hvacant with hdead | hnil
  · exact absurd (hlive.symm.trans hdead) (by decide)
  · exact ho (hmem.symm.trans hnil)

/-! ## Initializing a class changes no object -/

theorem classInitialize_same (cls : Class) :
    (s.classInitialize C cls).weak = s.weak ∧ (s.classInitialize C cls).mem = s.mem
      ∧ (s.classInitialize C cls).obj = s.obj := by
  unfold classInitialize
  split <;> exact ⟨rfl, rfl, rfl⟩

theorem initializeForStore_same (haveNew : Bool) (newObj : ObjPtr) :
    (s.initializeForStore C haveNew newObj).weak = s.weak
      ∧ (s.initializeForStore C haveNew newObj).mem = s.mem
      ∧ (s.initializeForStore C haveNew newObj).obj = s.obj := by
  unfold initializeForStore
  split
  · exact classInitialize_same _
  · exact ⟨rfl, rfl, rfl⟩

theorem initializeForLoad_same (o : ObjPtr) :
    (s.initializeForLoad C o).weak = s.weak ∧ (s.initializeForLoad C o).mem = s.mem
      ∧ (s.initializeForLoad C o).obj = s.obj := by
  unfold initializeForLoad
  simp only
  split
  · exact classInitialize_same _
  · exact ⟨rfl, rfl, rfl⟩

/-! ## Each function keeps the agreement -/

variable {location : Location} {newObj : ObjPtr}

section

variable (h : s.Tracks live allocated)

include h

theorem Tracks.stored {haveOld haveNew : Bool} {r : ObjPtr} (hr : r = newObj ∨ r = 0)
    (hold : if haveOld then live location = true else live location = false ∨ s.mem location = 0)
    (hnew : newObj = 0 ∨ allocated newObj = true)
    (hst : s.Stored s' haveOld haveNew location (s.mem location) r) {mem' : Location → ObjPtr}
    (hmem' : mem' = if haveNew then update s.mem location r else s.mem) :
    { s' with mem := mem' }.Tracks (update live location haveNew) allocated
      ∧ s.KeepsMarks s' allocated := by
  have halloc : r ≠ 0 → allocated r = true := by
    intro hne
    rcases hr with heq | heq
    · rcases hnew with h0 | ha
      · exact absurd (heq.trans h0) hne
      · rw [heq]
        exact ha
    · exact absurd heq hne
  have hkeep : ∀ o, s'.obj o = s.obj o ∨ allocated o = true ∧ (s.obj o).Keeps (s'.obj o)
          ∧ (s'.obj o).isWeaklyReferenced = true := by
    intro o
    rw [hst.objs o]
    by_cases ho : haveNew = true ∧ o = r ∧ r ≠ 0
    · rw [if_pos ho]
      have ha : allocated o = true := ho.2.1 ▸ halloc ho.2.2
      have hmark := setWeaklyReferenced_keeps (h.flagged o ha)
      exact .inr ⟨ha, hmark.1, hmark.2⟩
    · rw [if_neg ho]
      exact .inl rfl
  refine ⟨⟨hst.wf, fun o l ho => ?_, fun o hent => ?_, fun o ha => ?_, fun o ha => ?_⟩,
    h.keepsMarks fun o => (hkeep o).imp_right fun hk => ⟨hk.1, hk.2.1⟩⟩
  · show s'.weak.registrations o l = if update live location haveNew l = true ∧ mem' l = o
      then 1 else 0
    rw [hst.regs o l ho, h.regs o l ho, hmem']
    by_cases hl : l = location
    · -- at the location itself: off the old value, on to the answer
      subst hl
      have hpos : ∀ x : ObjPtr, hit x l o l = if x = o then 1 else 0 := by
        intro x
        simp [hit, eq_comm]
      rw [update_self, hpos, hpos]
      have hgone : (if live l = true ∧ s.mem l = o then 1 else 0)
          - (if haveOld then (if s.mem l = o then 1 else 0) else 0) = 0 := by
        cases haveOld with
        | true =>
          have hlive : live l = true := by simpa using hold
          simp [hlive]
        | false =>
          have hvacant : live l = false ∨ s.mem l = 0 := by simpa using hold
          rw [if_neg (not_held_of_vacant hvacant ho)]
          rfl
      rw [hgone]
      cases haveNew with
      | true | false => simp
    have hzero : ∀ x : ObjPtr, hit x location o l = 0 := by
      intro x
      exact if_neg fun hand => hl hand.2.symm
    rw [update_of_ne hl, hzero, hzero]
    have hsame : (if haveNew then update s.mem location r else s.mem) l = s.mem l := by
      cases haveNew with
      | true => exact update_of_ne hl _ _
      | false => rfl
    rw [hsame]
    simp
  · rcases hst.entries o hent with hbefore | ⟨hyes, ho, hne⟩
    · obtain ⟨ha, hmark⟩ := h.entries o hbefore
      refine ⟨ha, ?_⟩
      rcases hkeep o with heq | ⟨-, -, hmark'⟩
      · exact (congrArg isWeaklyReferenced heq).trans hmark
      · exact hmark'
    subst ho
    refine ⟨halloc hne, ?_⟩
    have hobj := hst.objs o
    rw [if_pos ⟨hyes, rfl, hne⟩] at hobj
    exact (congrArg isWeaklyReferenced hobj).trans
      (setWeaklyReferenced_keeps (h.flagged o (halloc hne))).2
  · rcases hkeep o with heq | ⟨-, hk, -⟩
    · exact heq ▸ h.flagged o ha
    · exact hk.flagged
  rcases hkeep o with heq | ⟨hyes, -⟩
  · exact (congrArg refcnt heq).trans (h.unused o ha)
  · exact absurd (ha.symm.trans hyes) (by decide)

theorem Tracks.storeWeak (haveOld haveNew crash : Bool)
    (hold : if haveOld then live location = true else live location = false ∨ s.mem location = 0)
    (hnew : newObj = 0 ∨ allocated newObj = true) :
    s.storeWeak C haveOld haveNew crash location newObj = .error (.cannotFormWeakReference newObj)
      ∨ ∃ s' r, s.storeWeak C haveOld haveNew crash location newObj = .ok (s', r)
          ∧ s'.Tracks (update live location haveNew) allocated
          ∧ s.KeepsMarks s' allocated := by
  obtain ⟨hweak, hmem, hobj⟩ := initializeForStore_same (C := C) (s := s) haveNew newObj
  have h1 := h.of_objects hweak hmem fun o => .inl (congrFun hobj o)
  rw [← hmem] at hold
  unfold Heap.storeWeak
  simp only
  rcases storeWeakLocked_spec (C := C) h1.wf haveOld haveNew crash location
      ((s.initializeForStore C haveNew newObj).mem location) newObj with
    herr | ⟨s', r, hrun, hr, hst⟩
  · exact .inl (by rw [herr])
  obtain ⟨hgoal, hmarks⟩ := h1.stored hr hold hnew hst rfl
  have hmarks' : s.KeepsMarks s' allocated := by
    intro o ha
    rw [← hobj]
    exact hmarks o ha
  rw [hrun]
  cases haveNew with
  | true =>
    refine .inr ⟨_, r, rfl, ?_, hmarks'⟩
    rw [hst.mem]
    exact hgoal
  | false => ?_
  refine .inr ⟨s', r, rfl, ?_, hmarks'⟩
  have hsame : { s' with mem := (s.initializeForStore C false newObj).mem } = s' := by
    rw [← hst.mem]
  rw [← hsame]
  exact hgoal

theorem Tracks.initWeak (crash : Bool) (hvacant : live location = false ∨ s.mem location = 0)
    (hnew : newObj = 0 ∨ allocated newObj = true) :
    s.initWeak C crash location newObj = .error (.cannotFormWeakReference newObj)
      ∨ ∃ s' r, s.initWeak C crash location newObj = .ok (s', r)
          ∧ s'.Tracks (update live location true) allocated
          ∧ s.KeepsMarks s' allocated := by
  unfold Heap.initWeak
  by_cases hnil : newObj = 0
  · rw [if_pos hnil]
    refine .inr ⟨_, 0, rfl, { h with regs := fun o l ho => ?_ }, h.keepsMarks fun _ => .inl rfl⟩
    show s.weak.registrations o l
      = if update live location true l = true ∧ update s.mem location 0 l = o
        then 1 else 0
    rw [h.regs o l ho]
    by_cases hl : l = location
    · subst hl
      rw [update_self, update_self, if_neg (not_held_of_vacant hvacant ho),
        if_neg fun hand => ho hand.2.symm]
    · rw [update_of_ne hl, update_of_ne hl]
  · rw [if_neg hnil]
    exact h.storeWeak false true crash (by simpa using hvacant) hnew

theorem Tracks.objc_destroyWeak (hl : live location = true) :
    ∃ s' r, s.objc_destroyWeak C location = .ok (s', r)
      ∧ s'.Tracks (update live location false) allocated
      ∧ s.KeepsMarks s' allocated := by
  have hnil : (0 : ObjPtr) = 0 ∨ allocated 0 = true := .inl rfl
  rcases h.storeWeak (C := C) true false false (by simpa using hl) hnil with herr | hok
  · -- nothing is registered, so nothing can halt
    exfalso
    unfold Heap.storeWeak storeWeakLocked assignNew at herr
    obtain ⟨w, hold, -⟩ := cleanUpOld_spec (s := s.initializeForStore C false 0)
      ((initializeForStore_same (C := C) (s := s) false 0).1 ▸ h.wf) true location
      ((s.initializeForStore C false 0).mem location)
    simp [hold] at herr
  · exact hok

theorem Tracks.objc_loadWeakRetained (hl : live location = true) :
    (s.objc_loadWeakRetained C location).1.Tracks live allocated
      ∧ (s.objc_loadWeakRetained C location).1.mem = s.mem
      ∧ ((s.objc_loadWeakRetained C location).2 = 0
          ∨ allocated (s.objc_loadWeakRetained C location).2 = true)
      ∧ s.KeepsMarks (s.objc_loadWeakRetained C location).1 allocated := by
  unfold Heap.objc_loadWeakRetained
  simp only
  split
  next => exact ⟨h, rfl, .inl rfl, h.keepsMarks fun _ => .inl rfl⟩
  rename_i hne
  have ha := h.held_allocated hl hne
  obtain ⟨hweak, hmem, hobj⟩ := initializeForLoad_same (C := C) (s := s) (s.mem location)
  have h1 := h.of_objects hweak hmem fun o => .inl (congrFun hobj o)
  obtain ⟨hweak', hmem', hobj', hres⟩ :=
    loadWeakLocked_spec (C := C) (s := s.initializeForLoad C (s.mem location)) (s.mem location)
  have hkeep : ∀ o, ((s.initializeForLoad C (s.mem location)).loadWeakLocked C
        (s.mem location)).1.obj o
        = (s.initializeForLoad C (s.mem location)).obj o
      ∨ allocated o = true ∧ ((s.initializeForLoad C (s.mem location)).obj o).Keeps
          (((s.initializeForLoad C (s.mem location)).loadWeakLocked C (s.mem location)).1.obj o) := by
    intro o
    rcases hobj' o with heq | ⟨rfl, heq⟩
    · exact .inl heq
    · rw [heq]
      exact .inr ⟨ha, Obj.rootRetain_keeps (h1.flagged _ ha) true⟩
  refine ⟨h1.of_objects hweak' hmem' hkeep, hmem'.trans hmem, ?_, fun o hao => ?_⟩
  · rcases hres with hz | ⟨heq, -⟩
    · exact .inl hz
    · rw [heq]
      exact .inr ha
  · rw [← hobj]
    exact h1.keepsMarks hkeep o hao

theorem Tracks.clearDeallocating (ho : o ≠ 0) (ha : allocated o = true) :
    ∃ s', s.clearDeallocating o = .ok s' ∧ s.Cleared s' o ∧ s'.refcnts = update s.refcnts o none
      ∧ s'.Tracks live (update allocated o false) := by
  obtain ⟨s', hrun, hcl, hrc⟩ :=
    clearDeallocating_spec h.wf ho (h.flagged o ha) fun hent => (h.entries o hent).2
  have hobj : ∀ o', o' ≠ o → s'.obj o' = s.obj o' := fun _ => hcl.obj_other hrc
  have hmem' : ∀ l, s'.mem l = if live l = true ∧ s.mem l = o then 0 else s.mem l := by
    intro l
    rw [hcl.mem l, h.regs o l ho]
    by_cases hheld : live l = true ∧ s.mem l = o
    · have hreg : 0 < 1 ∧ s.mem l = o := ⟨one_pos, hheld.2⟩
      rw [if_pos hheld, if_pos hheld, if_pos hreg]
    · have hreg : ¬ (0 < 0 ∧ s.mem l = o) := fun hand => lt_irrefl 0 hand.1
      rw [if_neg hheld, if_neg hheld, if_neg hreg]
  refine ⟨s', hrun, hcl, hrc, hcl.wf, fun o' l ho' => ?_, fun o' hent => ?_, fun o' ha' => ?_,
    fun o' ha' => ?_⟩
  · rw [hcl.regs o' l, hmem' l, h.regs o' l ho']
    by_cases hheld : live l = true ∧ s.mem l = o
    · -- the variable held `o`, and is nil now
      have hnil : ¬ (live l = true ∧ 0 = o') := fun hand => ho' hand.2.symm
      rw [if_pos hheld, if_neg hnil]
      by_cases heq : o' = o
      · rw [if_pos heq]
      · rw [if_neg heq, if_neg fun hand => heq (hand.2.symm.trans hheld.2)]
    rw [if_neg hheld]
    by_cases heq : o' = o
    · rw [if_pos heq, heq, if_neg hheld]
    · rw [if_neg heq]
  · have hne : o' ≠ o := fun heq => hcl.gone (heq ▸ hent)
    rw [update_of_ne hne, hobj o' hne]
    exact h.entries o' ((hcl.entries o' hne).mp hent)
  · by_cases hne : o' = o
    · rw [hne, update_self] at ha'
      exact absurd ha' (by decide)
    rw [update_of_ne hne] at ha'
    rw [hobj o' hne]
    exact h.flagged o' ha'
  rw [hrc]
  by_cases hne : o' = o
  · rw [hne, update_self]
  · rw [update_of_ne hne] at ha' ⊢
    exact h.unused o' ha'

theorem Tracks.free (hno : ¬ s.weak.HasEntry o)
    (hrc : s.refcnts o = none) : s.Tracks live (update allocated o false) := by
  refine ⟨h.wf, h.regs, fun o' hent => ?_, fun o' ha => ?_, fun o' ha => ?_⟩
  · have hne : o' ≠ o := fun heq => hno (heq ▸ hent)
    rw [update_of_ne hne]
    exact h.entries o' hent
  · have hne : o' ≠ o := by
      rintro rfl
      exact Bool.noConfusion ((update_self ..).symm.trans ha)
    rw [update_of_ne hne] at ha
    exact h.flagged o' ha
  by_cases hne : o' = o
  · rw [hne]
    exact hrc
  · rw [update_of_ne hne] at ha
    exact h.unused o' ha

theorem Tracks.objc_release (ho : o = 0 ∨ allocated o = true) :
    ∃ s' dealloc, s.objc_release o = .ok (s', dealloc)
      ∧ s'.Tracks live (WeakState.without allocated (if dealloc then some o else none)) := by
  unfold Heap.objc_release
  by_cases hnil : o = 0
  · rw [if_pos hnil]
    exact ⟨s, false, rfl, h⟩
  have ha : allocated o = true := ho.resolve_left hnil
  have h1 : (s.setObj o (s.obj o).rootRelease.1).Tracks live allocated :=
    h.setObj ha (Obj.rootRelease_keeps (h.flagged o ha))
  rw [if_neg hnil]
  simp only
  cases hd : (s.obj o).rootRelease.2 with
  | false => exact ⟨_, false, rfl, h1⟩
  | true =>
    obtain ⟨s', hrun, -, -, h2⟩ := h1.clearDeallocating hnil ha
    exact ⟨s', true, by simp only [hrun, if_true], h2⟩

end

variable {src : Location} {dst : Location}

theorem Tracks.objc_copyWeak (h : s.Tracks live allocated)
    (hdst : live dst = false ∨ s.mem dst = 0) (hsrc : live src = true) :
    (∃ o, s.objc_copyWeak C dst src = .error (.cannotFormWeakReference o))
      ∨ ∃ s' gone, s.objc_copyWeak C dst src = .ok (s', gone)
          ∧ s'.Tracks (update live dst true) (WeakState.without allocated gone) := by
  obtain ⟨h1, hmem, hobj, -⟩ := h.objc_loadWeakRetained (C := C) hsrc
  unfold Heap.objc_copyWeak
  simp only
  rw [← hmem] at hdst
  rcases h1.initWeak (C := C) true hdst hobj with herr | ⟨s2, r, hrun, h2, -⟩
  · exact .inl ⟨_, by rw [Heap.objc_initWeak, herr]⟩
  · obtain ⟨s3, dealloc, hrel, h3⟩ := h2.objc_release hobj
    exact .inr ⟨s3, _, by rw [Heap.objc_initWeak, hrun]; simp only [hrel], h3⟩

theorem Tracks.nil_after_destroy (h : s.Tracks (update live src false) allocated) :
    { s with mem := update s.mem src 0 }.Tracks live allocated := by
  refine { h with regs := fun o l ho => ?_ }
  show s.weak.registrations o l = if live l = true ∧ update s.mem src 0 l = o then 1 else 0
  rw [h.regs o l ho]
  by_cases hl : l = src
  · rw [hl, update_self, update_self, if_neg fun hand => Bool.noConfusion hand.1,
      if_neg fun hand => ho hand.2.symm]
  · rw [update_of_ne hl, update_of_ne hl]

section

variable (h : s.Tracks live allocated)

include h

theorem Tracks.objc_moveWeak (hdst : live dst = false ∨ s.mem dst = 0) (hsrc : live src = true) :
    (∃ o, s.objc_moveWeak C dst src = .error (.cannotFormWeakReference o))
      ∨ ∃ s' gone, s.objc_moveWeak C dst src = .ok (s', gone)
          ∧ s'.Tracks (update live dst true) (WeakState.without allocated gone) := by
  unfold Heap.objc_moveWeak
  rcases h.objc_copyWeak (C := C) hdst hsrc with ⟨o, herr⟩ | ⟨s1, gone, hrun, h1⟩
  · exact .inl ⟨o, by rw [herr]⟩
  have hlive : update live dst true src = true := by
    by_cases heq : src = dst
    · rw [heq, update_self]
    · rw [update_of_ne heq]
      exact hsrc
  obtain ⟨s2, r, hrun2, h2, -⟩ := h1.objc_destroyWeak (C := C) hlive
  refine .inr ⟨_, gone, ?_, h2.nil_after_destroy⟩
  simp only [hrun, hrun2]

theorem Tracks.reuse (hl : live l = false) (v : ObjPtr) :
    { s with mem := update s.mem l v }.Tracks live allocated := by
  refine { h with regs := fun o l' ho => ?_ }
  show s.weak.registrations o l' = if live l' = true ∧ update s.mem l v l' = o then 1 else 0
  rw [h.regs o l' ho]
  by_cases heq : l' = l
  · rw [heq, hl, if_neg fun hand => Bool.noConfusion hand.1,
      if_neg fun hand => Bool.noConfusion hand.1]
  · rw [update_of_ne heq]

theorem Tracks.alloc (ho : allocated o = false) (cls : Class) (nonpointer hasCxxDtor : Bool) :
    { s with isa := update s.isa o (initIsa cls nonpointer hasCxxDtor) }.Tracks live
      (update allocated o true) := by
  have hobj : ∀ o', o' ≠ o → { s with
      isa := update s.isa o (initIsa cls nonpointer hasCxxDtor) }.obj o' = s.obj o' := by
    intro o' hne
    show Obj.mk (update s.isa o _ o') _ = _
    rw [update_of_ne hne]
    rfl
  refine ⟨h.wf, h.regs, fun o' hent => ?_, fun o' ha => ?_, fun o' ha => ?_⟩
  · have hbefore := h.entries o' hent
    have hne : o' ≠ o := fun heq => absurd (ho.symm.trans (heq ▸ hbefore.1)) (by decide)
    rw [update_of_ne hne, hobj o' hne]
    exact hbefore
  · by_cases heq : o' = o
    · subst heq
      show (Obj.mk (update s.isa o' _ o') (s.refcnts o')).Flagged
      rw [update_self, h.unused o' ho]
      exact Obj.initIsa_flagged cls nonpointer hasCxxDtor
    · rw [update_of_ne heq] at ha
      rw [hobj o' heq]
      exact h.flagged o' ha
  have hne : o' ≠ o := by
    rintro rfl
    rw [update_self] at ha
    exact absurd ha (by decide)
  rw [update_of_ne hne] at ha
  exact h.unused o' ha

end

end Heap

/-! ## Whole runs -/

namespace WeakState

variable {C : ClassInfo L} {s : WeakState L}

def Tracks (s : WeakState L) : Prop := s.heap.Tracks s.live s.allocated

def Halts (r : Except Fatal (WeakState L)) : Prop :=
  ∃ o, r = .error (.cannotFormWeakReference o)

theorem tracks_of_initial (h : s.Initial) : s.Tracks := by
  obtain ⟨hweak, hrc, hlive, ha⟩ := h
  have hno : ∀ o, ¬ s.heap.weak.HasEntry o := by
    rw [hweak]
    rintro o ⟨_, _, _, hmem, _⟩
    exact absurd hmem List.not_mem_nil
  have hwf : s.heap.weak.WF := hweak ▸ WeakTables.new_wf
  refine ⟨hwf, fun o l _ => ?_, fun o hent => absurd hent (hno o), fun o h => ?_, fun o _ => ?_⟩
  · rw [Heap.registrations_eq_zero hwf (hno o), hlive, if_neg fun hand => Bool.noConfusion hand.1]
  · rw [ha] at h
    exact Bool.noConfusion h
  · rw [hrc]

theorem tracks_withVariable {l : Location} {live : Bool} {e : Except Fatal (Heap L × ObjPtr)}
    {o : ObjPtr}
    (h : e = .error (.cannotFormWeakReference o)
      ∨ ∃ s' r, e = .ok (s', r) ∧ s'.Tracks (update s.live l live) s.allocated
          ∧ s.heap.KeepsMarks s' s.allocated) :
    Halts (s.withVariable l live e)
      ∨ ∃ s', s.withVariable l live e = .ok s' ∧ s'.Tracks ∧ s'.allocated = s.allocated
          ∧ s.heap.KeepsMarks s'.heap s.allocated := by
  rcases h with rfl | ⟨s', r, rfl, h, hmarks⟩
  · exact .inl ⟨o, rfl⟩
  · exact .inr ⟨_, rfl, h, rfl, hmarks⟩

theorem tracks_withCopy {e : Except Fatal (Heap L × Option ObjPtr)}
    (h : (∃ o, e = .error (.cannotFormWeakReference o)) ∨ ∃ s' gone, e = .ok (s', gone)
          ∧ s'.Tracks (update s.live dst true) (without s.allocated gone)) :
    Halts (s.withCopy dst e) ∨ ∃ s', s.withCopy dst e = .ok s' ∧ s'.Tracks := by
  rcases h with ⟨o, rfl⟩ | ⟨s', r, rfl, h⟩
  · exact .inl ⟨o, rfl⟩
  · exact .inr ⟨_, rfl, h⟩

variable {op : WeakOp}

theorem perform_variable (h : s.Tracks) (hvar : op.onVariable = true) (hop : s.Allowed op) :
    Halts (s.perform C op) ∨ ∃ s', s.perform C op = .ok s' ∧ s'.Tracks ∧ s'.allocated = s.allocated
          ∧ s.heap.KeepsMarks s'.heap s.allocated := by
  cases op with
  | initWeak l o => exact tracks_withVariable (Heap.Tracks.initWeak h true hop.1 hop.2)
  | initWeakOrNil l o => exact tracks_withVariable (Heap.Tracks.initWeak h false hop.1 hop.2)
  | storeWeak l o =>
    exact tracks_withVariable (Heap.Tracks.storeWeak h true true true (by simpa using hop.1) hop.2)
  | storeWeakOrNil l o =>
    exact tracks_withVariable (Heap.Tracks.storeWeak h true true false (by simpa using hop.1) hop.2)
  | loadWeakRetained l =>
    obtain ⟨h', -, -, hmarks⟩ := Heap.Tracks.objc_loadWeakRetained (C := C) h hop
    exact .inr ⟨_, rfl, h', rfl, hmarks⟩
  | destroyWeak l => exact tracks_withVariable (o := 0) (.inr (Heap.Tracks.objc_destroyWeak h hop))
  | reuse l v =>
    exact .inr ⟨_, rfl, Heap.Tracks.reuse h hop v, rfl, Heap.Tracks.keepsMarks h fun _ => .inl rfl⟩
  | alloc o cls nonpointer hasCxxDtor | call o op | copyWeak dst src | moveWeak dst src =>
    exact Bool.noConfusion hvar
  | dealloc o => exact Bool.noConfusion hvar

theorem perform_tracks (h : s.Tracks) (hop : s.Allowed op) :
    Halts (s.perform C op) ∨ ∃ s', s.perform C op = .ok s' ∧ s'.Tracks := by
  by_cases hvar : op.onVariable = true
  · rcases perform_variable (C := C) h hvar hop with hhalt | ⟨s', hok, h', -⟩
    · exact .inl hhalt
    · exact .inr ⟨s', hok, h'⟩
  cases op with
  | alloc o cls nonpointer hasCxxDtor =>
    exact .inr ⟨_, rfl, Heap.Tracks.alloc h hop.2 cls nonpointer hasCxxDtor⟩
  | call o op =>
    exact .inr ⟨_, rfl, Heap.Tracks.setObj h hop (step_keeps (h.flagged o hop) op)⟩
  | copyWeak dst src => exact tracks_withCopy (Heap.Tracks.objc_copyWeak h hop.1 hop.2)
  | moveWeak dst src => exact tracks_withCopy (Heap.Tracks.objc_moveWeak h hop.1 hop.2)
  | dealloc o =>
    obtain ⟨heap, hrun, -, -, htracks⟩ := Heap.Tracks.clearDeallocating h hop.1 hop.2
    refine .inr ⟨⟨heap, s.live, update s.allocated o false⟩, ?_, htracks⟩
    simp only [perform, hrun]
  | _ => exact absurd rfl hvar

theorem tracks_step {s' : WeakState L} (h : s.Tracks) (hstep : (weakSystem C).step s op = some s') :
    s'.Tracks := by
  unfold weakSystem at hstep
  simp only at hstep
  split at hstep
  next hop =>
    rcases perform_tracks (C := C) h hop with ⟨o, herr⟩ | ⟨s1, hok, hs1⟩
    · rw [herr] at hstep
      cases hstep
    rw [hok] at hstep
    cases hstep
    exact hs1
  next => cases hstep

theorem tracks_of_reachable (h : (weakSystem C).Reachable (fun _ => True) s) : s.Tracks :=
  h.invariant (fun _ hinit _ => tracks_of_initial hinit) fun _ _ _ hs _ hstep _ =>
    tracks_step hs hstep

end WeakState

/-- **In every run, a live weak variable holds `o` exactly when it is registered once
for `o` and for nothing else**; deallocating `o` succeeds, sets the variables
registered for it to nil, removes its entry and changes no other location; and an
operation can only fail by the deliberate halt. -/
theorem weak_run_registers_held_object (C : ClassInfo L) (s : WeakState L)
    (h : (weakSystem C).Reachable (fun _ => True) s) :
    (∀ l o, s.live l = true → o ≠ 0 →
        (s.heap.mem l = o ↔ s.heap.weak.registrations o l = 1
          ∧ ∀ o', o' ≠ o → s.heap.weak.registrations o' l = 0))
      ∧ (∀ o, s.Allowed (.dealloc o) →
          ∃ s', (weakSystem C).step s (.dealloc o) = some s'
            ∧ (∀ l, 0 < s.heap.weak.registrations o l → s'.heap.mem l = 0)
            ∧ ¬ s'.heap.weak.HasEntry o
            ∧ ∀ l, s.heap.weak.registrations o l = 0 → s'.heap.mem l = s.heap.mem l)
      ∧ ∀ op, s.Allowed op → WeakState.Halts (s.perform C op) ∨ ∃ s', s.perform C op = .ok s' := by
  have htracks := WeakState.tracks_of_reachable h
  refine ⟨fun l o hl ho => ⟨fun hheld => ⟨?_, fun o' hne => ?_⟩, fun hreg => ?_⟩, fun o hop => ?_,
    fun op hop => ?_⟩
  · rw [htracks.regs o l ho, if_pos ⟨hl, hheld⟩]
  · by_cases hnil : o' = 0
    · rw [hnil, htracks.wf.nil_regs]
    · rw [htracks.regs o' l hnil, if_neg fun hand => hne (hand.2.symm.trans hheld)]
  · by_contra hno
    have hz := htracks.regs o l ho
    rw [hreg.1, if_neg fun hand => hno hand.2] at hz
    exact absurd hz (by decide)
  · obtain ⟨heap, hrun, hcl, -⟩ := Heap.Tracks.clearDeallocating htracks hop.1 hop.2
    refine ⟨⟨heap, s.live, update s.allocated o false⟩, ?_, fun l hl => ?_, hcl.gone,
      fun l hl => ?_⟩
    · simp only [weakSystem, hop, if_true, WeakState.perform, hrun]
      rfl
    · have hheld : s.heap.mem l = o := by
        by_contra hno
        rw [htracks.regs o l hop.1, if_neg fun hand => hno hand.2] at hl
        exact lt_irrefl 0 hl
      show heap.mem l = 0
      rw [hcl.mem l, if_pos ⟨hl, hheld⟩]
    · show heap.mem l = s.heap.mem l
      rw [hcl.mem l, hl, if_neg fun hand => lt_irrefl 0 hand.1]
  · rcases WeakState.perform_tracks (C := C) htracks hop with hhalt | ⟨s', hok, -⟩
    · exact .inl hhalt
    · exact .inr ⟨s', hok⟩

def ClassInfo.plain (L : Layout) : ClassInfo L where
  overridesRR _ := false
  allowsWeakReference _ := none
  retainWeakReference _ := none
  initializing _ := false

def WeakState.empty (L : Layout) : WeakState L where
  heap := ⟨fun _ => .raw none, fun _ => none, .new, fun _ => 0, fun _ => false⟩
  live _ := false
  allocated _ := false

/-- Six variables on one object, one of them moved to another object and one
destroyed; the fifth makes the entry go out of line. -/
def sharedRun : List WeakOp :=
  [.alloc 16 1 true false, .alloc 4096 2 false false, .initWeak 8 16, .initWeak 24 16,
    .copyWeak 32 8, .copyWeak 40 8, .initWeakOrNil 48 16, .moveWeak 56 48, .storeWeak 24 4096,
    .destroyWeak 40]

/-- At the end of the shared run variable 8 is registered for object 16 only, variable
24 for object 4096 only, and deallocating 16 clears 8 and keeps 24. -/
theorem shared_run_registers_held_object :
    ∃ s, (weakSystem (ClassInfo.plain Layout.x86_64)).runFrom (fun _ => True)
          (WeakState.empty Layout.x86_64) sharedRun = some s
      ∧ s.heap.weak.registrations 16 8 = 1 ∧ s.heap.weak.registrations 4096 24 = 1
      ∧ ∃ s', (weakSystem (ClassInfo.plain Layout.x86_64)).step s (.dealloc 16) = some s'
          ∧ s'.heap.mem 8 = 0 ∧ s'.heap.mem 24 = 4096 := by
  have hend : ((weakSystem (ClassInfo.plain x86_64)).runFrom (fun _ => True)
        (WeakState.empty x86_64) sharedRun).map (fun s => (s.live 8, s.heap.mem 8, s.live 24,
          s.heap.mem 24, s.allocated 16)) = some (true, 16, true, 4096, true) := by
    decide +kernel
  obtain ⟨s, hrun, hobs⟩ := Option.map_eq_some_iff.mp hend
  simp only [Prod.mk.injEq] at hobs
  obtain ⟨hl8, hm8, hl24, hm24, ha⟩ := hobs
  have hreach : (weakSystem (ClassInfo.plain x86_64)).Reachable (fun _ => True)
      (WeakState.empty x86_64) := .init ⟨rfl, rfl, rfl, rfl⟩ trivial
  obtain ⟨hregs, hdealloc, -⟩ := weak_run_registers_held_object _ _ (hreach.of_run sharedRun hrun)
  have h8 := (hregs 8 16 hl8 (by decide)).mp hm8
  have h24 := (hregs 24 4096 hl24 (by decide)).mp hm24
  obtain ⟨s', hstep, hclear, -, hkeep⟩ := hdealloc 16 ⟨by decide, ha⟩
  refine ⟨s, hrun, h8.1, h24.1, s', hstep, hclear 8 (by rw [h8.1]; exact one_pos), ?_⟩
  rw [hkeep 24 (h24.2 16 (by decide))]
  exact hm24

end ObjcRuntime
