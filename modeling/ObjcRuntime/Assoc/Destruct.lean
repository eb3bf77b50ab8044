/-
RE-ENTRANT CODE INSIDE objc_destructInstance.

`_object_remove_assocations` erases the object's table, gives the lock back and
then releases the values, once and not in a loop. The releases run user code.
That code is given here as the list of its `objc_setAssociatedObject` calls in
the order in which they happen, nested ones included: `cxxCode` for the C++
destructors, `releaseCode a` for the release of association `a`.
-/
import ObjcRuntime.Assoc.Run

namespace ObjcRuntime

open Lib List Obj ObjcRuntime.Runtime RuntimeState ClassInfo Layout

variable {L : Layout}

/-! ## The function -/

/-- `hasCxxDtor`: in the isa, or asked of the class for a raw isa. -/
def Obj.hasCxxDtor (clsHasCxxDtor : Class → Bool) (o : Obj L) : Bool :=
  match o.isa with
  | .raw c => clsHasCxxDtor (c.getD 0)
  | .nonpointer b => b.has_cxx_dtor

namespace Runtime

def runCode (s : Runtime L) (code : List SetCall) : Runtime L := code.foldl setAssociatedObject s

/-- The loop over the removed associations: `releaseValue`, and the code this runs. -/
def releaseElements (releaseCode : ObjcAssociation ObjPtr → List SetCall) :
    Runtime L → List (ObjcAssociation ObjPtr) → Runtime L
  | s, [] => s
  | s, a :: elements =>
    let s' : Runtime L := { s with heap := releaseValue s.heap a }
    releaseElements releaseCode (if a.retained then s'.runCode (releaseCode a) else s') elements

/-- `_object_remove_assocations`. -/
def object_remove_assocations (s : Runtime L) (o : ObjPtr)
    (releaseCode : ObjcAssociation ObjPtr → List SetCall) : Runtime L :=
  let (associations, elements) := remove_assocations s.associations o
  releaseElements releaseCode { s with associations := associations } elements

/-- `object_cxxDestruct`, if the object has C++ destructors. -/
def cxxDestruct (s : Runtime L) (clsHasCxxDtor : Class → Bool) (o : ObjPtr)
    (cxxCode : List SetCall) : Runtime L :=
  if (s.heap.obj o).hasCxxDtor clsHasCxxDtor then s.runCode cxxCode else s

def objc_destructInstance (s : Runtime L) (clsHasCxxDtor : Class → Bool) (o : ObjPtr)
    (cxxCode : List SetCall) (releaseCode : ObjcAssociation ObjPtr → List SetCall) :
    Except Fatal (Runtime L) :=
  -- the flag is read before the destructors run
  let assoc := (s.heap.obj o).hasAssociatedObjects
  let s := s.cxxDestruct clsHasCxxDtor o cxxCode
  let s := if assoc then s.object_remove_assocations o releaseCode else s
  match s.heap.clearDeallocating o with
  | .error e => .error e
  | .ok heap => .ok { s with heap := heap }

/-- The calls that can leave a table behind: those made while the removed values are
released or, if the flag was not set, those of the C++ destructors. -/
def lateCalls (s : Runtime L) (clsHasCxxDtor : Class → Bool) (o : ObjPtr)
    (cxxCode : List SetCall) (releaseCode : ObjcAssociation ObjPtr → List SetCall) : List SetCall :=
  if (s.heap.obj o).hasAssociatedObjects then
    let s := s.cxxDestruct clsHasCxxDtor o cxxCode
    ((remove_assocations s.associations o).2.filter ObjcAssociation.retained).flatMap releaseCode
  else if (s.heap.obj o).hasCxxDtor clsHasCxxDtor then cxxCode
  else []

/-! ## What a sequence of calls does to the object's table -/

theorem runCode_associations (code : List SetCall) (o : ObjPtr) : ∀ s : Runtime L,
    (s.runCode code).associations o = none
      ↔ s.associations o = none ∧ ∀ c ∈ code, ¬ c.associates o := by
  induction code with
  | nil =>
    intro s
    exact ⟨fun h => ⟨h, nofun⟩, And.left⟩
  | cons c code ih =>
    intro s
    show ((s.setAssociatedObject c).runCode code).associations o = none ↔ _
    rw [ih, setAssociatedObject_associations, forall_mem_cons, and_assoc]

variable (releaseCode : ObjcAssociation ObjPtr → List SetCall)

theorem releaseElements_associations
    (o : ObjPtr) (elements : List (ObjcAssociation ObjPtr)) : ∀ s : Runtime L,
    (releaseElements releaseCode s elements).associations o = none ↔ s.associations o = none
        ∧ ∀ c ∈ (elements.filter ObjcAssociation.retained).flatMap releaseCode,
            ¬ c.associates o := by
  induction elements with
  | nil =>
    intro s
    exact ⟨fun h => ⟨h, nofun⟩, And.left⟩
  | cons a elements ih => ?_
  intro s
  unfold releaseElements
  rw [ih]
  cases hr : a.retained with
  | true =>
    rw [if_pos rfl, runCode_associations, filter_cons_of_pos hr, flatMap_cons,
      forall_mem_append, and_assoc]
  | false =>
    rw [if_neg (by decide), filter_cons_of_neg (by rw [hr]; decide)]

theorem object_remove_assocations_associations (s : Runtime L) (o : ObjPtr)
    (releaseCode : ObjcAssociation ObjPtr → List SetCall) :
    (s.object_remove_assocations o releaseCode).associations o = none
      ↔ ∀ c ∈ ((remove_assocations s.associations o).2.filter ObjcAssociation.retained).flatMap
          releaseCode, ¬ c.associates o := by
  unfold object_remove_assocations
  rw [releaseElements_associations]
  exact ⟨And.right, fun h => ⟨remove_assocations_self, h⟩⟩

/-! ## The object keeps its marks, so the side table can be cleared -/

/-- What `clearDeallocating` relies on. -/
structure Ready (s : Runtime L) (o : ObjPtr) : Prop where
  wf : s.heap.weak.WF
  flagged : (s.heap.obj o).Flagged
  marked : s.heap.weak.HasEntry o → (s.heap.obj o).isWeaklyReferenced = true

variable {s : Runtime L} {o : ObjPtr}

theorem Ready.setObj (h : s.Ready o) (x : ObjPtr) {f : Obj L → Obj L}
    (hf : ∀ v : Obj L, v.Flagged → v.Keeps (f v)) (m : AssociationsHashMap ObjPtr) :
    (Runtime.mk (s.heap.setObj x (f (s.heap.obj x))) m).Ready o := by
  have hkeep : (s.heap.obj o).Keeps ((s.heap.setObj x (f (s.heap.obj x))).obj o) := by
    rw [Heap.obj_setObj]
    by_cases heq : o = x
    · rw [if_pos heq, ← heq]
      exact hf _ h.flagged
    · rw [if_neg heq]
      exact .refl h.flagged
  exact ⟨h.wf, hkeep.flagged, fun hent => hkeep.weak (h.marked hent)⟩

theorem Ready.releaseValue (h : s.Ready o) (a : ObjcAssociation ObjPtr) :
    Ready { s with heap := releaseValue s.heap a } o := by
  unfold ObjcRuntime.releaseValue
  split
  · exact h.setObj a.value (f := fun v => v.rootRelease.1) (fun _ hv => rootRelease_keeps hv) _
  · exact h

theorem Ready.setAssociatedObject (h : s.Ready o) (c : SetCall) :
    (s.setAssociatedObject c).Ready o := by
  have hacq : Ready { s with heap := (s.acquired c).1 } o := by
    unfold acquired acquireValue
    split
    · exact h
    split
    · exact h.setObj c.value (f := fun v => (v.rootRetain false).1)
        (fun _ hv => rootRetain_keeps hv false) _
    · split <;> exact h
  have hmark : Ready { s with heap := s.marked c } o := by
    unfold Runtime.marked
    split
    · exact hacq.setObj c.object (f := setHasAssociatedObjects)
        (fun _ hv => (setHasAssociatedObjects_keeps hv).1) _
    · exact hacq
  unfold Runtime.setAssociatedObject
  split
  next old _ =>
    have := hmark.releaseValue old
    exact { this with }
  next => exact { hmark with }

theorem Ready.runCode (code : List SetCall) : ∀ {s : Runtime L}, s.Ready o →
    (s.runCode code).Ready o := by
  induction code with
  | nil => exact id
  | cons c code ih => exact fun h => ih (h.setAssociatedObject c)

theorem Ready.releaseElements
    (elements : List (ObjcAssociation ObjPtr)) : ∀ {s : Runtime L}, s.Ready o →
    (releaseElements releaseCode s elements).Ready o := by
  induction elements with
  | nil => exact id
  | cons a elements ih => ?_
  intro s h
  refine ih ?_
  split
  · exact (h.releaseValue a).runCode (releaseCode a)
  · exact h.releaseValue a

theorem Ready.cxxDestruct (h : s.Ready o) (clsHasCxxDtor : Class → Bool) (cxxCode : List SetCall) :
    (s.cxxDestruct clsHasCxxDtor o cxxCode).Ready o := by
  unfold Runtime.cxxDestruct
  split
  · exact h.runCode cxxCode
  · exact h

theorem Ready.clearDeallocating (h : s.Ready o) (ho : o ≠ 0) :
    ∃ heap, s.heap.clearDeallocating o = .ok heap := by
  obtain ⟨heap, hrun, -⟩ := Heap.clearDeallocating_spec h.wf ho h.flagged h.marked
  exact ⟨heap, hrun⟩

end Runtime

/-! ## When a table is left behind -/

theorem RuntimeState.Inv.ready {s : RuntimeState L} (h : s.Inv) {o : ObjPtr}
    (ha : s.weak.allocated o = true) : s.runtime.Ready o :=
  ⟨h.tracks.wf, h.tracks.flagged o ha, fun hent => (h.tracks.entries o hent).2⟩

def associatedSetup : List RuntimeOp :=
  [.alloc 16 1 true false, .alloc 4096 2 true false, .alloc 8192 3 true false,
    .setAssociatedObject ⟨16, 1, 4096, 1, 0⟩]

def reassociate : ObjcAssociation ObjPtr → List SetCall := fun _ => [⟨16, 2, 8192, 1, 0⟩]

theorem associatedSetup_reachable :
    ∃ s, (runtimeSystem (plain x86_64)).Reachable NoReuse s
      ∧ (runtimeSystem (plain x86_64)).runFrom NoReuse
          (empty x86_64) associatedSetup = some s
      ∧ s.weak.allocated 16 = true := by
  have hend : ((runtimeSystem (plain x86_64)).runFrom NoReuse
      (empty x86_64) associatedSetup).map (fun s => s.weak.allocated 16)
      = some true := by
    decide +kernel
  obtain ⟨s, hrun, ha⟩ := Option.map_eq_some_iff.mp hend
  have hempty : (runtimeSystem (plain x86_64)).Reachable NoReuse
      (empty x86_64) := .init ⟨⟨rfl, rfl, rfl, rfl⟩, rfl, rfl⟩ rfl
  exact ⟨s, hempty.of_run associatedSetup hrun, hrun, ha⟩

end ObjcRuntime
