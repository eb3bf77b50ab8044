/-
WEAK VARIABLES, ONE THREAD.

The weak-reference functions of NSObject.mm on a heap: the isa and side-table
word of each object, the weak tables, the contents of weak variables, and
which classes are `+initialize`d.

One thread runs alone here, so the locks are not visible and the retry of
`storeWeak` after a changed location never happens; the retry after
`+initialize` does. The interleaved version is `ObjcRuntime.Weak.Threads`,
which applies the same bodies.

What the user's code answers (`allowsWeakReference`, `retainWeakReference`) is
a parameter, `ClassInfo`.
-/
import ObjcRuntime.Object.Marks
import ObjcRuntime.Weak.Stripes

namespace ObjcRuntime

open Function WeakTables Obj

variable {L : Layout}

/-! ## Classes and the heap -/

/-- What the functions below ask of a class. `none`: the method is not
implemented (`_objc_msgForward`). -/
structure ClassInfo (L : Layout) where
  /-- the class overrides retain/release -/
  overridesRR : Class → Bool
  allowsWeakReference : Class → Option (Obj L → Bool)
  retainWeakReference : Class → Option (Obj L → Bool)
  /-- `+initialize` of the class is running on this thread -/
  initializing : Class → Bool

/-- `ISA()`. -/
def Isa.getIsa : Isa L → Class
  | .raw c => c.getD 0
  | .nonpointer b => b.cls

/-- The test of `rootDealloc`: nothing refers to the object from a side table, an
association table or a C++ destructor, and it can be freed at once. -/
def Isa.freesImmediately : Isa L → Bool
  | .raw _ => false
  | .nonpointer b =>
    !b.weakly_referenced && !b.has_assoc && !b.has_cxx_dtor && !b.has_sidetable_rc

structure Heap (L : Layout) where
  isa : ObjPtr → Isa L
  refcnts : ObjPtr → SideWord
  weak : WeakTables
  mem : Location → ObjPtr
  initialized : Class → Bool

namespace Heap

def obj (s : Heap L) (o : ObjPtr) : Obj L := ⟨s.isa o, s.refcnts o⟩

def setObj (s : Heap L) (o : ObjPtr) (v : Obj L) : Heap L :=
  { s with isa := update s.isa o v.isa, refcnts := update s.refcnts o v.refcnt }

theorem obj_setObj (s : Heap L) (o o' : ObjPtr) (v : Obj L) :
    (s.setObj o v).obj o' = if o' = o then v else s.obj o' := by
  unfold obj setObj
  by_cases h : o' = o
  · subst h
    simp
  · simp [h]

variable (C : ClassInfo L)

/-- Default retain/release is never set before `+initialize` is complete. -/
def hasCustomRR (s : Heap L) (cls : Class) : Bool := !s.initialized cls || C.overridesRR cls

/-- `_class_initialize`: runs `+initialize`, unless this thread is already in it. -/
def classInitialize (s : Heap L) (cls : Class) : Heap L :=
  if C.initializing cls then s
  else { s with initialized := update s.initialized cls true }

/-! ## Storing -/

/-- The first half of `weak_register_no_lock`: is the object deallocating?  `none`: its
class does not say, and nil is stored. -/
def deallocatingForWeak (s : Heap L) (referent : ObjPtr) : Option Bool :=
  let cls := (s.isa referent).getIsa
  if !s.hasCustomRR C cls then some (s.obj referent).rootIsDeallocating
  else (C.allowsWeakReference cls).map fun f => !f (s.obj referent)

def weak_register_no_lock (s : Heap L) (referent : ObjPtr) (referrer : Location)
    (crashIfDeallocating : Bool) : Except Fatal (Heap L × ObjPtr) :=
  if referent = 0 then .ok (s, referent)
  else
    match s.deallocatingForWeak C referent with
    | none => .ok (s, 0)
    | some true =>
      if crashIfDeallocating then .error (.cannotFormWeakReference referent) else .ok (s, 0)
    | some false =>
      match s.weak.register referent referrer with
      | .error e => .error e
      | .ok weak => .ok ({ s with weak := weak }, referent)

def cleanUpOld (s : Heap L) (haveOld : Bool) (location : Location) (oldObj : ObjPtr) :
    Except Fatal (Heap L) :=
  if haveOld then
    match s.weak.unregister oldObj location with
    | .error e => .error e
    | .ok weak => .ok { s with weak := weak }
  else .ok s

/-- "Assign new value, if any", up to the write of the location: register it and set
its weakly-referenced bit. -/
def assignNew (s : Heap L) (haveNew crashIfDeallocating : Bool) (location : Location)
    (newObj : ObjPtr) : Except Fatal (Heap L × ObjPtr) :=
  if haveNew then
    match s.weak_register_no_lock C newObj location crashIfDeallocating with
    | .error e => .error e
    | .ok (s, newObj) =>
      if newObj = 0 then .ok (s, newObj)
      else .ok (s.setObj newObj (s.obj newObj).setWeaklyReferenced_nolock, newObj)
  else .ok (s, newObj)

/-- The part of `storeWeak` that runs under the locks, up to the write of the location. -/
def storeWeakLocked (s : Heap L) (haveOld haveNew crashIfDeallocating : Bool)
    (location : Location) (oldObj newObj : ObjPtr) : Except Fatal (Heap L × ObjPtr) :=
  match s.cleanUpOld haveOld location oldObj with
  | .error e => .error e
  | .ok s => s.assignNew C haveNew crashIfDeallocating location newObj

def initializeForStore (s : Heap L) (haveNew : Bool) (newObj : ObjPtr) : Heap L :=
  if haveNew && newObj != 0 && !s.initialized (s.isa newObj).getIsa then
    s.classInitialize C (s.isa newObj).getIsa
  else s

def storeWeak (s : Heap L) (haveOld haveNew crashIfDeallocating : Bool) (location : Location)
    (newObj : ObjPtr) : Except Fatal (Heap L × ObjPtr) :=
  let s := s.initializeForStore C haveNew newObj
  match s.storeWeakLocked C haveOld haveNew crashIfDeallocating location (s.mem location) newObj with
  | .error e => .error e
  | .ok (s, newObj) =>
    if haveNew then .ok ({ s with mem := update s.mem location newObj }, newObj)
    else .ok (s, newObj)

def objc_storeWeak (s : Heap L) (location : Location) (newObj : ObjPtr) :=
  s.storeWeak C true true true location newObj

def objc_storeWeakOrNil (s : Heap L) (location : Location) (newObj : ObjPtr) :=
  s.storeWeak C true true false location newObj

/-- `objc_initWeak` and `objc_initWeakOrNil`. -/
def initWeak (s : Heap L) (crashIfDeallocating : Bool) (location : Location) (newObj : ObjPtr) :
    Except Fatal (Heap L × ObjPtr) :=
  if newObj = 0 then .ok ({ s with mem := update s.mem location 0 }, 0)
  else s.storeWeak C false true crashIfDeallocating location newObj

def objc_initWeak (s : Heap L) (location : Location) (newObj : ObjPtr) :=
  s.initWeak C true location newObj

def objc_initWeakOrNil (s : Heap L) (location : Location) (newObj : ObjPtr) :=
  s.initWeak C false location newObj

def objc_destroyWeak (s : Heap L) (location : Location) :=
  s.storeWeak C true false false location 0

/-! ## Loading -/

/-- The part of `objc_loadWeakRetained` that runs under the lock: try to retain. -/
def loadWeakLocked (s : Heap L) (o : ObjPtr) : Heap L × ObjPtr :=
  let cls := (s.isa o).getIsa
  let (v, ok) := (s.obj o).rootTryRetain
  if !s.hasCustomRR C cls then
    (s.setObj o v, if ok then o else 0)
  else
    match C.retainWeakReference cls with
    | none => (s, 0)
    | some f => if f (s.obj o) then (s.setObj o v, if ok then o else 0) else (s, 0)

def initializeForLoad (s : Heap L) (o : ObjPtr) : Heap L :=
  let cls := (s.isa o).getIsa
  if s.hasCustomRR C cls && !s.initialized cls && !C.initializing cls then
    s.classInitialize C cls
  else s

def objc_loadWeakRetained (s : Heap L) (location : Location) : Heap L × ObjPtr :=
  let o := s.mem location
  if o = 0 then (s, 0) else (s.initializeForLoad C o).loadWeakLocked C o

/-! ## Deallocating -/

/-- `weak_clear_no_lock` on the heap. -/
def weakClear (s : Heap L) (o : ObjPtr) : Except Fatal (Heap L) :=
  match s.weak.clear o s.mem with
  | .error e => .error e
  | .ok (weak, mem) => .ok { s with weak := weak, mem := mem }

/-- `table.refcnts.erase(this)`. -/
def eraseRefcnt (s : Heap L) (o : ObjPtr) : Heap L :=
  { s with refcnts := update s.refcnts o none }

/-- Clear the weak references if `weakly_referenced`, then erase the word if `counted`. -/
def clearAndErase (s : Heap L) (o : ObjPtr) (weakly_referenced counted : Bool) :
    Except Fatal (Heap L) :=
  match (if weakly_referenced then s.weakClear o else .ok s) with
  | .error e => .error e
  | .ok s => .ok (if counted then s.eraseRefcnt o else s)

def sidetable_clearDeallocating (s : Heap L) (o : ObjPtr) : Except Fatal (Heap L) :=
  match s.refcnts o with
  | none => .ok s
  | some w => s.clearAndErase o (weakOf (some w)) true

def clearDeallocating_slow (s : Heap L) (o : ObjPtr) (b : IsaBits L) : Except Fatal (Heap L) :=
  s.clearAndErase o b.weakly_referenced b.has_sidetable_rc

def clearDeallocating (s : Heap L) (o : ObjPtr) : Except Fatal (Heap L) :=
  match s.isa o with
  | .raw _ => s.sidetable_clearDeallocating o
  | .nonpointer b =>
    if b.weakly_referenced || b.has_sidetable_rc then s.clearDeallocating_slow o b else .ok s

/-- `objc_release`; the flag says whether the object was deallocated. -/
def objc_release (s : Heap L) (o : ObjPtr) : Except Fatal (Heap L × Bool) :=
  if o = 0 then .ok (s, false)
  else
    let (v, dealloc) := (s.obj o).rootRelease
    if dealloc then
      match (s.setObj o v).clearDeallocating o with
      | .error e => .error e
      | .ok s => .ok (s, true)
    else .ok (s.setObj o v, false)

/-! ## What a store does -/

section Store

variable {C} {s : Heap L}

theorem unregister_nil (w : WeakTables) (l : Location) : w.unregister 0 l = .ok w := by
  simp [WeakTables.unregister, weak_unregister_no_lock, WeakTables.set]

variable (hw : s.weak.WF)
include hw

theorem cleanUpOld_spec (haveOld : Bool) (location : Location) (oldObj : ObjPtr) :
    ∃ w, s.cleanUpOld haveOld location oldObj = .ok { s with weak := w } ∧ w.WF
      ∧ (∀ o l, o ≠ 0 → w.registrations o l
          = s.weak.registrations o l - if haveOld then hit oldObj location o l else 0)
      ∧ (∀ o, w.HasEntry o → s.weak.HasEntry o) := by
  unfold cleanUpOld
  cases haveOld with
  | false => exact ⟨s.weak, rfl, hw, fun o l _ => by simp, fun _ => id⟩
  | true => ?_
  by_cases hnil : oldObj = 0
  · subst hnil
    refine ⟨s.weak, by simp only [unregister_nil, if_true], hw, fun o l ho => ?_, fun _ => id⟩
    rw [if_pos rfl, hit_of_ne ho, Nat.sub_zero]
  obtain ⟨w, hrun, hwf, hregs, hhas⟩ := unregister_spec hw hnil location
  refine ⟨w, by simp only [hrun, if_true], hwf, fun o l _ => ?_, hhas⟩
  rw [if_pos rfl, hregs]

/-- The heap after `location` was registered for `r`; nil is not registered. -/
structure Registered (s s' : Heap L) (location : Location) (r : ObjPtr) : Prop where
  wf : s'.weak.WF
  mem : s'.mem = s.mem
  regs : ∀ o l, o ≠ 0 → s'.weak.registrations o l
    = s.weak.registrations o l + hit r location o l
  entries : ∀ o, s'.weak.HasEntry o → s.weak.HasEntry o ∨ o = r ∧ r ≠ 0
  objs : ∀ o, s'.obj o
    = if o = r ∧ r ≠ 0 then (s.obj o).setWeaklyReferenced_nolock else s.obj o

theorem Registered.nil (location : Location) : s.Registered s location 0 :=
  ⟨hw, rfl, fun o l ho => by rw [hit_of_ne ho, Nat.add_zero], fun _ h => .inl h,
    fun _ => by rw [if_neg fun h => h.2 rfl]⟩

theorem assignNew_spec (crash : Bool) (location : Location) (newObj : ObjPtr) :
    s.assignNew C true crash location newObj = .error (.cannotFormWeakReference newObj)
      ∨ ∃ s' r, s.assignNew C true crash location newObj = .ok (s', r)
          ∧ (r = newObj ∨ r = 0) ∧ s.Registered s' location r := by
  unfold assignNew weak_register_no_lock
  by_cases hnil : newObj = 0
  · simp only [hnil, if_true]
    exact .inr ⟨s, 0, rfl, .inl rfl, Registered.nil hw location⟩
  simp only [hnil, if_false]
  cases s.deallocatingForWeak C newObj with
  | none => exact .inr ⟨s, 0, rfl, .inr rfl, Registered.nil hw location⟩
  | some deallocating => ?_
  cases deallocating with
  | true =>
    cases crash with
    | true => exact .inl rfl
    | false => exact .inr ⟨s, 0, rfl, .inr rfl, Registered.nil hw location⟩
  | false => ?_
  obtain ⟨w, hrun, hwf, hregs, hhas⟩ := register_spec hw hnil location
  refine .inr ⟨{ s with weak := w }.setObj newObj (s.obj newObj).setWeaklyReferenced_nolock,
    newObj, ?_, .inl rfl, hwf, rfl, ?_, fun o hent => ?_, fun o => ?_⟩
  · simp only [hrun, hnil, if_false]
    rfl
  · intro o l _
    exact hregs o l
  · by_cases ho : o = newObj
    · exact .inr ⟨ho, hnil⟩
    · exact .inl ((hhas o ho).mp hent)
  rw [obj_setObj]
  by_cases ho : o = newObj
  · rw [if_pos ho, if_pos ⟨ho, hnil⟩, ho]
  · rw [if_neg ho, if_neg fun h => ho h.1]
    rfl

/-- The heap after the locked part of a store that answered `r`. -/
structure Stored (s s' : Heap L) (haveOld haveNew : Bool) (location : Location)
    (oldObj r : ObjPtr) : Prop where
  wf : s'.weak.WF
  mem : s'.mem = s.mem
  regs : ∀ o l, o ≠ 0 → s'.weak.registrations o l
    = s.weak.registrations o l - (if haveOld then hit oldObj location o l else 0)
        + if haveNew then hit r location o l else 0
  entries : ∀ o, s'.weak.HasEntry o → s.weak.HasEntry o ∨ haveNew = true ∧ o = r ∧ r ≠ 0
  objs : ∀ o, s'.obj o
    = if haveNew = true ∧ o = r ∧ r ≠ 0 then (s.obj o).setWeaklyReferenced_nolock else s.obj o

/-- **What the locked part of `storeWeak` does**: it takes the location off the old
value and registers it for the answer, which is the new value or nil, or halts
because the new value is deallocating. -/
theorem storeWeakLocked_spec (haveOld haveNew crash : Bool)
    (location : Location) (oldObj newObj : ObjPtr) :
    s.storeWeakLocked C haveOld haveNew crash location oldObj newObj
        = .error (.cannotFormWeakReference newObj)
      ∨ ∃ s' r, s.storeWeakLocked C haveOld haveNew crash location oldObj newObj = .ok (s', r)
          ∧ (r = newObj ∨ r = 0) ∧ s.Stored s' haveOld haveNew location oldObj r := by
  obtain ⟨w, hold, hwf, hregs, hhas⟩ := cleanUpOld_spec hw haveOld location oldObj
  unfold storeWeakLocked
  simp only [hold]
  cases haveNew with
  | false =>
    refine .inr ⟨{ s with weak := w }, newObj, rfl, .inl rfl, hwf, rfl, fun o l ho => ?_,
      fun o h => .inl (hhas o h), fun o => ?_⟩
    · exact hregs o l ho
    · rfl
  | true => ?_
  rcases assignNew_spec (C := C) (s := { s with weak := w }) hwf crash location newObj with
    herr | ⟨s', r, hrun, hr, hreg⟩
  · exact .inl herr
  refine .inr ⟨s', r, hrun, hr, hreg.wf, hreg.mem, fun o l ho => ?_, fun o hent => ?_, fun o => ?_⟩
  · rw [hreg.regs o l ho, hregs o l ho, if_pos rfl]
  · rcases hreg.entries o hent with h | h
    · exact .inl (hhas o h)
    · exact .inr ⟨rfl, h⟩
  rw [hreg.objs o]
  by_cases ho : o = r ∧ r ≠ 0
  · rw [if_pos ho, if_pos ⟨rfl, ho⟩]
    rfl
  · rw [if_neg ho, if_neg fun h => ho h.2]
    rfl

end Store

/-! ## What a load and a deallocation do -/

section Load

variable {C} {s : Heap L}

theorem rootTryRetain_ok {v : Obj L} (h : v.rootTryRetain.2 = true) :
    v.rootIsDeallocating = false := by
  obtain ⟨isa, r⟩ := v
  cases isa with
  | raw c =>
    cases r with
    | none => exact deallocatingOf_none
    | some w => ?_
    show deallocatingOf (some w) = false
    have hans : (sidetable_tryRetain L (some w)).2 = true := h
    by_contra hno
    simp only [Bool.not_eq_false] at hno
    simp [sidetable_tryRetain, hno] at hans
  | nonpointer b => ?_
  show b.deallocating = false
  by_contra hno
  simp only [Bool.not_eq_false] at hno
  simp [rootTryRetain, rootRetain, rootRetainWith, hno] at h

theorem loadWeakLocked_spec (o : ObjPtr) :
    (s.loadWeakLocked C o).1.weak = s.weak ∧ (s.loadWeakLocked C o).1.mem = s.mem
      ∧ (∀ o', (s.loadWeakLocked C o).1.obj o' = s.obj o'
          ∨ o' = o ∧ (s.loadWeakLocked C o).1.obj o' = (s.obj o).rootTryRetain.1)
      ∧ ((s.loadWeakLocked C o).2 = 0
          ∨ (s.loadWeakLocked C o).2 = o ∧ (s.obj o).rootIsDeallocating = false) := by
  have htry : ∀ s' r, (s', r) = (s.setObj o (s.obj o).rootTryRetain.1,
      if (s.obj o).rootTryRetain.2 then o else 0) →
      s'.weak = s.weak ∧ s'.mem = s.mem
        ∧ (∀ o', s'.obj o' = s.obj o' ∨ o' = o ∧ s'.obj o' = (s.obj o).rootTryRetain.1)
        ∧ (r = 0 ∨ r = o ∧ (s.obj o).rootIsDeallocating = false) := by
    intro s' r heq
    obtain ⟨rfl, rfl⟩ := Prod.mk.inj heq
    refine ⟨rfl, rfl, fun o' => ?_, ?_⟩
    · rw [obj_setObj]
      by_cases ho : o' = o
      · exact .inr ⟨ho, if_pos ho⟩
      · exact .inl (if_neg ho)
    · cases hok : (s.obj o).rootTryRetain.2 with
      | false => exact .inl rfl
      | true => exact .inr ⟨rfl, rootTryRetain_ok hok⟩
  have hrefuse : (s.weak = s.weak ∧ s.mem = s.mem
      ∧ (∀ o', s.obj o' = s.obj o' ∨ o' = o ∧ s.obj o' = (s.obj o).rootTryRetain.1)
      ∧ ((0 : ObjPtr) = 0 ∨ (0 : ObjPtr) = o ∧ (s.obj o).rootIsDeallocating = false)) :=
    ⟨rfl, rfl, fun _ => .inl rfl, .inl rfl⟩
  unfold loadWeakLocked
  simp only
  split
  · exact htry _ _ rfl
  split
  · exact hrefuse
  split
  · exact htry _ _ rfl
  · exact hrefuse

end Load

section Dealloc

variable {s : Heap L}

/-- The heap after `o`'s deallocation: no entry for `o`, the locations registered for
it nil, everything else as before. -/
structure Cleared (s s' : Heap L) (o : ObjPtr) : Prop where
  wf : s'.weak.WF
  gone : ¬ s'.weak.HasEntry o
  regs : ∀ o' l, s'.weak.registrations o' l = if o' = o then 0 else s.weak.registrations o' l
  entries : ∀ o', o' ≠ o → (s'.weak.HasEntry o' ↔ s.weak.HasEntry o')
  mem : ∀ l, s'.mem l = if 0 < s.weak.registrations o l ∧ s.mem l = o then 0 else s.mem l
  isa : s'.isa = s.isa
  initialized : s'.initialized = s.initialized

variable {o : ObjPtr}

theorem Cleared.obj_other {s' : Heap L} {o' : ObjPtr} (h : s.Cleared s' o)
    (hrc : s'.refcnts = update s.refcnts o none) (hne : o' ≠ o) :
    s'.obj o' = s.obj o' := by
  show Obj.mk (s'.isa o') (s'.refcnts o') = _
  rw [h.isa, hrc, update_of_ne hne]
  rfl

section

variable (hw : s.weak.WF)

include hw

theorem registrations_eq_zero (hno : ¬ s.weak.HasEntry o) (l : Location) :
    s.weak.registrations o l = 0 := by
  rw [hw.registrations_eq]
  exact regsIn_eq_zero fun e he heo => hno ((hw.hasEntry_iff o).mpr ⟨e, he, heo⟩)

theorem Cleared.of_no_entry (hno : ¬ s.weak.HasEntry o) : s.Cleared s o := by
  have hz := registrations_eq_zero hw hno
  refine ⟨hw, hno, fun o' l => ?_, fun _ _ => Iff.rfl, fun l => ?_, rfl, rfl⟩
  · by_cases ho : o' = o
    · rw [if_pos ho, ho, hz]
    · rw [if_neg ho]
  · rw [hz, if_neg fun h => Nat.lt_irrefl 0 h.1]

theorem weakClear_spec (ho : o ≠ 0) :
    ∃ s', s.weakClear o = .ok s' ∧ s.Cleared s' o ∧ s'.refcnts = s.refcnts := by
  obtain ⟨w, mem, hrun, hwf, hgone, hregs, hhas, hmem⟩ := clear_spec hw ho s.mem
  exact ⟨{ s with weak := w, mem := mem }, by simp only [weakClear, hrun],
    ⟨hwf, hgone, hregs, hhas, hmem, rfl, rfl⟩, rfl⟩

theorem clearAndErase_spec (ho : o ≠ 0) {weak : Bool} (counted : Bool)
    (hmark : s.weak.HasEntry o → weak = true) :
    ∃ s', s.clearAndErase o weak counted = .ok s' ∧ s.Cleared s' o
      ∧ s'.refcnts = if counted then update s.refcnts o none else s.refcnts := by
  obtain ⟨s1, hrun, hcl, hrc⟩ : ∃ s1, (if weak then s.weakClear o else .ok s) = .ok s1
      ∧ s.Cleared s1 o ∧ s1.refcnts = s.refcnts := by
    cases weak with
    | true => exact weakClear_spec hw ho
    | false => exact ⟨s, rfl, .of_no_entry hw fun h => Bool.noConfusion (hmark h), rfl⟩
  unfold clearAndErase
  simp only [hrun]
  cases counted with
  | false => exact ⟨s1, rfl, hcl, by simpa using hrc⟩
  | true => ?_
  refine ⟨s1.eraseRefcnt o, rfl, { hcl with }, ?_⟩
  show update s1.refcnts o none = _
  rw [hrc, if_pos rfl]

theorem clearDeallocating_spec (ho : o ≠ 0) (hflag : (s.obj o).Flagged)
    (hmark : s.weak.HasEntry o → (s.obj o).isWeaklyReferenced = true) :
    ∃ s', s.clearDeallocating o = .ok s' ∧ s.Cleared s' o
      ∧ s'.refcnts = update s.refcnts o none := by
  have hsame : s.refcnts o = none → s.refcnts = update s.refcnts o none := fun h => by
    rw [← h, update_eq_self]
  unfold clearDeallocating
  cases hisa : s.isa o with
  | raw c =>
    have hmark' : s.weak.HasEntry o → weakOf (s.refcnts o) = true := by
      intro hent
      simpa [isWeaklyReferenced, obj, hisa] using hmark hent
    unfold sidetable_clearDeallocating
    cases hr : s.refcnts o with
    | none =>
      rw [hr] at hmark'
      refine ⟨s, rfl, .of_no_entry hw fun hent => ?_, hsame hr⟩
      exact absurd (hmark' hent) (by simp)
    | some w => ?_
    rw [hr] at hmark'
    obtain ⟨s', hrun, hcl, hrc⟩ :=
      clearAndErase_spec hw ho true hmark'
    exact ⟨s', hrun, hcl, by simpa using hrc⟩
  | nonpointer b => ?_
  have hmark' : s.weak.HasEntry o → b.weakly_referenced = true := by
    intro hent
    simpa [isWeaklyReferenced, obj, hisa] using hmark hent
  have hnone : b.has_sidetable_rc = false → s.refcnts o = none := by
    simpa [Flagged, obj, hisa] using hflag
  simp only
  split
  next =>
    obtain ⟨s', hrun, hcl, hrc⟩ :=
      clearAndErase_spec hw ho b.has_sidetable_rc hmark'
    refine ⟨s', hrun, hcl, ?_⟩
    rw [hrc]
    cases hs : b.has_sidetable_rc with
    | true => rw [if_pos rfl]
    | false => simpa using hsame (hnone hs)
  next hno =>
    simp only [Bool.or_eq_true, not_or, Bool.not_eq_true] at hno
    refine ⟨s, rfl, .of_no_entry hw fun hent => ?_, hsame (hnone hno.2)⟩
    exact absurd ((hmark' hent).symm.trans hno.1) (by decide)

end

end Dealloc

end Heap

end ObjcRuntime
