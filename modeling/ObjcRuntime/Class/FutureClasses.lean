/-
FUTURE CLASSES.

objc-runtime-new.mm, `_objc_allocateFutureClass`, `readClass`.
A class struct can be reserved for a name before a class of that name is
loaded; the class is then copied over the reserved struct, and its own
address is remapped to it.

The tables of the shared cache are empty.
-/
import ObjcRuntime.Lib.Transition

namespace ObjcRuntime

open Lib Function Option

/-! ## The tables -/

/-- What `readClass` looks at in the compiled classes. -/
structure CompiledClasses (C N : Type) where
  mangledName : C → N
  isAnySwift : C → Bool
  missingWeakSuperclass : C → Bool
  /-- nil when the name is not of that kind. -/
  copySwiftV1MangledName : N → Option N

/-- A compiled class, or the `n`-th struct that was reserved. -/
inductive ClassPtr (C : Type) where
  | compiled (cls : C)
  | reserved (n : Nat)
  deriving DecidableEq

/-- `contents n` is the class that was copied over a reserved struct. -/
structure FutureState (C N : Type) where
  futureNamedClasses : N → Option Nat
  remappedClasses : C → Option (Option (ClassPtr C))
  gdb_objc_realized_classes : N → Option (ClassPtr C)
  nonMetaClasses : List (ClassPtr C)
  contents : Nat → Option C
  allocated : Nat

inductive ReadFatal (C : Type) where
  /-- "Can't complete future class request for '%s' because the real class is too big." -/
  | tooBig (cls : C)
  /-- The assertion of `addRemappedClass`. -/
  | remappedBefore
  deriving DecidableEq

variable {C N : Type}

namespace FutureState

def empty : FutureState C N :=
  ⟨fun _ => none, fun _ => none, fun _ => none, [], fun _ => none, 0⟩

def getClass (K : CompiledClasses C N) (s : FutureState C N) (name : N) : Option (ClassPtr C) :=
  (s.gdb_objc_realized_classes name).or
    ((K.copySwiftV1MangledName name).bind s.gdb_objc_realized_classes)

/-- `isAnySwift()` of a reserved struct. -/
def isAnySwift (K : CompiledClasses C N) (s : FutureState C N) (n : Nat) : Bool :=
  (s.contents n).elim false K.isAnySwift

variable [DecidableEq C] [DecidableEq N]

def _objc_allocateFutureClass (s : FutureState C N) (name : N) : Nat × FutureState C N :=
  match s.futureNamedClasses name with
  | some n => (n, s)
  | none =>
    (s.allocated,
      { s with
        futureNamedClasses := update s.futureNamedClasses name (some s.allocated)
        contents := update s.contents s.allocated none
        allocated := s.allocated + 1 })

def popFutureNamedClass (s : FutureState C N) (name : N) : Option Nat × FutureState C N :=
  (s.futureNamedClasses name,
    { s with futureNamedClasses := update s.futureNamedClasses name none })

def addRemappedClass (s : FutureState C N) (oldcls : C) (newcls : Option (ClassPtr C)) :
    Except (ReadFatal C) (FutureState C N) :=
  if (s.remappedClasses oldcls).join = none then
    .ok { s with remappedClasses := update s.remappedClasses oldcls (some newcls) }
  else .error .remappedBefore

/-- A name in use is kept, unless `replacing` has it. -/
def addNamedClass (K : CompiledClasses C N) (s : FutureState C N) (cls : ClassPtr C) (name : N)
    (replacing : Option (ClassPtr C)) : FutureState C N :=
  let duplicate := s.getClass K name ≠ none ∧ s.getClass K name ≠ replacing
  { s with
    nonMetaClasses := if duplicate then cls :: s.nonMetaClasses else s.nonMetaClasses
    gdb_objc_realized_classes :=
      if duplicate then s.gdb_objc_realized_classes
      else update s.gdb_objc_realized_classes name (some cls) }

def readClass (K : CompiledClasses C N) (s : FutureState C N) (cls : C) :
    Except (ReadFatal C) (Option (ClassPtr C) × FutureState C N) :=
  if K.missingWeakSuperclass cls then
    (s.addRemappedClass cls none).map fun s' => (none, s')
  else
    match s.popFutureNamedClass (K.mangledName cls) with
    | (some n, s₁) =>
      -- newCls->isAnySwift(), not cls->isAnySwift()
      if s₁.isAnySwift K n then .error (.tooBig cls)
      else
        (FutureState.addRemappedClass { s₁ with contents := update s₁.contents n (some cls) } cls
          (some (.reserved n))).map fun s₂ =>
            (some (.reserved n), s₂.addNamedClass K (.reserved n) (K.mangledName cls)
              (some (.compiled cls)))
    | (none, s₁) =>
      .ok (some (.compiled cls), s₁.addNamedClass K (.compiled cls) (K.mangledName cls) none)

end FutureState

open FutureState

/-! ## Runs -/

inductive FutureCall (C N : Type) where
  | request (name : N)
  | read (cls : C)

variable [DecidableEq C] [DecidableEq N]

def FutureState.perform (K : CompiledClasses C N) (s : FutureState C N) :
    FutureCall C N → Option (FutureState C N)
  | .request name => some (s._objc_allocateFutureClass name).2
  | .read cls =>
    match s.readClass K cls with
    | .ok (_, s') => some s'
    | .error _ => none

def futureSystem (K : CompiledClasses C N) : System (FutureState C N) (FutureCall C N) where
  init := fun s => s = .empty
  step := FutureState.perform K

variable {K : CompiledClasses C N} {s s' : FutureState C N} {cls : C}

structure Reserved (s : FutureState C N) : Prop where
  zero : ∀ name n, s.futureNamedClasses name = some n → n < s.allocated ∧ s.contents n = none
  inj : ∀ name name' n, s.futureNamedClasses name = some n →
    s.futureNamedClasses name' = some n → name = name'

omit [DecidableEq C] in
theorem Reserved.request (h : Reserved s) (name : N) :
    Reserved (s._objc_allocateFutureClass name).2 := by
  rw [_objc_allocateFutureClass]
  cases hname : s.futureNamedClasses name with
  | some n => exact h
  | none => ?_
  -- `_calloc_class` gives a struct that no name has yet
  have hnew : ∀ name' n, update s.futureNamedClasses name (some s.allocated) name' = some n →
      name' = name ∧ n = s.allocated ∨ s.futureNamedClasses name' = some n := by
    intro name' n hn
    by_cases heq : name' = name
    · rw [heq, update_self] at hn
      exact .inl ⟨heq, (some.inj hn).symm⟩
    · rw [update_of_ne heq] at hn
      exact .inr hn
  refine ⟨fun name' n hn => ?_, fun name1 name2 n h1 h2 => ?_⟩
  · show n < s.allocated + 1 ∧ update s.contents s.allocated none n = none
    rcases hnew name' n hn with ⟨-, rfl⟩ | hn
    · exact ⟨Nat.lt_succ_self _, update_self ..⟩
    have hz := h.zero name' n hn
    rw [update_of_ne (Nat.ne_of_lt hz.1)]
    exact ⟨Nat.lt_succ_of_lt hz.1, hz.2⟩
  rcases hnew name1 n h1 with ⟨rfl, rfl⟩ | h1
  · rcases hnew name2 _ h2 with ⟨rfl, -⟩ | h2
    · rfl
    · exact absurd (h.zero name2 _ h2).1 (Nat.lt_irrefl _)
  rcases hnew name2 n h2 with ⟨-, rfl⟩ | h2
  · exact absurd (h.zero name1 _ h1).1 (Nat.lt_irrefl _)
  · exact h.inj name1 name2 n h1 h2

omit [DecidableEq C] in
theorem Reserved.pop (h : Reserved s) (name : N)
    (hfuture : s'.futureNamedClasses = update s.futureNamedClasses name none)
    (halloc : s'.allocated = s.allocated)
    (hcontents : ∀ n, s'.contents n = s.contents n ∨ s.futureNamedClasses name = some n) :
    Reserved s' := by
  have hold : ∀ name' n, s'.futureNamedClasses name' = some n →
      name' ≠ name ∧ s.futureNamedClasses name' = some n := by
    intro name' n hn
    rw [hfuture] at hn
    by_cases heq : name' = name
    · rw [heq, update_self] at hn
      cases hn
    · exact ⟨heq, (update_of_ne heq ..).symm.trans hn⟩
  refine ⟨fun name' n hn => ?_, fun name1 name2 n h1 h2 => ?_⟩
  · obtain ⟨hne, hn⟩ := hold name' n hn
    rcases hcontents n with heq | hthis
    · rw [heq, halloc]
      exact h.zero name' n hn
    · exact absurd (h.inj name' name n hn hthis) hne
  · exact h.inj name1 name2 n (hold name1 n h1).2 (hold name2 n h2).2

theorem Reserved.read (h : Reserved s) {result : Option (ClassPtr C)}
    (hread : s.readClass K cls = .ok (result, s')) : Reserved s' := by
  rw [readClass, popFutureNamedClass] at hread
  split at hread
  next =>
    rw [addRemappedClass] at hread
    split at hread
    next => cases hread; exact ⟨h.zero, h.inj⟩
    next => cases hread
  cases hfuture : s.futureNamedClasses (K.mangledName cls) with
  | none =>
    rw [hfuture] at hread
    cases hread
    exact h.pop (K.mangledName cls) rfl rfl fun _ => .inl rfl
  | some n => ?_
  rw [hfuture] at hread
  simp only [addRemappedClass] at hread
  split at hread
  next => cases hread
  split at hread
  next =>
    -- the struct that is written is no longer reserved
    cases hread
    refine h.pop (K.mangledName cls) rfl rfl fun m => ?_
    by_cases hm : m = n
    · exact .inr (hm ▸ hfuture)
    · exact .inl (update_of_ne hm ..)
  next => cases hread

theorem futureSystem_reserved (h : (futureSystem K).Reachable (fun _ => True) s) : Reserved s := by
  refine h.invariant (fun s hs _ => ?_) fun s call s' hres _ hstep _ => ?_
  · rw [show s = .empty from hs]
    exact ⟨fun _ _ hn => (by cases hn), fun _ _ _ hn => (by cases hn)⟩
  cases call with
  | request name =>
    cases hstep
    exact hres.request name
  | read cls => ?_
  change s.perform K (.read cls) = some s' at hstep
  rw [perform] at hstep
  cases hread : s.readClass K cls with
  | error fatal =>
    rw [hread] at hstep
    cases hstep
  | ok r =>
    rw [hread] at hstep
    cases hstep
    exact hres.read hread

/-! ## Swift classes -/

/-- **A Swift class is never refused**: the check asks the reserved struct, which is zero.  So it is
refused whenever a reservation is found exactly if the check is not reached. -/
theorem swift_class_is_refused_iff (K : CompiledClasses C N) (s : FutureState C N)
    (hs : (futureSystem K).Reachable (fun _ => True) s) (cls : C) :
    s.readClass K cls ≠ .error (.tooBig cls) ∧
      ((K.missingWeakSuperclass cls = false → s.futureNamedClasses (K.mangledName cls) ≠ none →
          s.readClass K cls = .error (.tooBig cls)) ↔
        (K.missingWeakSuperclass cls = true ∨ s.futureNamedClasses (K.mangledName cls) = none)) := by
  have hnever : s.readClass K cls ≠ .error (.tooBig cls) := by
    intro hrefused
    unfold readClass popFutureNamedClass at hrefused
    split at hrefused
    next =>
      unfold addRemappedClass at hrefused
      split at hrefused <;> cases hrefused
    cases hn : s.futureNamedClasses (K.mangledName cls) with
    | none =>
      simp only [hn] at hrefused
      cases hrefused
    | some n => ?_
    have hzero : (s.contents n).elim false K.isAnySwift = false := by
      rw [((futureSystem_reserved hs).zero _ n hn).2]
      rfl
    simp only [hn, isAnySwift, hzero, addRemappedClass, Bool.false_eq_true, if_false] at hrefused
    split at hrefused <;> cases hrefused
  refine ⟨hnever, fun h => ?_, ?_⟩
  · by_contra hno
    rw [not_or, Bool.not_eq_true] at hno
    exact hnever (h hno.1 hno.2)
  · rintro (h | h) h1 h2
    · rw [h] at h1
      cases h1
    · exact absurd h h2

def swiftClass : CompiledClasses Unit Unit :=
  ⟨fun _ => (), fun _ => true, fun _ => false, fun _ => none⟩

theorem swift_class_with_request_is_read : ∃ s, (futureSystem swiftClass).Reachable (fun _ => True) s ∧
    swiftClass.isAnySwift () = true ∧ s.futureNamedClasses () = some 0 ∧
      s.readClass swiftClass () ≠ .error (.tooBig ()) :=
  have hreach := .step (a := .request ()) (.init rfl trivial) rfl trivial
  ⟨(empty._objc_allocateFutureClass ()).2, hreach, rfl, rfl,
    (swift_class_is_refused_iff swiftClass _ hreach ()).1⟩

/-- A Swift class is copied over the struct that was reserved for its name. -/
theorem swift_class_is_copied :
    ∃ s, (futureSystem swiftClass).Reachable (fun _ => True) s ∧
      s.futureNamedClasses () = some 0 ∧
      ∃ s', s.readClass swiftClass () = .ok (some (.reserved 0), s') ∧ s'.contents 0 = some () :=
  ⟨(empty._objc_allocateFutureClass ()).2,
    .step (a := .request ()) (.init rfl trivial) rfl trivial, rfl, _, rfl, rfl⟩

end ObjcRuntime
