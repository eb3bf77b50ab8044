/-
RETURNING AUTORELEASED VALUES WITHOUT THE POOL.

A callee that recognises an optimized caller skips the autorelease and leaves
in thread-local storage whether the value is at +0 or at +1.
-/
import Mathlib.Algebra.BigOperators.Group.List.Basic
import ObjcRuntime.Weak.Entry

namespace ObjcRuntime

inductive ReturnDisposition where
  | ReturnAtPlus0
  | ReturnAtPlus1
  deriving DecidableEq

inductive OwnershipCall where
  | objc_retain
  | objc_release
  | objc_autorelease
  deriving DecidableEq

/-- A thread: its `RETURN_DISPOSITION_KEY`, and the calls it has made, the last one first. -/
structure ReturnState where
  disposition : ReturnDisposition
  calls : List (OwnershipCall × ObjPtr)

/-- One return: how the callee has the value, how the caller wants it if it says so, and whether
the callee recognises that in the caller's instructions. -/
structure ReturnCall where
  obj : ObjPtr
  callee : ReturnDisposition
  caller : Option (ReturnDisposition × Bool)

namespace ReturnState

variable (s : ReturnState) (obj : ObjPtr) (callerAccepts : Bool)

def call (c : OwnershipCall) : ReturnState := { s with calls := (c, obj) :: s.calls }

def prepareOptimizedReturn (disposition : ReturnDisposition) : Option (Bool × ReturnState) :=
  if s.disposition ≠ .ReturnAtPlus0 then none
  else if callerAccepts then
    some (true, if disposition = .ReturnAtPlus1 then { s with disposition } else s)
  else some (false, s)

def acceptOptimizedReturn : ReturnDisposition × ReturnState :=
  (s.disposition, { s with disposition := .ReturnAtPlus0 })

def objc_autoreleaseReturnValue : Option ReturnState :=
  (s.prepareOptimizedReturn callerAccepts .ReturnAtPlus1).map fun (done, s) =>
    if done then s else s.call obj .objc_autorelease

def objc_retainAutoreleaseReturnValue : Option ReturnState :=
  (s.prepareOptimizedReturn callerAccepts .ReturnAtPlus0).map fun (done, s) =>
    if done then s else (s.call obj .objc_retain).call obj .objc_autorelease

def objc_retainAutoreleasedReturnValue : ReturnState :=
  let (disposition, s) := s.acceptOptimizedReturn
  if disposition = .ReturnAtPlus1 then s else s.call obj .objc_retain

def objc_unsafeClaimAutoreleasedReturnValue : ReturnState :=
  let (disposition, s) := s.acceptOptimizedReturn
  if disposition = .ReturnAtPlus0 then s else s.call obj .objc_release

def step (SUPPORT_RETURN_AUTORELEASE : Bool) (s : ReturnState) (r : ReturnCall) :
    Option ReturnState :=
  let callerAccepts := SUPPORT_RETURN_AUTORELEASE && r.caller.any Prod.snd
  let returned := match r.callee with
    | .ReturnAtPlus1 => s.objc_autoreleaseReturnValue r.obj callerAccepts
    | .ReturnAtPlus0 => s.objc_retainAutoreleaseReturnValue r.obj callerAccepts
  returned.map fun s =>
    match r.caller with
    | none => s
    | some (.ReturnAtPlus1, _) => s.objc_retainAutoreleasedReturnValue r.obj
    | some (.ReturnAtPlus0, _) => s.objc_unsafeClaimAutoreleasedReturnValue r.obj

def balance (o : ObjPtr) : Int :=
  ((s.calls.filter (·.2 = o)).map fun c => if c.1 = .objc_retain then 1 else -1).sum

def autoreleased : List ObjPtr := (s.calls.filter (·.1 = .objc_autorelease)).map Prod.snd

structure Agrees (plain : ReturnState) : Prop where
  atPlus0 : s.disposition = .ReturnAtPlus0 ∧ plain.disposition = .ReturnAtPlus0
  balance : s.balance = plain.balance
  pool : s.autoreleased.Sublist plain.autoreleased

variable {s}

theorem step_spec (support : Bool) (hs : s.disposition = .ReturnAtPlus0) (r : ReturnCall) :
    ∃ s', s.step support r = some s' ∧ s'.disposition = .ReturnAtPlus0 ∧
      (∀ o, s'.balance o = s.balance o + if r.obj = o then
        (if r.caller.map Prod.fst = some .ReturnAtPlus1 then 1 else 0)
          - (if r.callee = .ReturnAtPlus1 then 1 else 0) else 0) ∧
      s'.autoreleased = if support && r.caller.any Prod.snd then s.autoreleased
        else r.obj :: s.autoreleased := by
  obtain ⟨_, calls⟩ := s
  cases hs
  obtain ⟨obj, callee, caller⟩ := r
  rcases callee with _ | _ <;> rcases caller with _ | ⟨_ | _, _ | _⟩ <;> cases support <;>
    refine ⟨_, rfl, rfl, fun o => ?_, rfl⟩ <;> by_cases ho : obj = o <;>
    simp [ReturnState.balance, call, objc_retainAutoreleasedReturnValue,
      objc_unsafeClaimAutoreleasedReturnValue, acceptOptimizedReturn, ho, add_comm]

theorem Agrees.run (returns : List ReturnCall) : ∀ {s plain : ReturnState}, s.Agrees plain →
    ∃ s' plain', returns.foldlM (step true) s = some s' ∧
      returns.foldlM (step false) plain = some plain' ∧ s'.Agrees plain' := by
  induction returns with
  | nil => exact fun {s plain} h => ⟨s, plain, rfl, rfl, h⟩
  | cons r returns ih => ?_
  intro s plain h
  obtain ⟨s', hstep, hs', hbalance, hpool⟩ := step_spec true h.atPlus0.1 r
  obtain ⟨plain', hplain, hplain', hbalance', hpool'⟩ := step_spec false h.atPlus0.2 r
  rw [List.foldlM_cons, List.foldlM_cons, hstep, hplain]
  refine ih ⟨⟨hs', hplain'⟩, funext fun o => ?_, ?_⟩
  · rw [hbalance, hbalance', h.balance]
  rw [hpool, hpool']
  cases r.caller.any Prod.snd with
  | true => exact h.pool.cons _
  | false => exact h.pool.cons_cons _

end ReturnState

/-- **The optimization is not seen**: however values are returned and received, the assertion
holds, and every object ends with what it gets without the optimization. -/
theorem optimized_returns_agree (returns : List ReturnCall) :
    ∃ s plain, returns.foldlM (ReturnState.step true) ⟨.ReturnAtPlus0, []⟩ = some s ∧
      returns.foldlM (ReturnState.step false) ⟨.ReturnAtPlus0, []⟩ = some plain ∧
      s.Agrees plain :=
  ReturnState.Agrees.run returns ⟨⟨rfl, rfl⟩, rfl, List.Sublist.refl _⟩

end ObjcRuntime
