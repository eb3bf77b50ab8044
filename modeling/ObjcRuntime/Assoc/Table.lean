/-
ASSOCIATED OBJECTS.

objc-references.mm: the associations map, keyed by object, of association
maps, keyed by the user's key. `_object_set_associative_reference` and
`_object_remove_assocations`, first on the map alone and then with the retains
and releases of the values.

A value is released after the map's lock is given back, and the release can run
any code; here the release is the count change only, and what the code does is
left to the user of this module.
-/
import Mathlib.Data.List.AList
import ObjcRuntime.Weak.Heap

namespace ObjcRuntime

open Function

variable {L : Layout} {V : Type}

/-! ## The two maps -/

/-- The `void *key` of an association. -/
abbrev AssocKey := Nat

structure ObjcAssociation (V : Type) where
  policy : Nat
  value : V
  deriving DecidableEq

abbrev ObjectAssociationMap (V : Type) := AList fun _ : AssocKey => ObjcAssociation V

abbrev AssociationsHashMap (V : Type) := ObjPtr → Option (ObjectAssociationMap V)

/-- The associations in the order of the `std::map`, by key. -/
def ObjectAssociationMap.elements (refs : ObjectAssociationMap V) : List (ObjcAssociation V) :=
  (refs.entries.mergeSort fun a b => decide (a.1 ≤ b.1)).map Sigma.snd

/-- The part of `_object_set_associative_reference` under the lock. `old` is the association
that was broken, `first` says that the object had no table before. -/
structure SetResult (V : Type) where
  associations : AssociationsHashMap V
  old : Option (ObjcAssociation V)
  first : Bool

/-- `_object_set_associative_reference`; `none` for a nil value. -/
def set_associative_reference (associations : AssociationsHashMap V) (object : ObjPtr)
    (key : AssocKey) (new_value : Option V) (policy : Nat) : SetResult V :=
  match new_value, associations object with
  | some v, some refs =>
    ⟨update associations object (some (refs.insert key ⟨policy, v⟩)),
      refs.lookup key, false⟩
  | some v, none =>
    ⟨update associations object (some (AList.singleton key ⟨policy, v⟩)), none, true⟩
  | none, some refs =>
    match refs.lookup key with
    | some old => ⟨update associations object (some (refs.erase key)), some old, false⟩
    | none => ⟨associations, none, false⟩
  | none, none => ⟨associations, none, false⟩

/-- `_object_remove_assocations`: the map without the object's table, and the
associations that were in it. -/
def remove_assocations (associations : AssociationsHashMap V) (object : ObjPtr) :
    AssociationsHashMap V × List (ObjcAssociation V) :=
  match associations object with
  | none => (associations, [])
  | some refs => (update associations object none, refs.elements)

section Specs

variable {associations : AssociationsHashMap V} {object : ObjPtr}

theorem set_associations_other (key : AssocKey) (new_value : Option V) (policy : Nat) {o : ObjPtr}
    (ho : o ≠ object) :
    (set_associative_reference associations object key new_value policy).associations o
      = associations o := by
  unfold set_associative_reference
  split
  · exact update_of_ne ho _ _
  · exact update_of_ne ho _ _
  · split
    · exact update_of_ne ho _ _
    · rfl
  · rfl

theorem set_associations_self (key : AssocKey) (new_value : Option V) (policy : Nat) :
    (set_associative_reference associations object key new_value policy).associations object = none
      ↔ associations object = none ∧ new_value = none := by
  unfold set_associative_reference
  split
  next hold => simp [hold]
  next hold => simp
  next refs hold =>
    split <;> simp [hold]
  next hold => simp [hold]

theorem set_first_iff (key : AssocKey) (new_value : Option V) (policy : Nat) :
    (set_associative_reference associations object key new_value policy).first = true
      ↔ associations object = none ∧ new_value ≠ none := by
  unfold set_associative_reference
  split
  next hold => simp [hold]
  next hold => simp [hold]
  next hold =>
    split <;> simp [hold]
  next hold => simp

theorem remove_assocations_self : (remove_assocations associations object).1 object = none := by
  unfold remove_assocations
  split
  next hold => exact hold
  next => exact update_self ..

theorem remove_assocations_other {o : ObjPtr} (ho : o ≠ object) :
    (remove_assocations associations object).1 o = associations o := by
  unfold remove_assocations
  split
  · rfl
  · exact update_of_ne ho _ _

end Specs

/-! ## With the values' retain counts -/

structure Runtime (L : Layout) where
  heap : Heap L
  associations : AssociationsHashMap ObjPtr

/-- A call of `objc_setAssociatedObject`. `copied` is what `-copy` of the value answers. -/
structure SetCall where
  object : ObjPtr
  key : AssocKey
  value : ObjPtr
  policy : Nat
  copied : ObjPtr
  deriving DecidableEq

/-- `acquireValue`: the new value, with `objc_retain` or `-copy` as the policy says. -/
def acquireValue (h : Heap L) (value : ObjPtr) (policy : Nat) (copied : ObjPtr) :
    Heap L × ObjPtr :=
  if policy % 256 = 1 then (h.setObj value ((h.obj value).rootRetain false).1, value)
  else if policy % 256 = 3 then (h, copied)
  else (h, value)

/-- The policy bit that `releaseValue` tests: both RETAIN and COPY have it. -/
def ObjcAssociation.retained (a : ObjcAssociation V) : Bool := a.policy % 2 = 1

def releaseValue (h : Heap L) (a : ObjcAssociation ObjPtr) : Heap L :=
  if a.retained then h.setObj a.value (h.obj a.value).rootRelease.1 else h

def SetCall.new_value (c : SetCall) : ObjPtr :=
  if c.value = 0 then 0 else if c.policy % 256 = 3 then c.copied else c.value

def SetCall.associates (c : SetCall) (o : ObjPtr) : Prop := c.object = o ∧ c.new_value ≠ 0

instance (c : SetCall) (o : ObjPtr) : Decidable (c.associates o) :=
  inferInstanceAs (Decidable (_ ∧ _))

namespace Runtime

/-- The heap and the value after `value ? acquireValue(value, policy) : nil`. -/
def acquired (s : Runtime L) (c : SetCall) : Heap L × ObjPtr :=
  if c.value = 0 then (s.heap, 0) else acquireValue s.heap c.value c.policy c.copied

theorem acquired_value (s : Runtime L) (c : SetCall) : (s.acquired c).2 = c.new_value := by
  unfold acquired SetCall.new_value acquireValue
  split
  · rfl
  split
  next h1 => rw [if_neg (by omega)]
  next => split <;> rfl

def assigned (s : Runtime L) (c : SetCall) : SetResult ObjPtr :=
  let new_value := (s.acquired c).2
  set_associative_reference s.associations c.object c.key
    (if new_value = 0 then none else some new_value) c.policy

def marked (s : Runtime L) (c : SetCall) : Heap L :=
  let h := (s.acquired c).1
  if (s.assigned c).first then h.setObj c.object (h.obj c.object).setHasAssociatedObjects else h

/-- `objc_setAssociatedObject`: acquire the new value, update the map, mark the object
if it is its first association, release the old value. -/
def setAssociatedObject (s : Runtime L) (c : SetCall) : Runtime L where
  heap :=
    match (s.assigned c).old with
    | some old => releaseValue (s.marked c) old
    | none => s.marked c
  associations := (s.assigned c).associations

theorem setAssociatedObject_associations (s : Runtime L) (c : SetCall) (o : ObjPtr) :
    (s.setAssociatedObject c).associations o = none
      ↔ s.associations o = none ∧ ¬ c.associates o := by
  show (s.assigned c).associations o = none ↔ _
  unfold assigned SetCall.associates
  simp only [acquired_value]
  by_cases ho : o = c.object
  · subst ho
    rw [set_associations_self]
    by_cases hnil : c.new_value = 0 <;> simp [hnil]
  · rw [set_associations_other _ _ _ ho]
    simp [Ne.symm ho]

end Runtime

end ObjcRuntime
