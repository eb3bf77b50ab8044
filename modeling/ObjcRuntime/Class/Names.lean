/-
FROM A METACLASS BACK TO ITS CLASS.

objc-runtime-new.mm, `addNamedClass`, `removeNamedClass`, `getNonMetaClass`.
A metaclass has no pointer to its class: the class is looked up by name. Of
the classes of one name only the first is in the table of named classes; the
others are in a second table, from metaclass to class. Nothing moves between
the tables when the first one goes.

The tables of the shared cache are empty.
-/
import ObjcRuntime.Class.State
import ObjcRuntime.Lib.Transition

namespace ObjcRuntime

open Lib Function Option

/-! ## The two tables -/

structure ClassNames {C : Type} (K : ClassImage C) (N : Type) where
  mangledName : C → N
  mangledName_isa : ∀ c, K.isMeta c = false → mangledName (K.isa c) = mangledName c
  /-- `copySwiftV1MangledName`; nil when the name is not of that kind. -/
  copySwiftV1MangledName : N → Option N

/-- `registered` is not kept by the runtime: the classes that were added and not removed since. -/
structure NamedClasses (C N : Type) where
  gdb_objc_realized_classes : N → Option C
  nonMetaClasses : C → Option C
  registered : C → Bool

/-- What `getNonMetaClass` ends with. -/
inductive NonMetaResult (C : Type) where
  | found (cls : C)
  /-- The isa of a nil class is read. -/
  | nilClass
  /-- "no class for metaclass" -/
  | fatal
  deriving DecidableEq

variable {C N : Type} {K : ClassImage C}

namespace NamedClasses

def empty : NamedClasses C N := ⟨fun _ => none, fun _ => none, fun _ => false⟩

def getClass_impl (s : NamedClasses C N) (name : N) : Option C := s.gdb_objc_realized_classes name

def getClass (names : ClassNames K N) (s : NamedClasses C N) (name : N) : Option C :=
  (s.getClass_impl name).or ((names.copySwiftV1MangledName name).bind s.getClass_impl)

variable [DecidableEq C] [DecidableEq N]

def addNonMetaClass (K : ClassImage C) (s : NamedClasses C N) (cls : C) : NamedClasses C N :=
  { s with nonMetaClasses := update s.nonMetaClasses (K.isa cls) (some cls) }

def removeNonMetaClass (K : ClassImage C) (s : NamedClasses C N) (cls : C) : NamedClasses C N :=
  { s with nonMetaClasses := update s.nonMetaClasses (K.isa cls) none }

def addNamedClass (names : ClassNames K N) (s : NamedClasses C N) (cls : C) (name : N)
    (replacing : Option C) : NamedClasses C N :=
  if s.getClass names name ≠ none ∧ s.getClass names name ≠ replacing then s.addNonMetaClass K cls
  else
    { s with gdb_objc_realized_classes :=
        update s.gdb_objc_realized_classes name (some cls) }

def removeNamedClass (K : ClassImage C) (s : NamedClasses C N) (cls : C) (name : N) :
    NamedClasses C N :=
  if s.gdb_objc_realized_classes name = some cls then
    { s with gdb_objc_realized_classes := update s.gdb_objc_realized_classes name none }
  else s.removeNonMetaClass K cls

/-- The loop of `getNonMetaClass` over an instance and its superclasses. -/
def classOfInst (K : ClassImage C) (metacls : C) : Nat → Option C → Option C
  | 0, _ => none
  | _ + 1, none => none
  | fuel + 1, some cls =>
    if K.isa cls = metacls then some cls else classOfInst K metacls fuel (K.superclass cls)

def getNonMetaClassByName (names : ClassNames K N) (s : NamedClasses C N) (metacls : C) :
    NonMetaResult C :=
  match s.getClass names (names.mangledName metacls) with
  | none => .nilClass
  | some cls =>
    if K.isa cls = metacls then .found cls
    else
      match s.nonMetaClasses metacls with
      | some cls => .found cls
      | none => .fatal

/-- `getNonMetaClass`; `fuel` bounds the superclasses of `inst`. -/
def getNonMetaClass (names : ClassNames K N) (s : NamedClasses C N) (fuel : Nat) (metacls : C)
    (inst : Option C) : NonMetaResult C :=
  if K.isMeta metacls = false then .found metacls
  else
    -- the root metaclass
    match (if K.isa metacls = metacls then K.superclass metacls else none).filter
        fun cls => decide (K.isa cls = metacls) with
    | some cls => .found cls
    | none =>
      match inst.bind fun cls => classOfInst K metacls fuel (some cls) with
      | some cls => .found cls
      | none => s.getNonMetaClassByName names metacls

end NamedClasses

/-! ## Runs -/

/-- What image loading, `objc_registerClassPair`, image unloading and `objc_disposeClassPair` do
with the tables. -/
inductive NamesAction (C : Type) where
  | add (cls : C) (replacing : Option C)
  | remove (cls : C)
  deriving DecidableEq

variable [DecidableEq C] [DecidableEq N]

namespace NamedClasses

/-- A class is added once, and what a future class replaces was never added. A class pair that is
still under construction may be disposed of, too. -/
def perform (names : ClassNames K N) (s : NamedClasses C N) :
    NamesAction C → Option (NamedClasses C N)
  | .add cls replacing =>
    if K.isMeta cls = false ∧ s.registered cls = false ∧
        replacing.all (fun old => !s.registered old) then
      some { s.addNamedClass names cls (names.mangledName cls) replacing with
        registered := update s.registered cls true }
    else none
  | .remove cls =>
    if K.isMeta cls = false then
      some { s.removeNamedClass K cls (names.mangledName cls) with
        registered := update s.registered cls false }
    else none

end NamedClasses

def namesSystem (names : ClassNames K N) : System (NamedClasses C N) (NamesAction C) where
  init := fun s => s = .empty
  step := NamedClasses.perform names

/-! ## Where a registered class is -/

/-- The tables hold classes under their own names and metaclasses; the registered classes are
those in one of the tables, and none is in both. -/
structure NamesInv (names : ClassNames K N) (s : NamedClasses C N) : Prop where
  named : ∀ name c, s.gdb_objc_realized_classes name = some c →
    K.isMeta c = false ∧ names.mangledName c = name
  secondary : ∀ m c, s.nonMetaClasses m = some c → K.isMeta c = false ∧ K.isa c = m
  covered : ∀ c, s.registered c = true ↔
    s.gdb_objc_realized_classes (names.mangledName c) = some c ∨ s.nonMetaClasses (K.isa c) = some c
  apart : ∀ c, s.gdb_objc_realized_classes (names.mangledName c) = some c →
    s.nonMetaClasses (K.isa c) ≠ some c

variable {names : ClassNames K N} {s s' : NamedClasses C N}

omit [DecidableEq C] [DecidableEq N] in
theorem NamesInv.empty : NamesInv names NamedClasses.empty where
  named := nofun
  secondary := nofun
  covered := fun _ => ⟨fun h => (by cases h), fun h => by rcases h with h | h <;> cases h⟩
  apart := nofun

omit [DecidableEq C] [DecidableEq N] in
theorem NamesInv.getClass (h : NamesInv names s) {name : N} {c : C}
    (hc : s.getClass names name = some c) : K.isMeta c = false ∧ s.registered c = true := by
  have himpl : ∃ name', s.gdb_objc_realized_classes name' = some c := by
    rcases or_eq_some_iff.mp hc with hc | ⟨_, hc⟩
    · exact ⟨name, hc⟩
    · obtain ⟨swName, _, hc⟩ := bind_eq_some_iff.mp hc
      exact ⟨swName, hc⟩
  obtain ⟨name', hc'⟩ := himpl
  obtain ⟨hmeta, rfl⟩ := h.named name' c hc'
  exact ⟨hmeta, (h.covered c).mpr (.inl hc')⟩

variable {cls : C}

section

variable (h : NamesInv names s)

include h

variable (hmeta : K.isMeta cls = false)
include hmeta

theorem NamesInv.insertNamed (hnew : s.registered cls = false)
    (hfree : s.gdb_objc_realized_classes (names.mangledName cls) = none) :
    NamesInv names ⟨update s.gdb_objc_realized_classes (names.mangledName cls) (some cls),
        s.nonMetaClasses, update s.registered cls true⟩ := by
  have hsecond : s.nonMetaClasses (K.isa cls) ≠ some cls := by
    intro hin
    rw [(h.covered cls).mpr (.inr hin)] at hnew
    cases hnew
  refine ⟨fun name c hc => ?_, h.secondary, fun c => ?_, fun c hc => ?_⟩
  · simp only [update_apply] at hc
    split at hc
    next heq => exact some.inj hc ▸ ⟨hmeta, heq.symm⟩
    next => exact h.named name c hc
  · have hc := h.covered c
    grind
  · have hc' := h.apart c
    grind

omit [DecidableEq N] in
theorem NamesInv.insertNonMeta (hnew : s.registered cls = false) :
    NamesInv names ⟨s.gdb_objc_realized_classes, update s.nonMetaClasses (K.isa cls) (some cls),
        update s.registered cls true⟩ := by
  have hfirst : s.gdb_objc_realized_classes (names.mangledName cls) ≠ some cls := by
    intro hin
    rw [(h.covered cls).mpr (.inl hin)] at hnew
    cases hnew
  -- no other class has this metaclass
  have hother : ∀ c, s.nonMetaClasses (K.isa c) = some c → K.isa c = K.isa cls → c = cls :=
    fun c hc hisa => K.isa_inj c cls (h.secondary _ c hc).1 hmeta hisa
  refine ⟨h.named, fun m c hc => ?_, fun c => ?_, fun c hc => ?_⟩
  · simp only [update_apply] at hc
    split at hc
    next heq => exact some.inj hc ▸ ⟨hmeta, heq.symm⟩
    next => exact h.secondary m c hc
  · have hc := h.covered c
    grind
  · have hc' := h.apart c hc
    grind

theorem NamesInv.remove :
    NamesInv names { s.removeNamedClass K cls (names.mangledName cls) with
      registered := update s.registered cls false } := by
  unfold NamedClasses.removeNamedClass
  by_cases hown : s.gdb_objc_realized_classes (names.mangledName cls) = some cls
  · rw [if_pos hown]
    have hapart := h.apart cls hown
    refine ⟨fun name c hc => ?_, h.secondary, fun c => ?_, fun c hc => ?_⟩
    · simp only [update_apply] at hc
      split at hc
      next => cases hc
      next => exact h.named name c hc
    · have hc := h.covered c
      grind
    · have hc' := h.apart c
      grind
  rw [if_neg hown]
  unfold NamedClasses.removeNonMetaClass
  have hother : ∀ c, s.nonMetaClasses (K.isa c) = some c → K.isa c = K.isa cls → c = cls :=
    fun c hc hisa => K.isa_inj c cls (h.secondary _ c hc).1 hmeta hisa
  refine ⟨h.named, fun m c hc => ?_, fun c => ?_, fun c hc => ?_⟩
  · simp only [update_apply] at hc
    split at hc
    next => cases hc
    next => exact h.secondary m c hc
  · have hc := h.covered c
    grind
  · have hc' := h.apart c hc
    grind

omit hmeta

theorem NamesInv.step {a : NamesAction C}
    (hstep : s.perform names a = some s') : NamesInv names s' := by
  cases a with
  | add cls replacing =>
    obtain ⟨hguard, hstep⟩ := ite_none_right_eq_some.mp hstep
    obtain ⟨hmeta, hnew, hreplacing⟩ := hguard
    cases hstep
    unfold NamedClasses.addNamedClass
    split
    next => exact h.insertNonMeta hmeta hnew
    rename_i htaken
    refine h.insertNamed hmeta hnew ?_
    -- what is replaced is not in the tables, so the name is free
    cases hfree : s.gdb_objc_realized_classes (names.mangledName cls) with
    | none => rfl
    | some old => ?_
    exfalso
    have hget : s.getClass names (names.mangledName cls) = some old := by
      unfold NamedClasses.getClass NamedClasses.getClass_impl
      rw [hfree]
      rfl
    have hold := (h.getClass hget).2
    rw [hget] at htaken
    have heq : some old = replacing := by
      by_contra hne
      exact htaken ⟨by simp, hne⟩
    rw [← heq] at hreplacing
    simp [hold] at hreplacing
  | remove cls =>
    obtain ⟨hmeta, ⟨⟩⟩ := ite_none_right_eq_some.mp hstep
    exact h.remove hmeta

end

theorem namesInv_of_reachable (h : (namesSystem names).Reachable (fun _ => True) s) :
    NamesInv names s := by
  refine h.invariant (fun s hs _ => ?_) fun s a s' hs _ hstep _ => hs.step hstep
  have heq : s = NamedClasses.empty := hs
  rw [heq]
  exact NamesInv.empty

/-! ## The lookup -/

omit [DecidableEq C] in
theorem ClassImage.root_of_isa (K : ClassImage C) (hmeta : K.isMeta cls = false)
    (hisa : K.isa (K.isa cls) = K.isa cls) : K.superclass (K.isa cls) = some cls := by
  obtain ⟨r, hr, hroot, heq⟩ := K.meta_isa (K.isa cls) (K.isa_isMeta cls)
  obtain rfl := K.isa_inj cls r hmeta hr (hisa.symm.trans heq)
  rw [K.pair_superclass cls hmeta, hroot]
  rfl

omit [DecidableEq C] [DecidableEq N] in
theorem NamesInv.isMeta_of_registered (h : NamesInv names s) (hcls : s.registered cls = true) :
    K.isMeta cls = false := by
  rcases (h.covered cls).mp hcls with hin | hin
  · exact (h.named _ _ hin).1
  · exact (h.secondary _ _ hin).1

omit [DecidableEq N] in
theorem NamesInv.getNonMetaClassByName (h : NamesInv names s) (hcls : s.registered cls = true) :
    s.getNonMetaClassByName names (K.isa cls)
      = if s.getClass names (names.mangledName cls) = none then .nilClass else .found cls := by
  have hmeta := h.isMeta_of_registered hcls
  unfold NamedClasses.getNonMetaClassByName
  rw [names.mangledName_isa cls hmeta]
  cases hget : s.getClass names (names.mangledName cls) with
  | none => rfl
  | some c => ?_
  simp only [reduceCtorEq, if_false]
  by_cases hisa : K.isa c = K.isa cls
  · rw [if_pos hisa, K.isa_inj c cls (h.getClass hget).1 hmeta hisa]
  rw [if_neg hisa]
  -- the name leads to another class, so the class itself is in the second table
  have hsecond : s.nonMetaClasses (K.isa cls) = some cls := by
    refine ((h.covered cls).mp hcls).resolve_left fun hfirst => hisa ?_
    have hsame : s.getClass names (names.mangledName cls) = some cls := by
      unfold NamedClasses.getClass NamedClasses.getClass_impl
      rw [hfirst]
      rfl
    rw [some.inj (hget.symm.trans hsame)]
  rw [hsecond]

/-- **A registered class is found from its metaclass** exactly when it is a root class or its name
leads to some class; otherwise the isa of nil is read. -/
theorem getNonMetaClass_iff (names : ClassNames K N) (s : NamedClasses C N)
    (hs : (namesSystem names).Reachable (fun _ => True) s) (fuel : Nat) (cls : C)
    (hcls : s.registered cls = true) :
    (s.getNonMetaClass names fuel (K.isa cls) none = .found cls ↔
      K.isa (K.isa cls) = K.isa cls ∨ s.getClass names (names.mangledName cls) ≠ none) ∧
    (s.getNonMetaClass names fuel (K.isa cls) none = .found cls ∨
      s.getNonMetaClass names fuel (K.isa cls) none = .nilClass) := by
  have h := namesInv_of_reachable hs
  have hmeta := h.isMeta_of_registered hcls
  have hnot : ¬ K.isMeta (K.isa cls) = false := by
    rw [K.isa_isMeta]
    exact nofun
  rw [NamedClasses.getNonMetaClass, if_neg hnot]
  by_cases hisa : K.isa (K.isa cls) = K.isa cls
  · have hroot : (some cls).filter (fun c => decide (K.isa c = K.isa cls)) = some cls := by
      simp [Option.filter]
    rw [if_pos hisa, K.root_of_isa hmeta hisa, hroot]
    simp [hisa]
  simp only [bind_none, hisa, false_or]
  rw [h.getNonMetaClassByName hcls]
  by_cases hget : s.getClass names (names.mangledName cls) = none <;> simp [hget]

def twinNames : ClassNames (starImage Bool (fun _ => none) fun _ => false) Nat where
  mangledName := fun c => if c.1 = none then 0 else 1
  mangledName_isa := fun c hc => by
    have hc' : c.2 = false := hc
    simp [starImage, hc']
  copySwiftV1MangledName := fun _ => none

theorem second_twin_is_found :
    ∃ s, (namesSystem twinNames).Reachable (fun _ => True) s ∧
      s.registered (some true, false) = true ∧
      s.getNonMetaClass twinNames 3 (some true, true) none = .found (some true, false) := by
  have hrun : ((namesSystem twinNames).runFrom (fun _ => True) .empty
      [.add (some false, false) none, .add (some true, false) none]).map
        (fun s => (s.registered (some true, false), s.getClass twinNames 1))
      = some (true, some (some false, false)) := by
    decide +kernel
  obtain ⟨s, hs, hobs⟩ := map_eq_some_iff.mp hrun
  obtain ⟨hreg, hget⟩ := Prod.mk.inj hobs
  have hreach := System.Reachable.of_run _ (.init rfl trivial) hs
  refine ⟨s, hreach, hreg, ?_⟩
  refine (getNonMetaClass_iff twinNames s hreach 3 (some true, false) hreg).1.mpr (.inr ?_)
  rw [show twinNames.mangledName (some true, false) = 1 from rfl, hget]
  exact some_ne_none _

/-- When the first of two classes of one name is removed, the isa of nil is read. -/
theorem second_twin_is_lost :
    ∃ s, (namesSystem twinNames).Reachable (fun _ => True) s ∧
      s.registered (some true, false) = true ∧
      s.getNonMetaClass twinNames 3 (some true, true) none = .nilClass := by
  have hrun : ((namesSystem twinNames).runFrom (fun _ => True) .empty
      [.add (some false, false) none, .add (some true, false) none,
        .remove (some false, false)]).map
        (fun s => (s.registered (some true, false),
          s.getNonMetaClass twinNames 3 (some true, true) none))
      = some (true, .nilClass) := by
    decide +kernel
  obtain ⟨s, hs, hobs⟩ := map_eq_some_iff.mp hrun
  obtain ⟨hreg, hget⟩ := Prod.mk.inj hobs
  exact ⟨s, System.Reachable.of_run _ (.init rfl trivial) hs, hreg, hget⟩

end ObjcRuntime
