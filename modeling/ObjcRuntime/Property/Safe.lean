/-
THE LOCK AND THE REFERENCES OF AN ATOMIC PROPERTY.

Two invariants of the accessors, each with one rule for a step of a thread:

* `LockInv`, `LockInv.move`: who has the lock, and what a thread that has
  it has read from the slot,
* `RefInv`, `RefInv.move`: every reference count is the number of its
  owners.
-/
import ObjcRuntime.Property.Model

namespace ObjcRuntime

open Lib Function Option Point PropertyState Bool Nat

variable {V ι : Type} [DecidableEq V] [DecidableEq ι] {s s' : PropertyState V ι}

/-! ## The lock -/

def Point.Sees : Point V → Option V → Prop
  | .getRetain value, slot => slot = value
  | .setStore _ _ _ oldValue, slot => slot = oldValue
  | _, _ => True

variable {p : Point V}

omit [DecidableEq V] in
theorem Point.sees_of_not_locked (h : ¬ p.locked = true) (slot : Option V) : p.Sees slot := by
  cases p <;> trivial

structure LockInv (s : PropertyState V ι) : Prop where
  locked : ∀ t f, s.pc t = some f → (f.point.locked = true ↔ s.lock = some (some t))
  idle : ∀ t, s.pc t = none → s.lock ≠ some (some t)
  sees : ∀ t f, s.pc t = some f → f.point.Sees s.slot

variable {t : ι}

omit [DecidableEq V] in
theorem LockInv.move (h : LockInv s) {o : Option (Frame V)} (hpc : s'.pc = update s.pc t o)
    (hother : ∀ u, u ≠ t → (s'.lock = some (some u) ↔ s.lock = some (some u)))
    (hslot : s'.slot = s.slot ∨ s.lock = some (some t))
    (hnone : o = none → s'.lock ≠ some (some t))
    (hsome : ∀ f, o = some f →
      (f.point.locked = true ↔ s'.lock = some (some t)) ∧ f.point.Sees s'.slot) : LockInv s' := by
  refine ⟨fun u f hf => ?_, fun u hu => ?_, fun u f hf => ?_⟩
  · rw [hpc, update_apply] at hf
    split at hf
    next heq =>
      rw [heq]
      exact (hsome f hf).1
    next hne =>
      rw [hother u hne]
      exact h.locked u f hf
  · rw [hpc, update_apply] at hu
    split at hu
    next heq =>
      rw [heq]
      exact hnone hu
    next hne =>
      rw [ne_eq, hother u hne]
      exact h.idle u hu
  rw [hpc, update_apply] at hf
  split at hf
  next => exact (hsome f hf).2
  rename_i hne
  rcases hslot with hslot | hlock
  · rw [hslot]
    exact h.sees u f hf
  -- the other thread does not have the lock
  refine sees_of_not_locked (fun hlocked => hne ?_) _
  have := (h.locked u f hf).mp hlocked
  rw [hlock] at this
  exact (some.inj (some.inj this)).symm

omit [DecidableEq ι] [DecidableEq V] in
theorem LockInv.congr (h : LockInv s) (hpc : s'.pc = s.pc) (hslot : s'.slot = s.slot)
    (hlock : ∀ u, s'.lock = some (some u) ↔ s.lock = some (some u)) : LockInv s' := by
  refine ⟨fun u f hf => ?_, fun u hu => ?_, fun u f hf => ?_⟩
  · rw [hlock]
    exact h.locked u f (hpc ▸ hf)
  · rw [ne_eq, hlock]
    exact h.idle u (hpc ▸ hu)
  · rw [hslot]
    exact h.sees u f (hpc ▸ hf)

section

omit [DecidableEq V]

variable {p' : Point V}

theorem LockInv.stay (h : LockInv s) {id : Nat} (hp : s.pc t = some ⟨id, p⟩)
    (hpc : s'.pc = update s.pc t (some ⟨id, p'⟩)) (hlock : s'.lock = s.lock)
    (hslot : s'.slot = s.slot) (hlocked : p'.locked = p.locked) (hsees : p'.Sees s.slot) :
    LockInv s' := by
  refine h.move hpc (fun u _ => by rw [hlock]) (.inl hslot) nofun ?_
  rintro f ⟨⟩
  rw [hslot, hlock, hlocked]
  exact ⟨h.locked t _ hp, hsees⟩

theorem LockInv.acquire (h : LockInv s) {id : Nat} (hfree : s.lock = none)
    (hpc : s'.pc = update s.pc t (some ⟨id, p'⟩)) (hlock : s'.lock = some (some t))
    (hslot : s'.slot = s.slot) (hlocked : p'.locked = true) (hsees : p'.Sees s.slot) :
    LockInv s' := by
  refine h.move hpc (fun u hu => ?_) (.inl hslot) nofun ?_
  · rw [hlock, hfree]
    constructor
    · intro heq
      exact absurd (some.inj (some.inj heq)).symm hu
    · intro heq
      cases heq
  · rintro f ⟨⟩
    rw [hslot]
    exact ⟨⟨fun _ => hlock, fun _ => hlocked⟩, hsees⟩

theorem LockInv.giveBack (h : LockInv s) {id : Nat} (hp : s.pc t = some ⟨id, p⟩)
    (hheld : p.locked = true) (hpc : s'.pc = update s.pc t (some ⟨id, p'⟩))
    (hlock : s'.lock = none) (hslot : s'.slot = s.slot) (hlocked : ¬ p'.locked = true) :
    LockInv s' := by
  have hmine : s.lock = some (some t) := (h.locked t _ hp).mp hheld
  refine h.move hpc (fun u hu => ?_) (.inl hslot) nofun ?_
  · rw [hlock, hmine]
    constructor
    · intro heq
      cases heq
    · intro heq
      exact absurd (some.inj (some.inj heq)).symm hu
  rintro f ⟨⟩
  refine ⟨⟨fun hl => absurd hl hlocked, fun heq => ?_⟩, sees_of_not_locked hlocked _⟩
  rw [hlock] at heq
  cases heq

end

variable {id : Nat}

theorem LockInv.stepThread (h : LockInv s) (hp : s.pc t = some ⟨id, p⟩)
    (hstep : s.stepThread t id p = some s') : LockInv s' := by
  cases p with
  | getLock | setLock arg kind newValue =>
    obtain ⟨hfree, ⟨⟩⟩ := ite_none_right_eq_some.mp hstep
    exact h.acquire hfree rfl rfl rfl rfl trivial
  | getLoad | setLoad arg kind newValue => cases hstep; exact h.stay hp rfl rfl rfl rfl rfl
  | getRetain value | setRetain arg => cases hstep; exact h.stay hp rfl rfl rfl rfl trivial
  | getUnlock value => cases hstep; exact h.giveBack hp rfl rfl rfl rfl false_ne_true
  | getReturn value | setReturn arg kind newValue =>
    cases hstep
    exact h.move rfl (fun _ _ => Iff.rfl) (.inl rfl)
      (fun _ heq => false_ne_true ((h.locked t _ hp).mpr heq)) nofun
  | setBegin arg kind =>
    cases kind with
    | retain =>
      simp only [stepThread] at hstep
      split at hstep
      next => cases hstep; exact h.stay hp rfl rfl rfl rfl trivial
      next => cases hstep; exact h.stay hp rfl rfl rfl rfl trivial
    | copy | mutableCopy => cases hstep
  | setStore arg kind newValue oldValue =>
    -- the thread has the lock, so that no other one has read the slot
    cases hstep
    have hmine : s.lock = some (some t) := (h.locked t _ hp).mp rfl
    refine h.move rfl (fun _ _ => Iff.rfl) (.inr hmine) nofun ?_
    rintro f ⟨⟩
    exact ⟨⟨fun _ => hmine, fun _ => rfl⟩, trivial⟩
  | setUnlock arg kind newValue oldValue origin =>
    cases hstep
    exact h.giveBack hp rfl rfl rfl rfl false_ne_true
  | setRelease arg kind newValue oldValue origin =>
    cases hstep
    exact h.stay hp rfl rfl rfl rfl trivial

omit [DecidableEq V] in
theorem LockInv.begin (h : LockInv s) (hidle : s.pc t = none) (hlocked : p.locked = false) :
    LockInv (s.begin t p) := by
  refine h.move rfl (fun _ _ => Iff.rfl) (.inl rfl) nofun ?_
  rintro f ⟨⟩
  have hnot : ¬ p.locked = true := by
    rw [hlocked]
    exact false_ne_true
  exact ⟨⟨fun hl => absurd hl hnot, fun heq => absurd heq (h.idle t hidle)⟩,
    sees_of_not_locked hnot _⟩

theorem PropertyState.copied_spec {copy : Option V} (h : s.copied t id copy p = some s') :
    ∃ arg kind, p = .setBegin arg kind ∧ kind ≠ .retain ∧ (arg = none → copy = none) ∧
      s' = (s.objc_retain copy).goTo t id (.setLock arg kind copy) := by
  cases p with
  | setBegin arg kind =>
    obtain ⟨hkind, ⟨⟩⟩ := ite_none_right_eq_some.mp h
    exact ⟨arg, kind, rfl, hkind.1, hkind.2, rfl⟩
  | _ => cases h

theorem LockInv.perform (h : LockInv s) {a : PropertyAction V ι} (hstep : s.perform a = some s') :
    LockInv s' := by
  cases a with
  | get t =>
    obtain ⟨hidle, ⟨⟩⟩ := ite_none_right_eq_some.mp hstep
    exact h.begin (isNone_iff_eq_none.mp hidle) rfl
  | set t newValue kind =>
    obtain ⟨hidle, ⟨⟩⟩ := ite_none_right_eq_some.mp hstep
    have h' : LockInv { s with elsewhere := fun v => s.elsewhere v - own newValue v } :=
      h.congr rfl rfl fun _ => Iff.rfl
    exact h'.begin (isNone_iff_eq_none.mp hidle.1) rfl
  | step t =>
    obtain ⟨⟨id, p⟩, hp, hthread⟩ := bind_eq_some_iff.mp hstep
    exact h.stepThread hp hthread
  | copied t copy =>
    obtain ⟨⟨id, p⟩, hp, hcopied⟩ := bind_eq_some_iff.mp hstep
    obtain ⟨arg, kind, rfl, _, _, rfl⟩ := copied_spec hcopied
    exact h.stay hp rfl rfl rfl rfl trivial
  | retain v =>
    cases hstep
    exact h.congr rfl rfl fun _ => Iff.rfl
  | release v =>
    obtain ⟨-, ⟨⟩⟩ := ite_none_right_eq_some.mp hstep
    exact h.congr rfl rfl fun _ => Iff.rfl
  | lock =>
    obtain ⟨hfree, ⟨⟩⟩ := ite_none_right_eq_some.mp hstep
    exact h.congr rfl rfl fun u => by simp [hfree]
  | unlock =>
    obtain ⟨hother, ⟨⟩⟩ := ite_none_right_eq_some.mp hstep
    exact h.congr rfl rfl fun u => by simp [hother]

/-! ## Reference counts -/

def heldBy (o : Option (Frame V)) (v : V) : Nat := o.elim 0 fun f => f.point.held v

variable [Fintype ι]

def RefInv (s : PropertyState V ι) : Prop :=
  ∀ v, s.refs v = s.elsewhere v + own s.slot v + ∑ t, heldBy (s.pc t) v

omit [DecidableEq V] in
theorem sum_move {α : Type} (f : Option (Frame V) → α → Nat) (pc : ι → Option (Frame V)) (t : ι)
    (o : Option (Frame V)) (x : α) :
    (∑ u, f (update pc t o u) x) + f (pc t) x = (∑ u, f (pc u) x) + f o x := by
  have hupdate : (fun u => f (update pc t o u) x) = update (fun u => f (pc u) x) t (f o x) := by
    funext u
    by_cases hu : u = t
    · rw [hu, update_self, update_self]
    · rw [update_of_ne hu, update_of_ne hu]
  rw [hupdate]
  exact sum_update _ t _

theorem RefInv.move (h : RefInv s) {o : Option (Frame V)} (hpc : s'.pc = update s.pc t o)
    (heq : ∀ v, s'.refs v + (s.elsewhere v + own s.slot v + heldBy (s.pc t) v)
      = s.refs v + (s'.elsewhere v + own s'.slot v + heldBy o v)) : RefInv s' := by
  intro v
  have hsum := sum_move heldBy s.pc t o v
  have hv := h v
  have := heq v
  rw [hpc]
  omega

omit [DecidableEq ι] in
theorem RefInv.held_le (h : RefInv s) (t : ι) (v : V) : heldBy (s.pc t) v ≤ s.refs v := by
  have hle := Finset.single_le_sum (f := fun u => heldBy (s.pc u) v) (fun _ _ => zero_le _)
    (Finset.mem_univ t)
  have := h v
  omega

theorem RefInv.goTo (h : RefInv s) {p' : Point V} (hp : s.pc t = some ⟨id, p⟩)
    (hpc : s'.pc = update s.pc t (some ⟨id, p'⟩)) (helse : s'.elsewhere = s.elsewhere)
    (heq : ∀ v, s'.refs v + (own s.slot v + p.held v) = s.refs v + (own s'.slot v + p'.held v)) :
    RefInv s' := by
  refine h.move hpc fun v => ?_
  have := heq v
  rw [hp, helse]
  simp only [heldBy, elim_some]
  omega

theorem RefInv.stepThread (h : RefInv s) (hlock : LockInv s) (hp : s.pc t = some ⟨id, p⟩)
    (hstep : s.stepThread t id p = some s') : RefInv s' := by
  have hheld : ∀ v, p.held v ≤ s.refs v := by
    intro v
    have := h.held_le t v
    rwa [hp] at this
  cases p with
  | getLock | setLock arg kind newValue =>
    obtain ⟨-, ⟨⟩⟩ := ite_none_right_eq_some.mp hstep
    exact h.goTo hp rfl rfl fun v => rfl
  | getLoad | getUnlock value | setLoad arg kind newValue =>
    cases hstep; exact h.goTo hp rfl rfl fun v => rfl
  | getRetain value | setRetain arg =>
    cases hstep
    refine h.goTo hp rfl rfl fun v => ?_
    simp only [PropertyState.goTo, PropertyState.objc_retain, Point.held]
    omega
  | getReturn value =>
    cases hstep
    refine h.move rfl fun v => ?_
    rw [hp]
    simp only [PropertyState.finish, heldBy, elim_some, elim_none, Point.held]
    omega
  | setBegin arg kind =>
    cases kind with
    | retain =>
      simp only [PropertyState.stepThread] at hstep
      split at hstep
      next => cases hstep; exact h.goTo hp rfl rfl fun v => rfl
      next => cases hstep; exact h.goTo hp rfl rfl fun v => rfl
    | copy | mutableCopy => cases hstep
  | setStore arg kind newValue oldValue =>
    -- the slot's reference goes to the thread, and the thread's to the slot
    cases hstep
    have hsees : s.slot = oldValue := hlock.sees t _ hp
    refine h.goTo hp rfl rfl fun v => ?_
    simp only [PropertyState.goTo, PropertyState.takeEffect, Point.held, hsees]
    omega
  | setUnlock arg kind newValue oldValue origin => cases hstep; exact h.goTo hp rfl rfl fun v => rfl
  | setRelease arg kind newValue oldValue origin =>
    cases hstep
    refine h.goTo hp rfl rfl fun v => ?_
    have := hheld v
    simp only [PropertyState.goTo, PropertyState.objc_release, Point.held] at this ⊢
    omega
  | setReturn arg kind newValue => ?_
  cases hstep
  refine h.move rfl fun v => ?_
  rw [hp]
  simp only [PropertyState.finish, heldBy, elim_some, elim_none, Point.held]
  omega

theorem RefInv.perform (h : RefInv s) (hlock : LockInv s) {a : PropertyAction V ι}
    (hstep : s.perform a = some s') : RefInv s' := by
  cases a with
  | get t =>
    obtain ⟨hidle, ⟨⟩⟩ := ite_none_right_eq_some.mp hstep
    refine h.move rfl fun v => ?_
    rw [isNone_iff_eq_none.mp hidle]
    rfl
  | set t newValue kind =>
    obtain ⟨hidle, ⟨⟩⟩ := ite_none_right_eq_some.mp hstep
    refine h.move rfl fun v => ?_
    have hcaller : own newValue v ≤ s.elsewhere v := by
      unfold own
      split
      next heq => exact hidle.2 v heq
      next => exact Nat.zero_le _
    rw [isNone_iff_eq_none.mp hidle.1]
    simp only [PropertyState.begin, heldBy, elim_some, elim_none, Point.held]
    omega
  | step t =>
    obtain ⟨⟨id, p⟩, hp, hthread⟩ := bind_eq_some_iff.mp hstep
    exact h.stepThread hlock hp hthread
  | copied t copy =>
    obtain ⟨⟨id, p⟩, hp, hcopied⟩ := bind_eq_some_iff.mp hstep
    obtain ⟨arg, kind, rfl, _, _, rfl⟩ := PropertyState.copied_spec hcopied
    refine h.goTo hp rfl rfl fun v => ?_
    simp only [PropertyState.goTo, PropertyState.objc_retain, Point.held]
    omega
  | retain w =>
    cases hstep
    intro v
    have := h v
    simp only [PropertyState.objc_retain]
    omega
  | release w =>
    obtain ⟨hpos, ⟨⟩⟩ := ite_none_right_eq_some.mp hstep
    intro v
    have := h v
    have hle : own (some w) v ≤ s.elsewhere v := by
      unfold own
      split
      next heq => exact some.inj heq ▸ hpos
      next => exact Nat.zero_le _
    simp only [PropertyState.objc_release]
    omega
  | lock | unlock =>
    obtain ⟨-, ⟨⟩⟩ := ite_none_right_eq_some.mp hstep
    exact h

end ObjcRuntime
