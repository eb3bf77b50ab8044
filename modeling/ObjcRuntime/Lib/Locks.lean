/-
WHO HOLDS WHICH LOCK.

A family of locks and threads at program points; each point says which locks
the code holds there. `Holds` is the agreement of the two views:

* `Holds.disjoint`: no lock is held by two threads,
* `Holds.move`, `Holds.acquire`, `Holds.release`: the three kinds of steps.
-/
import Mathlib.Logic.Function.Basic
import Mathlib.Data.List.Basic

namespace ObjcRuntime.Lib

open Function Option

variable {ι κ π : Type*} [DecidableEq ι] [DecidableEq κ]

/-- Lock `i` is held by `t` exactly when `t` is at a point that holds it. -/
def Holds (locks : π → List κ) (lock : κ → Option ι) (pc : ι → π) : Prop :=
  ∀ t i, i ∈ locks (pc t) ↔ lock i = some t

variable {locks : π → List κ} {lock : κ → Option ι} {pc : ι → π}

omit [DecidableEq ι] [DecidableEq κ] in
theorem Holds.disjoint (h : Holds locks lock pc) {t u : ι} (htu : u ≠ t) {i : κ}
    (hi : i ∈ locks (pc u)) : i ∉ locks (pc t) := by
  intro hit
  have heq : some u = some t := ((h u i).mp hi).symm.trans ((h t i).mp hit)
  exact htu (some.inj heq)

omit [DecidableEq κ] in
theorem Holds.move (h : Holds locks lock pc) (t : ι) {p : π}
    (hp : ∀ i, i ∈ locks p ↔ i ∈ locks (pc t)) : Holds locks lock (update pc t p) := by
  intro u i
  by_cases hu : u = t
  · subst hu
    rw [update_self, hp, h]
  · rw [update_of_ne hu, h]

theorem Holds.acquire (h : Holds locks lock pc) (t : ι) {i : κ} (hfree : lock i = none) {p : π}
    (hp : ∀ j, j ∈ locks p ↔ j = i ∨ j ∈ locks (pc t)) :
    Holds locks (update lock i (some t)) (update pc t p) := by
  intro u j
  by_cases hj : j = i
  · subst hj
    rw [update_self, some.injEq]
    by_cases hu : u = t
    · subst hu
      rw [update_self, hp]
      exact ⟨fun _ => rfl, fun _ => .inl rfl⟩
    · rw [update_of_ne hu, h, hfree]
      exact ⟨fun heq => (some_ne_none u heq.symm).elim, fun heq => (hu heq.symm).elim⟩
  rw [update_of_ne hj]
  by_cases hu : u = t
  · subst hu
    rw [update_self, hp, h]
    exact ⟨fun hor => hor.resolve_left hj, .inr⟩
  · rw [update_of_ne hu, h]

theorem Holds.release (h : Holds locks lock pc) (t : ι) {i : κ} (hi : i ∈ locks (pc t)) {p : π}
    (hp : ∀ j, j ∈ locks p ↔ j ∈ locks (pc t) ∧ j ≠ i) :
    Holds locks (update lock i none) (update pc t p) := by
  intro u j
  by_cases hj : j = i
  · subst hj
    rw [update_self]
    by_cases hu : u = t
    · subst hu
      rw [update_self, hp]
      exact ⟨fun hand => (hand.2 rfl).elim, fun heq => (some_ne_none u heq.symm).elim⟩
    · rw [update_of_ne hu]
      exact ⟨fun hju => (h.disjoint hu hju hi).elim, fun heq => (some_ne_none u heq.symm).elim⟩
  rw [update_of_ne hj]
  by_cases hu : u = t
  · subst hu
    rw [update_self, hp, h]
    exact ⟨And.left, fun heq => ⟨heq, hj⟩⟩
  · rw [update_of_ne hu, h]

end ObjcRuntime.Lib
