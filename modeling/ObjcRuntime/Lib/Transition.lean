/-
TRANSITION SYSTEMS AND THREADS.

A system is a set of initial states and a partial step function; an action
names who moves and how. `Reachable ok` are the states of the runs all of
whose states satisfy `ok`. The rules:

* `allStates_iff_allSteps`: a property of all states of a run as a property
  of its steps,
* `sum_update`: a sum over threads moves by what one thread changed.
-/
import Mathlib.Algebra.BigOperators.Group.Finset.Piecewise
import Mathlib.Algebra.Order.BigOperators.Group.Finset
import Mathlib.Data.Fintype.Basic

namespace ObjcRuntime.Lib

/-! ## Systems and reachable states -/

structure System (σ α : Type*) where
  init : σ → Prop
  step : σ → α → Option σ

/-- The states of the runs whose states all satisfy `ok`. -/
inductive System.Reachable {σ α : Type*} (S : System σ α) (ok : σ → Prop) : σ → Prop where
  | init {s : σ} : S.init s → ok s → S.Reachable ok s
  | step {s s' : σ} {a : α} : S.Reachable ok s → S.step s a = some s' → ok s' → S.Reachable ok s'

variable {σ α : Type*} {S : System σ α} {ok : σ → Prop} {s : σ}

theorem System.Reachable.holds (h : S.Reachable ok s) : ok s := by
  cases h with
  | init _ h | step _ _ h => exact h

theorem System.Reachable.invariant {Inv : σ → Prop} (hinit : ∀ s, S.init s → ok s → Inv s)
    (hstep : ∀ s a s', Inv s → ok s → S.step s a = some s' → ok s' → Inv s')
    (h : S.Reachable ok s) : Inv s := by
  induction h with
  | init hi hok => exact hinit _ hi hok
  | step hr hs hok ih => exact hstep _ _ _ ih hr.holds hs hok

/-- The states that a run reaches from `s`, all of them satisfying `ok`. -/
inductive System.Later {σ α : Type*} (S : System σ α) (ok : σ → Prop) (s : σ) : σ → Prop where
  | refl : S.Later ok s s
  | step {s' s'' : σ} {a : α} : S.Later ok s s' → S.step s' a = some s'' → ok s'' →
      S.Later ok s s''

theorem System.Later.reachable {s' : σ} (h : S.Later ok s s') (hs : S.Reachable ok s) :
    S.Reachable ok s' := by
  induction h with
  | refl => exact hs
  | step _ hstep hok ih => exact .step ih hstep hok

variable {P : σ → Prop}

theorem System.Later.keeps
    (hstep : ∀ s a s', S.Reachable ok s → S.step s a = some s' → ok s' → P s → P s') {s' : σ}
    (h : S.Later ok s s') (hs : S.Reachable ok s) (hP : P s) : P s' := by
  induction h with
  | refl => exact hP
  | step hlater hs' hok ih => exact hstep _ _ _ (hlater.reachable hs) hs' hok ih

/-- Perform the actions in order; `none` as soon as one is not enabled or leads
out of `ok`. -/
def System.runFrom (S : System σ α) (ok : σ → Prop) [DecidablePred ok] : σ → List α → Option σ
  | s, [] => some s
  | s, a :: as => (S.step s a).bind fun s' => if ok s' then S.runFrom ok s' as else none

theorem System.Reachable.of_run [DecidablePred ok] (as : List α) : ∀ {s s' : σ},
    S.Reachable ok s → S.runFrom ok s as = some s' → S.Reachable ok s' := by
  induction as with
  | nil =>
    intro s s' h hrun
    cases hrun
    exact h
  | cons a as ih => ?_
  intro s s' h hrun
  simp only [System.runFrom, Option.bind_eq_some_iff] at hrun
  obtain ⟨mid, hmid, hrest⟩ := hrun
  split at hrest
  next hok => exact ih (.step h hmid hok) hrest
  next => cases hrest

/-! ## Runs as lists of actions -/

/-- Every state of the run satisfies `P`; an action that is not enabled ends the run. -/
def System.AllStates (S : System σ α) (P : σ → Prop) : σ → List α → Prop
  | s, [] => P s
  | s, a :: as => P s ∧ ∀ s', S.step s a = some s' → S.AllStates P s' as

/-- Every action of the run satisfies `Q` in the state before it. -/
def System.AllSteps (S : System σ α) (Q : σ → α → Prop) : σ → List α → Prop
  | _, [] => True
  | s, a :: as => (∀ s', S.step s a = some s' → Q s a ∧ S.AllSteps Q s' as)

theorem System.AllSteps.allStates {Inv : σ → Prop} {Q : σ → α → Prop}
    (hstep : ∀ s a s', Inv s → Q s a → S.step s a = some s' → Inv s') (as : List α) :
    ∀ {s : σ}, Inv s → S.AllSteps Q s as → S.AllStates Inv s as := by
  induction as with
  | nil =>
    intro s hs _
    exact hs
  | cons a as ih => ?_
  intro s hs h
  refine ⟨hs, fun s' hs' => ?_⟩
  obtain ⟨hQ, hrest⟩ := h s' hs'
  exact ih (hstep s a s' hs hQ hs') hrest

theorem System.AllStates.mono {P' : σ → Prop} (himp : ∀ s, P s → P' s) (as : List α) :
    ∀ {s : σ}, S.AllStates P s as → S.AllStates P' s as := by
  induction as with
  | nil =>
    intro s h
    exact himp s h
  | cons a as ih =>
    intro s h
    exact ⟨himp s h.1, fun s' hs' => ih (h.2 s' hs')⟩

theorem System.AllStates.of_run (as : List α) : ∀ {s s' : σ},
    S.AllStates P s as → S.runFrom (fun _ => True) s as = some s' → P s' := by
  induction as with
  | nil =>
    intro s s' h hrun
    cases hrun
    exact h
  | cons a as ih => ?_
  intro s s' h hrun
  simp only [System.runFrom, Option.bind_eq_some_iff, if_true] at hrun
  obtain ⟨mid, hmid, hrest⟩ := hrun
  exact ih (h.2 mid hmid) hrest

instance System.decidableAllSteps {Q : σ → α → Prop} [∀ s a, Decidable (Q s a)] :
    ∀ (s : σ) (as : List α), Decidable (S.AllSteps Q s as)
  | _, [] => .isTrue trivial
  | s, a :: as =>
    match h : S.step s a with
    | none => .isTrue fun s' hs' => by
      rw [h] at hs'
      cases hs'
    | some s₁ =>
      have := System.decidableAllSteps (Q := Q) s₁ as
      decidable_of_iff (Q s a ∧ S.AllSteps Q s₁ as)
        ⟨fun hboth s' hs' => by
          rw [h] at hs'
          injection hs' with hs'
          exact hs' ▸ hboth, fun hall => hall s₁ h⟩

/-- **States and steps.** When `Q` is just what a step needs to keep `P`, the runs all of whose
states satisfy `P` are the runs all of whose steps satisfy `Q`. -/
theorem System.allStates_iff_allSteps (Inv : σ → Prop) {Q : σ → α → Prop}
    (hinv : ∀ s a s', Inv s → P s → S.step s a = some s' → Q s a → Inv s')
    (hiff : ∀ s a s', Inv s → P s → S.step s a = some s' → (P s' ↔ Q s a)) (as : List α) :
    ∀ {s : σ}, Inv s → P s → (S.AllStates P s as ↔ S.AllSteps Q s as) := by
  induction as with
  | nil =>
    intro s _ hP
    exact ⟨fun _ => trivial, fun _ => hP⟩
  | cons a as ih => ?_
  intro s hI hP
  constructor
  · rintro ⟨_, h⟩ s' hs'
    have hP' : P s' := by
      have := h s' hs'
      cases as with
      | nil => exact this
      | cons _ _ => exact this.1
    have hQ := (hiff s a s' hI hP hs').mp hP'
    exact ⟨hQ, (ih (hinv s a s' hI hP hs' hQ) hP').mp (h s' hs')⟩
  intro h
  refine ⟨hP, fun s' hs' => ?_⟩
  obtain ⟨hQ, hrest⟩ := h s' hs'
  have hP' := (hiff s a s' hI hP hs').mpr hQ
  exact (ih (hinv s a s' hI hP hs' hQ) hP').mpr hrest

/-! ## Sums over threads -/

variable {ι : Type*} [Fintype ι] [DecidableEq ι]

theorem sum_update (f : ι → Nat) (i : ι) (v : Nat) :
    (∑ j, Function.update f i v j) + f i = (∑ j, f j) + v := by
  rw [Finset.sum_update_of_mem (Finset.mem_univ i), ← Finset.sum_sdiff (Finset.subset_univ {i}),
      Finset.sum_singleton]
  omega

end ObjcRuntime.Lib
