/-
+initialize IS THREAD-SAFE.
-/
import ObjcRuntime.Initialize.Steps

namespace ObjcRuntime

open Lib InitState Function List

variable {C T : Type} [DecidableEq C] [DecidableEq T]

namespace InitState

variable {tree : ClassTree C} {s s' : InitState C T}

theorem initInv_of_reachable (h : (initSystem tree).Reachable (fun _ => True) s) :
    s.InitInv tree := by
  induction h with
  | init hs _ =>
    rw [show _ = start from hs]
    exact .start
  | step _ hstep _ ih => exact InitInv.step ih hstep

/-! ## Which class a step marks -/

theorem go_initialized {t : T} (h : s.go tree t = some s') :
    s'.initialized = s.initialized ∨ ∃ caller c work rest,
      s.stack t = ⟨caller, .finish (c :: work)⟩ :: rest ∧
      s'.initialized = update s.initialized c true := by
  unfold go at h
  split at h
  next => cases h
  rename_i cls pc rest hstack
  split at h
  next =>
    split at h
    next =>
      injection h with h
      exact .inl (h ▸ rfl)
    split at h
    all_goals
      injection h with h
      exact .inl (h ▸ rfl)
  next =>
    obtain ⟨-, ⟨⟩⟩ := Option.ite_none_right_eq_some.mp h
    unfold trySetInitializing
    split <;> exact .inl rfl
  next =>
    split at h
    all_goals
      injection h with h
      exact .inl (h ▸ rfl)
  next =>
    injection h with h
    exact .inl (h ▸ rfl)
  next => cases h
  next =>
    obtain ⟨-, ⟨⟩⟩ := Option.ite_none_right_eq_some.mp h
    unfold lockAndFinishInitializing
    split
    next => exact .inl rfl
    split <;> exact .inl rfl
  next c work =>
    cases h
    refine .inr ⟨cls, c, work, rest, hstack, ?_⟩
    unfold finishInitializing
    simp only
    split <;> rfl
  next =>
    injection h with h
    exact .inl (h ▸ rfl)
  next =>
    split at h
    next =>
      split at h
      all_goals
        injection h with h
        exact .inl (h ▸ rfl)
    injection h with h
    exact .inl (h ▸ rfl)
  next =>
    split at h
    next =>
      injection h with h
      exact .inl (h ▸ rfl)
    next => cases h
  next =>
    split at h
    all_goals
      injection h with h
      exact .inl (h ▸ rfl)
  next => cases h

variable {a : InitAction C T}

theorem step_initialized (h : s.step tree a = some s') :
    s'.initialized = s.initialized ∨ ∃ t caller c work rest,
      s.stack t = ⟨caller, .finish (c :: work)⟩ :: rest ∧
      s'.initialized = update s.initialized c true := by
  cases a with
  | call t cls =>
    unfold step at h
    simp only at h
    split at h
    next =>
      injection h with h
      exact .inl (h ▸ rfl)
    next =>
      injection h with h
      exact .inl (h ▸ rfl)
    next => cases h
  | ret t | throw t =>
    unfold step at h
    simp only at h
    split at h
    next =>
      injection h with h
      exact .inl (h ▸ rfl)
    next => cases h
  | go t =>
    rcases go_initialized h with h | ⟨caller, c, work, rest, h⟩
    · exact .inl h
    · exact .inr ⟨t, caller, c, work, rest, h⟩

theorem initialized_mono (h : s.step tree a = some s') {c : C} (hc : s.initialized c = true) :
    s'.initialized c = true := by
  rcases step_initialized h with heq | ⟨-, -, c', -, -, -, heq⟩
  · rw [heq]
    exact hc
  rw [heq]
  by_cases hcc : c = c'
  · rw [hcc, update_self]
  · rw [update_of_ne hcc]
    exact hc

theorem InitInv.marked_after (hinv : s.InitInv tree) (h : s.step tree a = some s') {c : C}
    (hbefore : s.initialized c = false) (hafter : s'.initialized c = true) :
    s.Ended c ∧ ∀ p, tree.superclass c = some p → s.initialized p = true := by
  rcases step_initialized h with heq | ⟨t, caller, c', work, rest, hstack, heq⟩
  · rw [heq, hbefore] at hafter
    cases hafter
  have hcc : c = c' := by
    by_contra hne
    rw [heq, update_of_ne hne, hbefore] at hafter
    cases hafter
  have hok : _ ∧ ∀ x ∈ c' :: work, s.Ended x ∧
      ∀ p, tree.superclass x = some p → s.initialized p = true :=
    (hinv.thread t).frames ⟨caller, .finish (c' :: work)⟩ (hstack ▸ mem_cons_self)
  exact hok.2 c (hcc ▸ mem_cons_self)

/-! ## A thread that is done -/

omit [DecidableEq C] [DecidableEq T] in
/-- By induction on the height: what waits in the pending map waits for a superclass of the same
thread, and the highest of these would have to be on the stack. -/
theorem InitInv.not_initializing_of_idle (h : s.InitInv tree) {t : T} (hidle : s.stack t = [])
    (n : Nat) : ∀ c, tree.depth c ≤ n → s.owner c = some t → s.initializing c = false := by
  induction n with
  | zero =>
    intro c hdepth ho
    by_contra hi
    rcases (h.thread t).placed c (by simpa using hi) ho with hc | ⟨p, hp⟩
    · rw [hidle] at hc
      cases hc
    · have := tree.superclass_depth c p (h.global.pending p c hp).1
      omega
  | succ n ih => ?_
  intro c hdepth ho
  by_contra hi
  rcases (h.thread t).placed c (by simpa using hi) ho with hc | ⟨p, hp⟩
  · rw [hidle] at hc
    cases hc
  obtain ⟨hsuper, -, hip, hown, -⟩ := h.global.pending p c hp
  have hless := tree.superclass_depth c p hsuper
  have hnot := ih p (by omega) (hown.symm.trans ho)
  rw [hip] at hnot
  cases hnot

end InitState

/-- **+initialize.**  In every interleaving: it is sent to a class at most once; the flags exclude
each other, and CLS_INITIALIZED stays; a class is marked after its +initialize returned or threw and
its superclass was marked; above a class that is or is being initialized so are its superclasses; the
fatal errors are not reached; and the classes whose +initialize a thread sent are all marked, and
nothing of theirs is pending, when the thread is outside of `_class_initialize`. -/
theorem initialize_is_thread_safe (tree : ClassTree C) {s : InitState C T}
    (h : (initSystem tree).Reachable (fun _ => True) s) :
    (∀ c, (s.trace.filterMap InitState.sentClass).count c ≤ 1) ∧
    (∀ c, ¬ (s.initialized c = true ∧ s.initializing c = true)) ∧
    (∀ a s', (initSystem tree).step s a = some s' →
      (∀ c, s.initialized c = true → s'.initialized c = true) ∧
      ∀ c, s.initialized c = false → s'.initialized c = true →
        s.Ended c ∧ ∀ p, tree.superclass c = some p → s.initialized p = true) ∧
    (∀ c p, tree.superclass c = some p → s.initializing c = true ∨ s.initialized c = true →
      s.initializing p = true ∨ s.initialized p = true) ∧
    (∀ t, ∀ f ∈ s.stack t, f.pc ≠ .fatal) ∧
    ∀ t, s.stack t = [] → ∀ c, .sent t c ∈ s.trace →
      s.initialized c = true ∧ s.pending c = [] ∧ ∀ p, c ∉ s.pending p := by
  have hinv := initInv_of_reachable h
  refine ⟨nodup_iff_count_le_one.mp hinv.global.sentOnce, hinv.global.flags,
    fun a s' hstep => ⟨fun c => initialized_mono hstep,
      fun c => hinv.marked_after hstep⟩, fun c p hp hc => ?_, fun t f hf hfatal => ?_,
    fun t hidle c hc => ?_⟩
  · rcases hc with hc | hc
    · obtain ⟨t, ht⟩ := Option.ne_none_iff_exists'.mp fun hnone =>
        absurd hc (by rw [((hinv.global.owned c).mp hnone).2]; simp)
      rcases hinv.global.superOK c t hc ht p hp with hp | ⟨hp, -⟩
      · exact .inr hp
      · exact .inl hp
    · exact .inr (hinv.global.superInitialized c p hc hp)
  · have hok := (hinv.thread t).frames f hf
    unfold FrameOK at hok
    rw [hfatal] at hok
    exact hok
  have howner := hinv.global.sent t c hc
  have hnot := hinv.not_initializing_of_idle hidle (tree.depth c) c (Nat.le_refl _) howner
  refine ⟨?_, eq_nil_iff_forall_not_mem.mpr fun x hx => ?_, fun p hp => ?_⟩
  · by_contra hun
    have hnone := (hinv.global.owned c).mpr ⟨by simpa using hun, hnot⟩
    rw [howner] at hnone
    cases hnone
  · rw [(hinv.global.pending c x hx).2.2.1] at hnot
    cases hnot
  · rw [(hinv.global.pending p c hp).2.1] at hnot
    cases hnot

namespace InitExample

def tree : ClassTree Nat where
  superclass c := if c = 2 ∨ c = 3 then some 1 else none
  depth c := c
  superclass_depth c d h := by
    split at h
    next hc =>
      injection h with h
      omega
    next => cases h

/-- A thread initializes class 2; the +initialize of its superclass initializes class 3, which
throws and is then pending. -/
def nested : List (InitAction Nat Bool) :=
  [.call true 2] ++ List.replicate 5 (.go true) ++ [.call true 3] ++ List.replicate 7 (.go true)
    ++ [.throw true, .go true, .ret true] ++ List.replicate 7 (.go true) ++ [.ret true]
    ++ List.replicate 3 (.go true)

def thrown : List (InitAction Nat Bool) :=
  [.call true 2] ++ List.replicate 5 (.go true) ++ [.throw true] ++ List.replicate 3 (.go true)

end InitExample

theorem nested_initialize_is_done :
    ∃ s, (initSystem InitExample.tree).runFrom (fun _ => True) InitState.start InitExample.nested
        = some s ∧ s.initialized 3 = true ∧ s.pending 1 = [] ∧ 3 ∉ s.pending 1 := by
  have hend : ((initSystem InitExample.tree).runFrom (fun _ => True) start
      InitExample.nested).map (fun s => (s.stack true, s.trace)) = some ([],
        [.sent true 1, .sent true 3, .threw true 3, .returned true 1, .sent true 2,
          .returned true 2]) := by
    decide +kernel
  obtain ⟨s, hrun, hobs⟩ := Option.map_eq_some_iff.mp hend
  simp only [Prod.mk.injEq] at hobs
  obtain ⟨hidle, htrace⟩ := hobs
  have hreach : (initSystem InitExample.tree).Reachable (fun _ => True) s :=
    System.Reachable.of_run InitExample.nested (.init rfl trivial) hrun
  obtain ⟨-, -, -, -, -, hdone⟩ := initialize_is_thread_safe InitExample.tree hreach
  have hthree := hdone true hidle 3 (by rw [htrace]; simp)
  have hone := hdone true hidle 1 (by rw [htrace]; simp)
  exact ⟨s, hrun, hthree.1, hone.2.1, hthree.2.2 1⟩

/-- **A class is marked though its +initialize never returned.** -/
theorem thrown_initialize_is_marked :
    ¬ ∀ (C T : Type) [DecidableEq C] [DecidableEq T] (tree : ClassTree C) (s : InitState C T),
        (initSystem tree).Reachable (fun _ => True) s → ∀ c, s.initialized c = true →
        ∃ t, .returned t c ∈ s.trace := by
  intro hall
  have hend : ((initSystem InitExample.tree).runFrom (fun _ => True) start
      InitExample.thrown).map (fun s => (s.initialized 1, s.trace))
      = some (true, [.sent true 1, .threw true 1]) := by
    decide +kernel
  obtain ⟨s, hrun, hobs⟩ := Option.map_eq_some_iff.mp hend
  simp only [Prod.mk.injEq] at hobs
  obtain ⟨hmarked, htrace⟩ := hobs
  have hreach : (initSystem InitExample.tree).Reachable (fun _ => True) s :=
    System.Reachable.of_run InitExample.thrown (.init rfl trivial) hrun
  obtain ⟨t, ht⟩ := hall Nat Bool InitExample.tree s hreach 1 hmarked
  rw [htrace] at ht
  simp at ht

end ObjcRuntime
