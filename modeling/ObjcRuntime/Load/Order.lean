/-
THE ORDER OF THE +load METHODS.

Images whose categories are of classes that are loaded with them or before, and
that are not unloaded.
-/
import ObjcRuntime.Load.Queue

namespace ObjcRuntime

open Lib List LoadState Nat

variable {C K : Type} {P : LoadProgram C K}

/-! ## `call_load_methods` returns -/

namespace LoadState

/-- How many steps are left, at most, if no more images are loaded and `classes` and `categories`
entries are in the lists. -/
def outerSteps (classes categories : Nat) : Nat := 4 * classes + 4 * categories + 6

def stepsLeft (s : LoadState P) : Nat :=
  let classes := s.loadable_classes.length
  let categories := s.loadable_categories.length
  -- the outer loop goes on only when something new was scheduled
  let again := fun array =>
    if 0 < classes ∨ 0 < categories then outerSteps classes (array + categories) else 0
  match s.pc with
  | .idle => 0
  | .whileLoop => outerSteps classes categories
  | .classLoop rest => 2 * rest.length + outerSteps classes categories + 1
  | .classLoad rest => 2 * rest.length + outerSteps classes categories + 2
  | .categoryLoop passed rest => 2 * rest.length + again (passed.length + rest.length) + 1
  | .categoryLoad passed _ rest => 2 * rest.length + again (passed.length + 1 + rest.length) + 2

theorem go_decreases {s s' : LoadState P} (h : s.go = some s') : s'.stepsLeft < s.stepsLeft := by
  unfold go at h
  split at h
  next => cases h
  next hpc =>
    split at h
    next hclasses =>
      cases h
      unfold stepsLeft
      simp only [hpc, length_nil, outerSteps]
      omega
    next hclasses =>
      cases h
      unfold stepsLeft
      simp only [hpc, length_nil, outerSteps, hclasses, lt_irrefl, or_self, if_false]
      omega
  next hpc =>
    cases h
    unfold stepsLeft
    simp only [hpc]
    omega
  next item rest hpc =>
    cases h
    unfold classIteration
    split
    all_goals
      unfold stepsLeft
      simp only [hpc, length_cons]
      omega
  next rest hpc =>
    cases h
    unfold stepsLeft
    simp only [hpc]
    omega
  next passed hpc =>
    cases h
    have hfilter : (passed.filter (·.cat.isSome)).length ≤ passed.length :=
      length_filter_le _ _
    unfold stepsLeft categoryEnd
    simp only [hpc]
    split
    next hpc' => omega
    next hpc' =>
      split at hpc'
      next hagain =>
        simp only [if_pos hagain, outerSteps, length_append, length_nil]
        omega
      next => cases hpc'
    all_goals
      rename_i hpc'
      split at hpc' <;> cases hpc'
  next passed item rest hpc =>
    cases h
    have hpass : ({ s with pc := .categoryLoop (passed ++ [item]) rest } : LoadState P).stepsLeft
        < s.stepsLeft := by
      unfold stepsLeft
      simp only [hpc, length_append, length_cons, length_nil, zero_add, add_assoc, add_comm 1]
      omega
    unfold categoryIteration
    split
    next => exact hpass
    split
    next => exact hpass
    rw [isLoadable, if_pos rfl]
    unfold stepsLeft
    simp only [hpc, length_cons, add_assoc, add_comm 1]
    omega
  next passed item rest hpc =>
    cases h
    unfold stepsLeft
    simp only [hpc, length_append, length_cons, length_nil, zero_add]
    omega

theorem go_enabled {s : LoadState P} (h : s.pc ≠ .idle) : ∃ s', s.go = some s' := by
  unfold go
  split
  next hpc => exact absurd hpc h
  next => split <;> exact ⟨_, rfl⟩
  all_goals exact ⟨_, rfl⟩

end LoadState

/-- **`call_load_methods` returns**, by induction on the steps that are left. -/
theorem LoadState.go_terminates [DecidableEq C] [DecidableEq K] (n : Nat) : ∀ s : LoadState P, s.stepsLeft < n →
    ∃ k s', (loadSystem P).runFrom (fun _ => True) s (replicate k .go) = some s' ∧
      s'.pc = .idle := by
  induction n with
  | zero => exact fun s hn => absurd hn (Nat.not_lt_zero _)
  | succ n ih => ?_
  intro s hn
  by_cases hidle : s.pc = .idle
  · exact ⟨0, s, rfl, hidle⟩
  obtain ⟨s', hgo⟩ := go_enabled hidle
  have hless := go_decreases hgo
  obtain ⟨k, s'', hrun, hend⟩ := ih s' (by omega)
  refine ⟨k + 1, s'', ?_, hend⟩
  show (s.go).bind _ = _
  rw [hgo, Option.bind_some, if_pos trivial]
  exact hrun

/-! ## The invariant -/

theorem LoadProgram.Above.depth_lt {c d : C} (h : P.Above d c) : P.depth d < P.depth c := by
  induction h with
  | single hstep => exact P.superclass_depth _ _ hstep
  | tail _ hstep ih => exact lt_trans (P.superclass_depth _ _ hstep) ih

def LoadProgram.classCall (P : LoadProgram C K) (c : C) : LoadEvent C K :=
  .classLoad c (P.getLoadMethod c)

def LoadProgram.categoryCall (P : LoadProgram C K) (k : K) (c : C) : LoadEvent C K :=
  .categoryLoad k c (P.categoryLoadMethod k)

namespace LoadState

structure OrderInv (s : LoadState P) : Prop where
  queue : s.QueueInv
  closed : P.Closed s.loaded
  complete : ∀ c, s.loaded c = true → P.getLoadMethod c ≠ 0 → c ∈ s.calledClasses ++ s.classQueue
  ordered : (s.calledClasses ++ s.classQueue).Pairwise fun a b => ¬ P.Above b a
  entries : ∀ item ∈ s.pc.detachedClasses ++ s.loadable_classes, ∃ c, item = classEntry P c
  categoryEntries : ∀ item ∈ s.pc.detachedCategories ++ s.loadable_categories,
    ∃ k c, item = categoryEntry P k ∧ P.categoryClass k = some c ∧
      (P.getLoadMethod c ≠ 0 → s.loaded c = true)
  passed : ∀ item ∈ s.pc.passedCategories, item.cat = none
  scheduled : ∀ image ∈ s.images, ∀ k ∈ scheduledCategories P image.nonlazyCategories,
    k ∈ s.calledCategories ++ s.categoryQueue
  classesCalled : ∀ item ∈ s.pc.detachedCategories, ∀ k c, item.cat = some k →
    P.categoryClass k = some c → P.getLoadMethod c ≠ 0 → c ∈ s.calledClasses
  called : ∀ c ∈ s.calledClasses, P.classCall c ∈ s.trace
  superFirst : ∀ c ∈ s.calledClasses, ∀ d, P.Above d c → P.getLoadMethod d ≠ 0 →
    [P.classCall d, P.classCall c].Sublist s.trace
  classFirst : ∀ k ∈ s.calledCategories, ∀ c, P.categoryClass k = some c →
    P.getLoadMethod c ≠ 0 → [P.classCall c, P.categoryCall k c].Sublist s.trace
  idle : s.pc = .idle → s.loadable_classes = [] ∧ s.loadable_categories = []

variable {s s' : LoadState P}

theorem OrderInv.silent (h : s.OrderInv) (hgo : s.go = some s') {pc : LoadPC C K} (hpc : s.pc = pc)
    (htrace : s'.trace = s.trace)
    (hclasses : ∀ item ∈ s'.pc.detachedClasses ++ s'.loadable_classes,
      item ∈ pc.detachedClasses ++ s.loadable_classes)
    (hcategories : ∀ item ∈ s'.pc.detachedCategories ++ s'.loadable_categories,
      item ∈ pc.detachedCategories ++ s.loadable_categories)
    (hpassed : ∀ item ∈ s'.pc.passedCategories, item.cat = none)
    (hcalled : ∀ item ∈ s'.pc.detachedCategories, item ∈ pc.detachedCategories ∨
      s.classQueue = [] ∧ item ∈ s.loadable_categories)
    (hidle : s'.pc = .idle → s'.loadable_classes = [] ∧ s'.loadable_categories = []) :
    s'.OrderInv := by
  subst hpc
  obtain ⟨hloaded, himages, hmoves⟩ := go_spec hgo
  have hcalls : s'.calledClasses = s.calledClasses := by rw [calledClasses, htrace]; rfl
  have hcalls' : s'.calledCategories = s.calledCategories := by
    rw [calledCategories, htrace]; rfl
  refine ⟨h.queue.go hgo, ?_, ?_, ?_, fun item hitem => h.entries item (hclasses item hitem),
    fun item hitem => ?_, hpassed, fun image hi k hk => ?_, fun item hitem k c hk hc hm => ?_,
    ?_, ?_, ?_, hidle⟩
  · rw [hloaded]
    exact h.closed
  · rw [hloaded, hmoves.classOrder]
    exact h.complete
  · rw [hmoves.classOrder]
    exact h.ordered
  · rw [hloaded]
    exact h.categoryEntries item (hcategories item hitem)
  · rw [himages] at hi
    exact hmoves.categoryOrder.mem_iff.mp (h.scheduled image hi k hk)
  · rw [hcalls]
    rcases hcalled item hitem with hitem | ⟨hempty, hitem⟩
    · exact h.classesCalled item hitem k c hk hc hm
    -- the classes have all been called when the categories are detached
    obtain ⟨k', c', rfl, hc', hload⟩ := h.categoryEntries item (mem_append_right _ hitem)
    obtain rfl : k' = k := by simpa [categoryEntry] using hk
    obtain rfl : c' = c := by
      rw [hc'] at hc
      injection hc
    have hmem := h.complete c' (hload hm) hm
    rw [hempty, append_nil] at hmem
    exact hmem
  · rw [hcalls, htrace]
    exact h.called
  · rw [hcalls, htrace]
    exact h.superFirst
  · rw [hcalls', htrace]
    exact h.classFirst

theorem sublist_pair_append {trace : List (LoadEvent C K)} {e e' : LoadEvent C K} (h : e ∈ trace) :
    [e, e'].Sublist (trace ++ [e']) :=
  Sublist.append (singleton_sublist.mpr h) (Sublist.refl [e'])

variable (h : s.OrderInv)
include h

theorem OrderInv.classIteration {item : LoadableClass C}
    {rest : List (LoadableClass C)} (hpc : s.pc = .classLoop (item :: rest)) :
    (s.classIteration item rest).OrderInv := by
  have hgo : s.go = some (s.classIteration item rest) := by
    unfold go
    rw [hpc]
  have hentries := h.entries
  rw [hpc] at hentries
  obtain ⟨c, rfl⟩ := hentries item mem_cons_self
  have hmoves := (go_spec hgo).2.2
  have horder := hmoves.classOrder
  have hcalls : (s.classIteration (classEntry P c) rest).calledClasses = s.calledClasses ++ [c] :=
    calledClasses_append (e := P.classCall c) rfl
  have hcalls' : (s.classIteration (classEntry P c) rest).calledCategories = s.calledCategories :=
    (calledCategories_append rfl).trans (append_nil _)
  have hsub : s.trace.Sublist (s.trace ++ [P.classCall c]) := sublist_append_left _ _
  refine ⟨h.queue.go hgo, h.closed, ?_, ?_, fun item hitem => hentries item (mem_cons_of_mem _ hitem),
    ?_, nofun,
    fun image hi k hk => hmoves.categoryOrder.mem_iff.mp (h.scheduled image hi k hk),
    nofun, ?_, ?_, ?_, nofun⟩
  · rw [horder]
    exact h.complete
  · rw [horder]
    exact h.ordered
  · have := h.categoryEntries
    rw [hpc] at this
    exact this
  · intro c' hc'
    rw [hcalls] at hc'
    rcases mem_append.mp hc' with hc' | hc'
    · exact mem_append_left _ (h.called c' hc')
    · rw [mem_singleton.mp hc']
      exact mem_append_right _ mem_cons_self
  · intro c' hc' d hd hm
    rw [hcalls] at hc'
    rcases mem_append.mp hc' with hc' | hc'
    · exact (h.superFirst c' hc' d hd hm).trans hsub
    obtain rfl := mem_singleton.mp hc'
    refine sublist_pair_append (h.called d ?_)
    -- a superclass is loaded, and does not wait behind its subclass
    have hqueue0 : s.classQueue = c' :: (s.classIteration (classEntry P c') rest).classQueue := by
      rw [hcalls, append_assoc] at horder
      exact (append_cancel_left horder).symm
    have hcload : s.loaded c' = true :=
      h.queue.loaded c' (by rw [hqueue0]; simp)
    have hmem := h.complete d (h.closed.above hd hcload) hm
    have hordered := (pairwise_append.mp h.ordered).2.1
    rw [hqueue0] at hmem hordered
    rcases mem_append.mp hmem with hmem | hmem
    · exact hmem
    rcases mem_cons.mp hmem with rfl | hmem
    · exact absurd hd.depth_lt (lt_irrefl _)
    · exact absurd hd ((pairwise_cons.mp hordered).1 d hmem)
  · rw [hcalls']
    exact fun k hk c' hc' hm => (h.classFirst k hk c' hc' hm).trans hsub

theorem OrderInv.categoryIteration {passed rest : List (LoadableCategory K)}
    {item : LoadableCategory K} (hpc : s.pc = .categoryLoop passed (item :: rest)) :
    (s.categoryIteration passed item rest).OrderInv := by
  have hgo : s.go = some (s.categoryIteration passed item rest) := by
    unfold go
    rw [hpc]
  have hentries := h.categoryEntries
  have hfirst := h.classesCalled
  rw [hpc] at hentries hfirst
  obtain ⟨k, c, rfl, hc, -⟩ := hentries item mem_cons_self
  have hs' : s.categoryIteration passed (categoryEntry P k) rest = { s with
      trace := s.trace ++ [P.categoryCall k c]
      pc := .categoryLoad passed (categoryEntry P k) rest } := by
    unfold LoadState.categoryIteration
    simp only [categoryEntry, hc, isLoadable, if_true]
    rfl
  have hmoves := (go_spec hgo).2.2
  have hqueue := h.queue.go hgo
  rw [hs'] at hmoves hqueue ⊢
  have hcalls : LoadState.calledClasses ({ s with
      trace := s.trace ++ [P.categoryCall k c]
      pc := .categoryLoad passed (categoryEntry P k) rest } : LoadState P) = s.calledClasses :=
    (calledClasses_append rfl).trans (append_nil _)
  have hsub : s.trace.Sublist (s.trace ++ [P.categoryCall k c]) := sublist_append_left _ _
  refine ⟨hqueue, h.closed, ?_, ?_, ?_, fun item hitem => hentries item (mem_cons_of_mem _ hitem),
    ?_, fun image hi k' hk' => hmoves.categoryOrder.mem_iff.mp (h.scheduled image hi k' hk'),
    ?_, ?_, ?_, ?_, by simp⟩
  · rw [hmoves.classOrder]
    exact h.complete
  · rw [hmoves.classOrder]
    exact h.ordered
  · have := h.entries
    rw [hpc] at this
    exact this
  · have := h.passed
    rw [hpc] at this
    exact this
  · rw [hcalls]
    exact fun item hitem => hfirst item (mem_cons_of_mem _ hitem)
  · rw [hcalls]
    exact fun c' hc' => hsub.subset (h.called c' hc')
  · rw [hcalls]
    exact fun c' hc' d hd hm => (h.superFirst c' hc' d hd hm).trans hsub
  intro k' hk' c' hc' hm
  rw [calledCategories_append rfl] at hk'
  rcases mem_append.mp hk' with hk' | hk'
  · exact (h.classFirst k' hk' c' hc' hm).trans hsub
  obtain rfl := mem_singleton.mp hk'
  obtain rfl : c = c' := by
    rw [hc] at hc'
    injection hc'
  exact sublist_pair_append (h.called c (hfirst _ mem_cons_self k' c rfl hc hm))

theorem OrderInv.go (hgo : s.go = some s') : s'.OrderInv := by
  have hgo' := hgo
  unfold LoadState.go at hgo
  split at hgo
  next => cases hgo
  next hpc =>
    split at hgo
    next =>
      cases hgo
      refine h.silent hgo' hpc rfl ?_ (fun _ => id) (forall_mem_nil _) (forall_mem_nil _) (by simp)
      simp [LoadPC.detachedClasses]
    rename_i hnone
    cases hgo
    have hempty : s.loadable_classes = [] :=
      eq_nil_of_length_eq_zero (Nat.eq_zero_of_not_pos hnone)
    refine h.silent hgo' hpc rfl (fun _ => id) ?_ (forall_mem_nil _)
      (fun item hitem => .inr ⟨?_, hitem⟩) (by simp)
    · simp [LoadPC.detachedCategories]
    rw [classQueue_of_pc hpc, hempty]
    rfl
  next hpc =>
    cases hgo
    exact h.silent hgo' hpc rfl (fun _ => id) (fun _ => id) (forall_mem_nil _) (forall_mem_nil _)
      (by simp)
  next item rest hpc =>
    cases hgo
    exact h.classIteration hpc
  next rest hpc =>
    cases hgo
    exact h.silent hgo' hpc rfl (fun _ => id) (fun _ => id) (forall_mem_nil _) (forall_mem_nil _)
      (by simp)
  next passed hpc =>
    cases hgo
    have hpassed := h.passed
    rw [hpc] at hpassed
    have hcompact : passed.filter (·.cat.isSome) = [] := by
      refine filter_eq_nil_iff.mpr fun item hitem => ?_
      rw [hpassed item hitem]
      simp
    have hend : s.categoryEnd passed = { s with
        pc := if 0 < s.loadable_classes.length ∨ 0 < s.loadable_categories.length then .whileLoop
          else .idle } := by
      unfold categoryEnd
      rw [hcompact]
      rfl
    rw [hend] at hgo' ⊢
    split at hgo'
    next hagain =>
      rw [if_pos hagain]
      exact h.silent hgo' hpc rfl (fun _ => id) (fun _ => id) (forall_mem_nil _) (forall_mem_nil _)
        (by simp)
    rename_i hagain
    rw [if_neg hagain]
    refine h.silent hgo' hpc rfl (fun _ => id) (fun _ => id) (forall_mem_nil _) (forall_mem_nil _)
      fun _ => ?_
    simp only [not_or, Nat.not_lt, Nat.le_zero, length_eq_zero_iff] at hagain
    exact hagain
  next passed item rest hpc =>
    cases hgo
    exact h.categoryIteration hpc
  rename_i passed item rest hpc
  cases hgo
  have hpassed := h.passed
  rw [hpc] at hpassed
  refine h.silent hgo' hpc rfl (fun _ => id) (fun _ => id) (fun item' hitem => ?_) (fun _ => .inl)
    (by simp)
  rcases mem_append.mp hitem with hitem | hitem
  · exact hpassed item' hitem
  · rw [mem_singleton.mp hitem]

def Ready (s : LoadState P) (image : Image P) : Prop :=
  ∀ k ∈ image.nonlazyCategories, ∀ c ∈ P.categoryClass k,
    c ∈ image.classes ∨ ∃ other ∈ s.images, c ∈ other.classes

instance [DecidableEq C] (s : LoadState P) (image : Image P) : Decidable (s.Ready image) :=
  inferInstanceAs (Decidable (∀ k ∈ image.nonlazyCategories, _))

theorem OrderInv.load {s1 : LoadState P} {image : Image P} {new : List C}
    (hload : s.Loads s1 image new) (hready : s.Ready image)
    (hown : ∀ other ∈ s.images, ∀ k ∈ image.categories, k ∉ other.categories) : s1.OrderInv := by
  obtain ⟨hdc, hdk, hpassed, hclasses, hcategories⟩ := hload.queues
  have hcalls : s1.calledClasses = s.calledClasses := by rw [calledClasses, hload.trace]; rfl
  have hcalls' : s1.calledCategories = s.calledCategories := by
    rw [calledCategories, hload.trace]; rfl
  refine ⟨h.queue.load hload hown, hload.flags.closed h.closed, fun c hc hm => ?_, ?_,
    fun item hitem => ?_, fun item hitem => ?_, hpassed ▸ h.passed, fun other hother k hk => ?_,
    ?_, ?_, ?_, ?_, fun hidle => ?_⟩
  · rw [hcalls, hclasses, ← append_assoc]
    rcases hload.flags.all c hc hm with hc | hc
    · exact mem_append_left _ (h.complete c hc hm)
    · exact mem_append_right _ hc
  · rw [hcalls, hclasses, ← append_assoc]
    refine pairwise_append.mpr ⟨h.ordered, hload.flags.ordered h.closed, fun a ha b hb habove => ?_⟩
    have hloaded := h.closed.above habove (h.queue.loaded a ha)
    rw [(hload.flags.fresh b hb).1] at hloaded
    cases hloaded
  · rw [hdc, hload.classes, ← append_assoc] at hitem
    rcases mem_append.mp hitem with hitem | hitem
    · exact h.entries item hitem
    · obtain ⟨c, -, rfl⟩ := mem_map.mp hitem
      exact ⟨c, rfl⟩
  · rw [hdk, hload.categories, ← append_assoc] at hitem
    rcases mem_append.mp hitem with hitem | hitem
    · obtain ⟨k, c, hentry, hc, hm⟩ := h.categoryEntries item hitem
      exact ⟨k, c, hentry, hc, fun hne => hload.flags.keeps c (hm hne)⟩
    obtain ⟨k, hk, rfl⟩ := mem_map.mp hitem
    obtain ⟨hk, hscheduled⟩ := mem_filter.mp hk
    simp only [ne_eq, decide_eq_true_eq] at hscheduled
    obtain ⟨c, hc⟩ := Option.isSome_iff_exists.mp hscheduled.1
    refine ⟨k, c, rfl, hc, fun hm => ?_⟩
    rcases hready k hk c hc with hmem | ⟨other, hother, hmem⟩
    · exact hload.nonlazy c (image.nonlazy_complete c hmem hm)
    · exact hload.flags.keeps c (h.queue.nonlazy other hother c (other.nonlazy_complete c hmem hm))
  · rw [hcalls', hcategories, ← append_assoc]
    rw [hload.images] at hother
    rcases mem_cons.mp hother with rfl | hother
    · exact mem_append_right _ hk
    · exact mem_append_left _ (h.scheduled other hother k hk)
  · rw [hdk, hcalls]
    exact h.classesCalled
  · rw [hcalls, hload.trace]
    exact h.called
  · rw [hcalls, hload.trace]
    exact h.superFirst
  · rw [hcalls', hload.trace]
    exact h.classFirst
  rcases hload.pc with ⟨hpc, hne⟩ | ⟨hpc, -⟩ | ⟨hpc, hnew, hcats⟩
  · exact absurd (hpc ▸ hidle) hne
  · rw [hpc] at hidle
    cases hidle
  obtain ⟨h1, h2⟩ := h.idle (hpc ▸ hidle)
  rw [hload.classes, hload.categories, h1, h2, hnew, hcats]
  exact ⟨rfl, rfl⟩

def Orderly (s : LoadState P) : LoadAction P → Prop
  | .load image => s.Ready image
  | .unload _ => False
  | .go => True

variable [DecidableEq C] [DecidableEq K]

instance (s : LoadState P) : ∀ a : LoadAction P, Decidable (s.Orderly a)
  | .load image => inferInstanceAs (Decidable (s.Ready image))
  | .unload _ => .isFalse id
  | .go => .isTrue trivial

theorem OrderInv.step {a : LoadAction P} (ha : s.Orderly a)
    (hstep : s.step a = some s') : s'.OrderInv := by
  cases a with
  | load image =>
    obtain ⟨hguard, ⟨⟩⟩ := Option.ite_none_right_eq_some.mp hstep
    obtain ⟨new, hload⟩ := load_images_spec s image
    exact h.load hload.reinstate ha hguard.2
  | unload image => exact absurd ha id
  | go => exact h.go hstep

omit h

omit [DecidableEq C] [DecidableEq K] in
theorem OrderInv.start : (LoadState.start P).OrderInv where
  queue := .start
  closed _ _ hc := nomatch hc
  complete _ hc := nomatch hc
  ordered := Pairwise.nil
  entries _ hitem := nomatch hitem
  categoryEntries _ hitem := nomatch hitem
  passed _ hitem := nomatch hitem
  scheduled _ hi := nomatch hi
  classesCalled _ hitem := nomatch hitem
  called _ hc := nomatch hc
  superFirst _ hc := nomatch hc
  classFirst _ hk := nomatch hk
  idle _ := ⟨rfl, rfl⟩

theorem orderInv_of_go (k : Nat) : ∀ {s s' : LoadState P}, s.OrderInv →
    (loadSystem P).runFrom (fun _ => True) s (replicate k .go) = some s' → s'.OrderInv := by
  induction k with
  | zero =>
    intro s s' h hrun
    cases hrun
    exact h
  | succ k ih => ?_
  intro s s' h hrun
  rw [replicate_succ, System.runFrom, Option.bind_eq_some_iff] at hrun
  obtain ⟨mid, hmid, hrest⟩ := hrun
  exact ih (h.go hmid) hrest

/-! ## The main result -/

structure AllCalled (s : LoadState P) : Prop where
  classes : ∀ c, s.loaded c = true → P.getLoadMethod c ≠ 0 → s.calledClasses.count c = 1
  categories : ∀ image ∈ s.images, ∀ k ∈ scheduledCategories P image.nonlazyCategories,
    s.calledCategories.count k = 1
  superFirst : ∀ c, s.loaded c = true → P.getLoadMethod c ≠ 0 → ∀ d, P.Above d c →
    P.getLoadMethod d ≠ 0 → [P.classCall d, P.classCall c].Sublist s.trace
  classFirst : ∀ image ∈ s.images, ∀ k ∈ scheduledCategories P image.nonlazyCategories,
    ∀ c, P.categoryClass k = some c → P.getLoadMethod c ≠ 0 →
    [P.classCall c, P.categoryCall k c].Sublist s.trace
  empty : s.loadable_classes = [] ∧ s.loadable_categories = []

theorem OrderInv.allCalled (h : s.OrderInv) (hidle : s.pc = .idle) : s.AllCalled := by
  obtain ⟨hclasses, hcategories⟩ := h.idle hidle
  have hqueue : s.classQueue = [] := by
    rw [classQueue_of_pc hidle, hclasses]
    rfl
  have hqueue' : s.categoryQueue = [] := by
    rw [categoryQueue_of_pc hidle, hcategories]
    rfl
  have hcomplete := h.complete
  have hnodup := h.queue.nodup
  have hscheduled := h.scheduled
  have hnodup' := h.queue.categoryNodup
  rw [hqueue, append_nil] at hcomplete hnodup
  rw [hqueue', append_nil] at hscheduled hnodup'
  exact ⟨fun c hc hm => count_eq_one_of_mem hnodup (hcomplete c hc hm),
    fun image hi k hk => count_eq_one_of_mem hnodup' (hscheduled image hi k hk),
    fun c hc hm => h.superFirst c (hcomplete c hc hm),
    fun image hi k hk => h.classFirst k (hscheduled image hi k hk), hclasses, hcategories⟩

end LoadState

/-- **The +load methods.**  In every run without unloading in which the categories of an image are
of classes loaded with it or before, whatever images the +load methods load: when
`call_load_methods` is not running, every +load that was scheduled was called once, after those of
its superclasses or of its class, and nothing is left in the lists.  When it is running it returns,
if no more images are loaded. -/
theorem load_methods_called_in_order [DecidableEq C] [DecidableEq K] (P : LoadProgram C K)
    (as : List (LoadAction P))
    (h : (loadSystem P).AllSteps LoadState.Orderly (LoadState.start P) as) :
    (loadSystem P).AllStates (fun s => (s.pc = .idle → s.AllCalled) ∧
      ∃ k s', (loadSystem P).runFrom (fun _ => True) s (replicate k .go) = some s' ∧
        s'.pc = .idle ∧ s'.AllCalled) (LoadState.start P) as := by
  have hall : (loadSystem P).AllStates OrderInv (start P) as :=
    System.AllSteps.allStates (fun _ _ _ hinv ha hstep => LoadState.OrderInv.step hinv ha hstep)
      as .start h
  refine System.AllStates.mono (fun s hinv => ⟨hinv.allCalled, ?_⟩) as hall
  obtain ⟨k, s', hrun, hidle⟩ := go_terminates _ s (Nat.lt_succ_self _)
  refine ⟨k, s', hrun, hidle, ?_⟩
  have hlater : s'.OrderInv := orderInv_of_go k hinv hrun
  exact hlater.allCalled hidle

namespace LoadTree

def program : LoadProgram Nat Nat where
  superclass c := if c = 2 then some 1 else none
  depth c := c
  superclass_depth c d h := by
    obtain ⟨hc, h⟩ := Option.ite_none_right_eq_some.mp h
    injection h with h
    omega
  getLoadMethod c := c
  categoryClass _ := some 1
  categoryLoadMethod k := k

def first : Image program where
  classes := [1]
  nonlazyClasses := [some 1]
  categories := [8]
  nonlazyCategories := [8]
  nonlazy_complete c hc _ := by
    rw [mem_singleton.mp hc]
    exact mem_cons_self
  nonlazyCategories_nodup := nodup_singleton 8
  nonlazyCategories_subset _ hk := hk

def second : Image program where
  classes := [2]
  nonlazyClasses := [some 2]
  categories := [9]
  nonlazyCategories := [9]
  nonlazy_complete c hc _ := by
    rw [mem_singleton.mp hc]
    exact mem_cons_self
  nonlazyCategories_nodup := nodup_singleton 9
  nonlazyCategories_subset _ hk := hk

def reentrant : List (LoadAction program) :=
  [.load first] ++ replicate 6 .go ++ [.load second] ++ replicate 10 .go

end LoadTree

theorem reentrant_loads_in_order :
    ∃ s, (loadSystem LoadTree.program).runFrom (fun _ => True) (LoadState.start _)
        LoadTree.reentrant = some s ∧ s.pc = .idle ∧
      s.trace = [.classLoad 1 1, .categoryLoad 8 1 8, .classLoad 2 2, .categoryLoad 9 1 9] ∧
      s.AllCalled := by
  have hend : ((loadSystem LoadTree.program).runFrom (fun _ => True) (start _)
      LoadTree.reentrant).map (fun s => (s.pc, s.trace)) = some (.idle,
        [.classLoad 1 1, .categoryLoad 8 1 8, .classLoad 2 2, .categoryLoad 9 1 9]) := by
    decide +kernel
  obtain ⟨s, hrun, hobs⟩ := Option.map_eq_some_iff.mp hend
  simp only [Prod.mk.injEq] at hobs
  have horderly : (loadSystem LoadTree.program).AllSteps Orderly (start _)
      LoadTree.reentrant := by
    decide +kernel
  have hstates := (load_methods_called_in_order LoadTree.program _ horderly).of_run _ hrun
  exact ⟨s, hrun, hobs.1, hobs.2, hstates.1 hobs.1⟩

end ObjcRuntime
