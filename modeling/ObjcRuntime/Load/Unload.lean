/-
IMAGES THAT ARE UNLOADED.

`remove_class_from_loadable_list` looks at the list only, not at the array that
`call_class_loads` has detached. As long as no image is unloaded that has an
entry in a detached array, a removed +load is never called, unless an image
that is loaded later schedules it again.
-/
import ObjcRuntime.Load.Queue

namespace ObjcRuntime

open Lib List LoadState

variable {C K : Type} {P : LoadProgram C K} [DecidableEq C] [DecidableEq K]

namespace LoadState

/-! ## Removing entries -/

section

variable {α β : Type} [DecidableEq α] {key : β → Option α} {clear : β → β}

theorem filterMap_removeFirst (hclear : ∀ b, key (clear b) = none) (a : α) (items : List β) :
    (removeFirst key clear a items).filterMap key = (items.filterMap key).erase a := by
  induction items with
  | nil => rfl
  | cons item items ih => ?_
  rw [removeFirst]
  split
  next h => rw [filterMap_cons_none (hclear item), filterMap_cons_some h, erase_cons_head]
  rename_i h
  cases hkey : key item with
  | none => rw [filterMap_cons_none hkey, filterMap_cons_none hkey, ih]
  | some b =>
    rw [filterMap_cons_some hkey, filterMap_cons_some hkey, ih,
      erase_cons_tail (by simpa [hkey] using h)]

theorem filterMap_removeAll (hclear : ∀ b, key (clear b) = none) (as : List α) :
    ∀ items : List β,
      (as.foldl (fun items a => removeFirst key clear a items) items).filterMap key
        = (items.filterMap key).diff as := by
  induction as with
  | nil => exact fun _ => rfl
  | cons a as ih =>
    intro items
    rw [foldl_cons, ih, filterMap_removeFirst hclear, diff_cons]

/-- Nothing is in the queue twice, what is in it is `known`, and what was removed is not in it. -/
structure QueueOK (queue : List α) (removed : α → Bool) (known : α → Prop) : Prop where
  nodup : queue.Nodup
  known : ∀ a ∈ queue, known a
  removed : ∀ a, removed a = true → a ∉ queue

variable {queue queue' new detached list : List α} {removed removed' : α → Bool}
  {known known' : α → Prop}

omit [DecidableEq α] in
theorem QueueOK.sublist (h : QueueOK queue removed known) (hsub : queue'.Subperm queue) :
    QueueOK queue' removed known := by
  obtain ⟨l, hperm, hsub⟩ := hsub
  refine ⟨hperm.nodup_iff.mp (h.nodup.sublist hsub), fun a ha => ?_, fun a hr ha => ?_⟩
  · exact h.known a (hsub.subset (hperm.mem_iff.mpr ha))
  · exact h.removed a hr (hsub.subset (hperm.mem_iff.mpr ha))

omit [DecidableEq α] in
theorem QueueOK.append (h : QueueOK queue removed known) (hnodup : new.Nodup)
    (hfresh : ∀ a ∈ new, ¬ known a ∧ known' a ∧ removed' a = false)
    (hknown : ∀ a, known a → known' a) (hremoved : ∀ a, removed' a = true → removed a = true) :
    QueueOK (queue ++ new) removed' known' := by
  refine ⟨nodup_append.mpr ⟨h.nodup, hnodup, fun a ha b hb hab => ?_⟩, fun a ha => ?_,
    fun a hr ha => ?_⟩
  · exact (hfresh b hb).1 (hab ▸ h.known a ha)
  · rcases mem_append.mp ha with ha | ha
    · exact hknown a (h.known a ha)
    · exact (hfresh a ha).2.1
  rcases mem_append.mp ha with ha | ha
  · exact h.removed a (hremoved a hr) ha
  · rw [(hfresh a ha).2.2] at hr
    cases hr

theorem QueueOK.remove (h : QueueOK (detached ++ list) removed known) (as : List α)
    (hdetached : ∀ a ∈ as, a ∉ detached) (hknown : ∀ a, known a → a ∉ as → known' a) :
    QueueOK (detached ++ list.diff as) (fun a => removed a || decide (a ∈ as)) known' := by
  have hsub : (detached ++ list.diff as).Sublist (detached ++ list) :=
    Sublist.append_left (diff_sublist list as) _
  have hout : ∀ a ∈ as, a ∉ detached ++ list.diff as := by
    intro a ha hmem
    rcases mem_append.mp hmem with hmem | hmem
    · exact hdetached a ha hmem
    · exact ((nodup_append.mp h.nodup).2.1.mem_sdiff_iff.mp hmem).2 ha
  refine ⟨h.nodup.sublist hsub, fun a ha => ?_, fun a hr ha => ?_⟩
  · exact hknown a (h.known a (hsub.subset ha)) fun has => hout a has ha
  rcases Bool.or_eq_true_iff.mp hr with hr | hr
  · exact h.removed a hr (hsub.subset ha)
  · exact hout a (of_decide_eq_true hr) ha

end

/-! ## What was removed stays out of the queues -/

structure RemovalInv (s : LoadState P) : Prop where
  classes : QueueOK s.classQueue s.removed (s.loaded · = true)
  categories : QueueOK s.categoryQueue s.removedCategory
    fun k => ∃ image ∈ s.images, k ∈ image.categories

variable {s s' : LoadState P}

omit [DecidableEq C] [DecidableEq K] in
theorem go_removed (hgo : s.go = some s') :
    s'.removed = s.removed ∧ s'.removedCategory = s.removedCategory := by
  unfold LoadState.go at hgo
  split at hgo
  next => cases hgo
  next => split at hgo <;> (cases hgo; exact ⟨rfl, rfl⟩)
  next =>
    cases hgo
    exact ⟨rfl, rfl⟩
  next =>
    cases hgo
    unfold classIteration
    split <;> exact ⟨rfl, rfl⟩
  next =>
    cases hgo
    exact ⟨rfl, rfl⟩
  next =>
    cases hgo
    exact ⟨rfl, rfl⟩
  next =>
    cases hgo
    unfold categoryIteration
    split
    next => exact ⟨rfl, rfl⟩
    split
    next => exact ⟨rfl, rfl⟩
    split <;> exact ⟨rfl, rfl⟩
  next =>
    cases hgo
    exact ⟨rfl, rfl⟩

section

variable (h : s.RemovalInv)

include h

omit [DecidableEq C] [DecidableEq K] in
theorem RemovalInv.go (hgo : s.go = some s') : s'.RemovalInv := by
  obtain ⟨hloaded, himages, hmoves⟩ := go_spec hgo
  obtain ⟨hremoved, hremoved'⟩ := go_removed hgo
  have hqueues : s'.classQueue.Subperm s.classQueue ∧ s'.categoryQueue.Subperm s.categoryQueue := by
    cases hmoves with
    | silent _ hclasses hcategories =>
      rw [hclasses, hcategories]
      exact ⟨.refl _, .refl _⟩
    | classLoad cls method _ hclasses hcategories =>
      rw [hclasses, hcategories]
      exact ⟨(sublist_cons_self _ _).subperm, .refl _⟩
    | categoryLoad cat cls method _ hclasses hperm =>
      rw [hclasses]
      exact ⟨.refl _, (sublist_cons_self _ _).subperm.trans hperm.symm.subperm⟩
  refine ⟨?_, ?_⟩
  · rw [hremoved, hloaded]
    exact h.classes.sublist hqueues.1
  · rw [hremoved', himages]
    exact h.categories.sublist hqueues.2

theorem RemovalInv.load {image : Image P}
    (hown : ∀ other ∈ s.images, ∀ k ∈ image.categories, k ∉ other.categories) :
    ((s.load_images image).reinstate s image).RemovalInv := by
  obtain ⟨new, hload⟩ := load_images_spec s image
  obtain ⟨-, -, -, hclasses, hcategories⟩ := hload.reinstate.queues
  have hsub : ∀ k ∈ scheduledCategories P image.nonlazyCategories, k ∈ image.categories :=
    fun k hk => image.nonlazyCategories_subset k (mem_of_mem_filter hk)
  refine ⟨?_, ?_⟩
  · rw [hclasses]
    refine h.classes.append hload.flags.nodup (fun c hc => ?_) hload.flags.keeps
      fun c hc => (Bool.and_eq_true_iff.mp hc).1
    obtain ⟨hbefore, hafter, -⟩ := hload.flags.fresh c hc
    simp [LoadState.reinstate, hbefore, hafter]
  rw [hcategories]
  refine h.categories.append (image.nonlazyCategories_nodup.filter _) (fun k hk => ⟨?_, ?_, ?_⟩)
    (fun k hk => ?_) fun k hk => (Bool.and_eq_true_iff.mp hk).1
  · rintro ⟨other, hother, hmem⟩
    exact hown other hother k (hsub k hk) hmem
  · rw [hload.reinstate.images]
    exact ⟨image, mem_cons_self, hsub k hk⟩
  · simp [LoadState.reinstate, hsub k hk]
  · obtain ⟨other, hother, hmem⟩ := hk
    rw [hload.reinstate.images]
    exact ⟨other, mem_cons_of_mem _ hother, hmem⟩

end

/-! ## Unloading an image -/

def Undetached (s : LoadState P) (image : Image P) : Prop :=
  (∀ c ∈ imageClasses image, c ∉ s.pc.detachedClasses.filterMap (·.cls)) ∧
    ∀ k ∈ image.categories,
      k ∉ (s.pc.passedCategories ++ s.pc.detachedCategories).filterMap (·.cat)

instance (s : LoadState P) (image : Image P) : Decidable (s.Undetached image) :=
  inferInstanceAs (Decidable (_ ∧ _))

omit [DecidableEq C] in
theorem remove_categories_spec (cats : List K) : ∀ s : LoadState P,
    cats.foldl remove_category_from_loadable_list s = { s with
      loadable_categories := cats.foldl (fun items k => removeCategory k items) s.loadable_categories
      removedCategory := fun k => s.removedCategory k || decide (k ∈ cats) } := by
  induction cats with
  | nil => simp
  | cons cat cats ih =>
    intro s
    rw [foldl_cons, ih]
    simp only [remove_category_from_loadable_list, foldl_cons, LoadState.mk.injEq, true_and]
    funext k
    by_cases heq : k = cat <;> simp [heq]

omit [DecidableEq K] in
theorem remove_classes_spec (classes : List C) : ∀ s : LoadState P,
    classes.foldl remove_class_from_loadable_list s = { s with
      loadable_classes := classes.foldl (fun items c => removeClass c items) s.loadable_classes
      removed := fun c => s.removed c || decide (c ∈ classes) } := by
  induction classes with
  | nil => simp
  | cons cls classes ih =>
    intro s
    rw [foldl_cons, ih]
    simp only [remove_class_from_loadable_list, foldl_cons, LoadState.mk.injEq, true_and, and_true]
    funext c
    by_cases heq : c = cls <;> simp [heq]

theorem RemovalInv.unload (h : s.RemovalInv) {image : Image P} (hun : s.Undetached image) :
    (s.unloadImage image).RemovalInv := by
  unfold unloadImage
  rw [remove_categories_spec, remove_classes_spec]
  refine ⟨?_, ?_⟩
  · have hold := h.classes
    unfold classQueue at hold ⊢
    rw [filterMap_append] at hold ⊢
    show QueueOK (_ ++ filterMap _ (foldl (fun items c => removeFirst _ _ c items) _ _)) _ _
    rw [filterMap_removeAll fun _ => rfl]
    refine hold.remove (imageClasses image) hun.1 fun c hc hout => ?_
    simp [hc, hout]
  have hold := h.categories
  unfold categoryQueue at hold ⊢
  rw [← append_assoc, filterMap_append] at hold ⊢
  show QueueOK (_ ++ filterMap _ (foldl (fun items k => removeFirst _ _ k items) _ _)) _ _
  rw [filterMap_removeAll fun _ => rfl]
  refine hold.remove image.categories hun.2 fun k hk hout => ?_
  obtain ⟨other, hother, hmem⟩ := hk
  refine ⟨other, (mem_erase_of_ne ?_).mpr hother, hmem⟩
  rintro rfl
  exact hout hmem

def Careful (s : LoadState P) : LoadAction P → Prop
  | .unload image => s.Undetached image
  | _ => True

instance (s : LoadState P) : ∀ a : LoadAction P, Decidable (s.Careful a)
  | .unload image => inferInstanceAs (Decidable (s.Undetached image))
  | .load _ => .isTrue trivial
  | .go => .isTrue trivial

theorem RemovalInv.step (h : s.RemovalInv) {a : LoadAction P} (ha : s.Careful a)
    (hstep : s.step a = some s') : s'.RemovalInv := by
  cases a with
  | load image =>
    obtain ⟨hguard, ⟨⟩⟩ := Option.ite_none_right_eq_some.mp hstep
    exact h.load hguard.2
  | unload image =>
    obtain ⟨-, ⟨⟩⟩ := Option.ite_none_right_eq_some.mp hstep
    exact h.unload ha
  | go => exact h.go hstep

/-! ## The next call -/

/-- The class whose +load `call_class_loads` calls next. -/
def nextClass (s : LoadState P) : Option C :=
  match s.pc with
  | .classLoop (item :: _) => item.cls
  | _ => none

/-- The category whose +load `call_category_loads` calls next. -/
def nextCategory (s : LoadState P) : Option K :=
  match s.pc with
  | .categoryLoop _ (item :: _) => item.cat
  | _ => none

def CallsNothingRemoved (s : LoadState P) : Prop :=
  (∀ c ∈ s.nextClass, s.removed c = false) ∧ ∀ k ∈ s.nextCategory, s.removedCategory k = false

omit [DecidableEq C] [DecidableEq K] in
theorem RemovalInv.callsNothingRemoved (h : s.RemovalInv) : s.CallsNothingRemoved := by
  refine ⟨fun c hc => ?_, fun k hk => ?_⟩
  · by_contra hr
    refine h.classes.removed c (by simpa using hr) ?_
    unfold nextClass at hc
    split at hc
    next item rest hpc =>
      rw [classQueue_of_pc hpc]
      exact mem_filterMap.mpr ⟨item, mem_cons_self, hc⟩
    next => cases hc
  by_contra hr
  refine h.categories.removed k (by simpa using hr) ?_
  unfold nextCategory at hk
  split at hk
  next passed item rest hpc =>
    rw [categoryQueue_of_pc hpc]
    exact mem_filterMap.mpr ⟨item, mem_append_right _ mem_cons_self, hk⟩
  next => cases hk

end LoadState

/-- **A +load that was removed is not called**, in every run in which no image is unloaded that
has an entry in the array that `call_load_methods` has detached. -/
theorem removed_load_is_not_called (P : LoadProgram C K) (as : List (LoadAction P))
    (h : (loadSystem P).AllSteps LoadState.Careful (LoadState.start P) as) :
    (loadSystem P).AllStates LoadState.CallsNothingRemoved (LoadState.start P) as := by
  have hstart : (start P).RemovalInv := ⟨⟨nodup_nil, nofun, nofun⟩, nodup_nil, nofun, nofun⟩
  have hall : (loadSystem P).AllStates RemovalInv (start P) as :=
    System.AllSteps.allStates (fun _ _ _ hinv ha hstep => LoadState.RemovalInv.step hinv ha hstep)
      as hstart h
  exact System.AllStates.mono (fun _ hinv => hinv.callsNothingRemoved) as hall

namespace LoadExample

def program : LoadProgram Nat Nat where
  superclass _ := none
  depth _ := 0
  superclass_depth _ _ h := nomatch h
  getLoadMethod c := c
  categoryClass _ := none
  categoryLoadMethod _ := 0

def imageOf (c : Nat) : Image program where
  classes := [c]
  nonlazyClasses := [some c]
  categories := []
  nonlazyCategories := []
  nonlazy_complete c' hc' _ := by
    rw [mem_singleton.mp hc']
    exact mem_cons_self
  nonlazyCategories_nodup := nodup_nil
  nonlazyCategories_subset _ hk := nomatch hk

/-- The +load of class 1 loads the images of 2 and 3; that of class 2 unloads the image of 1 and
loads it again. -/
def unloadDone : List (LoadAction program) :=
  [.load (imageOf 1), .go, .go, .load (imageOf 2), .load (imageOf 3), .go, .go, .go, .go,
    .unload (imageOf 1), .load (imageOf 1)] ++ replicate 6 .go

def unloadPending : List (LoadAction program) :=
  [.load (imageOf 1), .go, .go, .load (imageOf 2), .load (imageOf 3), .go, .go, .go, .go,
    .unload (imageOf 3), .go]

end LoadExample

theorem unload_of_finished_image :
    ∃ s, (loadSystem LoadExample.program).runFrom (fun _ => True) (LoadState.start _)
        LoadExample.unloadDone = some s ∧
      s.trace = [.classLoad 1 1, .classLoad 2 2, .classLoad 3 3, .classLoad 1 1] ∧
      s.CallsNothingRemoved := by
  have hend : ((loadSystem LoadExample.program).runFrom (fun _ => True) (start _)
      LoadExample.unloadDone).map (·.trace)
        = some [.classLoad 1 1, .classLoad 2 2, .classLoad 3 3, .classLoad 1 1] := by
    decide +kernel
  obtain ⟨s, hrun, htrace⟩ := Option.map_eq_some_iff.mp hend
  have hcareful : (loadSystem LoadExample.program).AllSteps Careful (start _)
      LoadExample.unloadDone := by
    decide +kernel
  exact ⟨s, hrun, htrace, (removed_load_is_not_called LoadExample.program _ hcareful).of_run _ hrun⟩

/-- A +load unloads an image whose class comes later in the detached array, and is called next. -/
theorem unload_in_load_is_too_late :
    ¬ ∀ (P : LoadProgram Nat Nat) (as : List (LoadAction P)),
      (loadSystem P).AllStates LoadState.CallsNothingRemoved (LoadState.start P) as := by
  intro hclaim
  have hend : ((loadSystem LoadExample.program).runFrom (fun _ => True) (start _)
      LoadExample.unloadPending).map (fun s => (s.nextClass, s.removed 3)) = some (some 3, true) := by
    decide +kernel
  obtain ⟨s, hrun, hobs⟩ := Option.map_eq_some_iff.mp hend
  simp only [Prod.mk.injEq] at hobs
  have hnext := ((hclaim LoadExample.program LoadExample.unloadPending).of_run _ hrun).1 3 hobs.1
  rw [hobs.2] at hnext
  cases hnext

end ObjcRuntime
