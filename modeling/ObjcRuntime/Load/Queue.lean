/-
WHAT IS SCHEDULED AND WHAT WAS CALLED.

The queue of classes is the rest of the detached array and then the list; so
is that of the categories. `go` moves an entry from a queue to the record of
the calls, and `load_images` puts new entries at the end.
-/
import ObjcRuntime.Load.Model

namespace ObjcRuntime

open Lib Function List Nat LoadPC

variable {C K : Type} {P : LoadProgram C K}

/-! ## Superclasses -/

/-- `d` is a superclass of `c`, directly or not. -/
def LoadProgram.Above (P : LoadProgram C K) (d c : C) : Prop :=
  Relation.TransGen (fun a b => P.superclass a = some b) c d

def LoadProgram.Closed (P : LoadProgram C K) (loaded : C → Bool) : Prop :=
  ∀ c d, loaded c = true → P.superclass c = some d → loaded d = true

variable {loaded : C → Bool}

theorem LoadProgram.Closed.above (h : P.Closed loaded) {c d : C} (hd : P.Above d c)
    (hc : loaded c = true) : loaded d = true := by
  induction hd with
  | single hstep => exact h _ _ hc hstep
  | tail _ hstep ih => exact h _ _ ih hstep

/-! ## The flags -/

/-- The classes `new` were scheduled, in this order. -/
structure Schedules (P : LoadProgram C K) (loaded loaded' : C → Bool) (new : List C) : Prop where
  keeps : ∀ c, loaded c = true → loaded' c = true
  fresh : ∀ c ∈ new, loaded c = false ∧ loaded' c = true ∧ P.getLoadMethod c ≠ 0
  nodup : new.Nodup
  all : ∀ c, loaded' c = true → P.getLoadMethod c ≠ 0 → loaded c = true ∨ c ∈ new
  closed : P.Closed loaded → P.Closed loaded'
  ordered : P.Closed loaded → new.Pairwise fun a b => ¬ P.Above b a

theorem Schedules.refl (loaded : C → Bool) : Schedules P loaded loaded [] :=
  ⟨fun _ => id, nofun, nodup_nil, fun _ h _ => .inl h, id,
    fun _ => Pairwise.nil⟩

variable {new : List C}

theorem Schedules.trans {loaded1 loaded2 : C → Bool} {new' : List C}
    (h : Schedules P loaded loaded1 new) (h' : Schedules P loaded1 loaded2 new') :
    Schedules P loaded loaded2 (new ++ new') := by
  refine ⟨fun c hc => h'.keeps c (h.keeps c hc), fun c hc => ?_, ?_, fun c hc hm => ?_,
    fun hclosed => h'.closed (h.closed hclosed), fun hclosed => ?_⟩
  · rcases mem_append.mp hc with hc | hc
    · obtain ⟨h1, h2, h3⟩ := h.fresh c hc
      exact ⟨h1, h'.keeps c h2, h3⟩
    obtain ⟨h1, h2, h3⟩ := h'.fresh c hc
    refine ⟨?_, h2, h3⟩
    by_contra hloaded
    rw [h.keeps c (by simpa using hloaded)] at h1
    cases h1
  · refine nodup_append.mpr ⟨h.nodup, h'.nodup, fun a ha b hb hab => ?_⟩
    have h1 := (h.fresh a ha).2.1
    rw [hab, (h'.fresh b hb).1] at h1
    cases h1
  · rcases h'.all c hc hm with hc | hc
    · rcases h.all c hc hm with hc | hc
      · exact .inl hc
      · exact .inr (mem_append_left _ hc)
    · exact .inr (mem_append_right _ hc)
  refine pairwise_append.mpr ⟨h.ordered hclosed, h'.ordered (h.closed hclosed),
    fun a ha b hb habove => ?_⟩
  -- the superclasses of what was scheduled first are loaded by then
  have hb' := (h.closed hclosed).above habove (h.fresh a ha).2.1
  rw [(h'.fresh b hb).1] at hb'
  cases hb'

theorem Schedules.single [DecidableEq C] {cls : C} (hcls : loaded cls = false)
    (hsuper : ∀ d, P.superclass cls = some d → loaded d = true) :
    Schedules P loaded (update loaded cls true)
      (if P.getLoadMethod cls = 0 then [] else [cls]) := by
  have hkeeps : ∀ c, loaded c = true → update loaded cls true c = true := by
    intro c hc
    by_cases h : c = cls
    · rw [h, update_self]
    · rw [update_of_ne h]
      exact hc
  refine ⟨hkeeps, fun c hc => ?_, ?_, fun c hc hm => ?_, fun hclosed c d hc hd => ?_, fun _ => ?_⟩
  · split at hc
    next => cases hc
    next hm =>
      rw [mem_singleton.mp hc]
      exact ⟨hcls, update_self .., hm⟩
  · split
    next => exact nodup_nil
    next => exact nodup_singleton _
  · by_cases h : c = cls
    · rw [← h, if_neg hm]
      exact .inr mem_cons_self
    · rw [update_of_ne h] at hc
      exact .inl hc
  · apply hkeeps
    by_cases h : c = cls
    · exact hsuper d (h ▸ hd)
    · rw [update_of_ne h] at hc
      exact hclosed c d hc hd
  · split
    next => exact Pairwise.nil
    next => exact pairwise_singleton _ _

namespace LoadState

def classEntry (P : LoadProgram C K) (c : C) : LoadableClass C := ⟨some c, P.getLoadMethod c⟩

def categoryEntry (P : LoadProgram C K) (k : K) : LoadableCategory K :=
  ⟨some k, P.categoryLoadMethod k⟩

def schedule (s : LoadState P) (loaded : C → Bool) (new : List C) : LoadState P :=
  { s with
    loaded := loaded
    loadable_classes := s.loadable_classes ++ new.map (classEntry P) }

theorem schedule_schedule (s : LoadState P) (loaded loaded' : C → Bool) (new new' : List C) :
    (s.schedule loaded new).schedule loaded' new' = s.schedule loaded' (new ++ new') := by
  unfold schedule
  simp only [map_append, append_assoc]

theorem schedule_self (s : LoadState P) : s.schedule s.loaded [] = s := by
  unfold schedule
  simp only [map_nil, append_nil]

/-- **`schedule_class_load`.** By induction on the bound. -/
theorem scheduleClassLoad_spec [DecidableEq C] (n : Nat) : ∀ (s : LoadState P) (cls : Option C),
    (∀ c ∈ cls, P.depth c < n) →
    ∃ loaded new, scheduleClassLoad n s cls = s.schedule loaded new ∧
      Schedules P s.loaded loaded new ∧ (∀ c ∈ cls, loaded c = true) ∧
      ∀ c, loaded c = true → s.loaded c = true ∨ ∃ d ∈ cls, P.depth c ≤ P.depth d := by
  induction n with
  | zero =>
    intro s cls hdepth
    refine ⟨s.loaded, [], (schedule_self s).symm, .refl _, fun c hc => ?_, fun _ h => .inl h⟩
    exact absurd (hdepth c hc) (not_lt_zero _)
  | succ n ih => ?_
  intro s cls hdepth
  cases cls with
  | none =>
    exact ⟨s.loaded, [], (schedule_self s).symm, .refl _, nofun,
      fun _ h => .inl h⟩
  | some cls => ?_
  rw [scheduleClassLoad]
  split
  next hloaded =>
    refine ⟨s.loaded, [], (schedule_self s).symm, .refl _, fun c hc => ?_, fun _ h => .inl h⟩
    cases hc
    exact hloaded
  rename_i hloaded
  have hbelow : ∀ d ∈ P.superclass cls, P.depth d < P.depth cls :=
    fun d hd => P.superclass_depth cls d hd
  obtain ⟨loaded, new, hrun, hsched, hsuper, honly⟩ := ih s (P.superclass cls) fun d hd => by
    have h1 := hbelow d hd
    have h2 := hdepth cls rfl
    omega
  have hcls : loaded cls = false := by
    by_contra hcls
    rcases honly cls (by simpa using hcls) with h | ⟨d, hd, hle⟩
    · exact hloaded h
    · have := hbelow d hd
      omega
  refine ⟨update loaded cls true, new ++ if P.getLoadMethod cls = 0 then [] else [cls], ?_,
    hsched.trans (.single hcls hsuper), fun c hc => ?_, fun c hc => ?_⟩
  · rw [hrun, ← schedule_schedule s loaded]
    unfold add_class_to_loadable_list schedule
    split
    next => simp only [map_nil, append_nil]
    next => rfl
  · cases hc
    exact update_self ..
  by_cases h : c = cls
  · exact .inr ⟨cls, rfl, by rw [h]⟩
  rw [update_of_ne h] at hc
  rcases honly c hc with hc | ⟨d, hd, hle⟩
  · exact .inl hc
  · have := hbelow d hd
    exact .inr ⟨cls, rfl, by omega⟩

theorem scheduleClasses_spec [DecidableEq C] (classes : List (Option C)) : ∀ s : LoadState P,
    ∃ loaded new, classes.foldl schedule_class_load s = s.schedule loaded new ∧
      Schedules P s.loaded loaded new ∧ ∀ c, some c ∈ classes → loaded c = true := by
  induction classes with
  | nil =>
    intro s
    exact ⟨s.loaded, [], (schedule_self s).symm, .refl _, nofun⟩
  | cons cls classes ih => ?_
  intro s
  obtain ⟨loaded, new, hrun, hsched, hcls, -⟩ := scheduleClassLoad_spec
    (cls.elim 0 P.depth + 1) s cls (fun c hc => by cases hc; exact lt_succ_self _)
  obtain ⟨loaded', new', hrun', hsched', hall⟩ := ih (s.schedule loaded new)
  refine ⟨loaded', new ++ new', ?_, hsched.trans hsched', fun c hc => ?_⟩
  · rw [foldl_cons, schedule_class_load, hrun, hrun', schedule_schedule]
  rcases mem_cons.mp hc with hc | hc
  · exact hsched'.keeps c (hcls c hc.symm)
  · exact hall c hc

def scheduledCategories (P : LoadProgram C K) (categories : List K) : List K :=
  categories.filter fun k => (P.categoryClass k).isSome ∧ P.categoryLoadMethod k ≠ 0

theorem prepareCategory_spec (s : LoadState P) (k : K) : s.prepareCategory k = { s with
        loadable_categories := s.loadable_categories
          ++ (scheduledCategories P [k]).map (categoryEntry P) } := by
  unfold prepareCategory scheduledCategories
  split
  next hclass => simp [hclass]
  next cls hclass =>
    unfold add_category_to_loadable_list
    split
    next hmethod => simp [hclass, hmethod]
    next hmethod => simp [hclass, hmethod, categoryEntry]

theorem prepareCategories_spec (categories : List K) : ∀ s : LoadState P,
    categories.foldl prepareCategory s = { s with
          loadable_categories := s.loadable_categories
            ++ (scheduledCategories P categories).map (categoryEntry P) } := by
  induction categories with
  | nil =>
    intro s
    simp [scheduledCategories]
  | cons k categories ih => ?_
  intro s
  have hcons : scheduledCategories P (k :: categories)
      = scheduledCategories P [k] ++ scheduledCategories P categories := by
    unfold scheduledCategories
    rw [← filter_append]
    rfl
  rw [foldl_cons, ih, prepareCategory_spec, hcons, map_append, append_assoc]

/-- **Loading an image**: what the classes and categories do to the lists. -/
structure Loads (s s' : LoadState P) (image : Image P) (new : List C) : Prop where
  flags : Schedules P s.loaded s'.loaded new
  classes : s'.loadable_classes = s.loadable_classes ++ new.map (classEntry P)
  categories : s'.loadable_categories = s.loadable_categories
    ++ (scheduledCategories P image.nonlazyCategories).map (categoryEntry P)
  nonlazy : ∀ c, some c ∈ image.nonlazyClasses → s'.loaded c = true
  images : s'.images = image :: s.images
  trace : s'.trace = s.trace
  pc : (s'.pc = s.pc ∧ s.pc ≠ .idle) ∨ s'.pc = .whileLoop ∧ s.pc = .idle ∨
    s'.pc = s.pc ∧ new = [] ∧ scheduledCategories P image.nonlazyCategories = []

theorem load_images_spec [DecidableEq C] (s : LoadState P) (image : Image P) :
    ∃ new, s.Loads (s.load_images image) image new := by
  unfold load_images
  split
  next =>
    obtain ⟨loaded, new, hrun, hsched, hall⟩ := scheduleClasses_spec image.nonlazyClasses
      { s with images := image :: s.images }
    refine ⟨new, ?_⟩
    unfold prepare_load_methods
    simp only
    rw [hrun, prepareCategories_spec]
    unfold call_load_methods
    split
    next hidle => exact ⟨hsched, rfl, rfl, hall, rfl, rfl, .inr (.inl ⟨rfl, hidle⟩)⟩
    next hidle => exact ⟨hsched, rfl, rfl, hall, rfl, rfl, .inl ⟨rfl, hidle⟩⟩
  rename_i hnone
  simp only [hasLoadMethods, decide_eq_true_eq, not_or, not_lt, le_zero,
    length_eq_zero_iff] at hnone
  obtain ⟨hclasses, hcategories⟩ := hnone
  refine ⟨[], .refl _, ?_, ?_, fun c hc => ?_, rfl, rfl, .inr (.inr ⟨rfl, rfl, ?_⟩)⟩
  · rw [map_nil, append_nil]
  · rw [hcategories]
    simp [scheduledCategories]
  · rw [hclasses] at hc
    cases hc
  · rw [hcategories]
    rfl

end LoadState

/-! ## The queues -/

def LoadPC.detachedClasses : LoadPC C K → List (LoadableClass C)
  | .classLoop rest => rest
  | .classLoad rest => rest
  | _ => []

def LoadPC.detachedCategories : LoadPC C K → List (LoadableCategory K)
  | .categoryLoop _ rest => rest
  | .categoryLoad _ _ rest => rest
  | _ => []

def LoadPC.passedCategories : LoadPC C K → List (LoadableCategory K)
  | .categoryLoop passed _ => passed
  | .categoryLoad passed _ _ => passed
  | _ => []

def LoadEvent.calledClass : LoadEvent C K → Option C
  | .classLoad cls _ => some cls
  | _ => none

def LoadEvent.calledCategory : LoadEvent C K → Option K
  | .categoryLoad cat _ _ => some cat
  | _ => none

namespace LoadState

def classQueue (s : LoadState P) : List C :=
  (s.pc.detachedClasses ++ s.loadable_classes).filterMap (·.cls)

def categoryQueue (s : LoadState P) : List K :=
  (s.pc.passedCategories ++ (s.pc.detachedCategories ++ s.loadable_categories)).filterMap (·.cat)

def calledClasses (s : LoadState P) : List C := s.trace.filterMap LoadEvent.calledClass

def calledCategories (s : LoadState P) : List K := s.trace.filterMap LoadEvent.calledCategory

theorem filterMap_filter_isSome (items : List (LoadableCategory K)) :
    (items.filter (·.cat.isSome)).filterMap (·.cat) = items.filterMap (·.cat) := by
  induction items with
  | nil => rfl
  | cons item items ih => ?_
  cases hcat : item.cat with
  | none => rw [filter_cons_of_neg (by simp [hcat]), filterMap_cons_none hcat, ih]
  | some k =>
    rw [filter_cons_of_pos (by simp [hcat]), filterMap_cons_some hcat, filterMap_cons_some hcat, ih]

/-- What a step of `call_load_methods` does to the queues. -/
inductive Moves (s s' : LoadState P) : Prop where
  | silent : s'.trace = s.trace → s'.classQueue = s.classQueue →
      s'.categoryQueue = s.categoryQueue → Moves s s'
  | classLoad (cls : C) (method : IMP) : s'.trace = s.trace ++ [.classLoad cls method] →
      s.classQueue = cls :: s'.classQueue → s'.categoryQueue = s.categoryQueue → Moves s s'
  | categoryLoad (cat : K) (cls : C) (method : IMP) :
      s'.trace = s.trace ++ [.categoryLoad cat cls method] → s'.classQueue = s.classQueue →
      s.categoryQueue.Perm (cat :: s'.categoryQueue) → Moves s s'

section

variable {s s' : LoadState P} {pc : LoadPC C K}

theorem classQueue_of_pc (hpc : s.pc = pc) :
    s.classQueue = (pc.detachedClasses ++ s.loadable_classes).filterMap (·.cls) := hpc ▸ rfl

theorem categoryQueue_of_pc (hpc : s.pc = pc) : s.categoryQueue =
    (pc.passedCategories ++ (pc.detachedCategories ++ s.loadable_categories)).filterMap (·.cat) :=
  hpc ▸ rfl

theorem classIteration_spec {item : LoadableClass C} {rest : List (LoadableClass C)}
    (hpc : s.pc = .classLoop (item :: rest)) (h : s.classIteration item rest = s') :
    s'.loaded = s.loaded ∧ s'.images = s.images ∧ s.Moves s' := by
  subst h
  have hclass := classQueue_of_pc hpc
  have hcategory := (categoryQueue_of_pc hpc).symm
  simp only [detachedClasses, cons_append] at hclass
  unfold classIteration
  split
  next hcls =>
    rw [filterMap_cons_none hcls] at hclass
    exact ⟨rfl, rfl, .silent rfl hclass.symm hcategory⟩
  next cls hcls =>
    rw [filterMap_cons_some hcls] at hclass
    exact ⟨rfl, rfl, .classLoad cls item.method rfl hclass hcategory⟩

theorem categoryIteration_spec {passed rest : List (LoadableCategory K)}
    {item : LoadableCategory K} (hpc : s.pc = .categoryLoop passed (item :: rest))
    (h : s.categoryIteration passed item rest = s') :
    s'.loaded = s.loaded ∧ s'.images = s.images ∧ s.Moves s' := by
  subst h
  have hclass := (classQueue_of_pc hpc).symm
  have hcategory := categoryQueue_of_pc hpc
  -- an entry that is passed over only changes sides
  have hpass : s.Moves { s with pc := .categoryLoop (passed ++ [item]) rest } := by
    refine .silent rfl hclass ?_
    rw [hcategory, categoryQueue]
    simp only [passedCategories, detachedCategories, append_assoc, cons_append, nil_append]
  unfold categoryIteration
  split
  next => exact ⟨rfl, rfl, hpass⟩
  rename_i cat hcat
  split
  next => exact ⟨rfl, rfl, hpass⟩
  rename_i cls _
  refine ⟨rfl, rfl, .categoryLoad cat cls item.method rfl hclass ?_⟩
  rw [hcategory, categoryQueue]
  simp only [passedCategories, detachedCategories, cons_append, filterMap_append]
  rw [filterMap_cons_some hcat, filterMap_append]
  exact perm_middle

theorem go_spec (h : s.go = some s') :
    s'.loaded = s.loaded ∧ s'.images = s.images ∧ s.Moves s' := by
  unfold go at h
  split at h
  next => cases h
  next hpc =>
    split at h
    next =>
      cases h
      refine ⟨rfl, rfl, .silent rfl ?_ (categoryQueue_of_pc hpc).symm⟩
      rw [classQueue_of_pc hpc, classQueue]
      simp only [detachedClasses, append_nil, nil_append]
    cases h
    refine ⟨rfl, rfl, .silent rfl (classQueue_of_pc hpc).symm ?_⟩
    rw [categoryQueue_of_pc hpc, categoryQueue]
    simp only [passedCategories, detachedCategories, append_nil, nil_append]
  next hpc =>
    cases h
    exact ⟨rfl, rfl, .silent rfl (classQueue_of_pc hpc).symm (categoryQueue_of_pc hpc).symm⟩
  next item rest hpc => exact classIteration_spec hpc (Option.some.inj h)
  next rest hpc =>
    cases h
    exact ⟨rfl, rfl, .silent rfl (classQueue_of_pc hpc).symm (categoryQueue_of_pc hpc).symm⟩
  next passed hpc =>
    cases h
    refine ⟨rfl, rfl, .silent rfl ?_ ?_⟩
    · rw [classQueue_of_pc hpc]
      unfold classQueue categoryEnd
      simp only
      split <;> rfl
    have hpc' : (s.categoryEnd passed).pc.passedCategories = [] ∧
        (s.categoryEnd passed).pc.detachedCategories = [] := by
      unfold categoryEnd
      simp only
      split <;> exact ⟨rfl, rfl⟩
    rw [categoryQueue_of_pc hpc, categoryQueue, hpc'.1, hpc'.2]
    simp only [passedCategories, detachedCategories, nil_append, filterMap_append, categoryEnd]
    rw [filterMap_filter_isSome]
  next passed item rest hpc => exact categoryIteration_spec hpc (Option.some.inj h)
  rename_i passed item rest hpc
  cases h
  refine ⟨rfl, rfl, .silent rfl (classQueue_of_pc hpc).symm ?_⟩
  rw [categoryQueue_of_pc hpc, categoryQueue]
  simp only [passedCategories, detachedCategories, filterMap_append,
    filterMap_cons_none, filterMap_nil, append_nil]

end

/-! ## Nothing twice -/

/-- No class and no category is in the calls and the queues twice; a class there is loaded, and a
category there is one of an image. -/
structure QueueInv (s : LoadState P) : Prop where
  nodup : (s.calledClasses ++ s.classQueue).Nodup
  loaded : ∀ c ∈ s.calledClasses ++ s.classQueue, s.loaded c = true
  categoryNodup : (s.calledCategories ++ s.categoryQueue).Nodup
  categoryImage : ∀ k ∈ s.calledCategories ++ s.categoryQueue,
    ∃ image ∈ s.images, k ∈ image.categories
  nonlazy : ∀ image ∈ s.images, ∀ c, some c ∈ image.nonlazyClasses → s.loaded c = true

variable {s s' : LoadState P} {e : LoadEvent C K}

theorem calledClasses_append (htrace : s'.trace = s.trace ++ [e]) :
    s'.calledClasses = s.calledClasses ++ e.calledClass.toList := by
  unfold calledClasses
  rw [htrace, filterMap_append]
  cases h : e.calledClass with
  | none => rw [filterMap_cons_none h]; rfl
  | some c => rw [filterMap_cons_some h]; rfl

theorem calledCategories_append (htrace : s'.trace = s.trace ++ [e]) :
    s'.calledCategories = s.calledCategories ++ e.calledCategory.toList := by
  unfold calledCategories
  rw [htrace, filterMap_append]
  cases h : e.calledCategory with
  | none => rw [filterMap_cons_none h]; rfl
  | some k => rw [filterMap_cons_some h]; rfl

theorem Moves.classOrder (h : s.Moves s') :
    s'.calledClasses ++ s'.classQueue = s.calledClasses ++ s.classQueue := by
  cases h with
  | silent htrace hqueue _ =>
    unfold calledClasses
    rw [htrace, hqueue]
  | classLoad cls method htrace hqueue _ =>
    rw [calledClasses_append htrace, hqueue, LoadEvent.calledClass, Option.toList_some,
      append_assoc]
    rfl
  | categoryLoad cat cls method htrace hqueue _ =>
    rw [calledClasses_append htrace, hqueue]
    exact congrArg (· ++ s.classQueue) (append_nil s.calledClasses)

theorem Moves.categoryOrder (h : s.Moves s') :
    (s.calledCategories ++ s.categoryQueue).Perm (s'.calledCategories ++ s'.categoryQueue) := by
  cases h with
  | silent htrace _ hqueue =>
    unfold calledCategories
    rw [htrace, hqueue]
  | classLoad cls method htrace _ hqueue =>
    rw [calledCategories_append htrace, hqueue]
    exact .of_eq (congrArg (· ++ s.categoryQueue) (append_nil s.calledCategories).symm)
  | categoryLoad cat cls method htrace _ hqueue =>
    rw [calledCategories_append htrace, LoadEvent.calledCategory, Option.toList_some, append_assoc]
    exact hqueue.append_left _

theorem QueueInv.go (h : s.QueueInv) (hgo : s.go = some s') : s'.QueueInv := by
  obtain ⟨hloaded, himages, hmoves⟩ := go_spec hgo
  have hperm := hmoves.categoryOrder
  refine ⟨?_, fun c hc => ?_, hperm.nodup_iff.mp h.categoryNodup, fun k hk => ?_, ?_⟩
  · rw [hmoves.classOrder]
    exact h.nodup
  · rw [hmoves.classOrder] at hc
    rw [hloaded]
    exact h.loaded c hc
  · rw [himages]
    exact h.categoryImage k (hperm.mem_iff.mpr hk)
  · rw [himages, hloaded]
    exact h.nonlazy

theorem Loads.queues {image : Image P} (h : s.Loads s' image new) :
    s'.pc.detachedClasses = s.pc.detachedClasses ∧
      s'.pc.detachedCategories = s.pc.detachedCategories ∧
      s'.pc.passedCategories = s.pc.passedCategories ∧
      s'.classQueue = s.classQueue ++ new ∧
      s'.categoryQueue = s.categoryQueue ++ scheduledCategories P image.nonlazyCategories := by
  have hpc : s'.pc.detachedClasses = s.pc.detachedClasses ∧
      s'.pc.detachedCategories = s.pc.detachedCategories ∧
      s'.pc.passedCategories = s.pc.passedCategories := by
    rcases h.pc with ⟨hpc, -⟩ | ⟨hpc, hidle⟩ | ⟨hpc, -, -⟩
    · rw [hpc]
      exact ⟨rfl, rfl, rfl⟩
    · rw [hpc, hidle]
      exact ⟨rfl, rfl, rfl⟩
    · rw [hpc]
      exact ⟨rfl, rfl, rfl⟩
  have hclasses : (new.map (classEntry P)).filterMap (·.cls) = new := by
    rw [filterMap_map]
    exact filterMap_some
  have hcategories : ∀ ks : List K, (ks.map (categoryEntry P)).filterMap (·.cat) = ks := by
    intro ks
    rw [filterMap_map]
    exact filterMap_some
  refine ⟨hpc.1, hpc.2.1, hpc.2.2, ?_, ?_⟩
  · unfold classQueue
    simp only [hpc.1, h.classes, filterMap_append, hclasses, append_assoc]
  · unfold categoryQueue
    simp only [hpc.2.1, hpc.2.2, h.categories, filterMap_append, hcategories, append_assoc]

theorem Loads.reinstate [DecidableEq K] {image : Image P} (h : s.Loads s' image new) :
    s.Loads (s'.reinstate s image) image new :=
  { h with }

theorem QueueInv.load (h : s.QueueInv) {image : Image P} (hload : s.Loads s' image new)
    (hown : ∀ other ∈ s.images, ∀ k ∈ image.categories, k ∉ other.categories) : s'.QueueInv := by
  obtain ⟨-, -, -, hclasses, hcategories⟩ := hload.queues
  have hcalled : s'.calledClasses = s.calledClasses := by rw [calledClasses, hload.trace]; rfl
  have hcalled' : s'.calledCategories = s.calledCategories := by
    rw [calledCategories, hload.trace]; rfl
  have hnew : ∀ k ∈ scheduledCategories P image.nonlazyCategories, k ∈ image.categories :=
    fun k hk => image.nonlazyCategories_subset k (mem_of_mem_filter hk)
  refine ⟨?_, fun c hc => ?_, ?_, fun k hk => ?_, fun other hother c hc => ?_⟩
  · rw [hcalled, hclasses, ← append_assoc]
    refine nodup_append.mpr ⟨h.nodup, hload.flags.nodup, fun a ha b hb hab => ?_⟩
    have hfresh := (hload.flags.fresh b hb).1
    rw [← hab, h.loaded a ha] at hfresh
    cases hfresh
  · rw [hcalled, hclasses, ← append_assoc] at hc
    rcases mem_append.mp hc with hc | hc
    · exact hload.flags.keeps c (h.loaded c hc)
    · exact (hload.flags.fresh c hc).2.1
  · rw [hcalled', hcategories, ← append_assoc]
    refine nodup_append.mpr ⟨h.categoryNodup, image.nonlazyCategories_nodup.filter _,
      fun a ha b hb hab => ?_⟩
    obtain ⟨other, hother, hmem⟩ := h.categoryImage a ha
    exact hown other hother b (hnew b hb) (hab ▸ hmem)
  · rw [hload.images]
    rw [hcalled', hcategories, ← append_assoc] at hk
    rcases mem_append.mp hk with hk | hk
    · obtain ⟨other, hother, hmem⟩ := h.categoryImage k hk
      exact ⟨other, mem_cons_of_mem _ hother, hmem⟩
    · exact ⟨image, mem_cons_self, hnew k hk⟩
  rw [hload.images] at hother
  rcases mem_cons.mp hother with rfl | hother
  · exact hload.nonlazy c hc
  · exact hload.flags.keeps c (h.nonlazy other hother c hc)

theorem QueueInv.start : (start P).QueueInv :=
  ⟨nodup_nil, nofun, nodup_nil, nofun,
    nofun⟩

end LoadState

end ObjcRuntime
