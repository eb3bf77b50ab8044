/-
WHAT THE METHOD CACHES SAY.

`Resolves` is what a lookup is for: the first implementation in the method
lists of the class and its superclasses, or forwarding. `CacheInv` says that
every cache entry agrees with it, but for the two C++ selectors, which
`lookupMethodInClassAndLoadCache` caches for one class alone.

* `CacheInv.fill`: and so does caching the result of a search,
* `Room.cache_fill`: an entry takes up one place of the room that is left.
-/
import ObjcRuntime.Class.Tree

namespace ObjcRuntime

open Lib Function Option Under MethodCache List ClassState

variable {C : Type}

/-! ## What a lookup is for -/

inductive Resolves (methods : C → List MethodList) (parent : C → Option C) (sel : SEL) :
    C → IMP → Prop where
  | own {c : C} {imp : IMP} : methodImp (methods c) sel = some imp → Resolves methods parent sel c imp
  | inherited {c p : C} {imp : IMP} : methodImp (methods c) sel = none → parent c = some p →
      Resolves methods parent sel p imp → Resolves methods parent sel c imp
  | forward {c : C} : methodImp (methods c) sel = none → parent c = none →
      Resolves methods parent sel c _objc_msgForward_impcache

namespace Resolves

variable {methods methods' : C → List MethodList} {parent parent' : C → Option C} {sel : SEL}
  {c : C} {imp imp' : IMP}

variable (h : Resolves methods parent sel c imp)
theorem unique (h : Resolves methods parent sel c imp) :
    Resolves methods parent sel c imp' → imp' = imp := by
  induction h with
  | own hown =>
    intro h'
    cases h' with
    | own hown' => exact some.inj (hown'.symm.trans hown)
    | inherited hnone | forward hnone => rw [hown] at hnone; cases hnone
  | inherited hnone hp _ ih =>
    intro h'
    cases h' with
    | own hown => rw [hnone] at hown; cases hown
    | inherited _ hp' h' => exact ih (some.inj (hp'.symm.trans hp) ▸ h')
    | forward _ hp' => rw [hp] at hp'; cases hp'
  | forward hnone hp => ?_
  intro h'
  cases h' with
  | own hown => rw [hnone] at hown; cases hown
  | inherited _ hp' => rw [hp] at hp'; cases hp'
  | forward => rfl

theorem of_superclass (hnone : methodImp (methods c) sel = none)
    (hinherit : ∀ p, parent c = some p → Resolves methods parent sel p imp)
    (hforward : parent c = none → imp = _objc_msgForward_impcache) :
    Resolves methods parent sel c imp := by
  cases hp : parent c with
  | none =>
    rw [hforward hp]
    exact .forward hnone hp
  | some p => exact .inherited hnone hp (hinherit p hp)

include h

theorem superclass {p : C}
    (hnone : methodImp (methods c) sel = none) (hp : parent c = some p) :
    Resolves methods parent sel p imp := by
  cases h with
  | own hown => rw [hnone] at hown; cases hown
  | inherited _ hp' h' => exact some.inj (hp'.symm.trans hp) ▸ h'
  | forward _ hp' => rw [hp] at hp'; cases hp'

theorem congr :
    (∀ x, Under parent c x → methods' x = methods x ∧ parent' x = parent x) →
      Resolves methods' parent' sel c imp := by
  induction h with
  | @own c imp hown =>
    intro hsame
    exact .own (by rw [(hsame c (refl _ _)).1, hown])
  | @inherited c p imp hnone hp _ ih =>
    intro hsame
    obtain ⟨hm, hparent⟩ := hsame c (refl _ _)
    exact .inherited (by rw [hm, hnone]) (by rw [hparent, hp]) (ih fun x hx => hsame x (head hp hx))
  | @forward c hnone hp =>
    intro hsame
    obtain ⟨hm, hparent⟩ := hsame c (refl _ _)
    exact .forward (by rw [hm, hnone]) (by rw [hparent, hp])

end Resolves

/-! ## One cache -/

namespace MethodCache

def Roomy (cache : MethodCache) : Prop := cache.entries ≠ [] → 0 < cache.capacity

variable {cache : MethodCache} {sel sel' : SEL} {imp : IMP}

theorem entries_ne_nil (h : cache.getImp sel ≠ 0) : cache.entries ≠ [] := by
  intro hnil
  rw [getImp, hnil] at h
  exact h rfl

theorem Roomy.erase_entries (h : cache.Roomy) : cache.erase.entries = [] := by
  rw [erase]
  by_cases hnil : cache.entries = []
  · rw [if_neg (by simp [hnil])]
    exact hnil
  · rw [if_pos ⟨h hnil, hnil⟩]

/-- `n` more entries can be stored before a capacity has to be doubled beyond 32 bits. -/
def Room (n : Nat) (cache : MethodCache) : Prop :=
  cache.entries.length + n ≤ cache.capacity / 4 * 3 ∨ cache.capacity < 2 ^ 31 ∧ n ≤ 3 * 2 ^ 29

theorem Room.mono {m n : Nat} (h : cache.Room n) (hle : m ≤ n) : cache.Room m := by
  rcases h with h | ⟨h, hn⟩
  · exact .inl (by omega)
  · exact .inr ⟨h, by omega⟩

theorem lookup_filter_ne {l : List (SEL × IMP)} (hne : sel' ≠ sel) :
    (l.filter fun e => decide (e.1 ≠ sel)).lookup sel' = l.lookup sel' := by
  induction l with
  | nil => rfl
  | cons e l ih => ?_
  by_cases he : e.1 = sel
  · have hbeq : (sel' == e.1) = false := by simpa [he] using hne
    rw [filter_cons_of_neg (by simpa using he), ih, lookup_cons, hbeq]
  · rw [filter_cons_of_pos (by simpa using he), lookup_cons, lookup_cons, ih]

structure Stored (cache : MethodCache) (sel : SEL) (imp : IMP) (cache' : MethodCache) : Prop where
  roomy : cache.Roomy → cache'.Roomy
  self : cache'.getImp sel = if cache.getImp sel ≠ 0 then cache.getImp sel else imp
  others : ∀ sel', sel' ≠ sel → cache'.getImp sel' = cache.getImp sel' ∨ cache'.getImp sel' = 0
  room : ∀ n, cache.Room (1 + n) → cache'.Room n

theorem makeRoom_spec {room : MethodCache} (h : cache.makeRoom = some room) :
    (cache.Roomy → 0 < room.capacity) ∧
      (∀ sel, room.getImp sel = cache.getImp sel ∨ room.getImp sel = 0) ∧
      ∀ n, cache.Room (1 + n) →
        room.entries.length + 1 + n ≤ room.capacity / 4 * 3 ∨
          room.capacity < 2 ^ 31 ∧ n ≤ 3 * 2 ^ 29 := by
  rw [makeRoom] at h
  split at h
  next hnil =>
    cases h
    refine ⟨fun _ => ?_, fun _ => .inl rfl, fun n hroom => ?_⟩
    · show 0 < if cache.capacity = 0 then INIT_CACHE_SIZE else cache.capacity
      split
      · decide
      · omega
    show cache.entries.length + 1 + n ≤ (if cache.capacity = 0 then INIT_CACHE_SIZE
      else cache.capacity) / 4 * 3 ∨ (if cache.capacity = 0 then INIT_CACHE_SIZE
      else cache.capacity) < 2 ^ 31 ∧ n ≤ 3 * 2 ^ 29
    rw [INIT_CACHE_SIZE]
    rcases hroom with hroom | ⟨hlt, hn⟩ <;> split <;> omega
  split at h
  next hne hfree =>
    cases h
    refine ⟨fun hroomy => hroomy hne, fun _ => .inl rfl, fun n hroom => ?_⟩
    rcases hroom with hroom | ⟨hlt, hn⟩ <;> omega
  obtain ⟨hlt, h⟩ := ite_none_right_eq_some.mp h
  cases h
  rename_i hne hfull
  refine ⟨fun hroomy => ?_, fun _ => .inr rfl, fun n hroom => ?_⟩
  · have hpos := hroomy hne
    show 0 < cache.capacity * 2
    omega
  -- a capacity of 2^31 is empty, with room for three quarters of it
  show 0 + 1 + n ≤ cache.capacity * 2 / 4 * 3 ∨ cache.capacity * 2 < 2 ^ 31 ∧ n ≤ 3 * 2 ^ 29
  rcases hroom with hroom | ⟨hcap, hn⟩ <;> omega

theorem fill_spec {cache' : MethodCache} (h : cache.fill sel imp = some cache') :
    Stored cache sel imp cache' := by
  rw [fill] at h
  split at h
  next hcached =>
    cases h
    exact ⟨id, (if_pos hcached).symm, fun _ _ => .inl rfl, fun n hroom => hroom.mono (by omega)⟩
  next hmiss =>
    obtain ⟨room, hroom, rfl⟩ := map_eq_some_iff.mp h
    obtain ⟨hpos, hget, hfree⟩ := makeRoom_spec hroom
    refine ⟨fun hroomy _ => hpos hroomy, ?_, fun sel' hne => ?_, fun n hn => ?_⟩
    · rw [if_neg hmiss, getImp, lookup_cons_self, getD_some]
    · have hbeq : (sel' == sel) = false := by simpa using hne
      have heq : getImp { room with
          entries := (sel, imp) :: room.entries.filter fun e => decide (e.1 ≠ sel) } sel'
          = room.getImp sel' := by
        rw [getImp, lookup_cons, hbeq, lookup_filter_ne hne]
        rfl
      rw [heq]
      exact hget sel'
    · have hle := length_filter_le (fun e : SEL × IMP => decide (e.1 ≠ sel)) room.entries
      rcases hfree n hn with hfree | hfree
      · refine .inl ?_
        rw [length_cons]
        show _ ≤ room.capacity / 4 * 3
        omega
      · exact .inr hfree

theorem fill_eq_none (h : cache.fill sel imp = none) : ¬ cache.Room 1 := by
  rw [fill] at h
  split at h
  · cases h
  rw [map_eq_none_iff, makeRoom] at h
  split at h
  · cases h
  split at h
  · cases h
  split at h
  · cases h
  rintro (hroom | ⟨hcap, _⟩) <;> omega

end MethodCache

/-! ## All caches -/

/-- The selectors that `lookupMethodInClassAndLoadCache` is for. -/
def isCxxStructor (sel : SEL) : Prop := sel = SEL_cxx_construct ∨ sel = SEL_cxx_destruct

instance : DecidablePred isCxxStructor := fun sel =>
  inferInstanceAs (Decidable (sel = SEL_cxx_construct ∨ sel = SEL_cxx_destruct))

/-- **Every entry is what the method lists say.** -/
structure CacheInv (s : ClassState C) : Prop where
  roomy : ∀ c, (s.cache c).Roomy
  realized : ∀ c, (s.cache c).entries ≠ [] → s.realized c = true
  sound : ∀ c sel, ¬ isCxxStructor sel → s.cache_getImp c sel ≠ 0 →
    Resolves s.methods s.superclass sel c (s.cache_getImp c sel)

namespace CacheInv

variable {s s' : ClassState C}

theorem cache_eq (h : CacheInv s) {c : C}
    (hcache : s'.cache c = s.cache c ∨ s'.cache c = (s.cache c).erase)
    (hne : (s'.cache c).entries ≠ []) : s'.cache c = s.cache c := by
  rcases hcache with heq | heq
  · exact heq
  · rw [heq, (h.roomy c).erase_entries] at hne
    exact absurd rfl hne

theorem transfer (h : CacheInv s)
    (hcache : ∀ c, s'.cache c = s.cache c ∨ s'.cache c = (s.cache c).erase)
    (hrealized : ∀ c, s.realized c = true → s'.realized c = true)
    (hseen : ∀ c, s.realized c = true → s'.cache c = (s.cache c).erase ∨
      ∀ x, Under s.superclass c x → s'.methods x = s.methods x ∧ s'.superclass x = s.superclass x) :
    CacheInv s' := by
  refine ⟨fun c hne => ?_, fun c hne => ?_, fun c sel hsel hne => ?_⟩
  · have heq := h.cache_eq (hcache c) hne
    rw [heq] at hne ⊢
    exact h.roomy c hne
  · rw [h.cache_eq (hcache c) hne] at hne
    exact hrealized c (h.realized c hne)
  have hentries := entries_ne_nil hne
  have heq := h.cache_eq (hcache c) hentries
  have hget : s'.cache_getImp c sel = s.cache_getImp c sel := by
    rw [cache_getImp, heq]
    rfl
  rw [hget] at hne ⊢
  rw [heq] at hentries
  rcases hseen c (h.realized c hentries) with herase | hsame
  · rw [heq] at herase
    rw [herase, (h.roomy c).erase_entries] at hentries
    exact absurd rfl hentries
  · exact (h.sound c sel hsel hne).congr hsame

theorem fill [DecidableEq C] {K : ClassImage C} (h : CacheInv s) {cls : C} {sel : SEL} {imp : IMP}
    (hcls : s.realized cls = true)
    (himp : ¬ isCxxStructor sel → Resolves s.methods s.superclass sel cls imp)
    (hfill : s.cache_fill K cls sel imp = some s') : CacheInv s' := by
  rw [cache_fill] at hfill
  split at hfill
  next =>
    obtain ⟨cache, hcache, rfl⟩ := map_eq_some_iff.mp hfill
    have hstored := fill_spec hcache
    have hother : ∀ c, c ≠ cls → update s.cache cls cache c = s.cache c :=
      fun c hc => update_of_ne hc _ _
    refine ⟨fun c => ?_, fun c hne => ?_, fun c sel' hsel hne => ?_⟩
    · show (update s.cache cls cache c).Roomy
      by_cases hc : c = cls
      · rw [hc, update_self]
        exact hstored.roomy (h.roomy cls)
      · rw [hother c hc]
        exact h.roomy c
    · by_cases hc : c = cls
      · rw [hc]
        exact hcls
      have hne' : (update s.cache cls cache c).entries ≠ [] := hne
      rw [hother c hc] at hne'
      exact h.realized c hne'
    show Resolves s.methods s.superclass sel' c ((update s.cache cls cache c).getImp sel')
    have hne' : (update s.cache cls cache c).getImp sel' ≠ 0 := hne
    by_cases hc : c = cls
    · subst hc
      rw [update_self] at hne' ⊢
      by_cases heq : sel' = sel
      · subst heq
        rw [hstored.self]
        split
        next hcached => exact h.sound c sel' hsel hcached
        next => exact himp hsel
      rcases hstored.others sel' heq with hget | hget
      · rw [hget] at hne' ⊢
        exact h.sound c sel' hsel hne'
      · exact absurd hget hne'
    · rw [hother c hc] at hne' ⊢
      exact h.sound c sel' hsel hne'
  next => exact some.inj hfill ▸ h

end CacheInv

/-! ## Room in all caches -/

/-- No cache has to grow beyond 32 bits for `n` more entries. -/
def ClassState.Room (n : Nat) (s : ClassState C) : Prop := ∀ c, (s.cache c).Room n

namespace ClassState

variable {s s' : ClassState C}

theorem Room.mono {m n : Nat} (h : s.Room n) (hle : m ≤ n) : s.Room m := fun c => (h c).mono hle

theorem Room.flushed {n : Nat} (h : s.Room n)
    (hcache : ∀ c, s'.cache c = s.cache c ∨ s'.cache c = (s.cache c).erase) : s'.Room n := by
  intro c
  rcases hcache c with heq | heq <;> rw [heq]
  · exact h c
  rw [erase]
  split
  next =>
    rcases h c with hc | hc
    · exact .inl (by show 0 + n ≤ (s.cache c).capacity / 4 * 3; omega)
    · exact .inr hc
  next => exact h c

variable [DecidableEq C] {K : ClassImage C} {cls : C} {sel : SEL} {imp : IMP}

theorem cache_fill_eq (hfill : s.cache_fill K cls sel imp = some s') :
    ∃ cache, s' = { s with cache := cache } := by
  unfold ClassState.cache_fill at hfill
  split at hfill
  next =>
    obtain ⟨cache, _, rfl⟩ := map_eq_some_iff.mp hfill
    exact ⟨_, rfl⟩
  next => exact ⟨s.cache, (some.inj hfill).symm⟩

theorem Room.cache_fill {n : Nat} (h : s.Room (1 + n))
    (hfill : s.cache_fill K cls sel imp = some s') : s'.Room n := by
  rw [ClassState.cache_fill] at hfill
  split at hfill
  next =>
    obtain ⟨cache, hcache, rfl⟩ := map_eq_some_iff.mp hfill
    intro c
    show (update s.cache cls cache c).Room n
    by_cases hc : c = cls
    · rw [hc, update_self]
      exact (fill_spec hcache).room n (h cls)
    · rw [update_of_ne hc]
      exact (h c).mono (by omega)
  next => exact some.inj hfill ▸ h.mono (by omega)

theorem cache_fill_eq_none (h : s.cache_fill K cls sel imp = none) : ¬ s.Room 1 := by
  rw [ClassState.cache_fill] at h
  split at h
  · exact fun hroom => fill_eq_none (map_eq_none_iff.mp h) (hroom cls)
  · cases h

end ClassState

/-! ## The invariant of all calls -/

/-- **The tree is in order and the caches agree with the method lists.** -/
structure ClassInv (K : ClassImage C) (s : ClassState C) : Prop where
  tree : TreeInv K s
  caches : CacheInv s

variable [DecidableEq C] [Fintype C] {K : ClassImage C} {s s' : ClassState C}

omit [DecidableEq C] [Fintype C] in
theorem ClassInv.grown (h : ClassInv K s) (hgrown : Grown s s') (htree : TreeInv K s') :
    ClassInv K s' := by
  refine ⟨htree, h.caches.transfer hgrown.cache hgrown.realized fun c hc => .inr fun x hx => ?_⟩
  exact ⟨hgrown.methods x (h.tree.realized_of_under hx hc), congrFun hgrown.superclass x⟩

omit [DecidableEq C] [Fintype C] in
theorem ClassInv.edited (h : ClassInv K s) {cls : C} (hedit : Edited (fun _ => False) cls s s') :
    ClassInv K s' := by
  have hsuper : ∀ x, s'.superclass x = s.superclass x := by
    intro x
    unfold superclass
    rw [hedit.links]
  refine ⟨h.tree.congr hedit.links hedit.realized, h.caches.transfer hedit.cache
    (fun c hc => hedit.realized ▸ hc) fun c hc => ?_⟩
  rcases hedit.flushed with hsame | hflushed
  · exact .inr fun x _ => ⟨by rw [hsame], hsuper x⟩
  by_cases hu : Under s.superclass c cls
  · exact .inl (hflushed c hu hc fun hf => hf)
  refine .inr fun x hx => ⟨hedit.methods x ?_, hsuper x⟩
  rintro rfl
  exact hu hx

theorem ClassInv.edit_flush_all (h : ClassInv K s) (methods : C → List MethodList) :
    ∃ s', flushCaches K { s with methods := methods } none = some s' ∧ ClassInv K s' := by
  have h' : TreeInv K { s with methods := methods } := h.tree.congr rfl rfl
  obtain ⟨vs, hflush, hmem⟩ := h'.flushCaches_none
  refine ⟨_, hflush, h'.congr rfl rfl, h.caches.transfer (fun c => eraseCaches_cache _ vs c)
    (fun c hc => hc) fun c hc => .inl ?_⟩
  exact eraseCaches_of_mem _ ((hmem c).mpr hc)

theorem ClassInv.addMethod (h : ClassInv K s) {cls : C} (hcls : s.realized cls = true) (name : SEL)
    (imp : IMP) (replace : Bool) :
    ∃ r, s.addMethod K cls name imp replace = some r ∧ ClassInv K r.2 := by
  obtain ⟨rank, hrank⟩ := h.tree.shape.ranked
  obtain ⟨r, hadd, hedit⟩ := h.tree.growing.addMethod_spec hrank hcls id name imp replace
  exact ⟨r, hadd, h.edited hedit⟩

theorem ClassInv.method_setImplementation (h : ClassInv K s) (owner : C) (place : MethodPlace)
    (imp : IMP) :
    ∃ r, s.method_setImplementation K owner place imp = some r ∧ ClassInv K r.2 := by
  rw [ClassState.method_setImplementation, ClassState._method_setImplementation]
  cases impAt (s.methods owner) place with
  | none => exact ⟨_, rfl, h⟩
  | some old => ?_
  by_cases himp : imp = 0
  · exact ⟨_, if_pos himp, h⟩
  obtain ⟨s', hflush, hinv⟩ := h.edit_flush_all
    (update s.methods owner (setImpAt (s.methods owner) place imp))
  refine ⟨(old, s'), ?_, hinv⟩
  show (if imp = 0 then _ else _) = _
  rw [if_neg himp, hflush, map_some]

theorem ClassInv.method_exchangeImplementations (h : ClassInv K s) (owner1 : C)
    (place1 : MethodPlace) (owner2 : C) (place2 : MethodPlace) :
    ∃ s', s.method_exchangeImplementations K owner1 place1 owner2 place2 = some s' ∧
      ClassInv K s' := by
  rw [ClassState.method_exchangeImplementations]
  cases impAt (s.methods owner1) place1 with
  | none => exact ⟨s, rfl, h⟩
  | some imp1 =>
    cases impAt (s.methods owner2) place2 with
    | none => exact ⟨s, rfl, h⟩
    | some imp2 => exact h.edit_flush_all _

theorem ClassInv.discoverCategoryFor (h : ClassInv K s) (cat : Category) (cls : C) :
    ∃ s', s.discoverCategoryFor K cat cls = some s' ∧ ClassInv K s' := by
  -- the tables of waiting categories are not part of the invariant
  have h1 : ClassInv K (s.addUnattachedCategoryForClass cat cls) :=
    ⟨h.tree.congr rfl rfl, h.caches.roomy, h.caches.realized, h.caches.sound⟩
  have h2 : ClassInv K ((s.addUnattachedCategoryForClass cat cls).takeUnattached cls) :=
    ⟨h.tree.congr rfl rfl, h.caches.roomy, h.caches.realized, h.caches.sound⟩
  cases hcls : s.realized cls with
  | false => exact ⟨_, if_neg (by show ¬ s.realized cls = true; simp [hcls]), h1⟩
  | true => ?_
  show ∃ s', (if s.realized cls = true then _ else _) = some s' ∧ _
  rw [if_pos hcls, remethodizeClass, attachCategories]
  generalize (s.addUnattachedCategoryForClass cat cls).unattachedCategories cls = cats
  by_cases hnil : categoryLists K cls cats = []
  · refine ⟨_, if_neg (by simp [hnil]), h2.edited ⟨.attachLists _ cls _, .inl ?_⟩⟩
    rw [hnil]
    exact update_eq_self cls _
  obtain ⟨rank, hrank⟩ := h.tree.shape.ranked
  obtain ⟨s', hflush, hedit⟩ := h2.tree.growing.edit_flush hrank hcls id
    (categoryLists K cls cats ++ s.methods cls)
  exact ⟨s', by rw [if_pos ⟨rfl, hnil⟩]; exact hflush, h2.edited hedit⟩

theorem ClassInv.discoverCategory (h : ClassInv K s) (cat : Category) (cls : C) :
    ∃ s', s.discoverCategory K cat cls = some s' ∧ ClassInv K s' := by
  rw [ClassState.discoverCategory]
  obtain ⟨s1, heq, h1⟩ : ∃ s1, (if cat.instanceMethods.isSome ∨ cat.protocols ∨
      cat.instanceProperties then s.discoverCategoryFor K cat cls else some s) = some s1 ∧
      ClassInv K s1 := by
    split
    · exact h.discoverCategoryFor cat cls
    · exact ⟨s, rfl, h⟩
  simp only [heq]
  split
  · exact h1.discoverCategoryFor cat (K.isa cls)
  · exact ⟨s1, rfl, h1⟩

theorem ClassInv.setSuperclass (h : ClassInv K s) {cls newSuper : C}
    (hm : Movable K s cls newSuper) :
    ∃ r, s.setSuperclass K cls newSuper = some r ∧ ClassInv K r.2 := by
  obtain ⟨r, hset, htree, hsuper, hreal, _, hmethods, hcache, hflushed⟩ := h.tree.setSuperclass hm
  refine ⟨r, hset, htree, h.caches.transfer hcache (fun c hc => hreal ▸ hc) fun c hc => ?_⟩
  have hmoved : ∀ x, ¬ (x = cls ∨ x = K.isa cls) → r.2.superclass x = s.superclass x := by
    intro x hx
    rw [hsuper, ClassImage.moved, update_of_ne fun he => hx (.inr he),
      update_of_ne fun he => hx (.inl he)]
  by_cases hu : ∃ b, (b = cls ∨ b = K.isa cls) ∧ Under r.2.superclass c b
  · obtain ⟨b, hb, hub⟩ := hu
    refine .inl (hflushed c hc ?_)
    rcases hb with rfl | rfl
    · exact .inl hub
    · exact .inr hub
  · -- a class that is flushed in neither walk was above neither of the two before
    refine .inr fun x hx => ⟨by rw [hmethods], hmoved x fun hS => hu ?_⟩
    exact hx.of_changed hmoved hS

end ObjcRuntime
