/-
THE TREE OF REALIZED CLASSES.

`Growing K s pending`: the links of the tree describe the realized classes,
but for the `pending` ones, those whose `realizeClass` has not returned.

* `Placed.flushCaches_some`, `TreeInv.flushCaches_none`: a flush reaches
  every realized class below its start, and ends,
* `realizeClass_spec`: `realizeClass` returns, realizes what is above the
  class, and changes no class that was realized before.
-/
import ObjcRuntime.Class.State

namespace ObjcRuntime

open Lib Function List ClassState ClassImage MethodCache Finset Nat

variable {C : Type}

/-! ## The shape of the class tree -/

structure TreeShape (K : ClassImage C) (parent : C → Option C) : Prop where
  ranked : ∃ rank, Ranked parent rank
  pair : ∀ c, K.isMeta c = false → parent (K.isa c) = some ((parent c).elim c K.isa)
  class_parent : ∀ c d, K.isMeta c = false → parent c = some d → K.isMeta d = false
  root : ∀ r, K.isMeta r = false → K.superclass r = none → parent r = none

theorem ClassImage.treeShape (K : ClassImage C) : TreeShape K K.superclass :=
  ⟨K.ranked, K.pair_superclass, K.superclass_isMeta, fun _ _ => id⟩

/-- A height that does not grow from a class to its superclass or its metaclass. It stays the
same only from a root metaclass to its root. -/
structure Height (K : ClassImage C) (parent : C → Option C) (height : C → Nat) : Prop where
  superclass : ∀ c p, parent c = some p →
    height p < height c ∨ height p = height c ∧ parent p = none
  isa : ∀ c, height (K.isa c) ≤ height c

theorem ClassImage.exists_lift (K : ClassImage C) (f : C → Nat) :
    ∃ g : C → Nat, (∀ c, K.isMeta c = false → g c = f c) ∧
      ∀ c, K.isMeta c = false → g (K.isa c) = f c := by
  choose base hbase hisa using K.meta_pair
  refine ⟨fun c => if hm : K.isMeta c = true then f (base c hm) else f c, fun c hc => ?_,
    fun c hc => ?_⟩
  · have hm : ¬ K.isMeta c = true := by
      rw [hc]
      exact Bool.false_ne_true
    exact dif_neg hm
  · have hm := K.isa_isMeta c
    refine (dif_pos hm).trans ?_
    rw [K.isa_inj _ _ (hbase _ hm) hc (hisa _ hm)]

variable {parent : C → Option C} {K : ClassImage C}

theorem TreeShape.exists_height (h : TreeShape K parent) :
    ∃ height, Height K parent height ∧
      ∀ c p, parent c = some p → K.isMeta c = K.isMeta p → height p < height c := by
  obtain ⟨rank, hrank⟩ := h.ranked
  obtain ⟨depth, hdepth, hroot⟩ := hrank.exists_rooted
  obtain ⟨height, hclass, hmeta⟩ := K.exists_lift depth
  have hup : ∀ c p, parent c = some p → height p < height c ∨
      (height p = height c ∧ parent p = none) ∧ K.isMeta c ≠ K.isMeta p := by
    intro c p hp
    cases hc : K.isMeta c with
    | false =>
      rw [hclass c hc, hclass p (h.class_parent c p hc hp)]
      exact .inl (hdepth c p hp)
    | true => ?_
    obtain ⟨b, hb, rfl⟩ := K.meta_pair c hc
    rw [h.pair b hb, Option.some_inj] at hp
    cases hd : parent b with
    | none =>
      -- the root metaclass, below the root
      rw [hd, Option.elim_none] at hp
      subst hp
      rw [hclass b hb, hmeta b hb, hb]
      exact .inr ⟨⟨rfl, hd⟩, nofun⟩
    | some d => ?_
    rw [hd, Option.elim_some] at hp
    subst hp
    rw [hmeta b hb, hmeta d (h.class_parent b d hb hd)]
    exact .inl (hdepth b d hd)
  refine ⟨height, ⟨fun c p hp => (hup c p hp).imp_right fun h => h.1, fun c => ?_⟩,
    fun c p hp hsame => (hup c p hp).resolve_right fun h => h.2 hsame⟩
  · cases hc : K.isMeta c with
    | false => rw [hclass c hc, hmeta c hc]
    | true =>
      obtain ⟨r, hr, hnone, heq⟩ := K.meta_isa c hc
      rw [heq, hmeta r hr, hroot r (h.root r hr hnone)]
      exact zero_le _

variable {cls newSuper : C}

theorem TreeShape.under_of_isa [DecidableEq C] (h : TreeShape K parent)
    (hcls : K.isMeta cls = false) (hnew : K.isMeta newSuper = false)
    (hu : Under (update parent cls (some newSuper)) (K.isa newSuper) (K.isa cls)) :
    Under parent newSuper cls := by
  -- up from a metaclass there are metaclasses of what is above its class, and then classes
  have hup := hu.of_closed
    (P := fun y => (∃ b, K.isMeta b = false ∧ y = K.isa b ∧ Under parent newSuper b) ∨
      K.isMeta y = false) ?_ (.inl ⟨newSuper, hnew, rfl, Under.refl _ _⟩)
  · rcases hup with ⟨b, hb, heq, hub⟩ | hmeta
    · rw [K.isa_inj cls b hcls hb heq]
      exact hub
    · rw [K.isa_isMeta cls] at hmeta
      cases hmeta
  intro y p hy hp _
  rcases hy with ⟨b, hb, rfl, hub⟩ | hy
  · have hne : K.isa b ≠ cls := by
      rintro rfl
      rw [K.isa_isMeta b] at hcls
      cases hcls
    rw [update_of_ne hne, h.pair b hb, Option.some_inj] at hp
    subst hp
    cases hd : parent b with
    | none => exact .inr hb
    | some d => exact .inl ⟨d, h.class_parent b d hb hd, rfl, hub.tail hd⟩
  right
  by_cases heq : y = cls
  · subst heq
    rw [update_self, Option.some_inj] at hp
    rw [← hp]
    exact hnew
  · rw [update_of_ne heq] at hp
    exact h.class_parent y p hy hp

theorem TreeShape.move [DecidableEq C] (h : TreeShape K parent)
    (hcls : K.isMeta cls = false) (hnew : K.isMeta newSuper = false) (hroot : parent cls ≠ none)
    (hnot : ¬ Under parent newSuper cls) :
    TreeShape K (update (update parent cls (some newSuper)) (K.isa cls)
      (some (K.isa newSuper))) := by
  obtain ⟨rank, hrank⟩ := h.ranked
  have hisa : ∀ c d, K.isMeta c = false → c ≠ K.isa d := by
    rintro c d hc rfl
    rw [K.isa_isMeta d] at hc
    cases hc
  refine ⟨?_, fun c hc => ?_, fun c d hc hd => ?_, fun r hr hnone => ?_⟩
  · obtain ⟨rank1, hrank1⟩ := hrank.move hnot
    exact hrank1.move fun hu => hnot (h.under_of_isa hcls hnew hu)
  · rw [update_of_ne (hisa c cls hc)]
    by_cases heq : c = cls
    · subst heq
      rw [update_self, update_self, Option.elim_some]
    rw [update_of_ne fun he => heq (K.isa_inj c cls hc hcls he),
      update_of_ne (hisa cls c hcls).symm, update_of_ne heq]
    exact h.pair c hc
  · rw [update_of_ne (hisa c cls hc)] at hd
    by_cases heq : c = cls
    · subst heq
      rw [update_self, Option.some_inj] at hd
      rw [← hd]
      exact hnew
    · rw [update_of_ne heq] at hd
      exact h.class_parent c d hc hd
  have hpr := h.root r hr hnone
  have hne : r ≠ cls := by
    rintro rfl
    exact hroot hpr
  rw [update_of_ne (hisa r cls hr), update_of_ne hne]
  exact hpr

/-! ## The links of the tree, and flushes -/

/-- The links describe the realized classes that are not `pending`. A pending class that has
one of them below it is a root: only a root metaclass is linked before its superclass. -/
structure Growing (K : ClassImage C) (s : ClassState C) (pending : C → Prop) : Prop where
  forest : ∃ children, Forest s.links (fun c => s.realized c = true ∧ ¬ pending c) children
  pending_realized : ∀ c, pending c → s.realized c = true
  up : ∀ c p, s.realized c = true → ¬ pending c → s.superclass c = some p →
    s.realized p = true ∧ (pending p → s.superclass p = none)
  isa : ∀ c, s.realized c = true → ¬ pending c → s.realized (K.isa c) = true

structure TreeInv (K : ClassImage C) (s : ClassState C) : Prop where
  shape : TreeShape K s.superclass
  growing : Growing K s fun _ => False

/-- The classes in the tree, each linked below its superclass. Only a root may be missing above
a class that is in the tree. -/
structure Placed (s : ClassState C) (present : C → Prop) : Prop where
  forest : ∃ children, Forest s.links present children
  realized : ∀ c, present c → s.realized c = true
  up : ∀ c p, present c → s.superclass c = some p →
    s.realized p = true ∧ (present p ∨ s.superclass p = none)

variable {s s' : ClassState C}

theorem Growing.congr {pending : C → Prop}
    (h : Growing K s pending) (hlinks : s'.links = s.links) (hrealized : s'.realized = s.realized) :
    Growing K s' pending := by
  obtain ⟨forest, pending_realized, up, isa⟩ := h
  unfold ClassState.superclass at up
  rw [← hlinks, ← hrealized] at forest up
  rw [← hrealized] at pending_realized isa
  exact ⟨forest, pending_realized, up, isa⟩

theorem TreeInv.congr (h : TreeInv K s)
    (hlinks : s'.links = s.links) (hrealized : s'.realized = s.realized) : TreeInv K s' := by
  refine ⟨?_, h.growing.congr hlinks hrealized⟩
  have hshape := h.shape
  unfold ClassState.superclass at hshape ⊢
  rwa [hlinks]

variable {c : C}

theorem TreeInv.realized_of_under (h : TreeInv K s) {a : C}
    (hu : Under s.superclass c a) (hc : s.realized c = true) : s.realized a = true :=
  hu.of_closed (P := fun x => s.realized x = true)
    (fun x p hx hp _ => (h.growing.up x p hx id hp).1) hc

variable [Fintype C]

theorem ClassImage.card_lt_unreasonableClassCount (K : ClassImage C) :
    2 * Fintype.card C < K.unreasonableClassCount := by
  classical
  have hcover : (univ : Finset C) ⊆ (univ.filter fun c => K.isMeta c = false)
        ∪ (univ.filter fun c => K.isMeta c = false).image K.isa := by
    intro c _
    cases hc : K.isMeta c with
    | false => exact mem_union_left _ (by simpa using hc)
    | true =>
      obtain ⟨b, hb, hisa⟩ := K.meta_pair c hc
      exact mem_union_right _ (mem_image.mpr ⟨b, by simpa using hb, hisa⟩)
  have hcard := card_le_card hcover
  have hunion := card_union_le (univ.filter fun c => K.isMeta c = false)
    ((univ.filter fun c => K.isMeta c = false).image K.isa)
  have himage : ((univ.filter fun c => K.isMeta c = false).image K.isa).card
      ≤ (univ.filter fun c => K.isMeta c = false).card := card_image_le
  rw [Finset.card_univ] at hcard
  rw [unreasonableClassCount]
  omega

variable [DecidableEq C] {K : ClassImage C} {s : ClassState C} {pending : C → Prop}
  {rank : C → Nat}

omit [Fintype C] [DecidableEq C] in
theorem Growing.placed (h : Growing K s pending) :
    Placed s fun c => s.realized c = true ∧ ¬ pending c := by
  refine ⟨h.forest, fun c hc => hc.1, fun c p hc hp => ?_⟩
  obtain ⟨hpr, hroot⟩ := h.up c p hc.1 hc.2 hp
  by_cases hpend : pending p
  · exact ⟨hpr, .inr (hroot hpend)⟩
  · exact ⟨hpr, .inl ⟨hpr, hpend⟩⟩

variable {present : C → Prop}

theorem Placed.foreach_spec (h : Placed s present) (hrank : Ranked s.superclass rank) {top : C}
    (htop : present top) :
    ∃ vs moves, vs.Nodup ∧ (∀ x, x ∈ vs ↔ Under s.superclass x top ∧ present x) ∧
      moves < 2 * vs.length ∧
      ∀ count, moves < count →
        s.foreach_realized_class_and_subclass_2 top count = some (count - moves, vs) := by
  obtain ⟨children, hforest⟩ := h.forest
  -- a class missing below `top` would be a root, and so `top` itself
  have hup : ∀ x p, present x → s.superclass x = some p → Under s.superclass p top → present p := by
    intro x p hx hp hu
    rcases (h.up x p hx hp).2 with hp | hroot
    · exact hp
    by_cases heq : p = top
    · exact heq ▸ htop
    obtain ⟨q, hq, _⟩ := hu.parent_of_ne heq
    rw [hroot] at hq
    cases hq
  obtain ⟨vs, moves, hnodup, hmem, hmoves, hwalk⟩ := hforest.walk_spec hrank top hup
  refine ⟨vs, moves, hnodup, fun x => ?_, hmoves, hwalk⟩
  rw [hmem]
  constructor
  · rintro ⟨hu, rfl | hx⟩
    · exact ⟨hu, htop⟩
    · exact ⟨hu, hx⟩
  · rintro ⟨hu, hx⟩
    exact ⟨hu, .inr hx⟩

theorem Placed.flushCaches_some (h : Placed s present) (K : ClassImage C)
    (hrank : Ranked s.superclass rank) {top : C} (htop : present top) :
    ∃ vs, s.flushCaches K (some top) = some (s.eraseCaches vs) ∧
      ∀ x, x ∈ vs ↔ Under s.superclass x top ∧ present x := by
  obtain ⟨vs, moves, hnodup, hmem, hmoves, hwalk⟩ := h.foreach_spec hrank htop
  have hlen := hnodup.length_le_card
  have hcard := K.card_lt_unreasonableClassCount
  refine ⟨vs, ?_, hmem⟩
  rw [flushCaches]
  simp only [hwalk K.unreasonableClassCount (by omega), Option.map_some]

theorem Placed.foreachRoot_spec (h : Placed s present) (hrank : Ranked s.superclass rank)
    {start : Option C} {l : List C}
    (hlist : SiblingList s.links.next start l) : ∀ (fuel count : Nat) (visited : List C),
      l.Nodup → l.length < fuel →
      (∀ r ∈ l, present r ∧ s.superclass r = none) → visited.Nodup →
      (∀ x ∈ visited, ∀ r ∈ l, ¬ Under s.superclass x r) →
      2 * Fintype.card C < count + 2 * visited.length →
      ∃ vs, s.foreachRoot fuel start count visited = some (visited ++ vs) ∧
        (visited ++ vs).Nodup ∧ ∀ x, x ∈ vs ↔ present x ∧ ∃ r ∈ l, Under s.superclass x r := by
  induction hlist with
  | nil =>
    intro fuel count visited _ hfuel _ hvisited _ _
    rcases fuel with _ | fuel
    · omega
    exact ⟨[], by rw [foreachRoot, append_nil], by rwa [append_nil], by simp⟩
  | @cons top l hlist ih => ?_
  intro fuel count visited hnodup hfuel hroots hvisited hdisjoint hcount
  rw [length_cons] at hfuel
  rcases fuel with _ | fuel
  · omega
  obtain ⟨htop_not, hnodup'⟩ := nodup_cons.mp hnodup
  obtain ⟨htop, hnone⟩ := hroots top mem_cons_self
  obtain ⟨vs, moves, hvs, hmem, hmoves, hwalk⟩ := h.foreach_spec hrank htop
  have happend : (visited ++ vs).Nodup := by
    refine nodup_append.mpr ⟨hvisited, hvs, fun x hx y hy heq => ?_⟩
    subst heq
    exact hdisjoint x hx top mem_cons_self ((hmem x).mp hy).1
  have hlen := happend.length_le_card
  rw [length_append] at hlen
  have hdisjoint' : ∀ x ∈ visited ++ vs, ∀ r ∈ l, ¬ Under s.superclass x r := by
    intro x hx r hr hu
    rcases mem_append.mp hx with hx | hx
    · exact hdisjoint x hx r (mem_cons_of_mem _ hr) hu
    have hrnone := (hroots r (mem_cons_of_mem _ hr)).2
    have heq : top = r := ((hmem x).mp hx).1.root_unique hu hnone hrnone
    exact htop_not (heq ▸ hr)
  obtain ⟨vs', hrun, hall, hmem'⟩ := ih fuel (count - moves) (visited ++ vs) hnodup' (by omega)
    (fun r hr => hroots r (mem_cons_of_mem _ hr)) happend hdisjoint'
    (by rw [length_append]; omega)
  refine ⟨vs ++ vs', ?_, append_assoc visited vs vs' ▸ hall, fun x => ?_⟩
  · rw [foreachRoot]
    simp only [hwalk count (by omega)]
    rw [hrun, append_assoc]
  rw [mem_append, hmem, hmem']
  constructor
  · rintro (⟨hu, hx⟩ | ⟨hx, r, hr, hu⟩)
    · exact ⟨hx, top, mem_cons_self, hu⟩
    · exact ⟨hx, r, mem_cons_of_mem _ hr, hu⟩
  rintro ⟨hx, r, hr, hu⟩
  rcases mem_cons.mp hr with rfl | hr
  · exact .inl ⟨hu, hx⟩
  · exact .inr ⟨hx, r, hr, hu⟩

theorem TreeInv.flushCaches_none (h : TreeInv K s) :
    ∃ vs, s.flushCaches K none = some (s.eraseCaches vs) ∧ ∀ x, x ∈ vs ↔ s.realized x = true := by
  obtain ⟨rank, hrank⟩ := h.shape.ranked
  obtain ⟨children, hforest⟩ := h.growing.forest
  have hlen := (hforest.nodup none).length_le_card
  have hcard := K.card_lt_unreasonableClassCount
  obtain ⟨vs, hrun, -, hmem⟩ := h.growing.placed.foreachRoot_spec hrank (hforest.siblings none)
    (Fintype.card C + 1) K.unreasonableClassCount [] (hforest.nodup none) (by omega)
    (fun r hr => (hforest.mem_children none r).mp hr)
    nodup_nil nofun (by simpa using hcard)
  refine ⟨vs, ?_, fun x => ?_⟩
  · rw [flushCaches]
    simp only [hrun, nil_append, Option.map_some]
  rw [hmem]
  refine ⟨fun hx => hx.1.1, fun hx => ⟨⟨hx, id⟩, ?_⟩⟩
  obtain ⟨r, hu, hr⟩ := hrank.exists_root x
  have hrealized := h.realized_of_under hu hx
  exact ⟨r, (hforest.mem_children none r).mpr ⟨⟨hrealized, id⟩, hr⟩, hu⟩

/-! ## Changes to the methods of one class -/

@[simp] theorem MethodCache.erase_erase (cache : MethodCache) : cache.erase.erase = cache.erase := by
  unfold erase
  split
  · simp
  · rfl

/-- Only the methods of `cls` change; caches may lose their entries. -/
structure Methodized (cls : C) (s s' : ClassState C) : Prop where
  links : s'.links = s.links
  realized : s'.realized = s.realized
  initialized : s'.initialized = s.initialized
  methods : ∀ c, c ≠ cls → s'.methods c = s.methods c
  cache : ∀ c, s'.cache c = s.cache c ∨ s'.cache c = (s.cache c).erase

structure Edited (pending : C → Prop) (cls : C) (s s' : ClassState C) : Prop
    extends Methodized cls s s' where
  flushed : s'.methods = s.methods ∨
    ∀ x, Under s.superclass x cls → s.realized x = true → ¬ pending x →
      s'.cache x = (s.cache x).erase

section

omit [Fintype C] [DecidableEq C]

theorem Methodized.refl (cls : C) (s : ClassState C) : Methodized cls s s :=
  ⟨rfl, rfl, rfl, fun _ _ => rfl, fun _ => .inl rfl⟩

theorem cache_or_erase_trans {a b c : MethodCache} (h : b = a ∨ b = a.erase)
    (h' : c = b ∨ c = b.erase) : c = a ∨ c = a.erase := by
  rcases h with rfl | rfl
  · exact h'
  · rw [erase_erase, or_self] at h'
    exact .inr h'

variable {s₁ s₂ s₃ : ClassState C}

theorem Methodized.trans (h : Methodized cls s₁ s₂)
    (h' : Methodized cls s₂ s₃) : Methodized cls s₁ s₃ where
  links := h'.links.trans h.links
  realized := h'.realized.trans h.realized
  initialized := h'.initialized.trans h.initialized
  methods := fun c hc => (h'.methods c hc).trans (h.methods c hc)
  cache := fun c => cache_or_erase_trans (h.cache c) (h'.cache c)

theorem Edited.refl (pending : C → Prop) (cls : C) (s : ClassState C) : Edited pending cls s s :=
  ⟨.refl cls s, .inl rfl⟩

theorem Methodized.growing {pending : C → Prop} (h : Methodized cls s s')
    (hs : Growing K s pending) : Growing K s' pending :=
  hs.congr h.links h.realized

end

omit [Fintype C] in
theorem Methodized.attachLists (s : ClassState C) (cls : C) (mlists : List MethodList) :
    Methodized cls s (s.attachLists cls mlists) :=
  ⟨rfl, rfl, rfl, fun _ hc => update_of_ne hc _ _, fun _ => .inl rfl⟩

omit [Fintype C] in
theorem eraseCaches_cache (s : ClassState C) (vs : List C) (c : C) :
    (s.eraseCaches vs).cache c = s.cache c ∨ (s.eraseCaches vs).cache c = (s.cache c).erase := by
  show (if c ∈ vs then (s.cache c).erase else s.cache c) = s.cache c ∨ _ = _
  split
  · exact .inr (if_pos ‹_›)
  · exact .inl rfl

omit [Fintype C] in
theorem eraseCaches_of_mem (s : ClassState C) {vs : List C} (hc : c ∈ vs) :
    (s.eraseCaches vs).cache c = (s.cache c).erase := if_pos hc

theorem Growing.edit_flush (h : Growing K s pending) (hrank : Ranked s.superclass rank)
    (hcls : s.realized cls = true) (hnot : ¬ pending cls) (mlists : List MethodList) :
    ∃ s', ClassState.flushCaches K { s with methods := update s.methods cls mlists }
        (some cls) = some s' ∧ Edited pending cls s s' := by
  have h' : Growing K { s with methods := update s.methods cls mlists } pending :=
    h.congr rfl rfl
  obtain ⟨vs, hflush, hmem⟩ := h'.placed.flushCaches_some K hrank ⟨hcls, hnot⟩
  refine ⟨_, hflush, ⟨rfl, rfl, rfl, fun c hc => update_of_ne hc _ _, fun c => ?_⟩,
    .inr fun x hu hx hp => ?_⟩
  · exact eraseCaches_cache _ vs c
  · exact eraseCaches_of_mem _ ((hmem x).mpr ⟨hu, hx, hp⟩)

theorem Growing.addMethod_spec (h : Growing K s pending) (hrank : Ranked s.superclass rank)
    (hcls : s.realized cls = true) (hnot : ¬ pending cls) (name : SEL) (imp : IMP)
    (replace : Bool) :
    ∃ r, s.addMethod K cls name imp replace = some r ∧ Edited pending cls s r.2 := by
  rw [addMethod, if_pos hcls]
  cases getMethodNoSuper_nolock name (s.methods cls) with
  | none =>
    obtain ⟨s', hflush, hedit⟩ := h.edit_flush hrank hcls hnot
      ([fixupMethodList [⟨name, imp⟩]] ++ s.methods cls)
    refine ⟨(0, s'), ?_, hedit⟩
    show Option.map _ (flushCaches K _ (some cls)) = _
    rw [attachLists, hflush, Option.map_some]
  | some place => ?_
  cases replace with
  | false => exact ⟨_, rfl, .refl pending cls s⟩
  | true => ?_
  show ∃ r, s._method_setImplementation K (some cls) cls place imp = some r ∧ _
  rw [_method_setImplementation]
  cases impAt (s.methods cls) place with
  | none => exact ⟨_, rfl, .refl pending cls s⟩
  | some old => ?_
  by_cases himp : imp = 0
  · exact ⟨_, if_pos himp, .refl pending cls s⟩
  obtain ⟨s', hflush, hedit⟩ := h.edit_flush hrank hcls hnot (setImpAt (s.methods cls) place imp)
  refine ⟨(old, s'), ?_, hedit⟩
  show (if imp = 0 then _ else _) = _
  rw [if_neg himp, hflush, Option.map_some]

theorem attachCategories_false (s : ClassState C) (cls : C) (cats : List Category) :
    s.attachCategories K cls cats false
      = some (s.attachLists cls (ClassState.categoryLists K cls cats)) :=
  if_neg fun h => Bool.false_ne_true h.1

theorem Growing.methodizeClass_spec (h : Growing K s pending) (hrank : Ranked s.superclass rank)
    (hcls : s.realized cls = true) (hnot : ¬ pending cls) :
    ∃ s', s.methodizeClass K cls = some s' ∧ Methodized cls s s' := by
  have hs1 : Methodized cls s (s.attachBaseMethods K cls) := by
    rw [ClassState.attachBaseMethods]
    cases K.baseMethods cls with
    | none => exact .refl cls s
    | some list => exact .attachLists s cls _
  have hrank1 : Ranked (s.attachBaseMethods K cls).superclass rank := by
    unfold ClassState.superclass
    rw [hs1.links]
    exact hrank
  obtain ⟨⟨_, s'⟩, hbonus, hs2⟩ : ∃ r,
      (s.attachBaseMethods K cls).addBonusMethod K cls = some r ∧
        Methodized cls (s.attachBaseMethods K cls) r.2 := by
    rw [ClassState.addBonusMethod]
    by_cases hisa : K.isa cls = cls
    · obtain ⟨r, hr, hedit⟩ := (hs1.growing h).addMethod_spec hrank1 (hs1.realized ▸ hcls) hnot
        initializeSEL objc_noop_imp false
      exact ⟨r, by rw [if_pos hisa, hr], hedit.toMethodized⟩
    · exact ⟨_, if_neg hisa, .refl cls _⟩
  rw [ClassState.methodizeClass, hbonus]
  refine ⟨_, attachCategories_false _ cls _, (hs1.trans hs2).trans ?_⟩
  exact ⟨rfl, rfl, rfl, fun c hc => update_of_ne hc _ _, fun _ => .inl rfl⟩

/-! ## `realizeClass` -/

structure Extended (s s' : ClassState C) : Prop where
  superclass : s'.superclass = s.superclass
  initialized : s'.initialized = s.initialized
  realized : ∀ c, s.realized c = true → s'.realized c = true
  methods : ∀ c, s.realized c = true → s'.methods c = s.methods c

structure Grown (s s' : ClassState C) : Prop extends Extended s s' where
  cache : ∀ c, s'.cache c = s.cache c ∨ s'.cache c = (s.cache c).erase

section

omit [Fintype C] [DecidableEq C]

theorem Extended.refl (s : ClassState C) : Extended s s :=
  ⟨rfl, rfl, fun _ => id, fun _ _ => rfl⟩

theorem Extended.trans (h : Extended s₁ s₂) (h' : Extended s₂ s₃) : Extended s₁ s₃ where
  superclass := h'.superclass.trans h.superclass
  initialized := h'.initialized.trans h.initialized
  realized := fun c hc => h'.realized c (h.realized c hc)
  methods := fun c hc => (h'.methods c (h.realized c hc)).trans (h.methods c hc)

theorem Grown.refl (s : ClassState C) : Grown s s :=
  ⟨.refl s, fun _ => .inl rfl⟩

theorem Grown.trans (h : Grown s₁ s₂) (h' : Grown s₂ s₃) : Grown s₁ s₃ where
  toExtended := h.toExtended.trans h'.toExtended
  cache := fun c => cache_or_erase_trans (h.cache c) (h'.cache c)

end

def ClassState.unrealized (s : ClassState C) : Nat :=
  (Finset.univ.filter fun c => s.realized c = false).card

omit [DecidableEq C] in
theorem Grown.unrealized_le (h : Grown s s') : s'.unrealized ≤ s.unrealized := by
  refine Finset.card_le_card fun c hc => ?_
  rw [Finset.mem_filter] at hc ⊢
  refine ⟨hc.1, ?_⟩
  cases hr : s.realized c with
  | false => rfl
  | true => rw [h.realized c hr] at hc; exact hc.2

omit [Fintype C] in
theorem Grown.mark (s : ClassState C) (cls : C) : Grown s (s.mark cls) := by
  refine ⟨⟨rfl, rfl, fun c hc => ?_, fun _ _ => rfl⟩, fun _ => .inl rfl⟩
  show update s.realized cls true c = true
  by_cases heq : c = cls
  · rw [heq, update_self]
  · rw [update_of_ne heq]
    exact hc

omit [Fintype C] in
theorem mark_realized (s : ClassState C) :
    (s.mark cls).realized c = true ↔ s.realized c = true ∨ c = cls := by
  show update s.realized cls true c = true ↔ _
  by_cases heq : c = cls <;> simp [heq]

theorem unrealized_mark_lt (h : s.realized cls = false) :
    (s.mark cls).unrealized < s.unrealized := by
  refine Finset.card_lt_card (Finset.ssubset_iff_of_subset ?_ |>.mpr ⟨cls, ?_, ?_⟩)
  · intro c hc
    rw [Finset.mem_filter] at hc ⊢
    refine ⟨hc.1, ?_⟩
    cases hr : s.realized c with
    | false => rfl
    | true => rw [(Grown.mark s cls).realized c hr] at hc; exact hc.2
  · simpa using h
  · simp [(mark_realized s).mpr (.inr rfl)]

omit [Fintype C] in
theorem Growing.mark (h : Growing K s pending) (hcls : s.realized cls = false) :
    Growing K (s.mark cls) fun c => pending c ∨ c = cls := by
  have hne : ∀ c, s.realized c = true → c ≠ cls := by
    rintro c hc rfl
    rw [hcls] at hc
    cases hc
  have hlinked : (fun c => (s.mark cls).realized c = true ∧ ¬ (pending c ∨ c = cls))
      = fun c => s.realized c = true ∧ ¬ pending c := by
    funext c
    rw [mark_realized, eq_iff_iff]
    constructor
    · rintro ⟨hc | hc, hnot⟩
      · exact ⟨hc, fun hp => hnot (.inl hp)⟩
      · exact absurd (.inr hc) hnot
    · rintro ⟨hc, hnot⟩
      exact ⟨.inl hc, fun hp => hp.elim hnot (hne c hc)⟩
  have hof : ∀ c, (s.mark cls).realized c = true → ¬ (pending c ∨ c = cls) →
      s.realized c = true ∧ ¬ pending c := fun c hc hnot => (congrFun hlinked c).mp ⟨hc, hnot⟩
  refine ⟨?_, fun c hc => ?_, fun c p hc hnot hp => ?_, fun c hc hnot => ?_⟩
  · rw [hlinked]
    exact h.forest
  · exact (mark_realized s).mpr (hc.imp_left (h.pending_realized c))
  · obtain ⟨hc, hnot⟩ := hof c hc hnot
    obtain ⟨hpr, hroot⟩ := h.up c p hc hnot hp
    exact ⟨(mark_realized s).mpr (.inl hpr), fun hpend => hroot (hpend.resolve_right (hne p hpr))⟩
  · obtain ⟨hc, hnot⟩ := hof c hc hnot
    exact (mark_realized s).mpr (.inl (h.isa c hc hnot))

omit [Fintype C] in
theorem Growing.link (h : Growing K s fun c => pending c ∨ c = cls) (hcls : s.realized cls = true)
    (hnot : ¬ pending cls)
    (hup : ∀ p, s.superclass cls = some p →
      s.realized p = true ∧ (pending p → s.superclass p = none))
    (hisa : s.realized (K.isa cls) = true)
    (hlinks : s'.links = s.links.insert (s.superclass cls) cls)
    (hrealized : s'.realized = s.realized) :
    Growing K s' pending := by
  obtain ⟨children, hforest⟩ := h.forest
  have hlinked : (fun c => (s.realized c = true ∧ ¬ (pending c ∨ c = cls)) ∨ c = cls)
      = fun c => s'.realized c = true ∧ ¬ pending c := by
    funext c
    rw [eq_iff_iff, hrealized]
    constructor
    · rintro (⟨hc, hn⟩ | rfl)
      · exact ⟨hc, fun hp => hn (.inl hp)⟩
      · exact ⟨hcls, hnot⟩
    rintro ⟨hc, hn⟩
    by_cases heq : c = cls
    · exact .inr heq
    · exact .inl ⟨hc, fun hp => hp.elim hn heq⟩
  have hinsert := hforest.insert (c := cls) (p := s.superclass cls) (fun hc => hc.2 (.inr rfl)) rfl
  have hparent : s'.superclass = s.superclass := by
    unfold ClassState.superclass
    rw [hlinks]
    rfl
  refine ⟨?_, fun c hc => ?_, fun c p hc hn hp => ?_, fun c hc hn => ?_⟩
  · rw [hlinks, ← hlinked]
    exact ⟨_, hinsert⟩
  · rw [hrealized]
    exact h.pending_realized c (.inl hc)
  · rw [hparent] at hp ⊢
    rw [hrealized] at hc ⊢
    by_cases heq : c = cls
    · exact hup p (heq ▸ hp)
    · obtain ⟨hpr, hroot⟩ := h.up c p hc (fun hpend => hpend.elim hn heq) hp
      exact ⟨hpr, fun hpend => hroot (.inl hpend)⟩
  rw [hrealized] at hc ⊢
  by_cases heq : c = cls
  · rw [heq]
    exact hisa
  · exact h.isa c hc fun hpend => hpend.elim hn heq

structure Relinked (L : Links C) (s s' : ClassState C) : Prop where
  links : s'.links = L
  realized : s'.realized = s.realized
  initialized : s'.initialized = s.initialized
  methods : s'.methods = s.methods
  cache : s'.cache = s.cache

omit [Fintype C] in
theorem Relinked.setCxxFlags (K : ClassImage C) (s : ClassState C) (cls : C) :
    Relinked s.links s (s.setCxxFlags K cls) := by
  rw [ClassState.setCxxFlags]
  split <;> exact ⟨rfl, rfl, rfl, rfl, rfl⟩

omit [Fintype C] in
theorem addSubclass_spec (s : ClassState C) (supercls subcls : C)
    (hsuper : s.realized supercls = true) (hsub : s.realized subcls = true) :
    ∃ s', s.addSubclass supercls subcls = some s' ∧
      Relinked (s.links.insert (some supercls) subcls) s s' :=
  ⟨_, if_pos ⟨hsuper, hsub⟩, rfl, rfl, rfl, rfl, rfl⟩

omit [Fintype C] in
theorem addRootClass_spec (s : ClassState C) (cls : C) (hcls : s.realized cls = true) :
    ∃ s', s.addRootClass cls = some s' ∧ Relinked (s.links.insert none cls) s s' :=
  ⟨_, if_pos hcls, rfl, rfl, rfl, rfl, rfl⟩

omit [Fintype C] [DecidableEq C] in
theorem Relinked.trans {L L' : Links C} (h : Relinked L s₁ s₂)
    (h' : Relinked L' s₂ s₃) : Relinked L' s₁ s₃ :=
  ⟨h'.links, h'.realized.trans h.realized, h'.initialized.trans h.initialized,
    h'.methods.trans h.methods, h'.cache.trans h.cache⟩

omit [Fintype C] in
theorem link_spec (K : ClassImage C) (s : ClassState C) (hcls : s.realized cls = true)
    (hsuper : ∀ p, s.superclass cls = some p → s.realized p = true) :
    ∃ s', s.link K cls = some s' ∧ Relinked (s.links.insert (s.superclass cls) cls) s s' := by
  have hflags := Relinked.setCxxFlags K s cls
  rw [link]
  cases hp : s.superclass cls with
  | none =>
    obtain ⟨s', hadd, hs'⟩ := addRootClass_spec (s.setCxxFlags K cls) cls (by
      rw [hflags.realized]
      exact hcls)
    rw [hflags.links] at hs'
    exact ⟨s', hadd, hflags.trans hs'⟩
  | some p => ?_
  obtain ⟨s', hadd, hs'⟩ := addSubclass_spec (s.setCxxFlags K cls) p cls
    (by rw [hflags.realized]; exact hsuper p hp) (by rw [hflags.realized]; exact hcls)
  rw [hflags.links] at hs'
  exact ⟨s', hadd, hflags.trans hs'⟩

/-- What holds when the marked class `cls` is put into the tree. -/
structure Linkable (K : ClassImage C) (s : ClassState C) (pending : C → Prop) (cls : C) : Prop where
  growing : Growing K s fun c => pending c ∨ c = cls
  not_pending : ¬ pending cls
  ne_self : s.superclass cls ≠ some cls
  up : ∀ p, s.superclass cls = some p → s.realized p = true ∧
    (pending p → s.superclass p = none ∧ K.isMeta cls ≠ K.isMeta p)
  isa : s.realized (K.isa cls) = true

omit [Fintype C] [DecidableEq C] in
theorem Linkable.realized (h : Linkable K s pending cls) : s.realized cls = true :=
  h.growing.pending_realized cls (.inr rfl)

omit [Fintype C] in
theorem Linkable.link (h : Linkable K s pending cls) (hlink : s.link K cls = some s') :
    Growing K s' pending ∧ s'.superclass = s.superclass ∧ s'.realized = s.realized ∧
      s'.methods = s.methods := by
  obtain ⟨s₁, hlink1, hrelinked⟩ := link_spec K s h.realized fun p hp => (h.up p hp).1
  obtain rfl : s₁ = s' := Option.some.inj (hlink1.symm.trans hlink)
  refine ⟨h.growing.link h.realized h.not_pending
    (fun p hp => ⟨(h.up p hp).1, fun hpend => ((h.up p hp).2 hpend).1⟩) h.isa hrelinked.links
    hrelinked.realized, ?_, hrelinked.realized, hrelinked.methods⟩
  unfold ClassState.superclass
  rw [hrelinked.links]
  rfl

/-- What the calls of `realizeClass` keep, each of which marks its class and later links it and
gives it its methods. -/
structure KeptByCalls (K : ClassImage C) (P : ClassState C → (C → Prop) → Prop) : Prop where
  mark : ∀ s pending cls, Growing K s pending → s.realized cls = false → P s pending →
    P (s.mark cls) fun c => pending c ∨ c = cls
  link : ∀ s pending cls s₁ s₂, Linkable K s pending cls → P s (fun c => pending c ∨ c = cls) →
    s.link K cls = some s₁ → s₁.methodizeClass K cls = some s₂ → Methodized cls s₁ s₂ → P s₂ pending

variable {P : ClassState C → (C → Prop) → Prop}

/-- **`realizeClass`** returns, with all classes above realized and linked. The induction is
on the fuel: a call marks its class before the next, so the calls cannot outnumber the classes. -/
theorem realizeClass_spec {height : C → Nat} (hkept : KeptByCalls K P) :
    ∀ (fuel : Nat) (s : ClassState C) (cls : C) (pending : C → Prop),
      TreeShape K s.superclass → Height K s.superclass height →
      (∀ c p, s.superclass c = some p → K.isMeta c = K.isMeta p → height p < height c) →
      Growing K s pending → (∀ y, pending y → height cls ≤ height y) → s.unrealized < fuel →
      P s pending →
      ∃ s', s.realizeClass K fuel cls = some s' ∧ Grown s s' ∧ Growing K s' pending ∧
        s'.realized cls = true ∧ P s' pending := by
  intro fuel
  -- each call marks one more class before it recurses, so the unrealized ones bound the fuel
  induction fuel with
  | zero => intro s cls pending _ _ _ _ _ hfuel; exact absurd hfuel (not_lt_zero _)
  | succ fuel ih => ?_
  intro s cls pending hshape hheight hstrict hg hpending hfuel h
  rw [ClassState.realizeClass]
  cases hcls : s.realized cls with
  | true => exact ⟨s, rfl, .refl s, hg, hcls, h⟩
  | false => ?_
  have hnot : ¬ pending cls := by
    intro hp
    rw [hg.pending_realized cls hp] at hcls
    cases hcls
  have hlt := unrealized_mark_lt hcls
  have hg0 := hg.mark hcls
  have h0 := hkept.mark s pending cls hg hcls h
  -- the superclass
  obtain ⟨s₁, hsuper, hgrown1, hg1, hsuper1, h1⟩ : ∃ s₁,
      ((s.superclass cls).elim (some (s.mark cls)) fun supercls =>
        (s.mark cls).realizeClass K fuel supercls) = some s₁ ∧
      Grown (s.mark cls) s₁ ∧ Growing K s₁ (fun c => pending c ∨ c = cls) ∧
      (∀ p, s.superclass cls = some p → s₁.realized p = true) ∧
      P s₁ (fun c => pending c ∨ c = cls) := by
    cases hp : s.superclass cls with
    | none => exact ⟨_, rfl, .refl _, hg0, fun p hp' => absurd hp' (by simp), h0⟩
    | some p => ?_
    have hle : height p ≤ height cls := by
      rcases hheight.superclass cls p hp with hlt | ⟨heq, _⟩
      · exact le_of_lt hlt
      · exact le_of_eq heq
    obtain ⟨s₁, hrun1, hgrown, hgrowing, hreal, h1⟩ := ih (s.mark cls) p
      (fun c => pending c ∨ c = cls) hshape hheight hstrict hg0
      (fun y hy => hy.elim (fun hy => le_trans hle (hpending y hy))
        fun hy => hy ▸ hle) (by omega) h0
    refine ⟨s₁, hrun1, hgrown, hgrowing, fun p' hp' => ?_, h1⟩
    rw [← Option.some.inj hp']
    exact hreal
  -- the metaclass
  have hle1 := hgrown1.unrealized_le
  obtain ⟨s₂, hmeta, hgrown2, hg2, hisa, h2⟩ := ih s₁ (K.isa cls)
    (fun c => pending c ∨ c = cls) (hgrown1.superclass ▸ hshape)
    (hgrown1.superclass ▸ hheight) (hgrown1.superclass ▸ hstrict) hg1
    (fun y hy => hy.elim (fun hy => le_trans (hheight.isa cls) (hpending y hy))
      fun hy => hy ▸ hheight.isa cls) (by omega) h1
  have hparent : s₂.superclass = s.superclass :=
    hgrown2.superclass.trans hgrown1.superclass
  -- the link: a pending superclass is as high as the class, and so the root of a metaclass
  have hlinkable : Linkable K s₂ pending cls := by
    refine ⟨hg2, hnot, fun hp => ?_, fun p hp => ⟨?_, fun hpend => ?_⟩, hisa⟩
    · rw [hparent] at hp
      exact absurd (hstrict cls cls hp rfl) (lt_irrefl _)
    · exact hgrown2.realized p (hsuper1 p (hparent ▸ hp))
    rw [hparent] at hp ⊢
    rcases hheight.superclass cls p hp with hlt | ⟨_, hroot⟩
    · exact absurd (hpending p hpend) (not_le_of_gt hlt)
    · exact ⟨hroot, fun hsame =>
        absurd (hpending p hpend) (not_le_of_gt (hstrict cls p hp hsame))⟩
  obtain ⟨s₃, hlinked, hrelinked⟩ := link_spec K s₂ hlinkable.realized fun p hp =>
    (hlinkable.up p hp).1
  obtain ⟨hg3, hparent3, hreal3, hmethods3⟩ := hlinkable.link hlinked
  obtain ⟨rank, hrank⟩ := hshape.ranked
  obtain ⟨s4, hmethodize, hm⟩ := hg3.methodizeClass_spec
    (hparent3.trans hparent ▸ hrank) (hreal3 ▸ hlinkable.realized) hnot
  have hreal4 : s4.realized = s₂.realized := hm.realized.trans hreal3
  refine ⟨s4, ?_, ?_, hm.growing hg3, hreal4 ▸ hlinkable.realized,
    hkept.link s₂ pending cls s₃ s4 hlinkable h2 hlinked hmethodize hm⟩
  · simp only [hsuper, hmeta, hlinked, hmethodize, Bool.false_eq_true, if_false]
  have hgrown := ((Grown.mark s cls).trans hgrown1).trans hgrown2
  refine ⟨⟨?_, ?_, fun c hc => ?_, fun c hc => ?_⟩, fun c => ?_⟩
  · rw [← hparent, ← hparent3]
    unfold ClassState.superclass
    rw [hm.links]
  · rw [hm.initialized, hrelinked.initialized, hgrown.initialized]
  · rw [hreal4]
    exact hgrown.realized c hc
  · have hne : c ≠ cls := by
      rintro rfl
      rw [hcls] at hc
      cases hc
    rw [hm.methods c hne, hmethods3, hgrown.methods c hc]
  · exact cache_or_erase_trans (hgrown.cache c) (hrelinked.cache ▸ hm.cache c)

/-- **Induction over the calls of `realizeClass`.** -/
theorem TreeInv.realizeClass_spec (h : TreeInv K s) (hkept : KeptByCalls K P)
    (hP : P s fun _ => False) (cls : C) :
    ∃ s', s.realizeClass K (Fintype.card C + 1) cls = some s' ∧ Grown s s' ∧ TreeInv K s' ∧
      s'.realized cls = true ∧ P s' fun _ => False := by
  obtain ⟨height, hheight, hstrict⟩ := h.shape.exists_height
  have hle : s.unrealized ≤ Fintype.card C := card_le_univ _
  obtain ⟨s', hrun, hgrown, hgrowing, hreal, hP'⟩ := ObjcRuntime.realizeClass_spec hkept
    (Fintype.card C + 1) s cls (fun _ => False) h.shape hheight hstrict h.growing
    (fun _ hf => hf.elim) (by omega) hP
  exact ⟨s', hrun, hgrown, ⟨hgrown.superclass ▸ h.shape, hgrowing⟩, hreal, hP'⟩

theorem TreeInv.realizeClass (h : TreeInv K s) (cls : C) :
    ∃ s', s.realizeClass K (Fintype.card C + 1) cls = some s' ∧ Grown s s' ∧ TreeInv K s' ∧
      s'.realized cls = true := by
  obtain ⟨s', hrun, hgrown, htree, hreal, _⟩ := h.realizeClass_spec (P := fun _ _ => True)
    ⟨fun _ _ _ _ _ _ => trivial, fun _ _ _ _ _ _ _ _ _ _ => trivial⟩ trivial cls
  exact ⟨s', hrun, hgrown, htree, hreal⟩

theorem TreeInv.realizeClass_induct (h : TreeInv K s) (hkept : KeptByCalls K P)
    (hP : P s fun _ => False) (hrun : s.realizeClass K (Fintype.card C + 1) cls = some s') :
    P s' fun _ => False := by
  obtain ⟨s₁, hrun1, _, _, _, hP'⟩ := h.realizeClass_spec hkept hP cls
  rwa [← Option.some.inj (hrun1.symm.trans hrun)]

/-! ## `setSuperclass` -/

omit [Fintype C] [DecidableEq C] in
theorem ClassImage.ne_isa (K : ClassImage C) (hc : K.isMeta c = false) (d : C) : c ≠ K.isa d := by
  rintro rfl
  rw [K.isa_isMeta d] at hc
  cases hc

/-- The superclasses after `setSuperclass`. -/
def ClassImage.moved (K : ClassImage C) (parent : C → Option C) (cls newSuper : C) :
    C → Option C :=
  update (update parent cls (some newSuper)) (K.isa cls) (some (K.isa newSuper))

/-- What may be asked of `setSuperclass`: a class that is not a root moves below a class that
is not below it. -/
structure Movable (K : ClassImage C) (s : ClassState C) (cls newSuper : C) : Prop where
  cls_realized : s.realized cls = true
  new_realized : s.realized newSuper = true
  cls_class : K.isMeta cls = false
  new_class : K.isMeta newSuper = false
  not_root : s.superclass cls ≠ none
  not_below : ¬ Under s.superclass newSuper cls

theorem Placed.setSuperclass (h : Placed s present) (hshape : TreeShape K s.superclass)
    (hm : Movable K s cls newSuper) (hcls : present cls) (hmeta : present (K.isa cls))
    (hnew : present newSuper) (hnewMeta : present (K.isa newSuper)) :
    ∃ r, s.setSuperclass K cls newSuper = some r ∧ Placed r.2 present ∧
      r.2.superclass = K.moved s.superclass cls newSuper ∧ r.2.realized = s.realized ∧
      r.2.initialized = s.initialized ∧ r.2.methods = s.methods ∧
      (∀ c, r.2.cache c = s.cache c ∨ r.2.cache c = (s.cache c).erase) ∧
      ∀ x, present x → (Under r.2.superclass x cls ∨ Under r.2.superclass x (K.isa cls)) →
        r.2.cache x = (s.cache x).erase := by
  obtain ⟨oldSuper, hold⟩ := Option.ne_none_iff_exists'.mp hm.not_root
  have hpair : s.superclass (K.isa cls) = some (K.isa oldSuper) := by
    rw [hshape.pair cls hm.cls_class, hold, Option.elim_some]
  obtain ⟨children, hforest0⟩ := h.forest
  obtain ⟨L₁, L₂, hL1, hL2, hparent1, hparent2, hforest⟩ := hforest0.movePair
    (K.ne_isa hm.cls_class cls) hcls hmeta hold hpair newSuper (K.isa newSuper)
  change _ = s.superclass at hparent1 hparent2
  have hremove1 : s.removeSubclass oldSuper cls = some { s with links := L₁ } := by
    rw [ClassState.removeSubclass, if_pos ⟨(h.up _ _ hcls hold).1, hm.cls_realized, hold⟩, hL1,
      Option.map_some]
  have hremove2 : ClassState.removeSubclass { s with links := L₁ } (K.isa oldSuper) (K.isa cls)
      = some { s with links := L₂ } := by
    rw [ClassState.removeSubclass, if_pos ⟨(h.up _ _ hmeta hpair).1, h.realized _ hmeta, by
      show L₁.parent (K.isa cls) = _
      rw [hparent1, hpair]⟩, hL2, Option.map_some]
  obtain ⟨s₃, hadd1, h3⟩ := addSubclass_spec
    { s with links := { L₂ with parent := K.moved L₂.parent cls newSuper } }
    newSuper cls hm.new_realized hm.cls_realized
  obtain ⟨s4, hadd2, h4⟩ := addSubclass_spec s₃ (K.isa newSuper) (K.isa cls)
    (by rw [h3.realized]; exact h.realized _ hnewMeta)
    (by rw [h3.realized]; exact h.realized _ hmeta)
  have hreal : s4.realized = s.realized := h4.realized.trans h3.realized
  have hparent : s4.superclass = K.moved s.superclass cls newSuper := by
    rw [← hparent2]
    show s4.links.parent = _
    rw [h4.links, h3.links]
    rfl
  -- the tree is in order again before the caches are flushed
  have hplaced : Placed s4 present := by
    refine ⟨?_, fun c hc => hreal ▸ h.realized c hc, fun c p hc hp => ?_⟩
    · rw [h4.links, h3.links, hparent2]
      exact hforest
    rw [hparent, moved] at hp
    rw [hreal]
    by_cases hcm : c = K.isa cls
    · rw [hcm, update_self, Option.some_inj] at hp
      exact hp ▸ ⟨h.realized _ hnewMeta, .inl hnewMeta⟩
    rw [update_of_ne hcm] at hp
    by_cases hcc : c = cls
    · rw [hcc, update_self, Option.some_inj] at hp
      exact hp ▸ ⟨hm.new_realized, .inl hnew⟩
    rw [update_of_ne hcc] at hp
    refine (h.up c p hc hp).imp id (Or.imp id fun hroot => ?_)
    -- neither of the two that move is a root
    have hne : ∀ d q, s.superclass d = some q → p ≠ d := by
      rintro d q hq rfl
      rw [hroot] at hq
      cases hq
    rw [hparent, moved, update_of_ne (hne _ _ hpair), update_of_ne (hne _ _ hold), hroot]
  obtain ⟨rank, hrank⟩ :=
    (hshape.move hm.cls_class hm.new_class hm.not_root hm.not_below).ranked
  change Ranked (K.moved s.superclass cls newSuper) rank at hrank
  rw [← hparent] at hrank
  obtain ⟨vs, hflush, hmem⟩ := hplaced.flushCaches_some K hrank hcls
  have hplaced5 : Placed (s4.eraseCaches vs) present :=
    { hplaced with }
  obtain ⟨vs', hflush', hmem'⟩ := hplaced5.flushCaches_some K hrank hmeta
  have hcache : s4.cache = s.cache := h4.cache.trans h3.cache
  refine ⟨(oldSuper, (s4.eraseCaches vs).eraseCaches vs'), ?_,
    { hplaced with }, hparent, hreal,
    h4.initialized.trans h3.initialized, h4.methods.trans h3.methods, fun c => ?_, fun x hx hu => ?_⟩
  · rw [ClassState.setSuperclass, if_pos ⟨hm.cls_realized, hm.new_realized⟩]
    simp only [hold, hremove1, hremove2]
    rw [ClassImage.moved] at hadd1
    simp only [hadd1, hadd2, hflush, hflush', Option.map_some]
  · rw [← hcache]
    exact cache_or_erase_trans (eraseCaches_cache s4 vs c) (eraseCaches_cache _ vs' c)
  rw [← hcache]
  rcases hu with hu | hu
  · have hvs := eraseCaches_of_mem s4 ((hmem x).mpr ⟨hu, hx⟩)
    rcases eraseCaches_cache (s4.eraseCaches vs) vs' x with heq | heq
    · exact heq.trans hvs
    · rw [hvs, MethodCache.erase_erase] at heq
      exact heq
  have hvs := eraseCaches_of_mem (s4.eraseCaches vs) ((hmem' x).mpr ⟨hu, hx⟩)
  rcases eraseCaches_cache s4 vs x with heq | heq
  · rw [heq] at hvs
    exact hvs
  · rw [heq, MethodCache.erase_erase] at hvs
    exact hvs

theorem TreeInv.setSuperclass (h : TreeInv K s) (hm : Movable K s cls newSuper) :
    ∃ r, s.setSuperclass K cls newSuper = some r ∧ TreeInv K r.2 ∧
      r.2.superclass = K.moved s.superclass cls newSuper ∧ r.2.realized = s.realized ∧
      r.2.initialized = s.initialized ∧ r.2.methods = s.methods ∧
      (∀ c, r.2.cache c = s.cache c ∨ r.2.cache c = (s.cache c).erase) ∧
      ∀ x, s.realized x = true → (Under r.2.superclass x cls ∨ Under r.2.superclass x (K.isa cls)) →
        r.2.cache x = (s.cache x).erase := by
  have hisa : ∀ c, s.realized c = true → s.realized (K.isa c) = true :=
    fun c hc => h.growing.isa c hc id
  obtain ⟨r, hrun, hplaced, hparent, hreal, hinit, hmethods, hcache, hflushed⟩ :=
    h.growing.placed.setSuperclass h.shape hm ⟨hm.cls_realized, id⟩
      ⟨hisa _ hm.cls_realized, id⟩ ⟨hm.new_realized, id⟩
      ⟨hisa _ hm.new_realized, id⟩
  refine ⟨r, hrun, ⟨?_, ?_, fun _ hf => hf.elim, fun c p hc _ hp => ⟨?_, fun hf => hf.elim⟩,
    fun c hc _ => ?_⟩, hparent, hreal, hinit, hmethods, hcache,
    fun x hx => hflushed x ⟨hx, id⟩⟩
  · rw [hparent]
    exact h.shape.move hm.cls_class hm.new_class hm.not_root hm.not_below
  · rw [hreal]
    exact hplaced.forest
  · exact (hplaced.up c p ⟨hreal ▸ hc, id⟩ hp).1
  · rw [hreal] at hc ⊢
    exact hisa c hc

end ObjcRuntime
