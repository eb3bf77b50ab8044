/-
THE SUBCLASS LISTS ARE THE SUPERCLASS RELATION.

objc-runtime-new.mm, `addSubclass`, `removeSubclass`, `addRootClass`,
`removeRootClass` and `setSuperclass`, in any order.
-/
import ObjcRuntime.Class.Lookup

namespace ObjcRuntime

open Lib Function List ClassState Option

variable {C : Type} [Fintype C] [DecidableEq C]

/-! ## The edits -/

def ClassState.removeRootClass (s : ClassState C) (cls : C) : Option (ClassState C) :=
  (s.links.remove (Fintype.card C) none cls).map fun L => { s with links := L }

/-- From an empty tree on: `present` are the classes that were added and not removed since. -/
inductive TreeEdits (K : ClassImage C) : ClassState C → (C → Prop) → Prop where
  | start {s : ClassState C} (hempty : ∀ o, s.links.first o = none)
      (hshape : TreeShape K s.superclass) : TreeEdits K s fun _ => False
  | addSubclass {s s' present supercls subcls} (h : TreeEdits K s present)
      (hnew : ¬ present subcls) (hsuper : s.superclass subcls = some supercls)
      (hup : present supercls ∨ s.superclass supercls = none)
      (hrun : s.addSubclass supercls subcls = some s') :
      TreeEdits K s' fun c => present c ∨ c = subcls
  | addRootClass {s s' present cls} (h : TreeEdits K s present) (hnew : ¬ present cls)
      (hroot : s.superclass cls = none) (hrun : s.addRootClass cls = some s') :
      TreeEdits K s' fun c => present c ∨ c = cls
  | removeSubclass {s s' present supercls subcls} (h : TreeEdits K s present)
      (hcls : present subcls) (hleaf : ∀ c, present c → s.superclass c ≠ some subcls)
      (hrun : s.removeSubclass supercls subcls = some s') :
      TreeEdits K s' fun c => present c ∧ c ≠ subcls
  | removeRootClass {s s' present cls} (h : TreeEdits K s present) (hcls : present cls)
      (hroot : s.superclass cls = none) (hleaf : ∀ c, present c → s.superclass c ≠ some cls)
      (hrun : s.removeRootClass cls = some s') : TreeEdits K s' fun c => present c ∧ c ≠ cls
  | setSuperclass {s present cls newSuper} {r : C × ClassState C} (h : TreeEdits K s present)
      (hm : Movable K s cls newSuper) (hcls : present cls) (hmeta : present (K.isa cls))
      (hnew : present newSuper) (hnewMeta : present (K.isa newSuper))
      (hrun : s.setSuperclass K cls newSuper = some r) : TreeEdits K r.2 present

/-! ## One edit -/

variable {K : ClassImage C} {s s' : ClassState C} {cls supercls subcls : C} {present : C → Prop}
  {o : Option C}

omit [Fintype C] in
theorem addSubclass_links (h : s.addSubclass supercls subcls = some s') :
    (s.realized supercls = true ∧ s.realized subcls = true) ∧
      Relinked (s.links.insert (some supercls) subcls) s s' := by
  obtain ⟨hasserts, ⟨⟩⟩ := ite_none_right_eq_some.mp h
  exact ⟨hasserts, rfl, rfl, rfl, rfl, rfl⟩

omit [Fintype C] in
theorem addRootClass_links (h : s.addRootClass cls = some s') :
    s.realized cls = true ∧ Relinked (s.links.insert none cls) s s' := by
  obtain ⟨hassert, ⟨⟩⟩ := ite_none_right_eq_some.mp h
  exact ⟨hassert, rfl, rfl, rfl, rfl, rfl⟩

theorem removeSubclass_links (h : s.removeSubclass supercls subcls = some s') :
    s.superclass subcls = some supercls ∧
      ∃ L, s.links.remove (Fintype.card C) (some supercls) subcls = some L ∧
        s' = { s with links := L } := by
  obtain ⟨hasserts, h⟩ := ite_none_right_eq_some.mp h
  obtain ⟨L, hL, rfl⟩ := map_eq_some_iff.mp h
  exact ⟨hasserts.2.2, L, hL, rfl⟩

omit [Fintype C] in
theorem Placed.add (h : Placed s present) (hnew : ¬ present cls) (hsuper : s.superclass cls = o)
    (hup : ∀ p, o = some p → s.realized p = true ∧ (present p ∨ s.superclass p = none))
    (hcls : s.realized cls = true) (hs' : Relinked (s.links.insert o cls) s s') :
    Placed s' (fun c => present c ∨ c = cls) ∧ s'.superclass = s.superclass := by
  obtain ⟨children, hforest⟩ := h.forest
  have hparent : s'.superclass = s.superclass := by
    show s'.links.parent = _
    rw [hs'.links]
    rfl
  refine ⟨⟨⟨_, hs'.links ▸ hforest.insert hnew hsuper⟩, fun c hc => ?_, fun c p hc hp => ?_⟩,
    hparent⟩
  · rw [hs'.realized]
    rcases hc with hc | rfl
    · exact h.realized c hc
    · exact hcls
  rw [hparent] at hp ⊢
  rw [hs'.realized]
  rcases hc with hc | rfl
  · exact (h.up c p hc hp).imp id (Or.imp .inl id)
  · exact (hup p (hsuper.symm.trans hp)).imp id (Or.imp .inl id)

theorem Placed.remove (h : Placed s present) (hcls : present cls) (hsuper : s.superclass cls = o)
    (hleaf : ∀ c, present c → s.superclass c ≠ some cls) {L : Links C}
    (hL : s.links.remove (Fintype.card C) o cls = some L) :
    Placed { s with links := L } (fun c => present c ∧ c ≠ cls) ∧
      superclass { s with links := L } = s.superclass := by
  obtain ⟨children, hforest⟩ := h.forest
  obtain ⟨L', hL', hparent, hforest'⟩ :=
    hforest.remove hcls hsuper (hforest.nodup _).length_le_card
  obtain rfl : L' = L := some.inj (hL'.symm.trans hL)
  refine ⟨⟨⟨_, hforest'⟩, fun c hc => h.realized c hc.1, fun c p hc hp => ?_⟩, hparent⟩
  change L'.parent c = some p at hp
  show s.realized p = true ∧ ((present p ∧ p ≠ cls) ∨ L'.parent p = none)
  rw [hparent] at hp ⊢
  refine (h.up c p hc.1 hp).imp id (Or.imp (fun hpresent => ⟨hpresent, ?_⟩) id)
  -- the class that was removed is above no class that is left
  rintro rfl
  exact hleaf c hc.1 hp

/-! ## Every sequence of edits -/

theorem TreeEdits.placed (h : TreeEdits K s present) :
    TreeShape K s.superclass ∧ Placed s present := by
  -- only `setSuperclass` changes the superclass relation
  induction h with
  | start hempty hshape =>
    refine ⟨hshape, ⟨fun _ => [], fun o => ?_, fun _ => nodup_nil, by simp⟩, fun _ hf => hf.elim,
      fun _ _ hf => hf.elim⟩
    rw [hempty o]
    exact .nil
  | addSubclass h hnew hsuper hup hrun ih =>
    obtain ⟨hrealized, hs'⟩ := addSubclass_links hrun
    obtain ⟨hplaced, hparent⟩ := ih.2.add hnew hsuper
      (fun p hp => some.inj hp ▸ ⟨hrealized.1, hup⟩) hrealized.2 hs'
    exact ⟨hparent ▸ ih.1, hplaced⟩
  | addRootClass h hnew hroot hrun ih =>
    obtain ⟨hrealized, hs'⟩ := addRootClass_links hrun
    obtain ⟨hplaced, hparent⟩ := ih.2.add hnew hroot nofun hrealized hs'
    exact ⟨hparent ▸ ih.1, hplaced⟩
  | removeSubclass h hcls hleaf hrun ih =>
    obtain ⟨hsuper, L, hL, rfl⟩ := removeSubclass_links hrun
    obtain ⟨hplaced, hparent⟩ := ih.2.remove hcls hsuper hleaf hL
    exact ⟨hparent ▸ ih.1, hplaced⟩
  | removeRootClass h hcls hroot hleaf hrun ih =>
    obtain ⟨L, hL, rfl⟩ := map_eq_some_iff.mp hrun
    obtain ⟨hplaced, hparent⟩ := ih.2.remove hcls hroot hleaf hL
    exact ⟨hparent ▸ ih.1, hplaced⟩
  | setSuperclass h hm hcls hmeta hnew hnewMeta hrun ih => ?_
  obtain ⟨r, hrun', hplaced, hparent, -⟩ := ih.2.setSuperclass ih.1 hm hcls hmeta hnew hnewMeta
  obtain rfl := some.inj (hrun'.symm.trans hrun)
  refine ⟨?_, hplaced⟩
  rw [hparent]
  exact ih.1.move hm.cls_class hm.new_class hm.not_root hm.not_below

structure EditsReturn (K : ClassImage C) (s : ClassState C) (present : C → Prop) : Prop where
  addSubclass : ∀ supercls subcls, s.realized supercls = true → s.realized subcls = true →
    ∃ s', s.addSubclass supercls subcls = some s'
  addRootClass : ∀ cls, s.realized cls = true → ∃ s', s.addRootClass cls = some s'
  removeSubclass : ∀ supercls subcls, present subcls → s.superclass subcls = some supercls →
    ∃ s', s.removeSubclass supercls subcls = some s'
  removeRootClass : ∀ cls, present cls → s.superclass cls = none →
    ∃ s', s.removeRootClass cls = some s'
  setSuperclass : ∀ cls newSuper, Movable K s cls newSuper → present cls → present (K.isa cls) →
    present newSuper → present (K.isa newSuper) → ∃ r, s.setSuperclass K cls newSuper = some r

theorem Placed.editsReturn (h : Placed s present) (hshape : TreeShape K s.superclass) :
    EditsReturn K s present := by
  obtain ⟨children, hforest⟩ := h.forest
  have hremove : ∀ o cls, present cls → s.superclass cls = o →
      ∃ L, s.links.remove (Fintype.card C) o cls = some L := by
    intro o cls hcls hsuper
    obtain ⟨L, hL, -⟩ := hforest.remove hcls hsuper (hforest.nodup _).length_le_card
    exact ⟨L, hL⟩
  refine ⟨fun supercls subcls h1 h2 => ⟨_, if_pos ⟨h1, h2⟩⟩, fun cls h1 => ⟨_, if_pos h1⟩,
    fun supercls subcls hcls hsuper => ?_, fun cls hcls hroot => ?_,
    fun cls newSuper hm hcls hmeta hnew hnewMeta => ?_⟩
  · obtain ⟨L, hL⟩ := hremove _ _ hcls hsuper
    refine ⟨{ s with links := L }, ?_⟩
    rw [ClassState.removeSubclass, if_pos ⟨(h.up _ _ hcls hsuper).1, h.realized _ hcls, hsuper⟩, hL,
      map_some]
  · obtain ⟨L, hL⟩ := hremove _ _ hcls hroot
    exact ⟨{ s with links := L }, by rw [ClassState.removeRootClass, hL, map_some]⟩
  · obtain ⟨r, hrun, -⟩ := h.setSuperclass hshape hm hcls hmeta hnew hnewMeta
    exact ⟨r, hrun⟩

/-- **The lists are the superclass relation** after every sequence of edits, each of which returns,
and a traversal whose count is large enough visits the classes below its start, each once. -/
theorem subclass_lists_are_superclass_relation (K : ClassImage C) (s : ClassState C)
    (present : C → Prop) (h : TreeEdits K s present) :
    (∃ children : Option C → List C, ∀ o, SiblingList s.links.next (s.links.first o) (children o) ∧
      (children o).Nodup ∧ ∀ c, c ∈ children o ↔ present c ∧ s.superclass c = o) ∧
    (∃ rank, Ranked s.superclass rank) ∧ EditsReturn K s present ∧
    ∀ count, 2 * Fintype.card C < count → (∀ top, present top →
        ∃ left vs, s.foreach_realized_class_and_subclass_2 top count = some (left, vs) ∧ vs.Nodup ∧
          ∀ x, x ∈ vs ↔ Under s.superclass x top ∧ present x) ∧
      ∃ vs, s.foreachRoot (Fintype.card C + 1) (s.links.first none) count [] = some vs ∧ vs.Nodup ∧
        ∀ x, x ∈ vs ↔ present x ∧
          ∃ r, (present r ∧ s.superclass r = none) ∧ Under s.superclass x r := by
  obtain ⟨hshape, hplaced⟩ := h.placed
  obtain ⟨rank, hrank⟩ := hshape.ranked
  obtain ⟨children, hforest⟩ := hplaced.forest
  refine ⟨⟨children, fun o => ⟨hforest.siblings o, hforest.nodup o, hforest.mem_children o⟩⟩,
    ⟨rank, hrank⟩, hplaced.editsReturn hshape, fun count hcount => ⟨fun top htop => ?_, ?_⟩⟩
  · obtain ⟨vs, moves, hnodup, hmem, hmoves, hwalk⟩ := hplaced.foreach_spec hrank htop
    have hlen := hnodup.length_le_card
    exact ⟨_, vs, hwalk count (by omega), hnodup, hmem⟩
  have hlen := (hforest.nodup none).length_le_card
  obtain ⟨vs, hrun, hnodup, hmem⟩ := hplaced.foreachRoot_spec hrank (hforest.siblings none)
    (Fintype.card C + 1) count [] (hforest.nodup none) (by omega)
    (fun r hr => (hforest.mem_children none r).mp hr) nodup_nil
    nofun (by simpa using hcount)
  refine ⟨vs, hrun, hnodup, fun x => (hmem x).trans ?_⟩
  exact and_congr_right fun _ => exists_congr fun r =>
    and_congr_left fun _ => hforest.mem_children none r

def rootAndTwoSubclasses : ClassImage (Fin 6) where
  isa := ![3, 4, 5, 3, 3, 3]
  isMeta := ![false, false, false, true, true, true]
  superclass := ![none, some 0, some 0, some 0, some 3, some 3]
  baseMethods := fun _ => none
  hasCxxStructors := fun _ => false
  hasCxxDtorOnly := fun _ => false
  isa_isMeta := by decide
  isa_inj := by decide
  meta_pair := by decide
  meta_isa := by decide
  pair_superclass := by decide
  superclass_isMeta := by decide
  ranked := ⟨![0, 1, 1, 1, 2, 2], by unfold Ranked; decide⟩

structure AllRealized (K : ClassImage C) (s : ClassState C) (present : C → Prop) : Prop where
  edits : TreeEdits K s present
  superclass : s.superclass = K.superclass
  realized : ∀ c, s.realized c = true

theorem AllRealized.addSubclass (h : AllRealized K s present) (hnew : ¬ present subcls)
    (hsuper : K.superclass subcls = some supercls)
    (hup : present supercls ∨ K.superclass supercls = none) :
    ∃ s', AllRealized K s' fun c => present c ∨ c = subcls := by
  rw [← h.superclass] at hsuper hup
  obtain ⟨s', hrun⟩ := (h.edits.placed.2.editsReturn h.edits.placed.1).addSubclass supercls subcls
    (h.realized _) (h.realized _)
  obtain ⟨-, hlinks⟩ := addSubclass_links hrun
  refine ⟨s', h.edits.addSubclass hnew hsuper hup hrun, ?_, fun c => ?_⟩
  · rw [← h.superclass]
    show s'.links.parent = _
    rw [hlinks.links]
    rfl
  · rw [hlinks.realized]
    exact h.realized c

/-- The classes are added, class 2 is moved below class 1, and then its metaclass is removed. -/
theorem added_classes_are_visited :
    ∃ s present, TreeEdits rootAndTwoSubclasses s present ∧ s.superclass 2 = some 1 ∧
      ∃ vs, s.foreachRoot 7 (s.links.first none) 13 [] = some vs ∧ vs.Nodup ∧ 2 ∈ vs ∧ 5 ∉ vs := by
  have h0 : TreeEdits rootAndTwoSubclasses
      { rootAndTwoSubclasses.load with realized := fun _ => true } fun _ => False :=
    .start (fun _ => rfl) rootAndTwoSubclasses.treeShape
  have h1 : AllRealized rootAndTwoSubclasses _ fun c => False ∨ c = 0 :=
    ⟨h0.addRootClass id rfl rfl, rfl, fun _ => rfl⟩
  obtain ⟨s2, h2⟩ := h1.addSubclass (by decide : ¬ (False ∨ (1 : Fin 6) = 0)) rfl (.inr rfl)
  obtain ⟨s3, h3⟩ := h2.addSubclass (by decide : ¬ ((False ∨ (2 : Fin 6) = 0) ∨ _)) rfl (.inr rfl)
  obtain ⟨s4, h4⟩ := h3.addSubclass (by decide : ¬ (((False ∨ (3 : Fin 6) = 0) ∨ _) ∨ _)) rfl (.inr rfl)
  obtain ⟨s5, h5⟩ := h4.addSubclass (by decide : ¬ ((((False ∨ (4 : Fin 6) = 0) ∨ _) ∨ _) ∨ _)) rfl
    (.inl (.inr rfl))
  obtain ⟨s6, h6⟩ := h5.addSubclass (by decide : ¬ (((((False ∨ (5 : Fin 6) = 0) ∨ _) ∨ _) ∨ _) ∨ _))
    rfl (.inl (.inl (.inr rfl)))
  have hm : Movable rootAndTwoSubclasses s6 2 1 := by
    refine ⟨h6.realized 2, h6.realized 1, rfl, rfl, ?_, fun hu => ?_⟩
    · rw [h6.superclass]
      decide
    rw [h6.superclass] at hu
    obtain ⟨p, hp, hu⟩ := hu.parent_of_ne (by decide)
    cases hp
    obtain ⟨p, hp, -⟩ := hu.parent_of_ne (by decide)
    cases hp
  obtain ⟨hshape, hplaced⟩ := h6.edits.placed
  obtain ⟨r, hmove, -, hparent, -⟩ := hplaced.setSuperclass hshape hm (by decide) (by decide)
    (by decide) (by decide)
  have h7 := h6.edits.setSuperclass hm (by decide) (by decide) (by decide) (by decide) hmove
  rw [h6.superclass] at hparent
  obtain ⟨-, -, hreturn, -⟩ := subclass_lists_are_superclass_relation _ _ _ h7
  have hmeta : r.2.superclass 5 = some 4 := by
    rw [hparent]
    rfl
  have hleaf : ∀ c, r.2.superclass c ≠ some 5 := by
    rw [hparent]
    decide
  obtain ⟨s, hremove⟩ := hreturn.removeSubclass 4 5 (by decide) hmeta
  have h8 := h7.removeSubclass (by decide) (fun c _ => hleaf c) hremove
  have hsame : s.superclass = r.2.superclass := by
    obtain ⟨-, L, hL, rfl⟩ := removeSubclass_links hremove
    exact (h7.placed.2.remove (by decide) hmeta (fun c _ => hleaf c) hL).2
  obtain ⟨-, -, -, hwalks⟩ := subclass_lists_are_superclass_relation _ _ _ h8
  obtain ⟨vs, hrun, hnodup, hmem⟩ := (hwalks 13 (by decide)).2
  have htwo : s.superclass 2 = some 1 ∧ s.superclass 1 = some 0 ∧ s.superclass 0 = none := by
    rw [hsame, hparent]
    exact ⟨rfl, rfl, rfl⟩
  refine ⟨s, _, h8, htwo.1, vs, hrun, hnodup, (hmem 2).mpr ⟨by decide, 0, ⟨by decide, htwo.2.2⟩, ?_⟩,
    fun hin => ((hmem 5).mp hin).1.2 rfl⟩
  exact .head htwo.1 (.head htwo.2.1 (.refl _ _))

end ObjcRuntime
