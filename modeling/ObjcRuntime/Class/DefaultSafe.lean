/-
A DEFAULT FLAG MEANS THAT NOTHING IS OVERRIDDEN.

In every run, a class with a flag lies below NSObject, and every class on the
way has the flag as well; so none of their lists has a selector of the kind,
and NSObject's own implementations are those that it was compiled with.
-/
import Mathlib.Data.Fintype.Option
import Mathlib.Data.Fintype.Prod
import ObjcRuntime.Class.DefaultCalls

namespace ObjcRuntime

open Lib Option FlaggedState Under

variable {C : Type} [DecidableEq C] [Fintype C] {K : NSObjectImage C} {s : ClassState C}
  {F : DefaultFlags C} {k : DefaultFlag}

/-! ## Runs -/

def FlaggedOp.toClassOp : FlaggedOp C → ClassOp C
  | .realizeClass cls => .realizeClass cls
  | .setInitialized cls => .setInitialized cls
  | .class_addMethod cls name imp => .class_addMethod cls name imp
  | .class_replaceMethod cls name imp => .class_replaceMethod cls name imp
  | .method_setImplementation owner place imp => .method_setImplementation owner place imp
  | .method_exchangeImplementations owner₁ place₁ owner₂ place₂ =>
    .method_exchangeImplementations owner₁ place₁ owner₂ place₂
  | .discoverCategory cat cls => .discoverCategory cat cls
  | .class_setSuperclass cls newSuper => .class_setSuperclass cls newSuper
  | .lookUpImpOrForward cls sel => .lookUpImpOrForward (.mk cls sel true false [])

section

variable {t t' : FlaggedState C}

theorem classes_setImplementation {cls : Option C} {owner : C} {place : MethodPlace} {imp : IMP}
    (h : t._method_setImplementation K cls owner place imp = some t') :
    (t.classes._method_setImplementation K.toClassImage cls owner place imp).map Prod.snd
      = some t'.classes := by
  obtain ⟨r, hr, h⟩ := bind_eq_some_iff.mp h
  rw [hr, map_some, some_inj]
  split at h
  next =>
    cases h
    rfl
  split at h
  next =>
    cases h
    rfl
  obtain ⟨_, _, rfl⟩ := map_eq_some_iff.mp h
  rfl

theorem classes_addMethod {cls : C} {name : SEL} {imp : IMP} {replace : Bool}
    (h : t.addMethod K cls name imp replace = some t') :
    (t.classes.addMethod K.toClassImage cls name imp replace).map Prod.snd = some t'.classes := by
  unfold addMethod at h
  split at h
  next place hplace =>
    split at h
    next hboth =>
      rw [ClassState.addMethod, if_pos hboth.2, hplace]
      simp only
      rw [if_pos hboth.1]
      exact classes_setImplementation h
    obtain ⟨r, hr, rfl⟩ := map_eq_some_iff.mp h
    rw [hr, map_some]
  obtain ⟨r, hr, h⟩ := bind_eq_some_iff.mp h
  obtain ⟨_, _, rfl⟩ := map_eq_some_iff.mp h
  rw [hr, map_some]

theorem classes_discoverCategoryFor {cat : Category} {cls : C}
    (h : t.discoverCategoryFor K cat cls = some t') :
    t.classes.discoverCategoryFor K.toClassImage cat cls = some t'.classes := by
  obtain ⟨classes, hr, h⟩ := bind_eq_some_iff.mp h
  rw [hr]
  split at h
  next =>
    obtain ⟨_, _, rfl⟩ := map_eq_some_iff.mp h
    rfl
  cases h
  rfl

theorem classes_perform {op : FlaggedOp C} (h : t.perform K op = some t') :
    t.classes.perform K.toClassImage op.toClassOp = some t'.classes := by
  cases op with
  | realizeClass cls =>
    obtain ⟨classes, hr, h⟩ := bind_eq_some_iff.mp h
    obtain ⟨-, ⟨⟩⟩ := ite_none_right_eq_some.mp h
    exact hr
  | setInitialized cls =>
    obtain ⟨-, h⟩ := ite_none_right_eq_some.mp h
    obtain ⟨_, _, rfl⟩ := map_eq_some_iff.mp h
    rfl
  | class_addMethod cls name imp | class_replaceMethod cls name imp => exact classes_addMethod h
  | method_setImplementation owner place imp => exact classes_setImplementation h
  | method_exchangeImplementations owner₁ place₁ owner₂ place₂ =>
    obtain ⟨classes, hr, h⟩ := bind_eq_some_iff.mp h
    refine hr.trans ?_
    split at h
    next =>
      obtain ⟨_, _, h⟩ := bind_eq_some_iff.mp h
      obtain ⟨_, _, rfl⟩ := map_eq_some_iff.mp h
      rfl
    cases h
    rfl
  | discoverCategory cat cls =>
    simp only [perform, discoverCategory] at h
    show t.classes.discoverCategory K.toClassImage cat cls = some t'.classes
    rw [ClassState.discoverCategory]
    split at h
    next => cases h
    rename_i t1 hfirst
    have hfirst' : (if cat.instanceMethods.isSome ∨ cat.protocols ∨ cat.instanceProperties then
        t.classes.discoverCategoryFor K.toClassImage cat cls else some t.classes)
        = some t1.classes := by
      split at hfirst
      next hcond =>
        rw [if_pos hcond]
        exact classes_discoverCategoryFor hfirst
      next hcond =>
        rw [if_neg hcond]
        cases hfirst
        rfl
    simp only [hfirst']
    split at h
    next hcond =>
      rw [if_pos hcond]
      exact classes_discoverCategoryFor h
    next hcond =>
      rw [if_neg hcond]
      cases h
      rfl
  | class_setSuperclass cls newSuper =>
    show (if t.classes.movable K.toClassImage cls newSuper = true then _ else _) = _
    obtain ⟨hm, h⟩ := ite_none_right_eq_some.mp h
    obtain ⟨r, hr, h⟩ := bind_eq_some_iff.mp h
    obtain ⟨_, _, h⟩ := bind_eq_some_iff.mp h
    obtain ⟨_, _, rfl⟩ := map_eq_some_iff.mp h
    rw [if_pos hm, hr, map_some]
  | lookUpImpOrForward cls sel =>
    obtain ⟨_, h⟩ := ite_none_right_eq_some.mp h
    obtain ⟨r, hr, rfl⟩ := map_eq_some_iff.mp h
    exact congrArg (Option.map Prod.snd) hr

theorem FlagsInv.perform (h : FlagsInv K t.classes t.flags)
    (hclasses : ClassInv K.toClassImage t.classes) {op : FlaggedOp C}
    (hop : t.perform K op = some t') : FlagsInv K t'.classes t'.flags := by
  have htree := hclasses.tree
  cases op with
  | realizeClass cls =>
    obtain ⟨classes, hr, hop⟩ := bind_eq_some_iff.mp hop
    obtain ⟨-, ⟨⟩⟩ := ite_none_right_eq_some.mp hop
    exact h.realizeClass htree hr
  | setInitialized cls => exact h.setInitialized htree hop
  | class_addMethod cls name imp | class_replaceMethod cls name imp => exact h.addMethod htree hop
  | method_setImplementation owner place imp => exact h.setImplementation htree hop
  | method_exchangeImplementations owner₁ place₁ owner₂ place₂ =>
    exact h.exchangeImplementations htree hop
  | discoverCategory cat cls =>
    simp only [FlaggedState.perform, FlaggedState.discoverCategory] at hop
    split at hop
    next => cases hop
    rename_i t1 hfirst
    -- the lists of the class, then those of its metaclass
    have h1 : FlagsInv K t1.classes t1.flags ∧ TreeInv K.toClassImage t1.classes := by
      split at hfirst
      next =>
        obtain ⟨s1, hs1, hinv1⟩ := hclasses.discoverCategoryFor cat cls
        obtain rfl : s1 = t1.classes :=
          some.inj (hs1.symm.trans (classes_discoverCategoryFor hfirst))
        exact ⟨h.discoverCategoryFor htree hfirst, hinv1.tree⟩
      cases hfirst
      exact ⟨h, htree⟩
    split at hop
    next => exact h1.1.discoverCategoryFor h1.2 hop
    cases hop
    exact h1.1
  | class_setSuperclass cls newSuper => exact h.setSuperclass htree hop
  | lookUpImpOrForward cls sel =>
    obtain ⟨hcls, hop⟩ := ite_none_right_eq_some.mp hop
    obtain ⟨r, hr, rfl⟩ := map_eq_some_iff.mp hop
    obtain ⟨cache, heq⟩ := lookUp_realized_eq hcls hr
    rw [heq]
    exact ⟨{ h.base with }, fun k => { h.flags k with }⟩

theorem FlagsInv.reachable (h : (flaggedSystem K).Reachable (fun _ => True) t) :
    ClassInv K.toClassImage t.classes ∧ FlagsInv K t.classes t.flags := by
  induction h with
  | init hs _ =>
    subst hs
    refine ⟨ClassInv.load K.toClassImage, ⟨fun _ _ => rfl, fun c list hc => ?_⟩, fun k => ?_⟩
    · cases hc
    refine ⟨⟨fun c hd => ?_, fun c _ hd => ?_, fun c hd => ?_, fun _ => rfl⟩, fun hw => ?_⟩
    · cases hd
    · cases hd
    · cases hd
    · cases hw
  | step _ hstep _ ih => exact ⟨ih.1.perform (classes_perform hstep), ih.2.perform ih.1 hstep⟩

end

/-! ## What a flag says -/

omit [DecidableEq C] [Fintype C] in
theorem NSObjectImage.special_isMeta (K : NSObjectImage C) (k : DefaultFlag) :
    K.isMeta (K.special k) = k.ofMeta := by
  cases k with
  | rr => exact K.classNSObject_isMeta
  | awz => exact K.isa_isMeta K.classNSObject

omit [Fintype C] in
theorem DefaultInv.under_special (h : DefaultInv K s F k) (htree : TreeInv K.toClassImage s)
    {c : C} (hd : F.hasDefault k c = true) : Under s.superclass c (K.special k) := by
  obtain ⟨rank, hrank⟩ := htree.shape.ranked
  induction hn : rank c using Nat.strong_induction_on generalizing c with
  | _ n ih =>
    rcases h.up c id hd with rfl | ⟨p, hp, hpd⟩
    · exact refl _ _
    · exact head hp (ih (rank p) (hn ▸ hrank c p hp) hpd rfl)

omit [Fintype C] in
theorem DefaultInv.of_under (h : DefaultInv K s F k) (htree : TreeInv K.toClassImage s) {c a : C}
    (hd : F.hasDefault k c = true) (hu : Under s.superclass c a)
    (hmeta : K.isMeta a = k.ofMeta) : F.hasDefault k a = true := by
  -- above NSObject's metaclass there is NSObject, which is no metaclass
  have hup := hu.of_closed (P := fun x => F.hasDefault k x = true ∨
    K.isMeta x = false ∧ k = .awz) ?_ (.inl hd)
  · rcases hup with hd | ⟨hclass, rfl⟩
    · exact hd
    · rw [hclass] at hmeta
      cases hmeta
  intro x p hx hp _
  rcases hx with hd | ⟨hclass, hk⟩
  · rcases h.up x id hd with rfl | ⟨p', hp', hpd⟩
    · have hroot : s.superclass K.classNSObject = none :=
        htree.shape.root _ K.classNSObject_isMeta K.classNSObject_root
      cases k with
      | rr =>
        rw [show K.special .rr = K.classNSObject from rfl, hroot] at hp
        cases hp
      | awz => ?_
      rw [show K.special .awz = K.isa K.classNSObject from rfl,
        htree.shape.pair _ K.classNSObject_isMeta, hroot, elim_none] at hp
      rw [← some.inj hp]
      exact .inr ⟨K.classNSObject_isMeta, rfl⟩
    · rw [← some.inj (hp'.symm.trans hp)]
      exact .inl hpd
  · exact .inr ⟨htree.shape.class_parent x p hclass hp, hk⟩

/-- **The flags are safe in every run.**  A class has the default-RR flag, or a metaclass the
default-AWZ flag, only when it lies below the root NSObject, or below NSObject's metaclass; when
no method list of it or of what is above it has a selector of the kind, but for NSObject's own
list; and when that one has the implementations that it was compiled with. -/
theorem default_flags_are_safe (K : NSObjectImage C) (s : FlaggedState C)
    (h : (flaggedSystem K).Reachable (fun _ => True) s) (k : DefaultFlag) (c : C)
    (hdefault : s.flags.hasDefault k c = true) :
    K.isMeta c = k.ofMeta ∧ s.classes.isInitialized K.toClassImage c = true ∧
      Under s.classes.superclass c (K.special k) ∧
      s.classes.superclass K.classNSObject = none ∧
      (∀ a, Under s.classes.superclass c a → K.isMeta a = k.ofMeta →
        ∀ mlist ∈ if a = K.special k then categoryMethodLists K.toClassImage s.classes a
          else s.classes.methods a,
        ∀ m ∈ mlist.methods, k.isSelector m.name = false) ∧
      s.flags.written k = false ∧
      ∀ list, K.baseMethods (K.special k) = some list →
        ∃ mlist, (s.classes.methods (K.special k)).getLast? = some mlist ∧
          (mlist.methods.filter fun m => k.isSelector m.name)
            = (fixupMethodList list).methods.filter fun m => k.isSelector m.name := by
  obtain ⟨hclasses, hinv⟩ := FlagsInv.reachable h
  have hk := hinv.flags k
  have hspecial := hk.of_under hclasses.tree hdefault (hk.under_special hclasses.tree hdefault)
    (K.special_isMeta k)
  -- NSObject has the flag, so nothing was written
  have hwritten : s.flags.written k = false := by
    cases hw : s.flags.written k with
    | false => rfl
    | true => ?_
    rcases hk.written hw with hs | ⟨_, hcustom⟩
    · rw [hk.swizzled hs] at hspecial
      cases hspecial
    · rw [hcustom] at hspecial
      cases hspecial
  obtain ⟨_, hinit, hmeta⟩ := hk.live c hdefault
  refine ⟨hmeta, hinit, hk.under_special hclasses.tree hdefault,
    hclasses.tree.shape.root _ K.classNSObject_isMeta K.classNSObject_root,
    fun a hu ha mlist hin m hm => ?_, hwritten, fun list hlist => ?_⟩
  · have hclean := hk.clean a (hk.of_under hclasses.tree hdefault hu ha)
    exact hclean mlist.names (List.mem_map_of_mem hin) m.name (List.mem_map_of_mem hm)
  obtain ⟨mlist, hlast, hkept⟩ := hinv.base.based _ list (hk.live _ hspecial).1
    id hlist
  exact ⟨mlist, hlast, hkept k rfl hwritten list hlist⟩

/-- NSObject with `retain` and `alloc`, and a subclass. -/
def nsObjectAndSubclass : NSObjectImage (Option Unit × Bool) where
  toClassImage := starImage Unit
    (fun c => if c = (none, false) then some [⟨SEL_retain, 100⟩]
      else if c = (none, true) then some [⟨SEL_alloc, 101⟩] else none) fun _ => false
  classNSObject := (none, false)
  classNSObject_isMeta := rfl
  classNSObject_root := rfl

theorem subclass_has_default_flags :
    ∃ s, (flaggedSystem nsObjectAndSubclass).Reachable (fun _ => True) s ∧
      s.flags.hasDefault .rr (some (), false) = true ∧
      s.flags.hasDefault .awz (some (), true) = true ∧
      s.flags.written .rr = false ∧
      ∀ mlist ∈ s.classes.methods (some (), true), ∀ m ∈ mlist.methods,
        isAWZSelector m.name = false := by
  have hrun : ((flaggedSystem nsObjectAndSubclass).runFrom (fun _ => True)
      nsObjectAndSubclass.start
      [.realizeClass (some (), false), .setInitialized (none, false),
        .setInitialized (some (), false), .class_addMethod (some (), false) 50 500]).map
      (fun s => (s.flags.hasDefault .rr (some (), false), s.flags.hasDefault .awz (some (), true)))
      = some (true, true) := by
    decide +kernel
  obtain ⟨s, hs, hobs⟩ := map_eq_some_iff.mp hrun
  obtain ⟨hrr, hawz⟩ := Prod.mk.inj hobs
  have hreach : (flaggedSystem nsObjectAndSubclass).Reachable (fun _ => True) s :=
    .of_run _ (.init rfl trivial) hs
  obtain ⟨_, _, _, _, _, hwritten, _⟩ :=
    default_flags_are_safe nsObjectAndSubclass s hreach .rr (some (), false) hrr
  obtain ⟨_, _, _, _, hclean, _⟩ :=
    default_flags_are_safe nsObjectAndSubclass s hreach .awz (some (), true) hawz
  exact ⟨s, hreach, hrr, hawz, hwritten, hclean (some (), true) (refl _ _) rfl⟩

/-! ## Skipping the message -/

section

variable {sel : SEL} (hsel : k.isSelector sel = true)

include hsel

theorem methodImp_clean_append {mlists : List MethodList} (h : Clean k mlists)
    (own : List MethodList) : methodImp (mlists ++ own) sel = methodImp own sel := by
  have hnone : (mlists.flatMap MethodList.methods).find? (fun m => decide (m.name = sel)) = none := by
    rw [List.find?_eq_none]
    intro m hm hname
    obtain ⟨mlist, hin, hm⟩ := List.mem_flatMap.mp hm
    have hno := h mlist.names (List.mem_map_of_mem hin) m.name (List.mem_map_of_mem hm)
    rw [of_decide_eq_true hname, hsel] at hno
    cases hno
  rw [methodImp_eq, methodImp_eq, List.flatMap_append, List.find?_append, hnone, none_or]

theorem methodImp_ofKind (mlist : MethodList) :
    methodImp [mlist] sel
      = ((mlist.ofKind k).find? fun m => decide (m.name = sel)).map Method.imp := by
  rw [methodImp_eq, MethodList.ofKind, List.find?_filter, List.flatMap_singleton]
  congr 2
  funext m
  by_cases hm : m.name = sel <;> simp [hm, hsel]

omit [Fintype C] in
/-- The induction climbs from the class to NSObject, past lists without the selector. -/
theorem FlagsInv.resolves (h : FlagsInv K s F) (htree : TreeInv K.toClassImage s)
    {list : List Method} (hlist : K.baseMethods (K.special k) = some list) {imp : IMP}
    (himp : methodImp [fixupMethodList list] sel = some imp) {c : C}
    (hd : F.hasDefault k c = true) : Resolves s.methods s.superclass sel c imp := by
  have hk := h.flags k
  obtain ⟨rank, hrank⟩ := htree.shape.ranked
  induction hn : rank c using Nat.strong_induction_on generalizing c with
  | _ n ih =>
    have hclean := hk.clean c hd
    have hreal := (hk.live c hd).1
    by_cases hc : c = K.special k
    · subst hc
      have hwritten : F.written k = false := by
        by_contra hw
        rcases hk.written (Bool.not_eq_false _ ▸ hw) with hs | ⟨_, hcustom⟩
        · exact Bool.noConfusion (hd.symm.trans (hk.swizzled hs))
        · exact Bool.noConfusion (hd.symm.trans hcustom)
      obtain ⟨mlist, hlast, hkept⟩ := h.base.based _ list hreal id hlist
      have hne := h.base.ne_nil hreal (by simp [hlist])
      rw [scannedLists, if_pos rfl, categoryMethodLists, if_neg (by simp [hne, hlist])] at hclean
      refine .own ?_
      rw [← List.dropLast_append_getLast? mlist hlast, methodImp_clean_append hsel hclean,
        methodImp_ofKind hsel, hkept k rfl hwritten list hlist, ← methodImp_ofKind hsel, himp]
    rw [scannedLists, if_neg hc] at hclean
    obtain ⟨p, hp, hpd⟩ := (hk.up c id hd).resolve_left hc
    refine .inherited ?_ hp (ih (rank p) (hn ▸ hrank c p hp) hpd rfl)
    rw [← List.append_nil (s.methods c), methodImp_clean_append hsel hclean]
    rfl

end

/-- **Every class can be realized in every run**: the recursion ends, and the assertion of
`prepareMethodLists` holds, as a class without methods has no flag. -/
theorem realizeClass_always_returns (K : NSObjectImage C) (s : FlaggedState C)
    (h : (flaggedSystem K).Reachable (fun _ => True) s) (cls : C) :
    ∃ s', s.realizeClass K cls = some s' ∧ s'.classes.realized cls = true := by
  obtain ⟨hclasses, hinv⟩ := FlagsInv.reachable h
  obtain ⟨classes, hrun, _, _, hcls⟩ := hclasses.tree.realizeClass cls
  have hnone : ∀ k c, s.classes.realized c = false → s.flags.hasDefault k c = false := by
    intro k c hc
    cases hd : s.flags.hasDefault k c with
    | false => rfl
    | true =>
      rw [((hinv.flags k).live c hd).1] at hc
      cases hc
  refine ⟨⟨classes, s.flags⟩, ?_, hcls⟩
  rw [FlaggedState.realizeClass, hrun, bind_some]
  exact if_pos fun c _ hc => ⟨hnone .rr c hc, hnone .awz c hc⟩

theorem subclass_is_realized : ∃ s',
    nsObjectAndSubclass.start.realizeClass nsObjectAndSubclass (some (), false) = some s' ∧
      s'.classes.realized (some (), false) = true :=
  realizeClass_always_returns _ _ (.init rfl trivial) _

end ObjcRuntime
