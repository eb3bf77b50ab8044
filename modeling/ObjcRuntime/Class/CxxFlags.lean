/-
THE C++ FLAGS OF A CLASS AND OF THE CLASSES BELOW IT.

objc-runtime-new.mm, `addSubclass`, `setSuperclass`, `realizeClass` and
`objc_initializeClassPair_internal`; objc-class.mm, the loops that construct
and destruct. A class gets the flags of its superclass when it is put below
it. The classes that are below the class already get nothing then.
-/
import Mathlib.Data.Fintype.Option
import Mathlib.Data.Fintype.Prod
import ObjcRuntime.Class.CxxConstruct

namespace ObjcRuntime

open Lib Function Option ClassState ClassImage Under

variable {C : Type}

/-! ## The flags, and class pairs made at run time -/

/-- `hasCxxCtor` and `hasCxxDtor`. -/
inductive CxxFlag where
  | ctor
  | dtor
  deriving DecidableEq

def ClassState.hasCxx (s : ClassState C) : CxxFlag → C → Bool
  | .ctor => s.hasCxxCtor
  | .dtor => s.hasCxxDtor

def ClassImage.ownCxx (K : ClassImage C) : CxxFlag → C → Bool
  | .ctor, cls => K.hasCxxStructors cls && !K.hasCxxDtorOnly cls
  | .dtor, cls => K.hasCxxStructors cls

/-- The classes in which `object_cxxDestructFromClass` looks for a destructor. -/
def ClassState.cxxDestructClasses (s : ClassState C) : Nat → Option C → List C
  | 0, _ => []
  | _ + 1, none => []
  | fuel + 1, some cls =>
    if s.hasCxxDtor cls then cls :: s.cxxDestructClasses fuel (s.superclass cls) else []

/-- The classes in which `object_cxxConstructFromClass` looks for a constructor, as long as the
constructors succeed. -/
def ClassState.cxxConstructClasses (s : ClassState C) : Nat → C → List C
  | 0, _ => []
  | fuel + 1, cls =>
    (match s.superclass cls with
      | some supercls =>
        if s.hasCxxCtor supercls then s.cxxConstructClasses fuel supercls else []
      | none => []) ++ [cls]

variable [DecidableEq C]

/-- The destructors that are called are those of these classes. -/
theorem OnlyCached.cxxDestructClasses {K : ClassImage C} {s₀ : ClassState C}
    (hfun : s₀.DtorsAreFunctions) : ∀ (fuel : Nat) (s : ClassState C) (start : Option C) {r},
      OnlyCached s₀ s → s.object_cxxDestructFromClass K fuel start = some r →
      r.1 = (s₀.cxxDestructClasses fuel start).filterMap s₀.ownDtor := by
  intro fuel
  induction fuel with
  | zero => intro s start r _ hrun; cases hrun
  | succ fuel ih => ?_
  intro s start r h hrun
  cases start with
  | none => cases hrun; rfl
  | some cls => ?_
  rw [object_cxxDestructFromClass, h.hasCxxDtor] at hrun
  rw [ClassState.cxxDestructClasses]
  split at hrun
  next hflag =>
    rw [if_pos hflag]
    split at hrun
    next => cases hrun
    next dtor s1 hlookup =>
      obtain ⟨hdtor, h1, -⟩ := (h.lookupMethodInClass (K := K) cls).2 _ hlookup
      obtain rfl : dtor = (s₀.ownDtor cls).getD _objc_msgForward_impcache := hdtor
      obtain ⟨rest, hrest, rfl⟩ := map_eq_some_iff.mp hrun
      rw [h1.superclass] at hrest
      rw [ih s1 _ h1 hrest]
      exact hfun.cons cls _
  next hflag =>
    rw [if_neg hflag]
    cases hrun
    rfl

/-- When all constructors succeed, those of these classes are called. -/
theorem CxxCached.cxxConstructClasses {K : ClassImage C} {s₀ : ClassState C}
    (hctors : ∀ c, ∀ imp ∈ s₀.ownCtor c, imp ≠ _objc_msgForward_impcache) :
    ∀ (fuel : Nat) (s : ClassState C) (cls : C) {r}, CxxCached s₀ s →
      s.object_cxxConstructFromClass K (fun _ => true) fuel cls = some r →
      r.1 = true ∧ CxxCached s₀ r.2.2 ∧
        r.2.1 = ((s₀.cxxConstructClasses fuel cls).filterMap s₀.ownCtor).map .construct := by
  intro fuel
  induction fuel with
  | zero => intro s cls r _ hrun; cases hrun
  | succ fuel ih => ?_
  intro s cls r h hrun
  rw [object_cxxConstructFromClass] at hrun
  obtain ⟨⟨built, calls, s1⟩, hsuper, hrun⟩ := bind_eq_some_iff.mp hrun
  -- the superclass
  obtain ⟨rfl, h1, hcalls⟩ : built = true ∧ CxxCached s₀ s1 ∧
      calls = ((match s₀.superclass cls with
        | some supercls =>
          if s₀.hasCxxCtor supercls then s₀.cxxConstructClasses fuel supercls else []
        | none => []).filterMap s₀.ownCtor).map .construct := by
    rw [h.superclass, h.hasCxxCtor] at hsuper
    cases hs : s₀.superclass cls with
    | none =>
      rw [hs] at hsuper
      cases hsuper
      exact ⟨rfl, h, rfl⟩
    | some supercls =>
      rw [hs, filter_some] at hsuper
      by_cases hflag : s₀.hasCxxCtor supercls = true
      · simp only [hflag, if_true] at hsuper ⊢
        exact ih s supercls h hsuper
      · simp only [hflag] at hsuper ⊢
        cases hsuper
        exact ⟨rfl, h, rfl⟩
  rw [ClassState.cxxConstructClasses, List.filterMap_append, List.map_append, ← hcalls]
  obtain ⟨⟨ctor, s2⟩, hlookup, hrun⟩ := bind_eq_some_iff.mp hrun
  obtain ⟨rfl, h2, -⟩ := (h1.lookup (K := K) cls).2 ctor s2 hlookup
  cases hown : s₀.ownCtor cls with
  | none =>
    rw [hown] at hrun
    cases hrun
    exact ⟨rfl, h2, by simp [hown]⟩
  | some ctor =>
    simp only [hown, getD_some, if_neg (hctors cls ctor hown)] at hrun
    cases hrun
    exact ⟨rfl, h2, by simp [hown]⟩

def ClassImage.madeAtRunTime (K : ClassImage C) (s : ClassState C) (cls : C) : Bool :=
  !K.isMeta cls && !K.hasCxxStructors cls && !K.hasCxxStructors (K.isa cls)
    && (K.baseMethods cls).isNone && (K.baseMethods (K.isa cls)).isNone
    && decide (K.isa (K.isa cls)
      = (s.superclass cls).elim (K.isa cls) fun superclass => K.isa (K.isa superclass))

/-- `objc_initializeClassPair_internal`, of `objc_allocateClassPair`; `none` when the superclass
is not one to inherit from. -/
def ClassState.objc_allocateClassPair (K : ClassImage C) (s : ClassState C) (cls : C) :
    Option (ClassState C) :=
  if s.realized cls ∨ s.realized (K.isa cls) then none
  else
    match s.superclass cls with
    | some superclass =>
      if s.realized superclass then
        match ((s.mark cls).mark (K.isa cls)).addSubclass superclass cls with
        | none => none
        | some s₁ => s₁.addSubclass (K.isa superclass) (K.isa cls)
      else none
    | none =>
      match ((s.mark cls).mark (K.isa cls)).addRootClass cls with
      | none => none
      | some s₁ => s₁.addSubclass cls (K.isa cls)

inductive TreeOp (C : Type) where
  | realizeClass (cls : C)
  | objc_allocateClassPair (cls : C)
  | class_setSuperclass (cls newSuper : C)

variable [Fintype C]

def treeSystem (K : ClassImage C) : System (ClassState C) (TreeOp C) where
  init := fun s => s = K.load
  step := fun s op =>
    match op with
    | .realizeClass cls => s.realizeClass K (Fintype.card C + 1) cls
    | .objc_allocateClassPair cls =>
      if K.madeAtRunTime s cls then s.objc_allocateClassPair K cls else none
    | .class_setSuperclass cls newSuper =>
      if s.movable K cls newSuper then (s.setSuperclass K cls newSuper).map Prod.snd else none

/-! ## What the functions do to the flags -/

variable {K : ClassImage C} {s s' : ClassState C} {k : CxxFlag}

theorem hasCxx_flushCaches {cls : Option C} (h : s.flushCaches K cls = some s') :
    s'.hasCxx k = s.hasCxx k := by
  cases cls with
  | none | some c =>
    obtain ⟨vs, _, rfl⟩ := map_eq_some_iff.mp h
    cases k <;> rfl

omit [Fintype C] in
theorem hasCxx_attachLists (s : ClassState C) (cls : C) (mlists : List MethodList) :
    (s.attachLists cls mlists).hasCxx k = s.hasCxx k := by
  cases k <;> rfl

variable {cls : C}

theorem hasCxx_addBonusMethod {r : IMP × ClassState C} (h : s.addBonusMethod K cls = some r) :
    r.2.hasCxx k = s.hasCxx k := by
  unfold addBonusMethod at h
  split at h
  next =>
    obtain ⟨-, h⟩ := ite_none_right_eq_some.mp h
    split at h
    next =>
      cases h
      rfl
    obtain ⟨s₁, hflush, rfl⟩ := map_eq_some_iff.mp h
    exact (hasCxx_flushCaches hflush).trans (hasCxx_attachLists s cls _)
  cases h
  rfl

theorem hasCxx_methodizeClass (h : s.methodizeClass K cls = some s') :
    s'.hasCxx k = s.hasCxx k := by
  have hbase : (s.attachBaseMethods K cls).hasCxx k = s.hasCxx k := by
    rw [attachBaseMethods]
    split
    · rfl
    · exact hasCxx_attachLists s cls _
  unfold methodizeClass at h
  split at h
  next => cases h
  next hbonus =>
    cases h
    rw [← hbase, ← hasCxx_addBonusMethod hbonus]
    cases k <;> rfl

omit [Fintype C] in
theorem hasCxx_setCxxFlags (K : ClassImage C) (s : ClassState C) (cls : C) :
    (s.setCxxFlags K cls).hasCxx k
      = update (s.hasCxx k) cls (K.ownCxx k cls || s.hasCxx k cls) := by
  unfold setCxxFlags
  cases hown : K.hasCxxStructors cls with
  | false => cases k <;> simp [ownCxx, hown, hasCxx]
  | true =>
    cases hdtor : K.hasCxxDtorOnly cls with
    | false | true => cases k <;> simp [ownCxx, hown, hdtor, hasCxx]

omit [Fintype C] in
theorem hasCxx_addSubclass {supercls subcls : C} (h : s.addSubclass supercls subcls = some s') :
    s'.hasCxx k = update (s.hasCxx k) subcls (s.hasCxx k supercls || s.hasCxx k subcls) := by
  obtain ⟨-, ⟨⟩⟩ := ite_none_right_eq_some.mp h
  cases k <;> rfl

def ClassState.superCxx (s : ClassState C) (k : CxxFlag) (cls : C) : Bool :=
  (s.superclass cls).elim false (s.hasCxx k)

omit [Fintype C] in
theorem hasCxx_link (hne : s.superclass cls ≠ some cls) (h : s.link K cls = some s') :
    s'.hasCxx k = update (s.hasCxx k) cls
      (s.superCxx k cls || (K.ownCxx k cls || s.hasCxx k cls)) := by
  unfold link at h
  unfold superCxx
  split at h
  next p hp =>
    have hpne : p ≠ cls := fun heq => hne (heq ▸ hp)
    rw [hasCxx_addSubclass h, hasCxx_setCxxFlags, hp]
    simp [update_of_ne hpne]
  next hp =>
    obtain ⟨-, ⟨⟩⟩ := ite_none_right_eq_some.mp h
    rw [hp]
    refine Eq.trans ?_ (hasCxx_setCxxFlags K s cls)
    cases k <;> rfl

theorem hasCxx_setSuperclass {newSuper : C} {r : C × ClassState C} (hcls : K.isMeta cls = false)
    (h : s.setSuperclass K cls newSuper = some r) :
    r.2.hasCxx k = update
      (update (s.hasCxx k) cls (s.hasCxx k newSuper || s.hasCxx k cls)) (K.isa cls)
      (s.hasCxx k (K.isa newSuper) || s.hasCxx k (K.isa cls)) := by
  have hne : ∀ c, K.isa c ≠ cls := fun c => (K.ne_isa hcls c).symm
  have hremove : ∀ {s s' : ClassState C} {p c : C}, s.removeSubclass p c = some s' →
      s'.hasCxx k = s.hasCxx k := by
    intro s s' p c h
    obtain ⟨-, h⟩ := ite_none_right_eq_some.mp h
    obtain ⟨L, _, rfl⟩ := map_eq_some_iff.mp h
    cases k <;> rfl
  unfold setSuperclass at h
  split at h
  case isFalse => cases h
  case isTrue =>
    split at h
    next => cases h
    rename_i oldSuper _
    split at h
    next => cases h
    rename_i s₁ h1
    split at h
    next => cases h
    rename_i s2 h2
    simp only at h
    split at h
    next => cases h
    rename_i s3 h3
    split at h
    next => cases h
    rename_i s4 h4
    split at h
    next => cases h
    rename_i s5 h5
    obtain ⟨s6, h6, rfl⟩ := map_eq_some_iff.mp h
    have hlinks : ∀ L : Links C,
        ({ s2 with links := L } : ClassState C).hasCxx k = s2.hasCxx k := by
      intro L
      cases k <;> rfl
    rw [hasCxx_flushCaches h6, hasCxx_flushCaches h5, hasCxx_addSubclass h4,
      hasCxx_addSubclass h3, hlinks, hremove h2, hremove h1,
      update_of_ne (hne _), update_of_ne (hne _)]

/-! ## The invariant while classes are realized -/

/-- Only linked classes have the flag, a linked class has its own, and a root has no other. A
linked class below a pending one is a root metaclass. -/
structure FlagBase (K : ClassImage C) (k : CxxFlag) (s : ClassState C) (pending : C → Prop) :
    Prop where
  fresh : ∀ c, s.realized c = false ∨ pending c → s.hasCxx k c = false
  own : ∀ c, s.realized c = true → ¬ pending c → K.ownCxx k c = true → s.hasCxx k c = true
  root : ∀ c, s.superclass c = none → s.hasCxx k c = true → K.ownCxx k c = true
  kind : ∀ c p, s.realized c = true → ¬ pending c → s.superclass c = some p → pending p →
    K.isMeta c ≠ K.isMeta p

structure FlagInv (K : ClassImage C) (k : CxxFlag) (s : ClassState C) (pending : C → Prop) : Prop
    extends FlagBase K k s pending where
  edge : ∀ c p, s.realized c = true → ¬ pending c → s.superclass c = some p →
    K.isMeta c = K.isMeta p → s.hasCxx k p = true → s.hasCxx k c = true

variable {pending : C → Prop}

omit [DecidableEq C] [Fintype C] in
theorem FlagInv.congr (h : FlagInv K k s pending) (hparent : s'.superclass = s.superclass)
    (hrealized : s'.realized = s.realized) (hflag : s'.hasCxx k = s.hasCxx k) :
    FlagInv K k s' pending := by
  obtain ⟨⟨fresh, own, root, kind⟩, edge⟩ := h
  refine ⟨⟨?_, ?_, ?_, ?_⟩, ?_⟩
  · rw [hrealized, hflag]
    exact fresh
  · rw [hrealized, hflag]
    exact own
  · rw [hparent, hflag]
    exact root
  · rw [hparent, hrealized]
    exact kind
  · rw [hparent, hrealized, hflag]
    exact edge

omit [Fintype C] in
theorem FlagInv.mark (h : FlagInv K k s pending) (hg : Growing K s pending)
    (hcls : s.realized cls = false) :
    FlagInv K k (s.mark cls) fun c => pending c ∨ c = cls := by
  have hof : ∀ c, (s.mark cls).realized c = true → ¬ (pending c ∨ c = cls) →
      s.realized c = true ∧ ¬ pending c := by
    intro c hc hnot
    exact ⟨((mark_realized s).mp hc).resolve_right fun heq => hnot (.inr heq),
      fun hp => hnot (.inl hp)⟩
  refine ⟨⟨fun c hc => ?_, fun c hc hnot hown => ?_, fun c hp hf => ?_, fun c p hc hnot hp hpend => ?_⟩,
    fun c p hc hnot hp hsame hf => ?_⟩
  · rcases hc with hc | hpend | rfl
    · refine h.fresh c (.inl ?_)
      cases hr : s.realized c with
      | false => rfl
      | true =>
        rw [(mark_realized s).mpr (.inl hr)] at hc
        cases hc
    · exact h.fresh c (.inr hpend)
    · exact h.fresh c (.inl hcls)
  · obtain ⟨hc, hnot⟩ := hof c hc hnot
    exact h.own c hc hnot hown
  · exact h.root c hp hf
  · obtain ⟨hreal, hlinked⟩ := hof c hc hnot
    refine h.kind c p hreal hlinked hp (hpend.resolve_right fun heq => ?_)
    -- a linked class is below realized ones
    rw [← heq, (hg.up c p hreal hlinked hp).1] at hcls
    cases hcls
  · obtain ⟨hc, hnot⟩ := hof c hc hnot
    exact h.edge c p hc hnot hp hsame hf

omit [Fintype C] in
theorem FlagInv.link (h : FlagInv K k s fun c => pending c ∨ c = cls) (hnot : ¬ pending cls)
    (hne : s.superclass cls ≠ some cls)
    (hkind : ∀ p, s.superclass cls = some p → pending p → K.isMeta cls ≠ K.isMeta p)
    (hparent : s'.superclass = s.superclass) (hrealized : s'.realized = s.realized)
    (hcls : s.realized cls = true)
    (hflag : s'.hasCxx k = update (s.hasCxx k) cls (s.superCxx k cls || K.ownCxx k cls)) :
    FlagInv K k s' pending := by
  have hother : ∀ c, c ≠ cls → s'.hasCxx k c = s.hasCxx k c := by
    intro c hc
    rw [hflag, update_of_ne hc]
  have hself : s'.hasCxx k cls = (s.superCxx k cls || K.ownCxx k cls) := by
    rw [hflag, update_self]
  refine ⟨⟨fun c hc => ?_, fun c hc hn hown => ?_, fun c hp hf => ?_, fun c p hc hn hp hpend => ?_⟩,
    fun c p hc hn hp hsame hf => ?_⟩
  · rw [hrealized] at hc
    have hcne : c ≠ cls := by
      rintro rfl
      rcases hc with hc | hc
      · rw [hcls] at hc
        cases hc
      · exact hnot hc
    rw [hother c hcne]
    exact h.fresh c (hc.imp_right .inl)
  · rw [hrealized] at hc
    by_cases heq : c = cls
    · rw [heq] at hown ⊢
      rw [hself, hown, Bool.or_true]
    · rw [hother c heq]
      exact h.own c hc (fun hp => hp.elim hn heq) hown
  · rw [hparent] at hp
    by_cases heq : c = cls
    · rw [heq] at hp hf ⊢
      rw [hself, superCxx, hp, elim_none, Bool.false_or] at hf
      exact hf
    · rw [hother c heq] at hf
      exact h.root c hp hf
  · rw [hparent] at hp
    rw [hrealized] at hc
    by_cases heq : c = cls
    · rw [heq] at hp ⊢
      exact hkind p hp hpend
    · exact h.kind c p hc (fun hp => hp.elim hn heq) hp (.inl hpend)
  rw [hparent] at hp
  rw [hrealized] at hc
  by_cases heq : c = cls
  · rw [heq] at hp ⊢
    have hpne : p ≠ cls := fun h => hne (h ▸ hp)
    rw [hother p hpne] at hf
    rw [hself, superCxx, hp, elim_some, hf, Bool.true_or]
  have hnot' : ¬ (pending c ∨ c = cls) := fun hp => hp.elim hn heq
  by_cases hpcls : p = cls
  · exact absurd hsame (h.kind c p hc hnot' hp (.inr hpcls))
  rw [hother p hpcls] at hf
  rw [hother c heq]
  exact h.edge c p hc hnot' hp hsame hf

omit [Fintype C] in
theorem FlagInv.link_step (h : FlagInv K k s fun c => pending c ∨ c = cls)
    (hl : Linkable K s pending cls) (hlink : s.link K cls = some s') : FlagInv K k s' pending := by
  obtain ⟨_, hparent, hreal, _⟩ := hl.link hlink
  refine h.link hl.not_pending hl.ne_self (fun p hp hpend => ((hl.up p hp).2 hpend).2) hparent hreal
    hl.realized ?_
  rw [hasCxx_link hl.ne_self hlink, h.fresh cls (.inr (.inr rfl)), Bool.or_false]

theorem FlagInv.realizeClass (h : FlagInv K k s fun _ => False) (htree : TreeInv K s)
    (hrun : s.realizeClass K (Fintype.card C + 1) cls = some s') :
    FlagInv K k s' fun _ => False := by
  refine htree.realizeClass_induct (P := FlagInv K k) ⟨?_, ?_⟩ h hrun
  · intro s pending cls hg hcls h
    exact h.mark hg hcls
  intro s pending cls s₁ s2 hl h hlink hmethodize hm
  refine (h.link_step hl hlink).congr ?_ hm.realized (hasCxx_methodizeClass hmethodize)
  unfold ClassState.superclass
  rw [hm.links]

/-! ## Class pairs made at run time -/

omit [Fintype C] in
theorem allocateClassPair_links (htree : TreeInv K s) (hmade : K.madeAtRunTime s cls = true)
    (h : s.objc_allocateClassPair K cls = some s') :
    ∃ s₁, ((s.mark cls).mark (K.isa cls)).link K cls = some s₁ ∧ s₁.link K (K.isa cls) = some s' := by
  simp only [madeAtRunTime, Bool.and_eq_true, Bool.not_eq_true'] at hmade
  obtain ⟨⟨⟨⟨⟨hclass, hown⟩, hownMeta⟩, _⟩, _⟩, _⟩ := hmade
  have hflags : ∀ (s : ClassState C) (c : C), K.hasCxxStructors c = false →
      s.setCxxFlags K c = s := by
    intro s c hc
    rw [setCxxFlags, hc]
    rfl
  have hpair := htree.shape.pair cls hclass
  unfold objc_allocateClassPair at h
  split at h
  case isTrue => cases h
  case isFalse =>
    have hmark : ((s.mark cls).mark (K.isa cls)).superclass = s.superclass := rfl
    split at h
    next p hp =>
      rw [hp, elim_some] at hpair
      obtain ⟨-, h⟩ := ite_none_right_eq_some.mp h
      split at h
      next => cases h
      rename_i s₁ h1
      refine ⟨s₁, ?_, ?_⟩
      · rw [link, hmark, hp]
        show ((((s.mark cls).mark (K.isa cls)).setCxxFlags K cls).addSubclass p cls) = some s₁
        rw [hflags _ _ hown, h1]
      have hsuper : s₁.superclass (K.isa cls) = some (K.isa p) := by
        obtain ⟨-, ⟨⟩⟩ := ite_none_right_eq_some.mp h1
        exact hpair
      rw [link, hsuper]
      show (s₁.setCxxFlags K (K.isa cls)).addSubclass (K.isa p) (K.isa cls) = some s'
      rw [hflags _ _ hownMeta, h]
    rename_i hp
    rw [hp, elim_none] at hpair
    split at h
    next => cases h
    rename_i s₁ h1
    refine ⟨s₁, ?_, ?_⟩
    · rw [link, hmark, hp]
      show (((s.mark cls).mark (K.isa cls)).setCxxFlags K cls).addRootClass cls = some s₁
      rw [hflags _ _ hown, h1]
    have hsuper : s₁.superclass (K.isa cls) = some cls := by
      obtain ⟨-, ⟨⟩⟩ := ite_none_right_eq_some.mp h1
      exact hpair
    rw [link, hsuper]
    show (s₁.setCxxFlags K (K.isa cls)).addSubclass cls (K.isa cls) = some s'
    rw [hflags _ _ hownMeta, h]

omit [Fintype C] in
theorem FlagInv.allocateClassPair (h : FlagInv K k s fun _ => False) (htree : TreeInv K s)
    (hmade : K.madeAtRunTime s cls = true) (hrun : s.objc_allocateClassPair K cls = some s') :
    FlagInv K k s' (fun _ => False) ∧ TreeInv K s' := by
  obtain ⟨s₁, hlink1, hlink2⟩ := allocateClassPair_links htree hmade hrun
  have hguard : s.realized cls = false ∧ s.realized (K.isa cls) = false ∧
      ∀ p, s.superclass cls = some p → s.realized p = true := by
    unfold objc_allocateClassPair at hrun
    split at hrun
    case isTrue => cases hrun
    case isFalse hnot =>
      simp only [not_or, Bool.not_eq_true] at hnot
      refine ⟨hnot.1, hnot.2, fun p hp => ?_⟩
      rw [hp] at hrun
      simp only at hrun
      split at hrun
      next hreal => exact hreal
      next => cases hrun
  obtain ⟨hcls, hmeta, hsuper⟩ := hguard
  simp only [madeAtRunTime, Bool.and_eq_true, Bool.not_eq_true', decide_eq_true_eq] at hmade
  obtain ⟨⟨⟨⟨⟨hclass, _⟩, _⟩, _⟩, _⟩, hisaisa⟩ := hmade
  have hpair := htree.shape.pair cls hclass
  have hne := K.ne_isa hclass cls
  obtain ⟨rank, hrank⟩ := htree.shape.ranked
  have hirrefl : ∀ c, s.superclass c ≠ some c := fun c hc => lt_irrefl _ (hrank c c hc)
  have hmeta1 : (s.mark cls).realized (K.isa cls) = false := by
    show update s.realized cls true (K.isa cls) = false
    rw [update_of_ne hne.symm, hmeta]
  -- both are pending, and are linked in turn
  have hpend : (fun c => (False ∨ c = cls) ∨ c = K.isa cls)
      = fun c => (False ∨ c = K.isa cls) ∨ c = cls := by
    funext c
    simp only [false_or]
    exact propext or_comm
  have hg := (htree.growing.mark hcls).mark hmeta1
  have hf := (h.mark htree.growing hcls).mark (htree.growing.mark hcls) hmeta1
  rw [hpend] at hg hf
  have hreal : ∀ c, s.realized c = true ∨ c = cls ∨ c = K.isa cls →
      ((s.mark cls).mark (K.isa cls)).realized c = true := by
    intro c hc
    rw [mark_realized, mark_realized]
    tauto
  have hl : Linkable K ((s.mark cls).mark (K.isa cls)) (fun c => False ∨ c = K.isa cls) cls := by
    refine ⟨hg, fun hp => hp.elim id hne, hirrefl cls,
      fun p hp => ⟨hreal p (.inl (hsuper p hp)), fun hp' => ?_⟩, hreal _ (.inr (.inr rfl))⟩
    have hpmeta := htree.shape.class_parent cls p hclass hp
    exact absurd (hp'.resolve_left id) (K.ne_isa hpmeta cls)
  obtain ⟨hg1, hparent1, hreal1, _⟩ := hl.link hlink1
  have hparent : s₁.superclass = s.superclass := hparent1
  have hl1 : Linkable K s₁ (fun _ => False) (K.isa cls) := by
    refine ⟨hg1, id, hparent ▸ hirrefl (K.isa cls), fun p hp => ⟨?_, fun hf => hf.elim⟩, ?_⟩
    · rw [hparent, hpair, some_inj] at hp
      rw [hreal1]
      cases hs : s.superclass cls with
      | none =>
        rw [hs, elim_none] at hp
        exact hreal p (.inr (.inl hp.symm))
      | some q =>
        rw [hs, elim_some] at hp
        exact hreal p (.inl (hp ▸ htree.growing.isa q (hsuper q hs) fun hf => hf))
    rw [hreal1, hisaisa]
    cases hs : s.superclass cls with
    | none => exact hreal _ (.inr (.inr rfl))
    | some q =>
      have hq := htree.growing.isa q (hsuper q hs) id
      exact hreal _ (.inl (htree.growing.isa _ hq fun hf => hf))
  obtain ⟨hg2, hparent2, _, _⟩ := hl1.link hlink2
  exact ⟨(hf.link_step hl hlink1).link_step hl1 hlink2,
    ⟨(hparent2.trans hparent) ▸ htree.shape, hg2⟩⟩

/-! ## Moving a class -/

/-- Every realized class below a class with the flag has it; a metaclass below a class only when
no root class has structors of its own. -/
def ClassState.CxxInherited (K : ClassImage C) (k : CxxFlag) (s : ClassState C) : Prop :=
  ∀ c d, s.realized d = true → Under s.superclass d c →
    (K.isMeta d = K.isMeta c ∨ ∀ r, s.superclass r = none → K.ownCxx k r = false) →
    s.hasCxx k c = true → s.hasCxx k d = true

omit [DecidableEq C] [Fintype C] in
theorem TreeInv.isMeta_of_under (htree : TreeInv K s) {c d : C} (hu : Under s.superclass d c)
    (hd : K.isMeta d = false) : K.isMeta c = false :=
  hu.of_closed (P := fun x => K.isMeta x = false)
    (fun x p hx hp _ => htree.shape.class_parent x p hx hp) hd

omit [DecidableEq C] [Fintype C] in
theorem TreeInv.root_of_kind_ne (htree : TreeInv K s) {c p : C} (hp : s.superclass c = some p)
    (hkind : K.isMeta c ≠ K.isMeta p) : s.superclass p = none := by
  cases hc : K.isMeta c with
  | false =>
    rw [hc, htree.shape.class_parent c p hc hp] at hkind
    exact absurd rfl hkind
  | true => ?_
  obtain ⟨b, hb, rfl⟩ := K.meta_pair c hc
  rw [htree.shape.pair b hb, some_inj] at hp
  cases hsuper : s.superclass b with
  | none =>
    rw [hsuper, elim_none] at hp
    rw [← hp, hsuper]
  | some q =>
    rw [hsuper, elim_some] at hp
    rw [hc, ← hp, K.isa_isMeta] at hkind
    exact absurd rfl hkind

omit [DecidableEq C] [Fintype C] in
theorem FlagInv.inherited (h : FlagInv K k s fun _ => False) (htree : TreeInv K s) :
    s.CxxInherited K k := by
  intro c d hd hu hkind hc
  induction hu using Relation.ReflTransGen.head_induction_on with
  | refl => exact hc
  | head hp hu ih => ?_
  rename_i d p
  have hpr := (htree.growing.up d p hd id hp).1
  by_cases hsame : K.isMeta d = K.isMeta p
  · refine h.edge d p hd id hp hsame (ih hpr ?_)
    rw [← hsame]
    exact hkind
  have hroot := htree.root_of_kind_ne hp hsame
  rcases hkind with hkind | hnone
  · -- a metaclass below a class, so the upper end is no metaclass
    cases hd' : K.isMeta d with
    | false => exact absurd ((htree.shape.class_parent d p hd' hp).symm ▸ hd') hsame
    | true => ?_
    have hpm : K.isMeta p = false := by
      cases hpm : K.isMeta p with
      | false => rfl
      | true => exact absurd (hd'.trans hpm.symm) hsame
    rw [hd', htree.isMeta_of_under hu hpm] at hkind
    cases hkind
  · have hown := h.root p hroot (ih hpr (.inr hnone))
    rw [hnone p hroot] at hown
    cases hown

omit [DecidableEq C] [Fintype C] in
theorem FlagBase.of_inherited (h : FlagBase K k s fun _ => False) (hin : s.CxxInherited K k) :
    FlagInv K k s fun _ => False :=
  ⟨h, fun c p hc _ hp hsame hf =>
    hin p c hc (head hp (refl _ _)) (.inl hsame) hf⟩

/-- What has to be so when a class is moved: the classes right below it, and those right below
its metaclass, have the flag if the new superclass has it. -/
def MovesFlagged (K : ClassImage C) (k : CxxFlag) (s : ClassState C) : TreeOp C → Prop
  | .class_setSuperclass cls newSuper =>
    (s.hasCxx k newSuper = true →
      ∀ d, s.realized d = true → s.superclass d = some cls → s.hasCxx k d = true) ∧
    (s.hasCxx k (K.isa newSuper) = true →
      ∀ d, s.realized d = true → s.superclass d = some (K.isa cls) → s.hasCxx k d = true)
  | _ => True

theorem flags_of_setSuperclass (h : FlagBase K k s fun _ => False) (htree : TreeInv K s)
    (hin : s.CxxInherited K k) {newSuper : C} (hm : Movable K s cls newSuper)
    {r : C × ClassState C} (hrun : s.setSuperclass K cls newSuper = some r) :
    TreeInv K r.2 ∧ FlagBase K k r.2 (fun _ => False) ∧
      (r.2.CxxInherited K k ↔ MovesFlagged K k s (.class_setSuperclass cls newSuper)) := by
  obtain ⟨r', hrun', htree', hparent, hreal, _⟩ := htree.setSuperclass hm
  obtain rfl : r' = r := some.inj (hrun'.symm.trans hrun)
  have hisa := htree.growing.isa cls hm.cls_realized id
  have hedge := (h.of_inherited hin).edge
  have hne := K.ne_isa hm.cls_class cls
  have hnew : newSuper ≠ cls := fun heq => hm.not_below (heq ▸ refl _ _)
  have hnewMeta : K.isa newSuper ≠ K.isa cls := fun heq =>
    hnew (K.isa_inj newSuper cls hm.new_class hm.cls_class heq)
  -- the flags and the superclasses, class by class
  have hflag := hasCxx_setSuperclass (k := k) hm.cls_class hrun
  have hcls : r'.2.hasCxx k cls = (s.hasCxx k newSuper || s.hasCxx k cls) := by
    rw [hflag, update_of_ne hne, update_self]
  have hmeta : r'.2.hasCxx k (K.isa cls)
      = (s.hasCxx k (K.isa newSuper) || s.hasCxx k (K.isa cls)) := by
    rw [hflag, update_self]
  have hother : ∀ c, c ≠ cls → c ≠ K.isa cls → r'.2.hasCxx k c = s.hasCxx k c := by
    intro c hc hc'
    rw [hflag, update_of_ne hc', update_of_ne hc]
  have hsuper : ∀ c, c ≠ cls → c ≠ K.isa cls → r'.2.superclass c = s.superclass c := by
    intro c hc hc'
    rw [hparent, moved, update_of_ne hc', update_of_ne hc]
  have hsuperCls : r'.2.superclass cls = some newSuper := by
    rw [hparent, moved, update_of_ne hne, update_self]
  have hsuperMeta : r'.2.superclass (K.isa cls) = some (K.isa newSuper) := by
    rw [hparent, moved, update_self]
  have hkept : r'.2.hasCxx k newSuper = s.hasCxx k newSuper :=
    hother newSuper hnew (K.ne_isa hm.new_class cls)
  have hkeptMeta : r'.2.hasCxx k (K.isa newSuper) = s.hasCxx k (K.isa newSuper) :=
    hother _ (K.ne_isa hm.cls_class newSuper).symm hnewMeta
  have hbase : FlagBase K k r'.2 fun _ => False := by
    refine ⟨fun c hc => ?_, fun c hc hn hown => ?_, fun c hp hf => ?_, fun _ _ _ _ _ hf => hf.elim⟩
    · rw [hreal, or_false] at hc
      have hc1 : c ≠ cls := by
        rintro rfl
        rw [hm.cls_realized] at hc
        cases hc
      have hc2 : c ≠ K.isa cls := by
        rintro rfl
        rw [hisa] at hc
        cases hc
      rw [hother c hc1 hc2]
      exact h.fresh c (.inl hc)
    · rw [hreal] at hc
      have hold := h.own c hc hn hown
      by_cases hc1 : c = cls
      · rw [hc1, hcls, ← hc1, hold, Bool.or_true]
      by_cases hc2 : c = K.isa cls
      · rw [hc2, hmeta, ← hc2, hold, Bool.or_true]
      · rw [hother c hc1 hc2, hold]
    have hc1 : c ≠ cls := by
      rintro rfl
      rw [hsuperCls] at hp
      cases hp
    have hc2 : c ≠ K.isa cls := by
      rintro rfl
      rw [hsuperMeta] at hp
      cases hp
    rw [hsuper c hc1 hc2] at hp
    rw [hother c hc1 hc2] at hf
    exact h.root c hp hf
  refine ⟨htree', hbase, fun hin' => ⟨fun hf d hd hp => ?_, fun hf d hd hp => ?_⟩, fun hmoves => ?_⟩
  · have hd1 : d ≠ cls := by
      rintro rfl
      obtain ⟨rank, hrank⟩ := htree.shape.ranked
      exact lt_irrefl _ (hrank d d hp)
    have hd2 : d ≠ K.isa cls := by
      rintro rfl
      rw [htree.shape.pair cls hm.cls_class, some_inj] at hp
      obtain ⟨q, hq⟩ := ne_none_iff_exists'.mp hm.not_root
      rw [hq, elim_some] at hp
      exact K.ne_isa hm.cls_class q hp.symm
    have hup : Under r'.2.superclass d newSuper :=
      head ((hsuper d hd1 hd2).trans hp) (head hsuperCls (refl _ _))
    have hkind : K.isMeta d = K.isMeta newSuper := by
      rw [hm.new_class]
      cases hdm : K.isMeta d with
      | false => rfl
      | true =>
        refine absurd (htree.root_of_kind_ne hp ?_) hm.not_root
        rw [hdm, hm.cls_class]
        exact Bool.noConfusion
    rw [← hother d hd1 hd2]
    exact hin' newSuper d (hreal ▸ hd) hup (.inl hkind) (hkept.trans hf)
  · have hdm : K.isMeta d = true := by
      cases hdm : K.isMeta d with
      | true => rfl
      | false =>
        have := htree.shape.class_parent d _ hdm hp
        rw [K.isa_isMeta] at this
        cases this
    have hd1 : d ≠ cls := by
      rintro rfl
      rw [hm.cls_class] at hdm
      cases hdm
    have hd2 : d ≠ K.isa cls := by
      rintro rfl
      obtain ⟨rank, hrank⟩ := htree.shape.ranked
      exact lt_irrefl _ (hrank _ _ hp)
    have hup : Under r'.2.superclass d (K.isa newSuper) :=
      head ((hsuper d hd1 hd2).trans hp) (head hsuperMeta (refl _ _))
    rw [← hother d hd1 hd2]
    refine hin' (K.isa newSuper) d (hreal ▸ hd) hup (.inl ?_) (hkeptMeta.trans hf)
    rw [hdm, K.isa_isMeta]
  refine FlagInv.inherited ⟨hbase, fun c p hc _ hp hsame hf => ?_⟩ htree'
  rw [hreal] at hc
  by_cases hc1 : c = cls
  · rw [hc1, hsuperCls, some_inj] at hp
    rw [← hp, hkept] at hf
    rw [hc1, hcls, hf, Bool.true_or]
  by_cases hc2 : c = K.isa cls
  · rw [hc2, hsuperMeta, some_inj] at hp
    rw [← hp, hkeptMeta] at hf
    rw [hc2, hmeta, hf, Bool.true_or]
  rw [hsuper c hc1 hc2] at hp
  rw [hother c hc1 hc2]
  -- the superclass may be one of the two that were moved
  by_cases hp1 : p = cls
  · rw [hp1, hcls, Bool.or_eq_true] at hf
    rcases hf with hf | hf
    · exact hmoves.1 hf c hc (hp1 ▸ hp)
    · exact hedge c p hc id hp hsame (hp1 ▸ hf)
  by_cases hp2 : p = K.isa cls
  · rw [hp2, hmeta, Bool.or_eq_true] at hf
    rcases hf with hf | hf
    · exact hmoves.2 hf c hc (hp2 ▸ hp)
    · exact hedge c p hc id hp hsame (hp2 ▸ hf)
  · rw [hother p hp1 hp2] at hf
    exact hedge c p hc id hp hsame hf

/-! ## The loops, and runs -/

structure ClassState.NoStructorSkipped (K : ClassImage C) (s : ClassState C) : Prop where
  destruct : ∀ cls a, s.realized cls = true → Under s.superclass cls a →
    (K.isMeta cls = K.isMeta a ∨ ∀ r, s.superclass r = none → K.ownCxx .dtor r = false) →
    K.ownCxx .dtor a = true → a ∈ s.cxxDestructClasses (Fintype.card C + 1) (some cls)
  construct : ∀ cls a, s.realized cls = true → Under s.superclass cls a →
    (K.isMeta cls = K.isMeta a ∨ ∀ r, s.superclass r = none → K.ownCxx .ctor r = false) →
    K.ownCxx .ctor a = true → a ∈ s.cxxConstructClasses (Fintype.card C + 1) cls

omit [Fintype C] in
theorem mem_cxxDestructClasses {rank : C → Nat} (hrank : Ranked s.superclass rank) {a : C} :
    ∀ (fuel : Nat) (cls : C), rank cls < fuel → Under s.superclass cls a →
      (∀ d, Under s.superclass cls d → Under s.superclass d a → s.hasCxxDtor d = true) →
      a ∈ s.cxxDestructClasses fuel (some cls) := by
  intro fuel
  induction fuel with
  | zero => intro cls hfuel; exact absurd hfuel (Nat.not_lt_zero _)
  | succ fuel ih => ?_
  intro cls hfuel hu hall
  rw [cxxDestructClasses, if_pos (hall cls (refl _ _) hu)]
  by_cases heq : cls = a
  · rw [heq]
    exact List.mem_cons_self
  obtain ⟨p, hp, hup⟩ := hu.parent_of_ne heq
  have hlt := hrank cls p hp
  rw [hp]
  exact List.mem_cons_of_mem _ (ih p (by omega) hup fun d hd => hall d (head hp hd))

omit [Fintype C] in
theorem mem_cxxConstructClasses {rank : C → Nat} (hrank : Ranked s.superclass rank) {a : C} :
    ∀ (fuel : Nat) (cls : C), rank cls < fuel → Under s.superclass cls a →
      (∀ d, Under s.superclass cls d → Under s.superclass d a → s.hasCxxCtor d = true) →
      a ∈ s.cxxConstructClasses fuel cls := by
  intro fuel
  induction fuel with
  | zero => intro cls hfuel; exact absurd hfuel (Nat.not_lt_zero _)
  | succ fuel ih => ?_
  intro cls hfuel hu hall
  by_cases heq : cls = a
  · rw [heq]
    exact List.mem_append_right _ (List.mem_singleton_self a)
  obtain ⟨p, hp, hup⟩ := hu.parent_of_ne heq
  have hlt := hrank cls p hp
  have hflag := hall p (head hp (refl _ _)) hup
  refine List.mem_append_left _ ?_
  rw [hp]
  simp only [hflag, if_true]
  exact ih p (by omega) hup fun d hd => hall d (head hp hd)

theorem TreeInv.noStructorSkipped (htree : TreeInv K s)
    (h : ∀ k, FlagBase K k s fun _ => False) (hin : ∀ k, s.CxxInherited K k) :
    s.NoStructorSkipped K := by
  obtain ⟨rank, hrank⟩ := htree.shape.ranked
  obtain ⟨depth, hdepth, hbound⟩ := hrank.exists_bounded
  -- the flag of every class on the way up
  have hway : ∀ k cls a, s.realized cls = true → Under s.superclass cls a →
      (K.isMeta cls = K.isMeta a ∨ ∀ r, s.superclass r = none → K.ownCxx k r = false) →
      K.ownCxx k a = true →
      ∀ d, Under s.superclass cls d → Under s.superclass d a → s.hasCxx k d = true := by
    intro k cls a hcls hu hkind hown d hd hda
    have ha := (h k).own a (htree.realized_of_under hu hcls) id hown
    refine hin k a d (htree.realized_of_under hd hcls) hda (hkind.imp_left fun hsame => ?_) ha
    cases hcm : K.isMeta cls with
    | false => rw [htree.isMeta_of_under hd hcm, htree.isMeta_of_under hu hcm]
    | true =>
      cases hdm : K.isMeta d with
      | true => rw [← hsame, hcm]
      | false => rw [htree.isMeta_of_under hda hdm]
  refine ⟨fun cls a hcls hu hkind hown => ?_, fun cls a hcls hu hkind hown => ?_⟩
  · exact mem_cxxDestructClasses hdepth _ cls (Nat.lt_succ_of_lt (hbound cls)) hu
      (hway .dtor cls a hcls hu hkind hown)
  · exact mem_cxxConstructClasses hdepth _ cls (Nat.lt_succ_of_lt (hbound cls)) hu
      (hway .ctor cls a hcls hu hkind hown)

omit [DecidableEq C] [Fintype C] in
theorem FlagBase.load (K : ClassImage C) (k : CxxFlag) : FlagInv K k K.load fun _ => False := by
  have hno : ∀ c, K.load.hasCxx k c = false := by
    intro c
    cases k <;> rfl
  refine ⟨⟨fun c _ => hno c, fun c hc => ?_, fun c _ hf => ?_, fun c p hc => ?_⟩, fun c p hc => ?_⟩
  · cases hc
  · rw [hno] at hf
    cases hf
  · cases hc
  · cases hc

theorem flags_of_step (htree : TreeInv K s) (h : ∀ k, FlagBase K k s fun _ => False)
    (hin : ∀ k, s.CxxInherited K k) {op : TreeOp C} (hstep : (treeSystem K).step s op = some s') :
    TreeInv K s' ∧ (∀ k, FlagBase K k s' fun _ => False) ∧
      ((∀ k, s'.CxxInherited K k) ↔ ∀ k, MovesFlagged K k s op) := by
  cases op with
  | realizeClass cls =>
    have hinv : ∀ k, FlagInv K k s' fun _ => False := fun k =>
      ((h k).of_inherited (hin k)).realizeClass htree hstep
    obtain ⟨s₁, hrun, _, htree', _⟩ := htree.realizeClass cls
    obtain rfl : s₁ = s' := some.inj (hrun.symm.trans hstep)
    exact ⟨htree', fun k => (hinv k).toFlagBase,
      ⟨fun _ _ => trivial, fun _ k => (hinv k).inherited htree'⟩⟩
  | objc_allocateClassPair cls =>
    obtain ⟨hmade, hstep⟩ := ite_none_right_eq_some.mp hstep
    have hinv := fun k => ((h k).of_inherited (hin k)).allocateClassPair htree hmade hstep
    exact ⟨(hinv .ctor).2, fun k => (hinv k).1.toFlagBase,
      ⟨fun _ _ => trivial, fun _ k => (hinv k).1.inherited (hinv k).2⟩⟩
  | class_setSuperclass cls newSuper => ?_
  obtain ⟨hm, hstep⟩ := ite_none_right_eq_some.mp hstep
  obtain ⟨r, hrun, rfl⟩ := map_eq_some_iff.mp hstep
  have hmove := fun k => flags_of_setSuperclass (h k) htree (hin k) (movable_iff htree hm) hrun
  exact ⟨(hmove .ctor).1, fun k => (hmove k).2.1, forall_congr' fun k => (hmove k).2.2⟩

/-- **The C++ flags are inherited and no structor is skipped**, in every state of the run, exactly
when no class is moved below one with a flag that a class right below the moved one does not
have. -/
theorem cxx_flags_are_inherited_iff (K : ClassImage C) (ops : List (TreeOp C)) :
    (treeSystem K).AllStates (fun s => (∀ k, s.CxxInherited K k) ∧ s.NoStructorSkipped K) K.load
        ops ↔
      (treeSystem K).AllSteps (fun s op => ∀ k, MovesFlagged K k s op) K.load ops := by
  have htree := (ClassInv.load K).tree
  have hload := fun k => (FlagBase.load K k).inherited htree
  refine System.allStates_iff_allSteps (fun s => TreeInv K s ∧ ∀ k, FlagBase K k s fun _ => False)
    (fun s op s' hinv hP hstep _ => ?_) (fun s op s' hinv hP hstep => ?_) ops
    ⟨htree, fun k => (FlagBase.load K k).toFlagBase⟩
    ⟨hload, htree.noStructorSkipped (fun k => (FlagBase.load K k).toFlagBase) hload⟩
  · obtain ⟨htree', hbase', _⟩ := flags_of_step hinv.1 hinv.2 hP.1 hstep
    exact ⟨htree', hbase'⟩
  obtain ⟨htree', hbase', hiff⟩ := flags_of_step hinv.1 hinv.2 hP.1 hstep
  rw [← hiff]
  exact ⟨fun h => h.1, fun h => ⟨h, htree'.noStructorSkipped hbase' h⟩⟩

def threeClasses : ClassImage (Option (Option Bool) × Bool) :=
  starImage (Option Bool) (fun _ => none) fun c => decide (c = (some (some true), false))

/-- The second class is moved below the first, and then the first below the one with
structors. -/
def moveWithSubclass : List (TreeOp (Option (Option Bool) × Bool)) :=
  [.realizeClass (some none, false), .realizeClass (some (some false), false),
    .realizeClass (some (some true), false),
    .class_setSuperclass (some (some false), false) (some none, false),
    .class_setSuperclass (some none, false) (some (some true), false)]

/-- **A class below the moved one does not get the flags**, and the inherited destructor is not
called for its objects. -/
theorem moved_subclass_lacks_flags :
    ∃ s, (treeSystem threeClasses).runFrom (fun _ => True) threeClasses.load moveWithSubclass
        = some s ∧
      s.superclass (some (some false), false) = some (some none, false) ∧
      s.superclass (some none, false) = some (some (some true), false) ∧
      s.realized (some (some false), false) = true ∧
      s.hasCxxDtor (some (some true), false) = true ∧
      s.hasCxxDtor (some (some false), false) = false ∧
      s.cxxDestructClasses 9 (some (some (some false), false)) = [] :=
  ⟨_, (some_get (by decide +kernel)).symm, by decide +kernel⟩

end ObjcRuntime
