/-
C++ DESTRUCTORS AND THE CACHES.

objc-class.mm, `object_cxxDestructFromClass`: the destructor of each class,
from the object's class up. Each is looked up in its class alone, but through
the cache that all other lookups fill as well.
-/
import ObjcRuntime.Class.Lookup

namespace ObjcRuntime

open Lib List Option ClassState Function Prod Fintype Under

variable {C : Type}

/-! ## The loop, and what it should call -/

/-- `object_cxxDestructFromClass`: the destructors that it calls, in order. -/
def ClassState.object_cxxDestructFromClass [DecidableEq C] (K : ClassImage C) :
    Nat → ClassState C → Option C → Option (List IMP × ClassState C)
  | 0, _, _ => none
  | _ + 1, s, none => some ([], s)
  | fuel + 1, s, some cls =>
    if s.hasCxxDtor cls then
      match s.lookupMethodInClassAndLoadCache K cls SEL_cxx_destruct with
      | none => none
      | some (dtor, s') =>
        (object_cxxDestructFromClass K fuel s' (s'.superclass cls)).map fun r =>
          (if dtor ≠ _objc_msgForward_impcache then dtor :: r.1 else r.1, r.2)
    else some ([], s)

def ClassState.ownDtor (s : ClassState C) (cls : C) : Option IMP :=
  methodImp (s.methods cls) SEL_cxx_destruct

def ClassState.DtorsAreFunctions (s : ClassState C) : Prop :=
  ∀ c, ∀ imp ∈ s.ownDtor c, imp ≠ 0 ∧ imp ≠ _objc_msgForward_impcache

def ClassState.DtorFlag (s : ClassState C) (c : C) : Prop :=
  s.hasCxxDtor c = true ↔ ∃ a, Under s.superclass c a ∧ s.ownDtor a ≠ none

/-! ## Lookups that leave the entries for destructors right -/

mutual

/-- The lookup and all that are made during it satisfy `P`. -/
def LookUpCall.All (P : C → SEL → Prop) : LookUpCall C → Prop
  | .mk cls sel _ _ during => P cls sel ∧ LookUpCall.AllDuring P during

def LookUpCall.AllDuring (P : C → SEL → Prop) : List (LookUpCall C) → Prop
  | [] => True
  | call :: calls => LookUpCall.All P call ∧ LookUpCall.AllDuring P calls

end

/-- A lookup on a realized class; one of `.cxx_destruct` only on a class that defines a destructor
or has none at all. -/
def ClassState.Harmless (s : ClassState C) (cls : C) (sel : SEL) : Prop :=
  s.realized cls = true ∧ (sel = SEL_cxx_destruct → s.ownDtor cls ≠ none ∨
    Resolves s.methods s.superclass SEL_cxx_destruct cls _objc_msgForward_impcache)

/-- Since `s₀` only caches were filled, and for destructors with what the class itself has. -/
structure OnlyCached (s₀ s : ClassState C) : Prop where
  superclass : s.superclass = s₀.superclass
  realized : s.realized = s₀.realized
  methods : s.methods = s₀.methods
  hasCxxDtor : s.hasCxxDtor = s₀.hasCxxDtor
  dtor : ∀ c, s.cache_getImp c SEL_cxx_destruct ≠ 0 →
    s.cache_getImp c SEL_cxx_destruct = (s₀.ownDtor c).getD _objc_msgForward_impcache

namespace OnlyCached

variable {s₀ s : ClassState C} [DecidableEq C] {K : ClassImage C}

theorem cached_fill {sel0 : SEL} {own : C → Option IMP}
    (h : ∀ c, s.cache_getImp c sel0 ≠ 0 →
      s.cache_getImp c sel0 = (own c).getD _objc_msgForward_impcache) {s' : ClassState C} {cls : C}
    {sel : SEL} {imp : IMP} (himp : sel = sel0 → imp = (own cls).getD _objc_msgForward_impcache)
    (hfill : s.cache_fill K cls sel imp = some s') (c : C) : s'.cache_getImp c sel0 ≠ 0 →
      s'.cache_getImp c sel0 = (own c).getD _objc_msgForward_impcache := by
  rw [ClassState.cache_fill] at hfill
  split at hfill
  next =>
    obtain ⟨cache, hcache, rfl⟩ := map_eq_some_iff.mp hfill
    have hstored := MethodCache.fill_spec hcache
    show (update s.cache cls cache c).getImp sel0 ≠ 0 → (update s.cache cls cache c).getImp sel0 = _
    by_cases hc : c = cls
    · subst hc
      rw [update_self]
      by_cases hsel : sel = sel0
      · subst hsel
        rw [hstored.self]
        split
        next hcached => exact fun _ => h c hcached
        next => exact fun _ => himp rfl
      rcases hstored.others sel0 (Ne.symm hsel) with heq | heq
      · rw [heq]
        exact h c
      · exact fun hne => absurd heq hne
    · rw [update_of_ne hc]
      exact h c
  next => exact some.inj hfill ▸ h c

theorem cache_fill (h : OnlyCached s₀ s) {s' : ClassState C} {cls : C} {sel : SEL} {imp : IMP}
    (himp : sel = SEL_cxx_destruct → imp = (s₀.ownDtor cls).getD _objc_msgForward_impcache)
    (hfill : s.cache_fill K cls sel imp = some s') : OnlyCached s₀ s' := by
  have hdtor := cached_fill h.dtor himp hfill
  obtain ⟨cache, rfl⟩ := cache_fill_eq hfill
  exact { h with dtor := hdtor }

theorem cacheFound (h : OnlyCached s₀ s) {r : IMP × ClassState C} {cls : C} {sel : SEL} {imp : IMP}
    (himp : sel = SEL_cxx_destruct → imp = (s₀.ownDtor cls).getD _objc_msgForward_impcache)
    (hfound : s.cacheFound K cls sel imp = some r) : OnlyCached s₀ r.2 := by
  obtain ⟨s', hfill, rfl⟩ := map_eq_some_iff.mp hfound
  exact h.cache_fill himp hfill

omit [DecidableEq C] in
theorem searchSuperclasses_none (h : OnlyCached s₀ s) (hfun : s₀.DtorsAreFunctions) :
    ∀ (attempts : Nat) (start : Option C) (r : Option IMP), (∀ p, start = some p →
        Resolves s₀.methods s₀.superclass SEL_cxx_destruct p _objc_msgForward_impcache) →
      s.searchSuperclasses SEL_cxx_destruct attempts start = some r → r = none := by
  intro attempts
  induction attempts with
  | zero => intro start r _ hrun; cases hrun
  | succ attempts ih => ?_
  intro start r hres hrun
  cases start with
  | none => exact (some.inj hrun).symm
  | some cls => ?_
  -- the class defines none: a destructor is not the forwarding function
  have hnone : s₀.ownDtor cls = none := by
    cases hown : s₀.ownDtor cls with
    | none => rfl
    | some imp =>
      have heq := (hres cls rfl).unique (.own hown)
      exact absurd heq (hfun cls imp hown).2
  obtain ⟨-, hrun⟩ := ite_none_left_eq_some.mp hrun
  split at hrun
  next hcached =>
    have heq := h.dtor cls hcached
    rw [hnone, getD_none] at heq
    rw [heq, if_neg (not_not.mpr rfl)] at hrun
    exact (some.inj hrun).symm
  have hown : methodImp (s.methods cls) SEL_cxx_destruct = none := by
    rw [h.methods]
    exact hnone
  rw [hown, h.superclass] at hrun
  exact ih _ r (fun p hp => (hres cls rfl).superclass hnone hp) hrun

variable [Fintype C]

theorem searchOnce (h : OnlyCached s₀ s) (hfun : s₀.DtorsAreFunctions) {cls : C} {sel : SEL}
    (hharmless : s₀.Harmless cls sel) {r : Option (IMP × ClassState C)}
    (hrun : s.searchOnce K cls sel = some r) :
    (∀ imp s', r = some (imp, s') → OnlyCached s₀ s') ∧
      (r = none → sel = SEL_cxx_destruct → s₀.ownDtor cls = none) := by
  rw [ClassState.searchOnce] at hrun
  split at hrun
  next =>
    cases hrun
    refine ⟨fun imp s' heq => ?_, fun hr => absurd hr (by simp)⟩
    obtain ⟨_, rfl⟩ := mk.inj (some.inj heq)
    exact h
  rw [h.methods, h.superclass] at hrun
  -- what is found is cached
  have hfound : ∀ imp, (sel = SEL_cxx_destruct →
      imp = (s₀.ownDtor cls).getD _objc_msgForward_impcache) →
      (s.cacheFound K cls sel imp).map some = some r →
      (∀ imp s', r = some (imp, s') → OnlyCached s₀ s') ∧
        (r = none → sel = SEL_cxx_destruct → s₀.ownDtor cls = none) := by
    intro imp himp hmap
    obtain ⟨found, hfill, rfl⟩ := map_eq_some_iff.mp hmap
    refine ⟨fun imp s' heq => ?_, fun hr => absurd hr (by simp)⟩
    rw [some.inj heq] at hfill
    exact h.cacheFound himp hfill
  cases hown : methodImp (s₀.methods cls) sel with
  | some own =>
    rw [hown] at hrun
    refine hfound own (fun hsel => ?_) hrun
    subst hsel
    rw [ownDtor, hown, getD_some]
  | none => ?_
  rw [hown] at hrun
  have hnone : sel = SEL_cxx_destruct → s₀.ownDtor cls = none := by
    rintro rfl
    exact hown
  cases hsearch : s.searchSuperclasses sel K.unreasonableClassCount (s₀.superclass cls) with
  | none =>
    simp only [hsearch] at hrun
    cases hrun
  | some found => ?_
  simp only [hsearch] at hrun
  cases found with
  | none =>
    cases hrun
    exact ⟨fun imp s' heq => absurd heq (by simp), fun _ => hnone⟩
  | some imp => ?_
  refine hfound imp (fun hsel => ?_) hrun
  -- an inherited destructor is not found in a harmless lookup
  subst hsel
  have hres := (hharmless.2 rfl).resolve_left fun hne => hne hown
  have hfound := h.searchSuperclasses_none hfun _ _ _
    (fun p hp => hres.superclass hown hp) hsearch
  cases hfound

end OnlyCached

variable [DecidableEq C] [Fintype C] {K : ClassImage C} {s₀ : ClassState C}

mutual

theorem OnlyCached.lookUp (hfun : s₀.DtorsAreFunctions) : ∀ (call : LookUpCall C) (s : ClassState C)
    (imp : IMP) (s' : ClassState C), OnlyCached s₀ s → call.All s₀.Harmless →
      lookUpImpOrForward K call s = some (imp, s') → OnlyCached s₀ s'
  | .mk cls sel cache resolver during, s, imp, s', h, hall, hrun => by
    rw [LookUpCall.All] at hall
    obtain ⟨hharmless, hduring⟩ := hall
    have hrealize : s.realizeClass K (card C + 1) cls = some s := by
      rw [realizeClass, h.realized, if_pos hharmless.1]
    rw [lookUpImpOrForward] at hrun
    split at hrun
    next =>
      obtain ⟨_, rfl⟩ := mk.inj (some.inj hrun)
      exact h
    simp only [hrealize] at hrun
    cases hsearch : s.searchOnce K cls sel with
    | none =>
      simp only [hsearch] at hrun
      cases hrun
    | some r => ?_
    obtain ⟨hsome, hnone⟩ := h.searchOnce hfun hharmless hsearch
    simp only [hsearch] at hrun
    cases r with
    | some found => exact hsome imp s' (by rw [← some.inj hrun])
    | none => ?_
    cases resolver with
    | false => exact h.cacheFound (fun hsel => by rw [hnone rfl hsel, getD_none]) hrun
    | true => ?_
    simp only [if_true] at hrun
    cases hresolve : class_resolveMethod K during s with
    | none =>
      simp only [hresolve] at hrun
      cases hrun
    | some s2 => ?_
    have h2 := resolveMethod hfun during s s2 h hduring hresolve
    simp only [hresolve] at hrun
    cases hsearch2 : s2.searchOnce K cls sel with
    | none =>
      simp only [hsearch2] at hrun
      cases hrun
    | some r => ?_
    obtain ⟨hsome, hnone⟩ := h2.searchOnce hfun hharmless hsearch2
    simp only [hsearch2] at hrun
    cases r with
    | some found => exact hsome imp s' (by rw [← some.inj hrun])
    | none => exact h2.cacheFound (fun hsel => by rw [hnone rfl hsel, getD_none]) hrun

theorem OnlyCached.resolveMethod (hfun : s₀.DtorsAreFunctions) : ∀ (calls : List (LookUpCall C))
    (s s' : ClassState C), OnlyCached s₀ s → LookUpCall.AllDuring s₀.Harmless calls →
      class_resolveMethod K calls s = some s' → OnlyCached s₀ s'
  | [], s, s', h, _, hrun => by
    rw [class_resolveMethod] at hrun
    exact some.inj hrun ▸ h
  | call :: calls, s, s', h, hall, hrun => by
    rw [LookUpCall.AllDuring] at hall
    rw [class_resolveMethod] at hrun
    cases hcall : lookUpImpOrForward K call s with
    | none =>
      simp only [hcall] at hrun
      cases hrun
    | some r =>
      simp only [hcall] at hrun
      exact resolveMethod hfun calls r.2 s'
        (lookUp hfun call s r.1 r.2 h hall.1 hcall) hall.2 hrun

end

/-! ## The loop over the superclasses -/

omit [Fintype C] in
theorem lookup_own {s : ClassState C} {sel : SEL}
    (hsel : sel = SEL_cxx_construct ∨ sel = SEL_cxx_destruct) (cls : C)
    (hcached : s.cache_getImp cls sel ≠ 0 → s.cache_getImp cls sel
      = (methodImp (s.methods cls) sel).getD _objc_msgForward_impcache) :
    (s.lookupMethodInClassAndLoadCache K cls sel = none → ¬ s.Room 1) ∧
      ∀ r, s.lookupMethodInClassAndLoadCache K cls sel = some r →
        r.1 = (methodImp (s.methods cls) sel).getD _objc_msgForward_impcache ∧
        (r.2 = s ∨ s.cache_fill K cls sel r.1 = some r.2) := by
  have hfound : ∀ imp, (s.cacheFound K cls sel imp = none → ¬ s.Room 1) ∧
      ∀ r, s.cacheFound K cls sel imp = some r →
        r.1 = imp ∧ (r.2 = s ∨ s.cache_fill K cls sel r.1 = some r.2) := by
    refine fun imp => ⟨fun heq => cache_fill_eq_none (map_eq_none_iff.mp heq), fun r heq => ?_⟩
    obtain ⟨s', hfill, rfl⟩ := map_eq_some_iff.mp heq
    exact ⟨rfl, .inr hfill⟩
  rw [lookupMethodInClassAndLoadCache, if_pos hsel]
  split
  next hne =>
    refine ⟨fun heq => (by cases heq), fun r heq => ?_⟩
    rw [← some.inj heq]
    exact ⟨hcached hne, .inl rfl⟩
  cases methodImp (s.methods cls) sel with
  | some imp => exact hfound imp
  | none => exact hfound _

omit [Fintype C] in
theorem OnlyCached.lookupMethodInClass {s : ClassState C} (h : OnlyCached s₀ s) (cls : C) :
    (s.lookupMethodInClassAndLoadCache K cls SEL_cxx_destruct = none → ¬ s.Room 1) ∧
      ∀ r, s.lookupMethodInClassAndLoadCache K cls SEL_cxx_destruct = some r →
        r.1 = (s₀.ownDtor cls).getD _objc_msgForward_impcache ∧ OnlyCached s₀ r.2 ∧
        ∀ n, s.Room (1 + n) → r.2.Room n := by
  obtain ⟨hnone, hsome⟩ :=
    lookup_own (K := K) (.inr rfl) cls (by rw [h.methods]; exact h.dtor cls)
  refine ⟨hnone, fun r hr => ?_⟩
  obtain ⟨himp, hs'⟩ := hsome r hr
  rw [h.methods] at himp
  refine ⟨himp, ?_⟩
  rcases hs' with heq | hfill
  · rw [heq]
    exact ⟨h, fun n hroom => hroom.mono (by omega)⟩
  · exact ⟨h.cache_fill (fun _ => himp) hfill, fun n hroom => hroom.cache_fill hfill⟩

omit [Fintype C] [DecidableEq C] in
theorem ClassState.DtorsAreFunctions.cons (hfun : s₀.DtorsAreFunctions) (cls : C) (cs : List C) :
    (if (s₀.ownDtor cls).getD _objc_msgForward_impcache ≠ _objc_msgForward_impcache
      then (s₀.ownDtor cls).getD _objc_msgForward_impcache :: cs.filterMap s₀.ownDtor
      else cs.filterMap s₀.ownDtor) = (cls :: cs).filterMap s₀.ownDtor := by
  cases hown : s₀.ownDtor cls with
  | none => rw [getD_none, if_neg (not_not.mpr rfl), filterMap_cons_none hown]
  | some imp => rw [getD_some, if_pos (hfun cls imp hown).2, filterMap_cons_some hown]

omit [Fintype C] in
theorem OnlyCached.cxxDestruct (hfun : s₀.DtorsAreFunctions) {start : Option C} {chain : List C}
    (hchain : SiblingList s₀.superclass start chain) : ∀ (fuel : Nat) (s : ClassState C),
      chain.length < fuel → OnlyCached s₀ s →
      (s.object_cxxDestructFromClass K fuel start = none → ¬ s.Room chain.length) ∧
      ∀ r, s.object_cxxDestructFromClass K fuel start = some r →
        OnlyCached s₀ r.2 ∧ ((∀ c ∈ chain, ∀ a, Under s₀.superclass c a → s₀.ownDtor a ≠ none →
          s₀.hasCxxDtor c = true) → r.1 = chain.filterMap s₀.ownDtor) := by
  induction hchain with
  | nil =>
    intro fuel s hfuel h
    rcases fuel with _ | fuel
    · omega
    refine ⟨fun heq => (by cases heq), fun r heq => ?_⟩
    cases heq
    exact ⟨h, fun _ => rfl⟩
  | @cons cls chain hchain ih => ?_
  intro fuel s hfuel h
  rw [length_cons] at hfuel ⊢
  rcases fuel with _ | fuel
  · omega
  rw [object_cxxDestructFromClass, h.hasCxxDtor]
  by_cases hflag : s₀.hasCxxDtor cls = true
  · rw [if_pos hflag]
    obtain ⟨hfail, hfound⟩ := h.lookupMethodInClass (K := K) cls
    cases hlookup : s.lookupMethodInClassAndLoadCache K cls SEL_cxx_destruct with
    | none =>
      exact ⟨fun _ hroom => hfail hlookup (hroom.mono (by omega)), fun r heq => (by cases heq)⟩
    | some found => ?_
    obtain ⟨dtor, s1⟩ := found
    obtain ⟨hdtor, h1, hroom1⟩ := hfound _ hlookup
    obtain ⟨hfail, hcalls⟩ := ih fuel s1 (by omega) h1
    simp only [h1.superclass]
    refine ⟨fun heq hroom => ?_, fun r heq => ?_⟩
    · exact hfail (map_eq_none_iff.mp heq) (hroom1 _ (hroom.mono (by omega)))
    obtain ⟨rest, hrest, rfl⟩ := map_eq_some_iff.mp heq
    obtain ⟨h2, hrest⟩ := hcalls rest hrest
    refine ⟨h2, fun hflags => ?_⟩
    rw [hrest fun c hc => hflags c (mem_cons_of_mem _ hc)]
    obtain rfl : dtor = (s₀.ownDtor cls).getD _objc_msgForward_impcache := hdtor
    exact hfun.cons cls chain
  rw [if_neg hflag]
  refine ⟨fun heq => (by cases heq), fun r heq => ?_⟩
  cases heq
  refine ⟨h, fun hflags => ?_⟩
  symm
  rw [filterMap_eq_nil_iff]
  intro x hx
  by_contra hne
  exact hflag (hflags cls mem_cons_self x (hchain.under_iff.mpr hx) hne)

/-! ## Histories of lookups -/

inductive LookUpOp (C : Type) where
  /-- class_respondsToSelector, class_getMethodImplementation or a message -/
  | lookUp (call : LookUpCall C)
  | destruct (cls : C)

def ClassState.history (K : ClassImage C) (s : ClassState C) : LookUpOp C → Option (ClassState C)
  | .lookUp call => (ClassState.lookUpImpOrForward K call s).map Prod.snd
  | .destruct cls =>
    (s.object_cxxDestructFromClass K (Fintype.card C + 1) (some cls)).map Prod.snd

/-- The lookups since `s₀`. -/
def lookUpSystem (K : ClassImage C) (s₀ : ClassState C) : System (ClassState C) (LookUpOp C) where
  init := fun s => s = s₀
  step := fun s op => s.history K op

/-- No `.cxx_destruct` is looked up on a class that inherits one without defining one. -/
def LookUpOp.Harmless (s₀ : ClassState C) : LookUpOp C → Prop
  | .lookUp call => call.All s₀.Harmless
  | .destruct _ => True

omit [DecidableEq C] in
theorem TreeInv.chain_length_le (h : TreeInv K s₀) {cls : C} {chain : List C}
    (hchain : SiblingList s₀.superclass (some cls) chain) : chain.length ≤ card C := by
  obtain ⟨rank, hrank⟩ := h.shape.ranked
  obtain ⟨depth, hdepth, hbound⟩ := hrank.exists_bounded
  have hle := hdepth.chain_length_le hchain
  have hlt := hbound cls
  omega

omit [DecidableEq C] in
theorem TreeInv.exists_chain (h : TreeInv K s₀) (cls : C) :
    ∃ chain, SiblingList s₀.superclass (some cls) chain ∧ chain.length ≤ card C := by
  obtain ⟨rank, hrank⟩ := h.shape.ranked
  obtain ⟨chain, hchain⟩ := hrank.exists_chain cls
  exact ⟨chain, hchain, h.chain_length_le hchain⟩

theorem OnlyCached.history (hfun : s₀.DtorsAreFunctions) (htree : TreeInv K s₀)
    (ops : List (LookUpOp C)) : ∀ {s s' : ClassState C}, OnlyCached s₀ s →
      (∀ op ∈ ops, op.Harmless s₀) →
      (lookUpSystem K s₀).runFrom (fun _ => True) s ops = some s' → OnlyCached s₀ s' := by
  induction ops with
  | nil =>
    intro s s' h _ hrun
    exact some.inj hrun ▸ h
  | cons op ops ih => ?_
  intro s s' h hops hrun
  simp only [System.runFrom, bind_eq_some_iff, if_true] at hrun
  obtain ⟨mid, hmid, hrest⟩ := hrun
  refine ih ?_ (fun o ho => hops o (mem_cons_of_mem _ ho)) hrest
  have hop := hops op mem_cons_self
  cases op with
  | lookUp call =>
    obtain ⟨r, hcall, rfl⟩ := map_eq_some_iff.mp hmid
    exact lookUp hfun call s r.1 r.2 h hop hcall
  | destruct cls => ?_
  obtain ⟨chain, hchain, hlen⟩ := htree.exists_chain cls
  obtain ⟨r, hcall, rfl⟩ := map_eq_some_iff.mp hmid
  exact ((cxxDestruct (K := K) hfun hchain (card C + 1) s (by omega) h).2 r hcall).1

/-- **Each destructor is called once**, from the class of the object up, after any lookups and
destructions of which none is a lookup of `.cxx_destruct` on a class that only inherits one. -/
theorem destructors_called_once (K : ClassImage C) {s : ClassState C}
    (h₀ : (classSystem K).Reachable (fun _ => True) s₀) (hfun : s₀.DtorsAreFunctions)
    (hfresh : ∀ c, s₀.cache_getImp c SEL_cxx_destruct = 0) (ops : List (LookUpOp C))
    (hrun : (lookUpSystem K s₀).runFrom (fun _ => True) s₀ ops = some s)
    (hops : ∀ op ∈ ops, op.Harmless s₀) (cls : C) (chain : List C)
    (hchain : SiblingList s₀.superclass (some cls) chain) (hflags : ∀ c ∈ chain, s₀.DtorFlag c)
    (hroom : s.Room chain.length) :
    ∃ s', s.object_cxxDestructFromClass K (Fintype.card C + 1) (some cls)
      = some (chain.filterMap s₀.ownDtor, s') := by
  have htree := (ClassInv.reachable h₀).tree
  have hstart : OnlyCached s₀ s₀ := ⟨rfl, rfl, rfl, rfl, fun c hne => absurd (hfresh c) hne⟩
  have hs := hstart.history hfun htree ops hops hrun
  have hlen := htree.chain_length_le hchain
  obtain ⟨hfail, hcalls⟩ := OnlyCached.cxxDestruct (K := K) hfun hchain (card C + 1) s (by omega) hs
  obtain ⟨⟨calls, s'⟩, hcall⟩ := ne_none_iff_exists'.mp fun hnone => hfail hnone hroom
  have heq := (hcalls _ hcall).2 fun c hc a ha hown => (hflags c hc).mpr ⟨a, ha, hown⟩
  exact ⟨s', by rw [hcall, ← heq]⟩

/-! ## A class that inherits its destructor -/

def rootWithDtor : ClassImage (Fin 4) :=
  { rootAndSubclass with
    baseMethods := ![some [⟨SEL_cxx_destruct, 100⟩], none, none, none]
    hasCxxStructors := ![true, false, false, false] }

structure DtorsReady (s : ClassState (Fin 4)) : Prop where
  functions : s.DtorsAreFunctions
  fresh : ∀ c, s.cache_getImp c SEL_cxx_destruct = 0
  chain : s.superclass 1 = some 0 ∧ s.superclass 0 = none
  flags : s.hasCxxDtor 0 = true ∧ s.hasCxxDtor 1 = true
  own : s.ownDtor 0 = some 100 ∧ s.ownDtor 1 = none
  initialized : s.isInitialized rootWithDtor 0 = true ∧ s.isInitialized rootWithDtor 1 = true

theorem DtorsReady.siblings {s : ClassState (Fin 4)} (h : DtorsReady s) :
    SiblingList s.superclass (some 1) [1, 0] := by
  refine .cons ?_
  rw [h.chain.1]
  refine .cons ?_
  rw [h.chain.2]
  exact .nil

theorem DtorsReady.dtorFlag {s : ClassState (Fin 4)} (h : DtorsReady s) :
    ∀ c ∈ ([1, 0] : List (Fin 4)), s.DtorFlag c := by
  have hroot : s.ownDtor 0 ≠ none := by
    rw [h.own.1]
    exact some_ne_none _
  intro c hc
  rcases mem_cons.mp hc with rfl | hc
  · exact ⟨fun _ => ⟨0, head h.chain.1 (refl _ _), hroot⟩, fun _ => h.flags.2⟩
  · rw [mem_singleton.mp hc]
    exact ⟨fun _ => ⟨0, refl _ _, hroot⟩, fun _ => h.flags.1⟩

theorem exists_dtorsReady :
    ∃ s, (classSystem rootWithDtor).runFrom (fun _ => True) rootWithDtor.load readyRun = some s ∧
      DtorsReady s := by
  have h : ((classSystem rootWithDtor).runFrom (fun _ => True) rootWithDtor.load readyRun).map
      (fun s => decide ((∀ c, ∀ imp ∈ s.ownDtor c, imp ≠ 0 ∧ imp ≠ _objc_msgForward_impcache) ∧
        (∀ c, s.cache_getImp c SEL_cxx_destruct = 0) ∧
        (s.superclass 1 = some 0 ∧ s.superclass 0 = none) ∧
        (s.hasCxxDtor 0 = true ∧ s.hasCxxDtor 1 = true) ∧
        (s.ownDtor 0 = some 100 ∧ s.ownDtor 1 = none) ∧
        s.isInitialized rootWithDtor 0 = true ∧ s.isInitialized rootWithDtor 1 = true))
      = some true := by decide +kernel
  obtain ⟨s, hs, heq⟩ := map_eq_some_iff.mp h
  obtain ⟨hfun, hfresh, hchain, hflags, hown, hinit⟩ := of_decide_eq_true heq
  exact ⟨s, hs, hfun, hfresh, hchain, hflags, hown, hinit⟩

theorem destructed_before :
    ∃ s₀ s, (classSystem rootWithDtor).Reachable (fun _ => True) s₀ ∧ DtorsReady s₀ ∧
      (lookUpSystem rootWithDtor s₀).runFrom (fun _ => True) s₀ [.destruct 1] = some s ∧
      ∃ s', s.object_cxxDestructFromClass rootWithDtor (Fintype.card (Fin 4) + 1) (some 1)
        = some ([1, 0].filterMap s₀.ownDtor, s') := by
  obtain ⟨s₀, hs0, hready⟩ := exists_dtorsReady
  have hreach : (classSystem rootWithDtor).Reachable (fun _ => True) s₀ :=
    .of_run readyRun (.init rfl trivial) hs0
  have hrun : (((classSystem rootWithDtor).runFrom (fun _ => True) rootWithDtor.load readyRun).bind
      fun s₀ => (lookUpSystem rootWithDtor s₀).runFrom (fun _ => True) s₀ [.destruct 1]).map
      (fun s => decide (∀ c, (s.cache c).capacity < 2 ^ 31)) = some true := by decide +kernel
  rw [hs0, bind_some] at hrun
  obtain ⟨s, hs, hcap⟩ := map_eq_some_iff.mp hrun
  refine ⟨s₀, s, hreach, hready, hs, destructors_called_once rootWithDtor hreach hready.functions
    hready.fresh [.destruct 1] hs (fun op hop => ?_) 1 [1, 0] hready.siblings hready.dtorFlag
    fun c => .inr ⟨of_decide_eq_true hcap c, by decide⟩⟩
  rw [mem_singleton.mp hop]
  trivial

/-- **An inherited destructor called twice**: `class_respondsToSelector` of the subclass and
`.cxx_destruct` has cached the root's destructor in the subclass. -/
theorem inherited_destructor_called_twice :
    ∃ s₀ s s', (classSystem rootWithDtor).Reachable (fun _ => True) s₀ ∧ DtorsReady s₀ ∧
      SiblingList s₀.superclass (some 1) [1, 0] ∧ (∀ c ∈ [1, 0], s₀.DtorFlag c) ∧
      (lookUpSystem rootWithDtor s₀).runFrom (fun _ => True) s₀
        [.lookUp (.mk 1 SEL_cxx_destruct true true [])] = some s ∧
      s.object_cxxDestructFromClass rootWithDtor (Fintype.card (Fin 4) + 1) (some 1)
        = some ([100, 100], s') ∧
      [1, 0].filterMap s₀.ownDtor = [100] := by
  obtain ⟨s₀, hs0, hready⟩ := exists_dtorsReady
  have hrun : (((classSystem rootWithDtor).runFrom (fun _ => True) rootWithDtor.load readyRun).bind
      fun s₀ => ((lookUpSystem rootWithDtor s₀).runFrom (fun _ => True) s₀
        [.lookUp (.mk 1 SEL_cxx_destruct true true [])]).bind fun s =>
          (s.object_cxxDestructFromClass rootWithDtor (card (Fin 4) + 1) (some 1)).map
            fst) = some [100, 100] := by decide +kernel
  rw [hs0, bind_some] at hrun
  obtain ⟨s, hs, hmap⟩ := bind_eq_some_iff.mp hrun
  obtain ⟨⟨calls, s'⟩, hcalls, rfl⟩ := map_eq_some_iff.mp hmap
  refine ⟨s₀, s, s', .of_run readyRun (.init rfl trivial) hs0, hready, hready.siblings,
    hready.dtorFlag, hs, hcalls, ?_⟩
  rw [filterMap_cons_none hready.own.2, filterMap_cons_some hready.own.1]
  rfl

end ObjcRuntime
