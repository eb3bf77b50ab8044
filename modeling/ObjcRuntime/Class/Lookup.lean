/-
LOOKUPS RETURN WHAT THE METHOD LISTS SAY.

Calls that realize classes, change methods, attach categories, move classes
and look methods up, one after the other under `runtimeLock`.
-/
import Mathlib.Data.Fin.VecNotation
import Mathlib.Data.Fintype.Option
import Mathlib.Data.Fintype.Prod
import ObjcRuntime.Class.Caches
import ObjcRuntime.Lib.Transition

namespace ObjcRuntime

open Lib Option ClassState Prod

variable {C : Type}

/-! ## One search -/

theorem Extended.resolves {K : ClassImage C} {s s' : ClassState C} (h : Extended s s')
    (htree : TreeInv K s) {sel : SEL} {cls : C} {imp : IMP} (hcls : s.realized cls = true)
    (hres : Resolves s'.methods s'.superclass sel cls imp) :
    Resolves s.methods s.superclass sel cls imp := by
  rw [h.superclass] at hres
  exact hres.congr fun x hx => ⟨(h.methods x (htree.realized_of_under hx hcls)).symm, rfl⟩

variable [DecidableEq C] {K : ClassImage C} {s : ClassState C}

theorem Extended.cache_fill {s' : ClassState C} {cls : C} {sel : SEL} {imp : IMP}
    (hfill : s.cache_fill K cls sel imp = some s') : Extended s s' := by
  obtain ⟨cache, rfl⟩ := cache_fill_eq hfill
  exact ⟨rfl, rfl, fun _ => id, fun _ _ => rfl⟩

theorem ClassInv.cache_fill (h : ClassInv K s) {s' : ClassState C} {cls : C} {sel : SEL}
    {imp : IMP} (hcls : s.realized cls = true)
    (himp : ¬ isCxxStructor sel → Resolves s.methods s.superclass sel cls imp)
    (hfill : s.cache_fill K cls sel imp = some s') : ClassInv K s' := by
  refine ⟨?_, h.caches.fill hcls himp hfill⟩
  obtain ⟨cache, rfl⟩ := cache_fill_eq hfill
  exact h.tree.congr rfl rfl

/-- Calls that store at most `n` entries keep the invariant. -/
structure LookedUp (K : ClassImage C) (s : ClassState C) (n : Nat) (s' : ClassState C) : Prop where
  inv : ClassInv K s'
  extended : Extended s s'
  room : ∀ m, s.Room (n + m) → s'.Room m

structure Found (K : ClassImage C) (s : ClassState C) (cls : C) (sel : SEL) (n : Nat)
    (r : IMP × ClassState C) : Prop extends LookedUp K s n r.2 where
  resolves : s.realized cls = true → ¬ isCxxStructor sel →
    Resolves s.methods s.superclass sel cls r.1

omit [DecidableEq C] in
theorem LookedUp.trans {s1 s2 : ClassState C} {m n : Nat} (h : LookedUp K s m s1) (h' : LookedUp K s1 n s2) :
    LookedUp K s (m + n) s2 :=
  ⟨h'.inv, h.extended.trans h'.extended, fun k hroom =>
    h'.room k (h.room (n + k) (by rwa [← Nat.add_assoc]))⟩

omit [DecidableEq C] in
theorem LookedUp.not_room {s1 : ClassState C} {m n k : Nat} (h : LookedUp K s m s1) (hn : ¬ s1.Room n)
    (hle : m + n ≤ k) : ¬ s.Room k :=
  fun hroom => hn (h.room n (hroom.mono hle))

omit [DecidableEq C] in
theorem LookedUp.found {s1 : ClassState C} {cls : C} {sel : SEL} {m n k : Nat} {r : IMP × ClassState C}
    (htree : TreeInv K s) (h : LookedUp K s m s1) (hfound : Found K s1 cls sel n r)
    (hle : m + n ≤ k) : Found K s cls sel k r where
  inv := hfound.inv
  extended := h.extended.trans hfound.extended
  room := fun j hroom => hfound.room j (h.room (n + j) (hroom.mono (by omega)))
  resolves := fun hcls hsel =>
    h.extended.resolves htree hcls (hfound.resolves (h.extended.realized cls hcls) hsel)

theorem cacheFound_spec (h : ClassInv K s) {cls : C} {sel : SEL} {imp : IMP}
    (hcls : s.realized cls = true)
    (himp : ¬ isCxxStructor sel → Resolves s.methods s.superclass sel cls imp) :
    (s.cacheFound K cls sel imp = none → ¬ s.Room 1) ∧
      ∀ r, s.cacheFound K cls sel imp = some r → Found K s cls sel 1 r := by
  refine ⟨fun hnone => cache_fill_eq_none (map_eq_none_iff.mp hnone), fun r hr => ?_⟩
  obtain ⟨s', hfill, rfl⟩ := map_eq_some_iff.mp hr
  exact ⟨⟨h.cache_fill hcls himp hfill, .cache_fill hfill, fun m hroom => hroom.cache_fill hfill⟩,
    fun _ => himp⟩

omit [DecidableEq C] in
theorem searchSuperclasses_spec {depth : C → Nat} (hdepth : Ranked s.superclass depth)
    (hcaches : CacheInv s) (sel : SEL) : ∀ (attempts : Nat) (start : Option C), 0 < attempts →
      (∀ p, start = some p → depth p + 1 < attempts) →
      ∃ r, s.searchSuperclasses sel attempts start = some r ∧ (start = none → r = none) ∧
        (¬ isCxxStructor sel → ∀ p, start = some p →
          Resolves s.methods s.superclass sel p (r.getD _objc_msgForward_impcache)) := by
  intro attempts
  -- the depth below the root pays for the attempts, so the halt on a cycle is never reached
  induction attempts with
  | zero => intro start hpos; exact absurd hpos (lt_irrefl 0)
  | succ attempts ih => ?_
  intro start _ hattempts
  cases start with
  | none => exact ⟨none, rfl, fun _ => rfl, fun _ p hp => absurd hp (by simp)⟩
  | some cls => ?_
  have hlt := hattempts cls rfl
  rw [searchSuperclasses, if_neg (by omega)]
  by_cases hcached : s.cache_getImp cls sel ≠ 0
  · rw [if_pos hcached]
    by_cases hforward : s.cache_getImp cls sel ≠ _objc_msgForward_impcache
    · rw [if_pos hforward]
      refine ⟨_, rfl, fun hs => absurd hs (by simp), fun hsel p hp => ?_⟩
      rw [← some.inj hp]
      exact hcaches.sound cls sel hsel hcached
    -- a cached forward entry stops the search; the caller then forwards too
    rw [if_neg hforward]
    refine ⟨_, rfl, fun hs => absurd hs (by simp), fun hsel p hp => ?_⟩
    rw [← some.inj hp, getD_none, ← not_not.mp hforward]
    exact hcaches.sound cls sel hsel hcached
  rw [if_neg hcached]
  cases hown : methodImp (s.methods cls) sel with
  | some imp =>
    refine ⟨_, rfl, fun hs => absurd hs (by simp), fun _ p hp => ?_⟩
    rw [← some.inj hp]
    exact .own hown
  | none => ?_
  obtain ⟨r, hrun, hnone, hres⟩ := ih (s.superclass cls) (by omega) fun p hp => by
    have := hdepth cls p hp
    omega
  refine ⟨r, hrun, fun hs => absurd hs (by simp), fun hsel p hp => ?_⟩
  rw [← some.inj hp]
  exact .of_superclass hown (hres hsel) fun hsuper => by rw [hnone hsuper]; rfl

variable [Fintype C]

theorem searchOnce_spec (h : ClassInv K s) {cls : C} (hcls : s.realized cls = true) (sel : SEL) :
    (s.searchOnce K cls sel = none → ¬ s.Room 1) ∧
      (s.searchOnce K cls sel = some none → ¬ isCxxStructor sel →
        Resolves s.methods s.superclass sel cls _objc_msgForward_impcache) ∧
      ∀ r, s.searchOnce K cls sel = some (some r) → Found K s cls sel 1 r := by
  have hfound : ∀ imp, (¬ isCxxStructor sel → Resolves s.methods s.superclass sel cls imp) →
      ((s.cacheFound K cls sel imp).map some = none → ¬ s.Room 1) ∧
      ((s.cacheFound K cls sel imp).map some = some none → ¬ isCxxStructor sel →
        Resolves s.methods s.superclass sel cls _objc_msgForward_impcache) ∧
      ∀ r, (s.cacheFound K cls sel imp).map some = some (some r) → Found K s cls sel 1 r := by
    intro imp hres
    obtain ⟨hnone, hsome⟩ := cacheFound_spec h hcls hres
    refine ⟨fun heq => hnone (map_eq_none_iff.mp heq), fun heq => ?_, fun r heq => ?_⟩
    · obtain ⟨_, _, hne⟩ := map_eq_some_iff.mp heq
      cases hne
    · obtain ⟨r', hr, heq⟩ := map_eq_some_iff.mp heq
      exact hsome r (some.inj heq ▸ hr)
  rw [searchOnce]
  by_cases hcached : s.cache_getImp cls sel ≠ 0
  · rw [if_pos hcached]
    refine ⟨fun heq => (by cases heq), fun heq => (by cases heq), fun r heq => ?_⟩
    cases heq
    exact ⟨⟨h, .refl s, fun m hroom => hroom.mono (by omega)⟩,
      fun _ hsel => h.caches.sound cls sel hsel hcached⟩
  rw [if_neg hcached]
  cases hown : methodImp (s.methods cls) sel with
  | some imp => exact hfound imp fun _ => .own hown
  | none => ?_
  obtain ⟨rank, hrank⟩ := h.tree.shape.ranked
  obtain ⟨depth, hdepth, hbound⟩ := hrank.exists_bounded
  have hcard := K.card_lt_unreasonableClassCount
  obtain ⟨r, hrun, hnone, hres⟩ := searchSuperclasses_spec hdepth h.caches sel
    K.unreasonableClassCount (s.superclass cls) (by omega) fun p _ => by
      have := hbound p
      omega
  have hcls_res : ¬ isCxxStructor sel →
      Resolves s.methods s.superclass sel cls (r.getD _objc_msgForward_impcache) := by
    intro hsel
    exact .of_superclass hown (hres hsel) fun hsuper => by rw [hnone hsuper]; rfl
  simp only [hrun]
  cases r with
  | none => exact ⟨fun heq => (by cases heq), fun _ => hcls_res, fun r heq => by cases heq⟩
  | some imp => exact hfound imp hcls_res

/-! ## Lookups -/

def LookUpCall.cls : LookUpCall C → C
  | .mk cls _ _ _ _ => cls

def LookUpCall.sel : LookUpCall C → SEL
  | .mk _ sel _ _ _ => sel

mutual

def LookUpCall.fills : LookUpCall C → Nat
  | .mk _ _ _ _ during => 1 + LookUpCall.fillsDuring during

def LookUpCall.fillsDuring : List (LookUpCall C) → Nat
  | [] => 0
  | call :: calls => LookUpCall.fills call + LookUpCall.fillsDuring calls

end

mutual

/-- **A lookup** returns what its class resolves to, and keeps the invariant; it fails only if a
cache would have to grow beyond 32 bits. The induction is over the call with all the calls that
are made during it. -/
theorem lookUpImpOrForward_spec : ∀ (call : LookUpCall C) (s : ClassState C), ClassInv K s →
    (lookUpImpOrForward K call s = none → ¬ s.Room call.fills) ∧
      ∀ r, lookUpImpOrForward K call s = some r → Found K s call.cls call.sel call.fills r
  | .mk cls sel cache resolver during, s, h => by
    rw [lookUpImpOrForward, LookUpCall.fills]
    by_cases hcached : cache = true ∧ s.cache_getImp cls sel ≠ 0
    · rw [if_pos hcached]
      refine ⟨fun heq => (by cases heq), fun r heq => ?_⟩
      cases heq
      exact ⟨⟨h, .refl s, fun m hroom => hroom.mono (by omega)⟩,
        fun _ hsel => h.caches.sound cls sel hsel hcached.2⟩
    rw [if_neg hcached]
    obtain ⟨s1, hrealize, hgrown, htree, hcls⟩ := h.tree.realizeClass cls
    have h1 : LookedUp K s 0 s1 := ⟨h.grown hgrown htree, hgrown.toExtended, fun m hroom =>
      (hroom.mono (by omega)).flushed hgrown.cache⟩
    obtain ⟨hfail, hnone, hsome⟩ := searchOnce_spec h1.inv hcls sel
    simp only [hrealize]
    cases hsearch : s1.searchOnce K cls sel with
    | none => exact ⟨fun _ => h1.not_room (hfail hsearch) (by omega), fun r heq => by cases heq⟩
    | some found => ?_
    cases found with
    | some found =>
      refine ⟨fun heq => (by cases heq), fun r heq => ?_⟩
      exact some.inj heq ▸ h1.found h.tree (hsome found hsearch) (by omega)
    | none => ?_
    cases resolver with
    | false =>
      obtain ⟨hfail, hsome⟩ := cacheFound_spec h1.inv hcls (hnone hsearch)
      exact ⟨fun heq => h1.not_room (hfail heq) (by omega),
        fun r heq => h1.found h.tree (hsome r heq) (by omega)⟩
    | true => ?_
    obtain ⟨hfail, hlater⟩ := class_resolveMethod_spec during s1 h1.inv
    simp only [if_true]
    cases hresolve : class_resolveMethod K during s1 with
    | none => exact ⟨fun _ => h1.not_room (hfail hresolve) (by omega), fun r heq => by cases heq⟩
    | some s2 => ?_
    have hlater := hlater s2 hresolve
    have h2 := h1.trans hlater
    have hcls2 := hlater.extended.realized cls hcls
    obtain ⟨hfail, hnone, hsome⟩ := searchOnce_spec h2.inv hcls2 sel
    simp only
    cases hsearch : s2.searchOnce K cls sel with
    | none => exact ⟨fun _ => h2.not_room (hfail hsearch) (by omega), fun r heq => by cases heq⟩
    | some found => ?_
    cases found with
    | some found =>
      refine ⟨fun heq => (by cases heq), fun r heq => ?_⟩
      exact some.inj heq ▸ h2.found h.tree (hsome found hsearch) (by omega)
    | none =>
      obtain ⟨hfail, hsome⟩ := cacheFound_spec h2.inv hcls2 (hnone hsearch)
      exact ⟨fun heq => h2.not_room (hfail heq) (by omega),
        fun r heq => h2.found h.tree (hsome r heq) (by omega)⟩

theorem class_resolveMethod_spec : ∀ (calls : List (LookUpCall C)) (s : ClassState C),
    ClassInv K s → (class_resolveMethod K calls s = none → ¬ s.Room (LookUpCall.fillsDuring calls)) ∧
      ∀ s', class_resolveMethod K calls s = some s' → LookedUp K s (LookUpCall.fillsDuring calls) s'
  | [], s, h => by
    rw [class_resolveMethod]
    refine ⟨fun heq => (by cases heq), fun s' heq => ?_⟩
    rw [← some.inj heq]
    exact ⟨h, .refl s, fun m hroom => hroom.mono (by omega)⟩
  | call :: calls, s, h => by
    obtain ⟨hfail, hfound⟩ := lookUpImpOrForward_spec call s h
    rw [class_resolveMethod, LookUpCall.fillsDuring]
    cases hcall : lookUpImpOrForward K call s with
    | none =>
      exact ⟨fun _ hroom => hfail hcall (hroom.mono (by omega)), fun s' heq => by cases heq⟩
    | some r => ?_
    have h1 := (hfound r hcall).toLookedUp
    obtain ⟨hfail, hlater⟩ := class_resolveMethod_spec calls r.2 h1.inv
    exact ⟨fun heq => h1.not_room (hfail heq) le_rfl, fun s' heq => h1.trans (hlater s' heq)⟩

end

theorem lookUp_realized_eq {cls : C} {sel : SEL} {r : IMP × ClassState C}
    (hcls : s.realized cls = true)
    (hrun : lookUpImpOrForward K (.mk cls sel true false []) s = some r) :
    ∃ cache, r.2 = { s with cache := cache } := by
  have hfound : ∀ imp, s.cacheFound K cls sel imp = some r →
      ∃ cache, r.2 = { s with cache := cache } := by
    intro imp heq
    obtain ⟨s', hfill, rfl⟩ := map_eq_some_iff.mp heq
    exact cache_fill_eq hfill
  have hcached : some (s.cache_getImp cls sel, s) = some r →
      ∃ cache, r.2 = { s with cache := cache } := fun heq => some.inj heq ▸ ⟨s.cache, rfl⟩
  have hrealize : s.realizeClass K (Fintype.card C + 1) cls = some s := by
    rw [ClassState.realizeClass, if_pos hcls]
  rw [lookUpImpOrForward] at hrun
  split at hrun
  next => exact hcached hrun
  simp only [hrealize] at hrun
  cases hsearch : s.searchOnce K cls sel with
  | none =>
    simp only [hsearch] at hrun
    cases hrun
  | some found => ?_
  simp only [hsearch] at hrun
  cases found with
  | none => exact hfound _ hrun
  | some found => ?_
  rw [some.inj hrun] at hsearch
  unfold searchOnce at hsearch
  split at hsearch
  next => exact hcached (some.inj hsearch)
  split at hsearch
  next imp _ =>
    obtain ⟨found, hfill, heq⟩ := map_eq_some_iff.mp hsearch
    exact hfound imp (some.inj heq ▸ hfill)
  split at hsearch
  next => cases hsearch
  next => cases hsearch
  next imp _ =>
    obtain ⟨found, hfill, heq⟩ := map_eq_some_iff.mp hsearch
    exact hfound imp (some.inj heq ▸ hfill)

omit [Fintype C] in
theorem ClassInv.lookupMethodInClassAndLoadCache (h : ClassInv K s) {cls : C} {sel : SEL}
    {r : IMP × ClassState C} (hcls : s.realized cls = true)
    (hlookup : s.lookupMethodInClassAndLoadCache K cls sel = some r) : ClassInv K r.2 := by
  obtain ⟨hsel, hlookup⟩ := ite_none_right_eq_some.mp hlookup
  have hfill : ∀ imp, s.cacheFound K cls sel imp = some r → ClassInv K r.2 := fun imp heq =>
    ((cacheFound_spec h hcls fun hnot => absurd hsel hnot).2 r heq).inv
  split at hlookup
  next => injection hlookup with hlookup; exact hlookup ▸ h
  cases hown : methodImp (s.methods cls) sel with
  | some imp => exact hfill imp (by rwa [hown] at hlookup)
  | none => exact hfill _ (by rwa [hown] at hlookup)

/-! ## Runs -/

inductive ClassOp (C : Type) where
  | realizeClass (cls : C)
  | setInitialized (cls : C)
  | class_addMethod (cls : C) (name : SEL) (imp : IMP)
  | class_replaceMethod (cls : C) (name : SEL) (imp : IMP)
  | method_setImplementation (owner : C) (place : MethodPlace) (imp : IMP)
  | method_exchangeImplementations (owner₁ : C) (place₁ : MethodPlace) (owner₂ : C)
      (place₂ : MethodPlace)
  | discoverCategory (cat : Category) (cls : C)
  | class_setSuperclass (cls newSuper : C)
  | lookUpImpOrForward (call : LookUpCall C)
  | lookupMethodInClassAndLoadCache (cls : C) (sel : SEL)

def ClassState.setInitialized (K : ClassImage C) (s : ClassState C) (cls : C) : ClassState C :=
  { s with initialized := Function.update s.initialized (K.getMeta cls) true }

def ClassState.movable (K : ClassImage C) (s : ClassState C) (cls newSuper : C) : Bool :=
  s.realized cls && s.realized newSuper && !K.isMeta cls && !K.isMeta newSuper
    && (s.superclass cls).isSome && !reaches s.superclass cls (Fintype.card C) newSuper

def ClassState.perform (K : ClassImage C) (s : ClassState C) : ClassOp C → Option (ClassState C)
  | .realizeClass cls => s.realizeClass K (Fintype.card C + 1) cls
  | .setInitialized cls => some (s.setInitialized K cls)
  | .class_addMethod cls name imp => (s.addMethod K cls name imp false).map Prod.snd
  | .class_replaceMethod cls name imp => (s.addMethod K cls name imp true).map Prod.snd
  | .method_setImplementation owner place imp =>
    (s.method_setImplementation K owner place imp).map Prod.snd
  | .method_exchangeImplementations owner₁ place₁ owner₂ place₂ =>
    s.method_exchangeImplementations K owner₁ place₁ owner₂ place₂
  | .discoverCategory cat cls => s.discoverCategory K cat cls
  | .class_setSuperclass cls newSuper =>
    if s.movable K cls newSuper then (s.setSuperclass K cls newSuper).map Prod.snd else none
  | .lookUpImpOrForward call => (ClassState.lookUpImpOrForward K call s).map Prod.snd
  | .lookupMethodInClassAndLoadCache cls sel =>
    if s.realized cls then (s.lookupMethodInClassAndLoadCache K cls sel).map Prod.snd else none

def ClassImage.load (K : ClassImage C) : ClassState C where
  links := ⟨K.superclass, fun _ => none, fun _ => none⟩
  realized := fun _ => false
  initialized := fun _ => false
  methods := fun _ => []
  unattachedCategories := fun _ => []
  cache := fun _ => ⟨0, []⟩
  hasCxxCtor := fun _ => false
  hasCxxDtor := fun _ => false

def classSystem (K : ClassImage C) : System (ClassState C) (ClassOp C) where
  init := fun s => s = K.load
  step := fun s op => s.perform K op

theorem ClassState.movable_iff (htree : TreeInv K s) {cls newSuper : C}
    (h : s.movable K cls newSuper = true) : Movable K s cls newSuper := by
  simp only [movable, Bool.and_eq_true, Bool.not_eq_true'] at h
  obtain ⟨⟨⟨⟨⟨hcls, hnew⟩, hclass⟩, hnewclass⟩, hsome⟩, hreach⟩ := h
  obtain ⟨rank, hrank⟩ := htree.shape.ranked
  obtain ⟨depth, hdepth, hbound⟩ := hrank.exists_bounded
  refine ⟨hcls, hnew, hclass, hnewclass, ?_, fun hu => ?_⟩
  · intro hnone
    rw [hnone] at hsome
    cases hsome
  · rw [hdepth.reaches_of_under (le_of_lt (hbound newSuper)) hu] at hreach
    cases hreach

omit [DecidableEq C] [Fintype C] in
theorem ClassInv.load (K : ClassImage C) : ClassInv K K.load := by
  refine ⟨⟨K.treeShape, ⟨fun _ => [], fun _ => .nil, fun _ => List.nodup_nil, fun p c => ?_⟩,
    fun _ hf => hf.elim, fun c p hc => ?_, fun c hc => ?_⟩, fun c hne => absurd rfl hne,
    fun c hne => absurd rfl hne, fun c sel _ hne => absurd rfl hne⟩
  · simp [ClassImage.load]
  · cases hc
  · cases hc

theorem ClassInv.perform (h : ClassInv K s) {op : ClassOp C} {s' : ClassState C}
    (hop : s.perform K op = some s') : ClassInv K s' := by
  -- a call with a result, and the invariant of what it leaves
  have hsnd : ∀ {α : Type} {call : Option (α × ClassState C)},
      (∃ r, call = some r ∧ ClassInv K r.2) → call.map snd = some s' → ClassInv K s' := by
    rintro α call ⟨r, rfl, hr⟩ heq
    exact some.inj heq ▸ hr
  cases op with
  | realizeClass cls =>
    obtain ⟨s1, hrealize, hgrown, htree, _⟩ := h.tree.realizeClass cls
    exact some.inj (hrealize.symm.trans hop) ▸ h.grown hgrown htree
  | setInitialized cls =>
    rw [← some.inj hop]
    exact ⟨h.tree.congr rfl rfl, h.caches.roomy, h.caches.realized, h.caches.sound⟩
  | class_addMethod cls name imp =>
    by_cases hcls : s.realized cls = true
    · exact hsnd (h.addMethod hcls name imp false) hop
    · rw [ClassState.perform, ClassState.addMethod, if_neg hcls] at hop
      cases hop
  | class_replaceMethod cls name imp =>
    by_cases hcls : s.realized cls = true
    · exact hsnd (h.addMethod hcls name imp true) hop
    · rw [ClassState.perform, ClassState.addMethod, if_neg hcls] at hop
      cases hop
  | method_setImplementation owner place imp =>
    exact hsnd (h.method_setImplementation owner place imp) hop
  | method_exchangeImplementations owner₁ place₁ owner₂ place₂ =>
    obtain ⟨s1, hcall, hinv⟩ := h.method_exchangeImplementations owner₁ place₁ owner₂ place₂
    exact some.inj (hcall.symm.trans hop) ▸ hinv
  | discoverCategory cat cls =>
    obtain ⟨s1, hcall, hinv⟩ := h.discoverCategory cat cls
    exact some.inj (hcall.symm.trans hop) ▸ hinv
  | class_setSuperclass cls newSuper =>
    rw [ClassState.perform] at hop
    split at hop
    next hm => exact hsnd (h.setSuperclass (movable_iff h.tree hm)) hop
    next => cases hop
  | lookUpImpOrForward call =>
    obtain ⟨r, hcall, rfl⟩ := map_eq_some_iff.mp hop
    exact ((lookUpImpOrForward_spec call s h).2 r hcall).inv
  | lookupMethodInClassAndLoadCache cls sel =>
    obtain ⟨hcls, hop⟩ := ite_none_right_eq_some.mp hop
    obtain ⟨r, hcall, rfl⟩ := map_eq_some_iff.mp hop
    exact h.lookupMethodInClassAndLoadCache hcls hcall

theorem ClassInv.reachable (h : (classSystem K).Reachable (fun _ => True) s) : ClassInv K s := by
  induction h with
  | init hs _ => exact hs ▸ ClassInv.load K
  | step _ hstep _ ih => exact ih.perform hstep

def rootAndSubclass : ClassImage (Fin 4) where
  isa := ![2, 3, 2, 2]
  isMeta := ![false, false, true, true]
  superclass := ![none, some 0, some 0, some 2]
  baseMethods := ![some [⟨10, 100⟩], none, none, none]
  hasCxxStructors := fun _ => false
  hasCxxDtorOnly := fun _ => false
  isa_isMeta := by decide
  isa_inj := by decide
  meta_pair := by decide
  meta_isa := by decide
  pair_superclass := by decide
  superclass_isMeta := by decide
  ranked := ⟨![0, 1, 1, 2], by unfold Ranked; decide⟩

def readyRun : List (ClassOp (Fin 4)) := [.realizeClass 1, .setInitialized 0, .setInitialized 1]

def overrideRun : List (ClassOp (Fin 4)) :=
  readyRun ++ [.lookUpImpOrForward (.mk 1 10 true true []), .class_addMethod 1 10 200]

def bareRoot : ClassImage (Option Empty × Bool) := starImage Empty (fun _ => none) fun _ => false

/-- The root class has looked up selectors below `next`: its cache has `buckets` buckets, of
which `n` are in use. -/
structure RootCached (buckets n next : Nat) (s : ClassState (Option Empty × Bool)) : Prop where
  reachable : (classSystem bareRoot).Reachable (fun _ => True) s
  realized : s.realized (none, false) = true
  initialized : s.isInitialized bareRoot (none, false) = true
  superclass : s.superclass (none, false) = none
  methods : s.methods (none, false) = []
  fresh : 100 ≤ next
  capacity : (s.cache (none, false)).capacity = buckets
  length : (s.cache (none, false)).entries.length = n
  entries : ∀ e ∈ (s.cache (none, false)).entries, e.1 < next

namespace RootCached

variable {buckets n next : Nat} {s : ClassState (Option Empty × Bool)}

theorem getImp (h : RootCached buckets n next s) : s.cache_getImp (none, false) next = 0 := by
  have hlookup : (s.cache (none, false)).entries.lookup next = none := by
    refine List.lookup_eq_none_iff.mpr fun e he => ?_
    exact bne_iff_ne.mpr (Nat.ne_of_gt (h.entries e he))
  rw [cache_getImp, MethodCache.getImp, hlookup, getD_none]

theorem lookUp (h : RootCached buckets n next s) :
    ClassState.lookUpImpOrForward bareRoot (.mk (none, false) next true false []) s
      = s.cacheFound bareRoot (none, false) next _objc_msgForward_impcache := by
  have hmiss : ¬ s.cache_getImp (none, false) next ≠ 0 := not_not.mpr h.getImp
  have hrealize : s.realizeClass bareRoot (Fintype.card (Option Empty × Bool) + 1) (none, false)
      = some s := by
    rw [ClassState.realizeClass, if_pos h.realized]
  have hsearch : s.searchOnce bareRoot (none, false) next = some none := by
    rw [searchOnce, if_neg hmiss, h.methods, h.superclass]
    rfl
  rw [ClassState.lookUpImpOrForward, if_neg fun hcached => hmiss hcached.2]
  simp only [hrealize, hsearch]
  rfl

theorem fill (h : RootCached buckets n next s) {room : MethodCache}
    (hroom : (s.cache (none, false)).makeRoom = some room)
    (hsub : ∀ e ∈ room.entries, e.1 < next) :
    ∃ s', RootCached room.capacity (room.entries.length + 1) (next + 1) s' := by
  have hmiss : ¬ (s.cache (none, false)).getImp next ≠ 0 := not_not.mpr h.getImp
  have hfilter : room.entries.filter (fun e => decide (e.1 ≠ next)) = room.entries := by
    refine List.filter_eq_self.mpr fun e he => ?_
    exact decide_eq_true (Nat.ne_of_lt (hsub e he))
  have hlookup := h.lookUp
  rw [cacheFound, cache_fill, if_pos h.initialized, MethodCache.fill, if_neg hmiss, hroom] at hlookup
  simp only [map_some, hfilter] at hlookup
  have hstep : (classSystem bareRoot).step s
      (.lookUpImpOrForward (.mk (none, false) next true false [])) = _ :=
    congrArg (Option.map snd) hlookup
  let cache : MethodCache := ⟨room.capacity, (next, _objc_msgForward_impcache) :: room.entries⟩
  have hself : Function.update s.cache (none, false) cache (none, false) = cache :=
    Function.update_self ..
  refine ⟨_, .step h.reachable hstep trivial, h.realized, h.initialized, h.superclass, h.methods,
    by have := h.fresh; omega, (congrArg MethodCache.capacity hself :),
    (congrArg (fun c : MethodCache => c.entries.length) hself :), fun e he => ?_⟩
  have he' : e ∈ (Function.update s.cache (none, false) cache (none, false)).entries := he
  rw [hself] at he'
  rcases List.mem_cons.mp he' with rfl | he'
  · exact Nat.lt_succ_self next
  · exact Nat.lt_succ_of_lt (hsub e he')

theorem filled {j : Nat} (h : RootCached (2 ^ (j + 2)) 1 next s) {n : Nat} (hn : 1 ≤ n) :
    n ≤ 3 * 2 ^ j → ∃ next s, RootCached (2 ^ (j + 2)) n next s := by
  induction n, hn using Nat.le_induction with
  | base => exact fun _ => ⟨next, s, h⟩
  | succ n hn ih => ?_
  intro hle
  obtain ⟨next', s', h'⟩ := ih (by omega)
  have hpow : 2 ^ (j + 2) = 4 * 2 ^ j := by rw [pow_add, Nat.mul_comm]; rfl
  have hroom : (s'.cache (none, false)).makeRoom = some (s'.cache (none, false)) := by
    rw [MethodCache.makeRoom, if_neg (by rw [← List.length_eq_zero_iff, h'.length]; omega),
      if_pos (by rw [h'.length, h'.capacity]; omega)]
  obtain ⟨s2, h2⟩ := h'.fill hroom h'.entries
  rw [h'.capacity, h'.length] at h2
  exact ⟨_, s2, h2⟩

theorem grown : ∀ {j : Nat}, j ≤ 29 → ∃ next s, RootCached (2 ^ (j + 2)) 1 next s := by
  intro j
  induction j with
  | zero =>
    intro _
    have hrun : ((classSystem bareRoot).runFrom (fun _ => True) bareRoot.load
        [.realizeClass (none, false), .setInitialized (none, false)]).map (fun s =>
          decide (s.realized (none, false) = true ∧ s.isInitialized bareRoot (none, false) = true ∧
            s.superclass (none, false) = none ∧ (s.methods (none, false)).length = 0 ∧
            (s.cache (none, false)).capacity = 0 ∧ (s.cache (none, false)).entries = []))
        = some true := by decide +kernel
    obtain ⟨s, hs, heq⟩ := map_eq_some_iff.mp hrun
    obtain ⟨hreal, hinit, hsuper, hmethods, hcap, hnil⟩ := of_decide_eq_true heq
    have hstart : RootCached 0 0 100 s := ⟨.of_run _ (.init rfl trivial) hs, hreal, hinit, hsuper,
      List.length_eq_zero_iff.mp hmethods, le_rfl, hcap, by rw [hnil]; rfl, by simp [hnil]⟩
    have hroom : (s.cache (none, false)).makeRoom = some ⟨4, []⟩ := by
      rw [MethodCache.makeRoom, if_pos hnil, hcap, hnil]
      rfl
    obtain ⟨s', h'⟩ := hstart.fill hroom (by simp)
    exact ⟨_, s', h'⟩
  | succ j ih => ?_
  intro hj
  obtain ⟨next, s, h⟩ := ih (by omega)
  have hpos : 0 < 2 ^ j := Nat.two_pow_pos j
  obtain ⟨next, s, h⟩ := h.filled (n := 3 * 2 ^ j) (by omega) le_rfl
  have hpow : 2 ^ (j + 2) = 4 * 2 ^ j := by rw [pow_add, Nat.mul_comm]; rfl
  have hlt : 2 ^ j ≤ 2 ^ 28 := Nat.pow_le_pow_right (by decide) (by omega)
  have hroom : (s.cache (none, false)).makeRoom = some ⟨2 ^ (j + 2) * 2, []⟩ := by
    rw [MethodCache.makeRoom, if_neg (by rw [← List.length_eq_zero_iff, h.length]; omega),
      if_neg (by rw [h.length, h.capacity]; omega), h.capacity, if_pos (by omega)]
  obtain ⟨s', h'⟩ := h.fill hroom (by simp)
  exact ⟨_, s', by rwa [pow_succ]⟩

end RootCached

end ObjcRuntime
