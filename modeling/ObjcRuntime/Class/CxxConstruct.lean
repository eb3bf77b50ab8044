/-
C++ CONSTRUCTORS, AND DESTRUCTION WHEN ONE FAILS.

objc-class.mm, `object_cxxConstructFromClass`: the constructors from the root
down; after a failure the destructors of the classes above.
-/
import ObjcRuntime.Class.CxxDestruct

namespace ObjcRuntime

open Lib List Option ClassState

variable {C : Type}

/-! ## The function, and what it should call -/

inductive CxxCall
  | construct (ctor : IMP)
  | destruct (dtor : IMP)

/-- `object_cxxConstructFromClass`: whether it returns the object, and the calls in order. `ok` says
of which classes the constructor succeeds. -/
def ClassState.object_cxxConstructFromClass [DecidableEq C] (K : ClassImage C) (ok : C → Bool) :
    Nat → ClassState C → C → Option (Bool × List CxxCall × ClassState C)
  | 0, _, _ => none
  | fuel + 1, s, cls => do
    let (built, calls, s) ← (match (s.superclass cls).filter s.hasCxxCtor with
      | some supercls => object_cxxConstructFromClass K ok fuel s supercls
      | none => some (true, [], s))
    if built = false then return (false, calls, s)
    let (ctor, s) ← s.lookupMethodInClassAndLoadCache K cls SEL_cxx_construct
    if ctor = _objc_msgForward_impcache then return (true, calls, s)
    if ok cls then return (true, calls ++ [.construct ctor], s)
    let (dtors, s) ← s.object_cxxDestructFromClass K fuel (s.superclass cls)
    return (false, calls ++ .construct ctor :: dtors.map .destruct, s)

def ClassState.ownCtor (s : ClassState C) (cls : C) : Option IMP :=
  methodImp (s.methods cls) SEL_cxx_construct

/-- The result and the calls for the classes of `chain`, from the object's class up: all
constructors that there are from the root down, or those up to the first that fails and then the
destructors above it. -/
structure Constructed (s : ClassState C) (ok : C → Bool) (chain : List C) (built : Bool)
    (calls : List CxxCall) : Prop where
  all : (∀ c ∈ chain, s.ownCtor c ≠ none → ok c = true) →
    built = true ∧ calls = (chain.reverse.filterMap s.ownCtor).map .construct
  failed : ∀ below k above ctor, chain = below ++ k :: above → s.ownCtor k = some ctor →
    ok k = false → (∀ c ∈ above, s.ownCtor c ≠ none → ok c = true) →
    built = false ∧ calls = (above.reverse.filterMap s.ownCtor).map .construct
      ++ .construct ctor :: (above.filterMap s.ownDtor).map .destruct

/-- Constructors and destructors are functions, a class that defines or inherits one has the flag
for it, and no cache has an inherited one. -/
structure CxxReady (s : ClassState C) : Prop where
  ctors : ∀ c, ∀ imp ∈ s.ownCtor c, imp ≠ _objc_msgForward_impcache
  dtors : s.DtorsAreFunctions
  hasCxxCtor : ∀ c a, Under s.superclass c a → s.ownCtor a ≠ none → s.hasCxxCtor c = true
  hasCxxDtor : ∀ c a, Under s.superclass c a → s.ownDtor a ≠ none → s.hasCxxDtor c = true
  cached : ∀ sel ∈ [SEL_cxx_construct, SEL_cxx_destruct], ∀ c, s.cache_getImp c sel ≠ 0 →
    s.cache_getImp c sel = (methodImp (s.methods c) sel).getD _objc_msgForward_impcache

/-! ## The recursion -/

variable {s₀ s : ClassState C} {ok : C → Bool} {cls : C} {above : List C} {built : Bool}
  {calls : List CxxCall}

/-- Since `s₀` only caches were filled, with what the classes themselves have. -/
structure CxxCached (s₀ s : ClassState C) : Prop extends OnlyCached s₀ s where
  hasCxxCtor : s.hasCxxCtor = s₀.hasCxxCtor
  ctor : ∀ c, s.cache_getImp c SEL_cxx_construct ≠ 0 →
    s.cache_getImp c SEL_cxx_construct = (s₀.ownCtor c).getD _objc_msgForward_impcache

theorem Constructed.empty (h : ∀ c ∈ above, s.ownCtor c = none) : Constructed s ok above true [] := by
  refine ⟨fun _ => ⟨rfl, ?_⟩, fun below k above' ctor heq hctor _ _ => ?_⟩
  · rw [filterMap_eq_nil_iff.mpr fun c hc => h c (mem_reverse.mp hc), map_nil]
  · rw [h k (by simp [heq])] at hctor
    cases hctor

theorem Constructed.cons {built' : Bool} {calls' : List CxxCall}
    (h : Constructed s ok above built calls)
    (hnone : (built = true → s.ownCtor cls = none) → built' = built ∧ calls' = calls)
    (hsome : built = true → ∀ ctor, s.ownCtor cls = some ctor →
      built' = ok cls ∧ calls' = calls ++ .construct ctor ::
        if ok cls then [] else (above.filterMap s.ownDtor).map .destruct) :
    Constructed s ok (cls :: above) built' calls' := by
  refine ⟨fun hall => ?_, fun below k above' ctor heq hctor hfail hok => ?_⟩
  · obtain ⟨rfl, rfl⟩ := h.all fun c hc => hall c (mem_cons_of_mem _ hc)
    rw [reverse_cons, filterMap_append, map_append]
    cases hown : s.ownCtor cls with
    | none =>
      obtain ⟨rfl, rfl⟩ := hnone fun _ => hown
      simp [hown]
    | some ctor =>
      obtain ⟨hbuilt, rfl⟩ := hsome rfl ctor hown
      have hok := hall cls mem_cons_self (by simp [hown])
      simp [hown, hok, hbuilt]
  cases below with
  | nil =>
    obtain ⟨rfl, rfl⟩ := cons.inj heq
    obtain ⟨rfl, rfl⟩ := h.all hok
    obtain ⟨hbuilt, rfl⟩ := hsome rfl ctor hctor
    simp [hfail, hbuilt]
  | cons c below =>
    obtain ⟨rfl, rfl⟩ := cons.inj heq
    obtain ⟨rfl, rfl⟩ := h.failed below k above' ctor rfl hctor hfail hok
    exact hnone (by simp)

variable [DecidableEq C] {K : ClassImage C}

theorem CxxCached.lookup (h : CxxCached s₀ s) (cls : C) :
    (s.lookupMethodInClassAndLoadCache K cls SEL_cxx_construct = none → ¬ s.Room 1) ∧
      ∀ imp s', s.lookupMethodInClassAndLoadCache K cls SEL_cxx_construct = some (imp, s') →
        imp = (s₀.ownCtor cls).getD _objc_msgForward_impcache ∧ CxxCached s₀ s' ∧
        ∀ n, s.Room (1 + n) → s'.Room n := by
  obtain ⟨hfail, hfound⟩ :=
    lookup_own (K := K) (.inl rfl) cls (by rw [h.methods]; exact h.ctor cls)
  refine ⟨hfail, fun imp s' hlookup => ?_⟩
  obtain ⟨himp, hs'⟩ := hfound _ hlookup
  rw [h.methods] at himp
  obtain rfl : imp = (s₀.ownCtor cls).getD _objc_msgForward_impcache := himp
  refine ⟨rfl, ?_⟩
  rcases hs' with heq | hfill
  · obtain rfl : s' = s := heq
    exact ⟨h, fun n hroom => hroom.mono (by omega)⟩
  refine ⟨⟨h.cache_fill (fun heq => by cases heq) hfill, ?_, OnlyCached.cached_fill h.ctor (fun _ => rfl) hfill⟩,
    fun n hroom => hroom.cache_fill hfill⟩
  obtain ⟨cache, heq⟩ := cache_fill_eq hfill
  exact (congrArg ClassState.hasCxxCtor heq).trans h.hasCxxCtor

theorem CxxCached.construct (ok) (hready : CxxReady s₀) {start : Option C} {chain : List C}
    (hchain : SiblingList s₀.superclass start chain) : ∀ (cls : C) (fuel : Nat) (s : ClassState C),
      start = some cls → chain.length < fuel → CxxCached s₀ s → s.Room (2 * chain.length) →
      ∃ built calls s', s.object_cxxConstructFromClass K ok fuel cls = some (built, calls, s') ∧
        Constructed s₀ ok chain built calls ∧ (built = true → CxxCached s₀ s' ∧
          ∀ n, s.Room (chain.length + n) → s'.Room n) := by
  induction hchain with
  | nil =>
    intro cls fuel s hstart
    cases hstart
  | @cons cls above habove ih => ?_
  intro _ fuel s hstart hfuel h hroom
  cases hstart
  rw [length_cons] at hfuel hroom ⊢
  rcases fuel with _ | fuel
  · omega
  -- the superclass, if it has constructors at all
  have hsuper : ∃ built calls s', (match (s.superclass cls).filter s.hasCxxCtor with
        | some supercls => s.object_cxxConstructFromClass K ok fuel supercls
        | none => some (true, [], s)) = some (built, calls, s') ∧
      Constructed s₀ ok above built calls ∧ (built = true → CxxCached s₀ s' ∧
        ∀ n, s.Room (above.length + n) → s'.Room n) := by
    rw [h.superclass, h.hasCxxCtor]
    cases hfilter : (s₀.superclass cls).filter s₀.hasCxxCtor with
    | some supercls =>
      exact ih supercls fuel s (eq_some_of_filter_eq_some hfilter) (by omega) h
        (hroom.mono (by omega))
    | none => ?_
    refine ⟨true, [], s, rfl, .empty fun c hc => ?_, fun _ => ⟨h, fun n hn => hn.mono (by omega)⟩⟩
    by_contra hne
    generalize s₀.superclass cls = start at habove hfilter
    cases habove with
    | nil => cases hc
    | @cons supercls rest hrest => ?_
    have hflag := hready.hasCxxCtor supercls c (hrest.under_iff.mpr hc) hne
    simp [hflag] at hfilter
  obtain ⟨built, calls, s1, hrun, hconstructed, h1⟩ := hsuper
  rw [object_cxxConstructFromClass, hrun]
  cases built with
  | false =>
    exact ⟨false, calls, s1, rfl, hconstructed.cons (fun _ => ⟨rfl, rfl⟩) (by simp), by simp⟩
  | true => ?_
  obtain ⟨h1, hroom1⟩ := h1 rfl
  obtain ⟨hnone, hfound⟩ := h1.lookup (K := K) cls
  obtain ⟨⟨imp, s2⟩, hlookup⟩ := ne_none_iff_exists'.mp fun heq =>
    hnone heq (hroom1 1 (hroom.mono (by omega)))
  obtain ⟨rfl, h2, hroom2⟩ := hfound imp s2 hlookup
  have hlater : ∀ n, s.Room (above.length + 1 + n) → s2.Room n := fun n hn =>
    hroom2 n (hroom1 (1 + n) (hn.mono (by omega)))
  cases hown : s₀.ownCtor cls with
  | none =>
    rw [hown] at hlookup
    refine ⟨true, calls, s2, ?_, hconstructed.cons (fun _ => ⟨rfl, rfl⟩) fun _ ctor hctor => ?_,
      fun _ => ⟨h2, hlater⟩⟩
    · simp [hlookup]
    · rw [hown] at hctor
      cases hctor
  | some ctor => ?_
  have hne := hready.ctors cls ctor hown
  rw [hown] at hlookup
  obtain ⟨hfail, hdtors⟩ :=
    h2.toOnlyCached.cxxDestruct (K := K) hready.dtors habove fuel s2 (by omega)
  obtain ⟨⟨dtors, s3⟩, hdestruct⟩ := ne_none_iff_exists'.mp fun hnone =>
    hfail hnone (hlater _ (hroom.mono (by omega)))
  obtain rfl : dtors = above.filterMap s₀.ownDtor :=
    (hdtors _ hdestruct).2 fun c _ => hready.hasCxxDtor c
  refine ⟨ok cls, calls ++ .construct ctor :: if ok cls then []
    else (above.filterMap s₀.ownDtor).map .destruct, if ok cls then s2 else s3, ?_,
    hconstructed.cons (fun hnone => ?_) fun _ ctor' hctor => ?_, fun hok => ?_⟩
  · cases hok : ok cls <;> simp [hlookup, hne, h2.superclass, hdestruct]
  · rw [hnone rfl] at hown
    cases hown
  · rw [hown] at hctor
    cases hctor
    exact ⟨rfl, rfl⟩
  · rw [if_pos hok]
    exact ⟨h2, hlater⟩

/-- **The constructors are called from the root down**, each once, until one fails; then the
destructors of the classes above it, each once, and the result is nil; as long as no cache has to
grow beyond 32 bits for it. -/
theorem constructors_called_in_order (K : ClassImage C) (s : ClassState C) (ok : C → Bool) (cls : C)
    (chain : List C) (hchain : SiblingList s.superclass (some cls) chain) (h : CxxReady s)
    (fuel : Nat) (hfuel : chain.length < fuel) (hroom : s.Room (2 * chain.length)) :
    ∃ built calls s', s.object_cxxConstructFromClass K ok fuel cls = some (built, calls, s') ∧
      Constructed s ok chain built calls := by
  have hcached : CxxCached s s :=
    ⟨⟨rfl, rfl, rfl, rfl, h.cached _ (by simp)⟩, rfl, h.cached _ (by simp)⟩
  obtain ⟨built, calls, s', hrun, hconstructed, -⟩ :=
    CxxCached.construct (K := K) ok h hchain cls fuel s rfl hfuel hcached hroom
  exact ⟨built, calls, s', hrun, hconstructed⟩

def withCtors : ClassState (Fin 4) :=
  { rootAndSubclass.load with
    links := ⟨rootAndSubclass.superclass, fun _ => none, fun _ => none⟩
    methods := ![[⟨[⟨SEL_cxx_construct, 10⟩], pairwise_singleton _ _⟩,
        ⟨[⟨SEL_cxx_destruct, 11⟩], pairwise_singleton _ _⟩],
      [⟨[⟨SEL_cxx_construct, 12⟩], pairwise_singleton _ _⟩], [], []]
    hasCxxCtor := fun _ => true
    hasCxxDtor := fun _ => true }

theorem failed_constructor_is_undone : ∃ s',
    withCtors.object_cxxConstructFromClass rootAndSubclass (· == 0) 3 1
      = some (false, [.construct 10, .construct 12, .destruct 11], s') := by
  obtain ⟨built, calls, s', hrun, hcalls⟩ := constructors_called_in_order rootAndSubclass withCtors
    (· == 0) 1 [1, 0] (.cons (.cons .nil)) ⟨by decide, by unfold DtorsAreFunctions; decide,
      fun _ _ _ _ => rfl, fun _ _ _ _ => rfl, fun _ _ _ hne => absurd rfl hne⟩ 3 (by decide)
    fun _ => .inr ⟨(by decide : 0 < 2 ^ 31), by decide⟩
  obtain ⟨rfl, rfl⟩ := hcalls.failed [] 1 [0] 12 rfl rfl rfl (by decide)
  exact ⟨s', hrun⟩

def withCaches (cache : MethodCache) : ClassState (Fin 4) :=
  { withCtors with initialized := fun _ => true, cache := fun _ => cache }

/-- **A full cache** of 2^31 buckets: the constructor that is found cannot be cached. -/
theorem full_cache_stops_construction : ∃ cache, CxxReady (withCaches cache) ∧
    (withCaches cache).object_cxxConstructFromClass rootAndSubclass (fun _ => true) 3 1 = none := by
  obtain ⟨n, hn⟩ : ∃ n, n = 3 * 2 ^ 29 := ⟨_, rfl⟩
  obtain ⟨cache, hcap, hentries⟩ : ∃ cache : MethodCache, cache.capacity = 2 ^ 31 ∧
      cache.entries = (range n).map fun i => (100 + i, 100) := ⟨⟨_, _⟩, rfl, rfl⟩
  have hlen : cache.entries.length = n := by rw [hentries, length_map, length_range]
  have hmiss : ∀ sel < 100, cache.getImp sel = 0 := by
    intro sel hlt
    have hlookup : cache.entries.lookup sel = none := by
      rw [hentries, lookup_eq_none_iff]
      intro e he
      obtain ⟨i, _, rfl⟩ := mem_map.mp he
      exact bne_iff_ne.mpr (Nat.ne_of_lt (Nat.lt_of_lt_of_le hlt (Nat.le_add_right ..)))
    rw [MethodCache.getImp, hlookup, getD_none]
  have hfill : cache.fill SEL_cxx_construct 10 = none := by
    rw [MethodCache.fill, if_neg (not_not.mpr (hmiss _ (by decide))), MethodCache.makeRoom,
      if_neg (by rw [← length_eq_zero_iff, hlen]; omega), if_neg (by rw [hlen, hcap]; omega),
      if_neg (by rw [hcap]; omega), map_none]
  have hctors : ∀ c, ∀ imp ∈ withCtors.ownCtor c, imp ≠ _objc_msgForward_impcache := by decide
  have hdtors : withCtors.DtorsAreFunctions := by unfold DtorsAreFunctions; decide
  refine ⟨cache, ⟨hctors, hdtors, fun _ _ _ _ => rfl, fun _ _ _ _ => rfl,
    fun sel hsel c hne => absurd (hmiss sel ?_) hne⟩, ?_⟩
  · rcases mem_cons.mp hsel with rfl | hsel
    · decide
    · rw [mem_singleton.mp hsel]
      decide
  have hlookup : (withCaches cache).lookupMethodInClassAndLoadCache rootAndSubclass 0
      SEL_cxx_construct = none := by
    have hroot : ¬ (withCaches cache).cache_getImp 0 SEL_cxx_construct ≠ 0 :=
      not_not.mpr (hmiss _ (by decide))
    rw [lookupMethodInClassAndLoadCache, if_pos (.inl rfl), if_neg hroot]
    show ((cache.fill SEL_cxx_construct 10).map _).map _ = none
    rw [hfill]
    rfl
  have hroot : (withCaches cache).object_cxxConstructFromClass rootAndSubclass (fun _ => true) 2 0
      = none := by
    rw [object_cxxConstructFromClass]
    show ((withCaches cache).lookupMethodInClassAndLoadCache rootAndSubclass 0
      SEL_cxx_construct).bind _ = none
    rw [hlookup]
    rfl
  rw [object_cxxConstructFromClass]
  show ((withCaches cache).object_cxxConstructFromClass rootAndSubclass (fun _ => true) 2 0).bind _
    = none
  rw [hroot]
  rfl

end ObjcRuntime
