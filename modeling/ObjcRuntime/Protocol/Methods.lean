/-
METHODS OF A PROTOCOL MADE AT RUN TIME ARE BISECTED WITHOUT BEING SORTED.

objc-runtime-new.mm, `protocol_addMethod_nolock`. A method is put at the end
of its list, and the list is marked as fixed up from its first method on, so
nothing sorts it later, while `search_method_list` bisects it.
-/
import ObjcRuntime.Protocol.Acyclic

namespace ObjcRuntime

open Lib Function List Method ProtocolState Nat

/-! ## Bisection of a list that need not be sorted -/

theorem bisect_some {list : List Method} {key : SEL} : ∀ {fuel base count j : Nat},
    bisect list key fuel base count = some j →
      ∃ (i : Nat) (m : Method), base ≤ i ∧ i < base + count ∧ list[i]? = some m ∧ m.name = key := by
  intro fuel
  induction fuel with
  | zero => intro base count j h; cases h
  | succ fuel ih => ?_
  intro base count j h
  obtain ⟨hcount, h⟩ := Option.ite_none_left_eq_some.mp h
  split at h
  next => cases h
  rename_i probe hprobe
  split at h
  next heq => exact ⟨base + count / 2, probe, by omega, by omega, hprobe, heq.symm⟩
  split at h
  next =>
    obtain ⟨i, m, hlow, hhigh, hm⟩ := ih h
    exact ⟨i, m, by omega, by omega, hm⟩
  obtain ⟨i, m, hlow, hhigh, hm⟩ := ih h
  exact ⟨i, m, hlow, by omega, hm⟩

theorem sorted_of_bisect {list : List Method} (hnodup : (list.map name).Nodup) :
    ∀ fuel base count : Nat, base + count ≤ list.length →
      (∀ (i : Nat) (m : Method), base ≤ i → i < base + count → list[i]? = some m →
        bisect list m.name fuel base count ≠ none) →
      ∀ (i j : Nat) (a b : Method), base ≤ i → i < j → j < base + count → list[i]? = some a →
        list[j]? = some b → a.name < b.name := by
  -- two places with one name are one place
  have hinj : ∀ (i j : Nat) (a b : Method), list[i]? = some a → list[j]? = some b →
      a.name = b.name → i = j := by
    intro i j a b ha hb hab
    have hi : (list.map name)[i]? = some a.name := by rw [getElem?_map, ha]; rfl
    have hj : (list.map name)[j]? = some a.name := by rw [getElem?_map, hb, hab]; rfl
    exact (List.getElem?_inj (List.getElem?_eq_some_iff.mp hi).1 hnodup).mp (hi.trans hj.symm)
  intro fuel
  induction fuel with
  | zero =>
    intro base count _ hall i j a b hi hij hj ha _
    exact absurd rfl (hall i a hi (by omega) ha)
  | succ fuel ih => ?_
  intro base count hle hall i j a b hi hij hj ha hb
  have hlt : base + count / 2 < list.length := by omega
  obtain ⟨probe, hprobe⟩ : ∃ probe, list[base + count / 2]? = some probe :=
    ⟨list[base + count / 2], getElem?_eq_getElem hlt⟩
  -- one round for a method at another place than the probe
  have hround : ∀ (k : Nat) (m : Method), base ≤ k → k < base + count → list[k]? = some m →
      k ≠ base + count / 2 → (m.name > probe.name →
        bisect list m.name fuel (base + count / 2 + 1) ((count - 1) / 2) ≠ none) ∧
      (¬ m.name > probe.name → bisect list m.name fuel base (count / 2) ≠ none) := by
    intro k m hk hk' hm hne
    have hfound := hall k m hk hk' hm
    have hname : m.name ≠ probe.name := fun heq => hne (hinj _ _ m probe hm hprobe heq)
    rw [bisect, if_neg (by omega), hprobe] at hfound
    simp only [if_neg hname] at hfound
    refine ⟨fun hgt => ?_, fun hgt => ?_⟩
    · rwa [if_pos hgt] at hfound
    · rwa [if_neg hgt] at hfound
  -- left of the probe the names are smaller, right of it they are greater
  have hleft : ∀ (k : Nat) (m : Method), base ≤ k → k < base + count / 2 → list[k]? = some m →
      m.name < probe.name ∧ bisect list m.name fuel base (count / 2) ≠ none := by
    intro k m hk hk' hm
    obtain ⟨hright, hfound⟩ := hround k m hk (by omega) hm (by omega)
    have hnot : ¬ m.name > probe.name := by
      intro hgt
      obtain ⟨j', hj'⟩ := Option.ne_none_iff_exists'.mp (hright hgt)
      obtain ⟨i', m', hlow, _, hm', hname⟩ := bisect_some hj'
      have := hinj _ _ m' m hm' hm hname
      omega
    have hname : m.name ≠ probe.name := fun heq => by
      have := hinj _ _ m probe hm hprobe heq
      omega
    exact ⟨Nat.lt_of_le_of_ne (Nat.le_of_not_lt hnot) hname, hfound hnot⟩
  have hright : ∀ (k : Nat) (m : Method), base + count / 2 < k → k < base + count →
      list[k]? = some m → probe.name < m.name ∧
        bisect list m.name fuel (base + count / 2 + 1) ((count - 1) / 2) ≠ none := by
    intro k m hk hk' hm
    obtain ⟨hfound, hleft⟩ := hround k m (by omega) hk' hm (by omega)
    have hgt : m.name > probe.name := by
      by_contra hnot
      obtain ⟨j', hj'⟩ := Option.ne_none_iff_exists'.mp (hleft hnot)
      obtain ⟨i', m', _, hhigh, hm', hname⟩ := bisect_some hj'
      have := hinj _ _ m' m hm' hm hname
      omega
    exact ⟨hgt, hfound hgt⟩
  rcases lt_trichotomy i (base + count / 2) with hi' | rfl | hi'
  · rcases lt_trichotomy j (base + count / 2) with hj' | rfl | hj'
    · exact ih base (count / 2) (by omega) (fun k m hk hk' hm => (hleft k m hk hk' hm).2)
        i j a b hi hij hj' ha hb
    · obtain rfl := Option.some.inj (hb.symm.trans hprobe)
      exact (hleft i a hi hi' ha).1
    · exact lt_trans (hleft i a hi hi' ha).1 (hright j b hj' hj hb).1
  · obtain rfl := Option.some.inj (ha.symm.trans hprobe)
    exact (hright j b hij hj hb).1
  exact ih (base + count / 2 + 1) ((count - 1) / 2) (by omega)
    (fun k m hk hk' hm => (hright k m (by omega) (by omega) hm).2) i j a b hi' hij (by omega)
    ha hb

variable {methods : List TypedMethod}

theorem ascending_of_search (hnodup : (methods.map fun m => m.name).Nodup)
    (hall : ∀ m ∈ methods, search_method_list methods true true m.name ≠ none) :
    methods.Pairwise fun a b => a.name < b.name := by
  have hnodup' : ((methods.map TypedMethod.toMethod).map name).Nodup := by
    rw [map_map]
    exact hnodup
  rw [pairwise_iff_getElem]
  intro i j hi hj hij
  refine sorted_of_bisect hnodup' (methods.length + 1) 0 methods.length (by simp)
    (fun k m _ hk hm => ?_) i j _ _ (zero_le _) hij (by omega)
    (by rw [getElem?_map, getElem?_eq_getElem hi]; rfl)
    (by rw [getElem?_map, getElem?_eq_getElem hj]; rfl)
  rw [getElem?_map] at hm
  obtain ⟨m', hm', rfl⟩ := Option.map_eq_some_iff.mp hm
  have := hall m' (mem_of_getElem? hm')
  unfold search_method_list findMethodInSortedMethodList at this
  simpa using this

variable {m : TypedMethod}

theorem search_of_ascending
    (hsorted : methods.Pairwise fun a b => a.name < b.name) (hm : m ∈ methods) :
    ((search_method_list methods true true m.name).bind fun j => methods[j]?) = some m := by
  rw [search_method_list_eq (fun _ => hsorted.imp le_of_lt), firstPlace_bind]
  obtain ⟨i, hi, rfl⟩ := mem_iff_getElem.mp hm
  rw [find?_eq_some_iff_getElem]
  refine ⟨by simp, i, hi, rfl, fun j hj => ?_⟩
  have := pairwise_iff_getElem.mp hsorted j i (by omega) hi hj
  simpa using Nat.ne_of_lt this

/-! ## Fixing up -/

variable {N : Type} {swift : SwiftNames N} {s s' s'' : ProtocolState N}

structure ProtocolState.FixedUpTo (s s' : ProtocolState N) : Prop where
  count : s'.count = s.count
  protocols : s'.protocols = s.protocols
  name : ∀ p, (s'.proto p).mangledName = (s.proto p).mangledName
  incomplete : ∀ p, (s'.proto p).incomplete = (s.proto p).incomplete
  refs : ∀ p, (s'.proto p).protocols = (s.proto p).protocols
  lists : ∀ p isRequiredMethod isInstanceMethod,
    (∀ mlist, (s.proto p).getProtocolMethodList isRequiredMethod isInstanceMethod = some mlist →
      mlist.fixedUp = true) →
    (s'.proto p).getProtocolMethodList isRequiredMethod isInstanceMethod
      = (s.proto p).getProtocolMethodList isRequiredMethod isInstanceMethod

namespace ProtocolState

theorem FixedUpTo.refl (s : ProtocolState N) : s.FixedUpTo s :=
  ⟨rfl, rfl, fun _ => rfl, fun _ => rfl, fun _ => rfl, fun _ _ _ _ => rfl⟩

theorem FixedUpTo.trans (h : s.FixedUpTo s') (h' : s'.FixedUpTo s'') : s.FixedUpTo s'' where
  count := h'.count.trans h.count
  protocols := h'.protocols.trans h.protocols
  name := fun p => (h'.name p).trans (h.name p)
  incomplete := fun p => (h'.incomplete p).trans (h.incomplete p)
  refs := fun p => (h'.refs p).trans (h.refs p)
  lists := fun p isRequiredMethod isInstanceMethod hfixed => by
    have hsame := h.lists p isRequiredMethod isInstanceMethod hfixed
    refine (h'.lists p isRequiredMethod isInstanceMethod fun mlist hm => ?_).trans hsame
    exact hfixed mlist (hsame ▸ hm)

theorem FixedUpTo.remap (h : s.FixedUpTo s') (q : Nat) :
    s'.remapProtocol swift q = s.remapProtocol swift q := by
  unfold remapProtocol getProtocol
  rw [h.name, h.protocols]

theorem FixedUpTo.fixupLists (s : ProtocolState N) (p : Nat) :
    s.FixedUpTo (s.setProto p (s.proto p).fixupLists) := by
  refine ⟨rfl, rfl, update_proto_field ProtocolT.mangledName rfl,
    update_proto_field ProtocolT.incomplete rfl, update_proto_field ProtocolT.protocols rfl,
    fun q isRequiredMethod isInstanceMethod hfixed => ?_⟩
  by_cases hq : q = p
  · rw [hq] at hfixed
    simp only [setProto, hq, update_self]
    have hlist : (s.proto p).fixupLists.getProtocolMethodList isRequiredMethod isInstanceMethod
        = fixupProtocolMethodList
          ((s.proto p).getProtocolMethodList isRequiredMethod isInstanceMethod) := by
      cases isRequiredMethod <;> cases isInstanceMethod <;> rfl
    rw [hlist]
    cases hm : (s.proto p).getProtocolMethodList isRequiredMethod isInstanceMethod with
    | none => rfl
    | some mlist =>
      show some (if mlist.fixedUp then mlist else _) = some mlist
      rw [if_pos (hfixed mlist hm)]
  · simp only [setProto, update_of_ne hq]

def RankedBy (swift : SwiftNames N) (s : ProtocolState N) (rank : Nat → Nat) : Prop :=
  ∀ p < s.count, ∀ q ∈ (s.proto p).protocols,
    s.remapProtocol swift q < s.count ∧ rank (s.remapProtocol swift q) < rank p

theorem RankedBy.fixedUp {rank : Nat → Nat} (h : s.RankedBy swift rank) (h1 : s.FixedUpTo s') :
    s'.RankedBy swift rank := by
  intro p hp q hq
  rw [h1.count] at hp
  rw [h1.refs] at hq
  rw [h1.remap, h1.count]
  exact h p hp q hq

theorem fixupProtocol_spec {rank : Nat → Nat} : ∀ (fuel : Nat) (s : ProtocolState N) (p : Nat),
    s.RankedBy swift rank → p < s.count → rank p < fuel →
    ∃ s', fixupProtocol swift fuel s p = some s' ∧ s.FixedUpTo s' := by
  intro fuel
  induction fuel with
  | zero => intro s p _ _ hlt; exact absurd hlt (not_lt_zero _)
  | succ fuel ih => ?_
  intro s p hrank hp hlt
  -- the loop, from any state that differs by fixed up lists only
  have hloop : ∀ (qs : List Nat), (∀ q ∈ qs, q ∈ (s.proto p).protocols) →
      ∀ s1 : ProtocolState N, s.FixedUpTo s1 → ∃ s2, forProtocols (fun s q =>
          if (s.proto (s.remapProtocol swift q)).fixedUp then some s
          else fixupProtocol swift fuel s (s.remapProtocol swift q)) s1 qs = some s2 ∧
        s.FixedUpTo s2 := by
    intro qs
    induction qs with
    | nil => intro _ s1 h1; exact ⟨s1, rfl, h1⟩
    | cons q qs ihq => ?_
    intro hmem s1 h1
    rw [forProtocols]
    have hq := hmem q mem_cons_self
    have hrest : ∀ q' ∈ qs, q' ∈ (s.proto p).protocols :=
      fun q' hq' => hmem q' (mem_cons_of_mem q hq')
    by_cases hfixed : (s1.proto (s1.remapProtocol swift q)).fixedUp = true
    · simp only [hfixed, if_true]
      exact ihq hrest s1 h1
    obtain ⟨hcount, hlt'⟩ := hrank p hp q hq
    obtain ⟨s2, hrun, h2⟩ := ih s1 (s1.remapProtocol swift q) (hrank.fixedUp h1)
      (by rw [h1.remap, h1.count]; exact hcount) (by rw [h1.remap]; omega)
    simp only [hfixed, hrun]
    exact ihq hrest s2 (h1.trans h2)
  obtain ⟨s2, hrun, h2⟩ := hloop (s.proto p).protocols (fun q hq => hq) s (.refl s)
  exact ⟨_, by rw [fixupProtocol, hrun]; rfl, h2.trans (.fixupLists s2 p)⟩

theorem fixupProtocolIfNeeded_spec {rank : Nat → Nat} (hrank : s.RankedBy swift rank) {p : Nat}
    (hp : p < s.count) :
    ∃ fuel s', 0 < fuel ∧ fixupProtocolIfNeeded swift fuel s p = some s' ∧ s.FixedUpTo s' := by
  unfold fixupProtocolIfNeeded
  by_cases hfixed : (s.proto p).fixedUp = true
  · exact ⟨1, s, one_pos, by rw [if_pos hfixed], .refl s⟩
  · obtain ⟨s', hrun, hs'⟩ := fixupProtocol_spec (rank p + 1) s p hrank hp (lt_succ_self _)
    exact ⟨rank p + 1, s', succ_pos _, by rw [if_neg hfixed]; exact hrun, hs'⟩

end ProtocolState

/-! ## Adding methods -/

/-- The arguments of `protocol_addMethodDescription`. -/
structure MethodDescription where
  name : SEL
  types : Option String
  isRequiredMethod : Bool
  isInstanceMethod : Bool

def MethodDescription.method (call : MethodDescription) : TypedMethod :=
  ⟨⟨call.name, 0⟩, call.types.getD ""⟩

def described (calls : List MethodDescription) (isRequiredMethod isInstanceMethod : Bool) :
    List TypedMethod :=
  (calls.filter fun call => decide (call.isRequiredMethod = isRequiredMethod ∧
    call.isInstanceMethod = isInstanceMethod)).map MethodDescription.method

def Ascending (calls : List MethodDescription) : Prop :=
  ∀ isRequiredMethod isInstanceMethod,
    (described calls isRequiredMethod isInstanceMethod).Pairwise fun a b => a.name < b.name

namespace ProtocolState

def addMethodDescriptions (s : ProtocolState N) (p : Nat) (calls : List MethodDescription) :
    ProtocolState N :=
  calls.foldl (fun s call => s.protocol_addMethodDescription p call.name call.types
    call.isRequiredMethod call.isInstanceMethod) s

/-- The protocol is under construction and has these methods; every list that it has is marked as
fixed up. -/
structure HasMethods (s : ProtocolState N) (p : Nat) (methods : Bool → Bool → List TypedMethod) :
    Prop where
  incomplete : (s.proto p).incomplete = true
  lists : ∀ isRequiredMethod isInstanceMethod,
    (s.proto p).getProtocolMethodList isRequiredMethod isInstanceMethod
      = if methods isRequiredMethod isInstanceMethod = [] then none
        else some ⟨methods isRequiredMethod isInstanceMethod, true⟩

theorem getProtocolMethodList_set (proto : ProtocolT N) (isRequired isInstance : Bool)
    (mlist : Option ProtocolMethodList) (isRequired' isInstance' : Bool) :
    (proto.setProtocolMethodList isRequired isInstance mlist).getProtocolMethodList isRequired'
        isInstance'
      = if isRequired = isRequired' ∧ isInstance = isInstance' then mlist
        else proto.getProtocolMethodList isRequired' isInstance' := by
  cases isRequired <;> cases isInstance <;> cases isRequired' <;> cases isInstance' <;> rfl

theorem HasMethods.addMethodDescription {p : Nat} {methods : Bool → Bool → List TypedMethod}
    (h : s.HasMethods p methods) (call : MethodDescription) :
    (s.protocol_addMethodDescription p call.name call.types call.isRequiredMethod
        call.isInstanceMethod).HasMethods p
      (fun isRequired isInstance => methods isRequired isInstance ++
        described [call] isRequired isInstance) ∧
    ((s.protocol_addMethodDescription p call.name call.types call.isRequiredMethod
        call.isInstanceMethod).proto p).protocols = (s.proto p).protocols := by
  have hnot : ¬ (s.proto p).incomplete = false := by
    rw [h.incomplete]
    exact nofun
  rw [protocol_addMethodDescription, if_neg hnot]
  simp only [setProto]
  refine ⟨⟨?_, fun isRequired isInstance => ?_⟩, ?_⟩
  · simp only [update_self]
    cases call.isRequiredMethod <;> cases call.isInstanceMethod <;> exact h.incomplete
  · simp only [update_self]
    rw [getProtocolMethodList_set]
    by_cases hflags : call.isRequiredMethod = isRequired ∧ call.isInstanceMethod = isInstance
    · obtain ⟨rfl, rfl⟩ := hflags
      rw [if_pos ⟨rfl, rfl⟩, h.lists]
      have hone : described [call] call.isRequiredMethod call.isInstanceMethod = [call.method] := by
        simp [described]
      have hne : methods call.isRequiredMethod call.isInstanceMethod ++ [call.method] ≠ [] :=
        append_ne_nil_of_right_ne_nil _ (cons_ne_nil _ _)
      rw [hone, if_neg hne]
      by_cases hnil : methods call.isRequiredMethod call.isInstanceMethod = []
      · rw [if_pos hnil, hnil]
        rfl
      · rw [if_neg hnil]
        rfl
    · have hnone : described [call] isRequired isInstance = [] := by
        simp [described, hflags]
      rw [if_neg hflags, h.lists, hnone, append_nil]
  · simp only [update_self]
    cases call.isRequiredMethod <;> cases call.isInstanceMethod <;> rfl

theorem HasMethods.addMethodDescriptions {p : Nat} (calls : List MethodDescription) :
    ∀ {s : ProtocolState N} {methods : Bool → Bool → List TypedMethod}, s.HasMethods p methods →
      (s.addMethodDescriptions p calls).HasMethods p
        (fun isRequired isInstance => methods isRequired isInstance ++
          described calls isRequired isInstance) ∧
      ((s.addMethodDescriptions p calls).proto p).protocols = (s.proto p).protocols := by
  induction calls with
  | nil =>
    intro s methods h
    refine ⟨?_, rfl⟩
    have hnone : (fun isRequired isInstance => methods isRequired isInstance ++
        described [] isRequired isInstance) = methods := by
      funext isRequired isInstance
      exact append_nil _
    rw [hnone]
    exact h
  | cons call calls ih => ?_
  intro s methods h
  obtain ⟨hone, hrefs⟩ := h.addMethodDescription call
  obtain ⟨hall, hrefs'⟩ := ih hone
  refine ⟨?_, hrefs'.trans hrefs⟩
  have hlists : (fun isRequired isInstance => methods isRequired isInstance ++
      described (call :: calls) isRequired isInstance)
      = fun isRequired isInstance => methods isRequired isInstance ++
        described [call] isRequired isInstance ++ described calls isRequired isInstance := by
    funext isRequired isInstance
    rw [append_assoc, described, described, described, ← map_append, ← filter_append]
    rfl
  rw [hlists]
  exact hall

theorem count_addMethodDescriptions (p : Nat) (calls : List MethodDescription) :
    ∀ s : ProtocolState N, (s.addMethodDescriptions p calls).count = s.count := by
  induction calls with
  | nil => intro s; rfl
  | cons call calls ih => ?_
  intro s
  refine (ih _).trans ?_
  simp only [protocol_addMethodDescription]
  split <;> rfl

end ProtocolState

theorem mem_described {calls : List MethodDescription} {call : MethodDescription}
    (hmem : call ∈ calls) :
    call.method ∈ described calls call.isRequiredMethod call.isInstanceMethod :=
  mem_map_of_mem (mem_filter.mpr ⟨hmem, by simp⟩)

/-! ## Looking the methods up -/

variable {p : Nat}

theorem search_of_getMethod {sel : SEL} {isRequired isInstance : Bool}
    {recursive : Bool} (hrefs : recursive = true → (s.proto p).protocols = []) {fuel : Nat}
    (hfound : s.protocol_getMethod_nolock swift sel isRequired isInstance recursive fuel p
      = some (some m)) :
    ∃ mlist, (s.proto p).getProtocolMethodList isRequired isInstance = some mlist ∧
      search_method_list mlist.methods mlist.fixedUp true sel ≠ none := by
  cases fuel with
  | zero => cases hfound
  | succ fuel => ?_
  rw [protocol_getMethod_nolock] at hfound
  split at hfound
  next => cases hfound
  split at hfound
  next m' hown =>
    obtain ⟨mlist, hlist, hsearch⟩ := Option.bind_eq_some_iff.mp hown
    obtain ⟨j, hj, _⟩ := Option.bind_eq_some_iff.mp hsearch
    exact ⟨mlist, hlist, by rw [hj]; exact Option.some_ne_none j⟩
  split at hfound
  next hrec =>
    rw [hrefs hrec] at hfound
    cases hfound
  next => cases hfound

theorem fixupProtocol_fixedUpTo : ∀ (fuel : Nat) (s : ProtocolState N) (p : Nat) {s'},
    fixupProtocol swift fuel s p = some s' → s.FixedUpTo s' := by
  intro fuel
  induction fuel with
  | zero => intro s p s' hrun; cases hrun
  | succ fuel ih => ?_
  have hloop : ∀ (qs : List Nat) (s1 : ProtocolState N) {s2}, forProtocols (fun s q =>
      if (s.proto (s.remapProtocol swift q)).fixedUp then some s
      else fixupProtocol swift fuel s (s.remapProtocol swift q)) s1 qs = some s2 →
        s1.FixedUpTo s2 := by
    intro qs
    induction qs with
    | nil => intro s1 s2 hrun; exact Option.some.inj hrun ▸ .refl s1
    | cons q qs ihq => ?_
    intro s1 s2 hrun
    rw [forProtocols] at hrun
    split at hrun
    next => cases hrun
    next s3 hone =>
      split at hone
      next => exact Option.some.inj hone ▸ ihq _ hrun
      next => exact (ih _ _ hone).trans (ihq _ hrun)
  intro s p s' hrun
  obtain ⟨s2, hloop', rfl⟩ := Option.map_eq_some_iff.mp hrun
  exact (hloop _ s hloop').trans (.fixupLists s2 p)

theorem fixupProtocolIfNeeded_fixedUpTo {fuel : Nat}
    (hrun : fixupProtocolIfNeeded swift fuel s p = some s') : s.FixedUpTo s' := by
  unfold fixupProtocolIfNeeded at hrun
  split at hrun
  next => exact Option.some.inj hrun ▸ .refl s
  next => exact fixupProtocol_fixedUpTo fuel s p hrun

variable [DecidableEq N]

theorem getProtocolMethodList_register {methods : Bool → Bool → List TypedMethod}
    (h : s.HasMethods p methods) (isRequired isInstance : Bool) :
    ((s.objc_registerProtocol p).proto p).getProtocolMethodList isRequired isInstance
        = (s.proto p).getProtocolMethodList isRequired isInstance ∧
      ((s.objc_registerProtocol p).proto p).protocols = (s.proto p).protocols ∧
      (s.objc_registerProtocol p).count = s.count := by
  rw [objc_registerProtocol, if_pos h.incomplete]
  have hproto : (s.setProto p { s.proto p with incomplete := false }).proto p
      = { s.proto p with incomplete := false } := update_self ..
  simp only [hproto]
  exact ⟨rfl, trivial, rfl⟩

/-- **The methods that were added are found** when each list was filled in ascending order of the
selectors; this is the only way to have all of them found in the protocol itself, that is without
searching incorporated protocols or where there are none. -/
theorem added_methods_are_found_iff (swift : SwiftNames N) (s : ProtocolState N) (p : Nat)
    (hp : p < s.count) (hnew : s.HasMethods p fun _ _ => []) (calls : List MethodDescription)
    (hdistinct : (calls.map MethodDescription.name).Nodup)
    (hnames : ∀ call ∈ calls, call.name ≠ 0) :
    let s' := (s.addMethodDescriptions p calls).objc_registerProtocol p
    ((∃ rank, s'.RankedBy swift rank) → Ascending calls → ∃ fuel, ∀ call ∈ calls,
      (∀ recursive, protocol_getMethod swift fuel s' p call.name
        call.isRequiredMethod call.isInstanceMethod recursive = some (some call.method)) ∧
      protocol_getMethodDescription swift fuel s' p call.name call.isRequiredMethod
        call.isInstanceMethod = some (some (call.name, call.types.getD ""))) ∧
    (∀ recursive, (recursive = true → (s.proto p).protocols = []) →
      (∀ call ∈ calls, ∃ fuel, protocol_getMethod swift fuel s' p call.name
        call.isRequiredMethod call.isInstanceMethod recursive = some (some call.method)) →
      Ascending calls) := by
  intro s'
  obtain ⟨hhas, hrefs⟩ := hnew.addMethodDescriptions calls
  -- the lists of the registered protocol
  have hlists : ∀ isRequired isInstance, (s'.proto p).getProtocolMethodList isRequired isInstance
      = if described calls isRequired isInstance = [] then none
        else some ⟨described calls isRequired isInstance, true⟩ := by
    intro isRequired isInstance
    exact (getProtocolMethodList_register hhas isRequired isInstance).1.trans
      (hhas.lists isRequired isInstance)
  have hmarked : ∀ isRequired isInstance mlist,
      (s'.proto p).getProtocolMethodList isRequired isInstance = some mlist →
        mlist = ⟨described calls isRequired isInstance, true⟩ := by
    intro isRequired isInstance mlist hm
    rw [hlists] at hm
    split at hm
    next => cases hm
    next => exact (Option.some.inj hm).symm
  -- fixing up does not touch them
  have hfixed : ∀ s'', s'.FixedUpTo s'' → ∀ isRequired isInstance,
      (s''.proto p).getProtocolMethodList isRequired isInstance
        = (s'.proto p).getProtocolMethodList isRequired isInstance := by
    intro s'' h isRequired isInstance
    refine h.lists p isRequired isInstance fun mlist hm => ?_
    rw [hmarked isRequired isInstance mlist hm]
  refine ⟨fun ⟨rank, hrank⟩ hasc => ?_, fun recursive hnone hall isRequired isInstance => ?_⟩
  · have hp' : p < s'.count := by
      rw [(getProtocolMethodList_register hhas true true).2.2,
        count_addMethodDescriptions]
      exact hp
    obtain ⟨fuel, s'', hpos, hrun, hs''⟩ := fixupProtocolIfNeeded_spec hrank hp'
    obtain ⟨fuel, rfl⟩ := exists_eq_succ_of_ne_zero (ne_of_gt hpos)
    refine ⟨fuel + 1, fun call hmem => ?_⟩
    have hin := mem_described hmem
    have hlist : (s''.proto p).getProtocolMethodList call.isRequiredMethod call.isInstanceMethod
        = some ⟨described calls call.isRequiredMethod call.isInstanceMethod, true⟩ := by
      rw [hfixed s'' hs'', hlists, if_neg (ne_nil_of_mem hin)]
    have hfound := search_of_ascending (hasc _ _) hin
    rw [show call.method.name = call.name from rfl] at hfound
    have hget : ∀ recursive, protocol_getMethod swift (fuel + 1) s' p call.name
        call.isRequiredMethod call.isInstanceMethod recursive = some (some call.method) := by
      intro recursive
      -- the protocol's own method list is searched first
      rw [protocol_getMethod, hrun]
      show s''.protocol_getMethod_nolock swift call.name _ _ recursive (fuel + 1) p = _
      rw [protocol_getMethod_nolock, if_neg (hnames call hmem), hlist, Option.bind_some, hfound]
    exact ⟨hget, by rw [protocol_getMethodDescription, hget true]; rfl⟩
  have hrefs' : (s'.proto p).protocols = (s.proto p).protocols :=
    (getProtocolMethodList_register hhas true true).2.1.trans hrefs
  have hnodup : ((described calls isRequired isInstance).map fun m => m.name).Nodup := by
    unfold described
    rw [map_map]
    exact hdistinct.sublist (filter_sublist.map _)
  refine ascending_of_search hnodup fun m hm => ?_
  obtain ⟨call, hcall, rfl⟩ := mem_map.mp hm
  obtain ⟨hmem, hflags⟩ := mem_filter.mp hcall
  obtain ⟨rfl, rfl⟩ := of_decide_eq_true hflags
  obtain ⟨fuel, hget⟩ := hall call hmem
  rw [protocol_getMethod] at hget
  cases hrun : fixupProtocolIfNeeded swift fuel s' p with
  | none => rw [hrun] at hget; cases hget
  | some s'' => ?_
  rw [hrun] at hget
  have hs'' := fixupProtocolIfNeeded_fixedUpTo hrun
  obtain ⟨mlist, hlist, hsearch⟩ := search_of_getMethod
    (fun hrec => ((hs''.refs p).trans hrefs').trans (hnone hrec)) hget
  rw [hfixed s'' hs''] at hlist
  rw [hmarked _ _ mlist hlist] at hsearch
  exact hsearch

def oneProtocol : ProtocolState Nat := (noProtocols.objc_allocateProtocol (fun _ => none) 1).2

theorem oneProtocol_new : oneProtocol.HasMethods 0 fun _ _ => [] :=
  ⟨rfl, fun isRequired isInstance => by cases isRequired <;> cases isInstance <;> rfl⟩

def twoMethods (first second : SEL) : List MethodDescription :=
  [⟨first, some "v", true, true⟩, ⟨second, none, true, true⟩]

theorem ascending_methods_are_found :
    ∃ fuel, ∀ call ∈ twoMethods 1 2,
      ProtocolState.protocol_getMethod (fun _ => none) fuel
        ((oneProtocol.addMethodDescriptions 0 (twoMethods 1 2)).objc_registerProtocol 0) 0 call.name
        call.isRequiredMethod call.isInstanceMethod true = some (some call.method) := by
  have hinv : ProtocolInv (fun _ => none)
      ((oneProtocol.addMethodDescriptions 0 (twoMethods 1 2)).objc_registerProtocol 0) :=
    (((noProtocols_image.toProtocolInv.allocate 1).addMethodDescription 0 1 (some "v") true
      true).addMethodDescription 0 2 none true true).register (by decide) (by decide +kernel)
  obtain ⟨fuel, hfuel⟩ := (added_methods_are_found_iff (fun _ => none) oneProtocol 0 (by decide)
    oneProtocol_new (twoMethods 1 2) (by decide)
    (by intro call hmem; simp only [twoMethods, mem_cons, not_mem_nil, or_false] at hmem
        rcases hmem with rfl | rfl <;> decide)).1
    (by
      obtain ⟨rank, hrank⟩ := hinv.ranked
      exact ⟨rank, fun p hp q hq =>
        ⟨(hinv.remap (hinv.refs p hp q hq).2).2.1, hrank p hp q hq⟩⟩)
    (by intro isRequired isInstance; cases isRequired <;> cases isInstance <;> decide +kernel)
  exact ⟨fuel, fun call hmem => (hfuel call hmem).1 true⟩

/-- In descending order the first one is not. -/
theorem descending_method_is_not_found :
    let s := (oneProtocol.addMethodDescriptions 0 (twoMethods 2 1)).objc_registerProtocol 0
    (s.proto 0).instanceMethods = some ⟨[⟨⟨2, 0⟩, "v"⟩, ⟨⟨1, 0⟩, ""⟩], true⟩ ∧
      protocol_getMethod (fun _ => none) 2 s 0 2 true true true = some none := by
  decide +kernel

end ObjcRuntime
