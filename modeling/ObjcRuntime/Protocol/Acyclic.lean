/-
INCORPORATED PROTOCOLS FORM NO CYCLE, UNLESS A NAME IS REGISTERED TWICE.

A protocol can only incorporate protocols that are complete, and only while
it is not: so the pointers themselves go back in time. They are followed
through the table of names, though. As long as no registration changes an
entry of the table, what a pointer leads to stays the same.
-/
import ObjcRuntime.Protocol.Model
import Mathlib.Logic.Relation

namespace ObjcRuntime

open Lib Function Option ProtocolState ProtocolT List

variable {N : Type} {swift : SwiftNames N}

/-! ## Incorporated protocols -/

/-- Protocol `p` incorporates `r`: one of its pointers leads there now. -/
def ProtocolState.Incorporates (swift : SwiftNames N) (s : ProtocolState N) (p r : Nat) : Prop :=
  p < s.count ∧ ∃ q ∈ (s.proto p).protocols, s.remapProtocol swift q = r

def ProtocolState.Acyclic (swift : SwiftNames N) (s : ProtocolState N) : Prop :=
  ∀ p, ¬ Relation.TransGen (s.Incorporates swift) p p

def ProtocolState.Terminates [DecidableEq N] (swift : SwiftNames N) (s : ProtocolState N) : Prop :=
  ∀ p < s.count, ∃ fuel,
    (∀ sel isRequiredMethod isInstanceMethod recursive,
      s.protocol_getMethod_nolock swift sel isRequiredMethod isInstanceMethod recursive fuel p
        ≠ none) ∧
    ∀ other, s.protocol_conformsToProtocol_nolock swift other fuel p ≠ none

/-- The table holds complete protocols, every complete protocol has its name in the table, and so
has every protocol that is pointed to; there is a rank that decreases along incorporated
protocols. -/
structure ProtocolInv (swift : SwiftNames N) (s : ProtocolState N) : Prop where
  table : ∀ name p, s.protocols name = some p → p < s.count ∧ (s.proto p).incomplete = false
  named : ∀ p < s.count, (s.proto p).incomplete = false →
    s.protocols (s.proto p).mangledName ≠ none
  refs : ∀ p < s.count, ∀ q ∈ (s.proto p).protocols,
    q < s.count ∧ s.protocols (s.proto q).mangledName ≠ none
  ranked : ∃ rank : Nat → Nat, ∀ p < s.count, ∀ q ∈ (s.proto p).protocols,
    rank (s.remapProtocol swift q) < rank p

structure ImageProtocols (swift : SwiftNames N) (s : ProtocolState N) : Prop extends
    ProtocolInv swift s where
  complete : ∀ p < s.count, (s.proto p).incomplete = false

def RegistersFreshName (s : ProtocolState N) : ProtocolAction N → Prop
  | .register p => (s.proto p).incomplete = true → s.protocols (s.proto p).mangledName = none
  | _ => True

def protocolSystem [DecidableEq N] (swift : SwiftNames N) :
    System (ProtocolState N) (ProtocolAction N) where
  init := ImageProtocols swift
  step := ProtocolState.perform swift

/-! ## One step -/

variable {s s' : ProtocolState N}

theorem ProtocolInv.remap (h : ProtocolInv swift s) {q : Nat}
    (hq : s.protocols (s.proto q).mangledName ≠ none) :
    s.protocols (s.proto q).mangledName = some (s.remapProtocol swift q) ∧
      s.remapProtocol swift q < s.count ∧
      (s.proto (s.remapProtocol swift q)).incomplete = false := by
  obtain ⟨r, hr⟩ := ne_none_iff_exists'.mp hq
  have hremap : s.remapProtocol swift q = r := by
    unfold remapProtocol getProtocol
    rw [hr]
    rfl
  rw [hremap]
  exact ⟨hr, h.table _ _ hr⟩

theorem update_proto_field {β : Type} (field : ProtocolT N → β) {proto : Nat → ProtocolT N}
    {p : Nat} {new : ProtocolT N} (hnew : field new = field (proto p)) (q : Nat) :
    field (update proto p new q) = field (proto q) := by
  by_cases hq : q = p
  · rw [hq, update_self, hnew]
  · rw [update_of_ne hq]

section

variable (h : ProtocolInv swift s)

include h

theorem ProtocolInv.congr (hcount : s'.count = s.count) (htable : s'.protocols = s.protocols)
    (hname : ∀ p, (s'.proto p).mangledName = (s.proto p).mangledName)
    (hincomplete : ∀ p, (s'.proto p).incomplete = (s.proto p).incomplete)
    (hprotocols : ∀ p, (s'.proto p).protocols = (s.proto p).protocols) : ProtocolInv swift s' := by
  have hremap : ∀ q, s'.remapProtocol swift q = s.remapProtocol swift q := by
    intro q
    unfold remapProtocol getProtocol
    rw [hname, htable]
  obtain ⟨rank, hrank⟩ := h.ranked
  refine ⟨fun name p hp => ?_, fun p hp hc => ?_, fun p hp q hq => ?_, rank, fun p hp q hq => ?_⟩
  · rw [htable] at hp
    rw [hcount, hincomplete]
    exact h.table name p hp
  · rw [hcount] at hp
    rw [hincomplete] at hc
    rw [htable, hname]
    exact h.named p hp hc
  · rw [hcount] at hp ⊢
    rw [hprotocols] at hq
    rw [htable, hname]
    exact h.refs p hp q hq
  rw [hcount] at hp
  rw [hprotocols] at hq
  rw [hremap]
  exact hrank p hp q hq

theorem ProtocolInv.allocate (name : N) :
    ProtocolInv swift (s.objc_allocateProtocol swift name).2 := by
  unfold objc_allocateProtocol
  split
  next => exact h
  have hold : ∀ p < s.count, update s.proto s.count
      ⟨name, true, false, [], none, none, none, none⟩ p = s.proto p :=
    fun p hp => update_of_ne (ne_of_lt hp) _ _
  have hself : update s.proto s.count ⟨name, true, false, [], none, none, none, none⟩ s.count
        = ⟨name, true, false, [], none, none, none, none⟩ := update_self ..
  obtain ⟨rank, hrank⟩ := h.ranked
  refine ⟨fun name' p hp => ?_, fun p hp hc => ?_, fun p hp q hq => ?_, rank, fun p hp q hq => ?_⟩
  · obtain ⟨hlt, hc⟩ := h.table name' p hp
    refine ⟨Nat.lt_succ_of_lt hlt, ?_⟩
    simp only [setProto, hold p hlt, hc]
  · rcases Nat.lt_or_eq_of_le (Nat.le_of_lt_succ hp) with hlt | rfl
    · simp only [setProto, hold p hlt] at hc ⊢
      exact h.named p hlt hc
    · simp only [setProto, hself] at hc
      cases hc
  · rcases Nat.lt_or_eq_of_le (Nat.le_of_lt_succ hp) with hlt | rfl
    · simp only [setProto, hold p hlt] at hq
      obtain ⟨hqlt, hqname⟩ := h.refs p hlt q hq
      simp only [setProto, hold q hqlt]
      exact ⟨Nat.lt_succ_of_lt hqlt, hqname⟩
    · simp only [setProto, hself] at hq
      cases hq
  rcases Nat.lt_or_eq_of_le (Nat.le_of_lt_succ hp) with hlt | rfl
  · simp only [setProto, hold p hlt] at hq
    obtain ⟨hqlt, _⟩ := h.refs p hlt q hq
    have := hrank p hlt q hq
    unfold remapProtocol getProtocol at this ⊢
    simp only [setProto, hold q hqlt]
    exact this
  · simp only [setProto, hself] at hq
    cases hq

theorem ProtocolInv.addProtocol {p addition : Nat} (hp : p < s.count)
    (hadd : addition < s.count) : ProtocolInv swift (s.protocol_addProtocol p addition) := by
  unfold protocol_addProtocol
  split
  next => exact h
  rename_i hinc
  split
  next => exact h
  rename_i hcomplete
  have hincomplete : (s.proto p).incomplete = true := by simpa using hinc
  have hc : (s.proto addition).incomplete = false := by simpa using hcomplete
  have hnamed := h.named addition hadd hc
  -- names and completeness stay
  have hname : ∀ q, (update s.proto p { s.proto p with
      protocols := (s.proto p).protocols ++ [addition] } q).mangledName
        = (s.proto q).mangledName := update_proto_field mangledName rfl
  have hinc' : ∀ q, (update s.proto p { s.proto p with
      protocols := (s.proto p).protocols ++ [addition] } q).incomplete
        = (s.proto q).incomplete := update_proto_field incomplete rfl
  have hremap : ∀ q, (s.setProto p { s.proto p with
      protocols := (s.proto p).protocols ++ [addition] }).remapProtocol swift q
        = s.remapProtocol swift q := by
    intro q
    unfold remapProtocol getProtocol
    simp only [setProto, hname]
  -- nothing leads to `p`, which is not complete
  have hnot : ∀ q, s.protocols (s.proto q).mangledName ≠ none →
      s.remapProtocol swift q ≠ p := by
    intro q hq heq
    have := (h.remap hq).2.2
    rw [heq, hincomplete] at this
    cases this
  obtain ⟨rank, hrank⟩ := h.ranked
  refine ⟨fun name q hq => ?_, fun q hq hc' => ?_, fun x hx q hq => ?_,
    update rank p (rank p + rank (s.remapProtocol swift addition) + 1),
    fun x hx q hq => ?_⟩
  · simp only [setProto, hinc']
    exact h.table name q hq
  · simp only [setProto, hinc', hname] at hc' ⊢
    exact h.named q hq hc'
  · simp only [setProto, hname] at hx ⊢
    by_cases hxp : x = p
    · simp only [setProto, hxp, update_self] at hq
      rcases mem_append.mp hq with hq | hq
      · exact h.refs p hp q hq
      · rw [mem_singleton.mp hq]
        exact ⟨hadd, hnamed⟩
    · simp only [setProto, update_of_ne hxp] at hq
      exact h.refs x hx q hq
  rw [hremap]
  by_cases hxp : x = p
  · simp only [setProto, hxp, update_self] at hq
    rw [hxp, update_self]
    rcases mem_append.mp hq with hq | hq
    · have := hrank p hp q hq
      rw [update_of_ne (hnot q (h.refs p hp q hq).2)]
      omega
    · rw [mem_singleton.mp hq, update_of_ne (hnot addition hnamed)]
      omega
  · simp only [setProto, update_of_ne hxp] at hq
    rw [update_of_ne hxp, update_of_ne (hnot q (h.refs x hx q hq).2)]
    exact hrank x hx q hq

theorem ProtocolInv.addMethodDescription (p : Nat) (name : SEL)
    (types : Option String) (isRequiredMethod isInstanceMethod : Bool) :
    ProtocolInv swift
      (s.protocol_addMethodDescription p name types isRequiredMethod isInstanceMethod) := by
  unfold protocol_addMethodDescription
  split
  next => exact h
  have hset : ∀ (proto : ProtocolT N) (mlist : Option ProtocolMethodList),
      (proto.setProtocolMethodList isRequiredMethod isInstanceMethod mlist).mangledName
          = proto.mangledName ∧
        (proto.setProtocolMethodList isRequiredMethod isInstanceMethod mlist).incomplete
          = proto.incomplete ∧
        (proto.setProtocolMethodList isRequiredMethod isInstanceMethod mlist).protocols
          = proto.protocols := by
    intro proto mlist
    cases isRequiredMethod <;> cases isInstanceMethod <;> exact ⟨rfl, rfl, rfl⟩
  exact h.congr rfl rfl (update_proto_field mangledName (hset _ _).1)
    (update_proto_field incomplete (hset _ _).2.1)
    (update_proto_field protocols (hset _ _).2.2)

end

variable [DecidableEq N]

theorem ProtocolInv.register (h : ProtocolInv swift s) {p : Nat} (hp : p < s.count)
    (hfresh : RegistersFreshName s (.register p)) :
    ProtocolInv swift (s.objc_registerProtocol p) := by
  unfold objc_registerProtocol
  split
  next hinc =>
    have hfree : s.protocols (s.proto p).mangledName = none := hfresh hinc
    have hname : ∀ q, (update s.proto p { s.proto p with incomplete := false } q).mangledName
        = (s.proto q).mangledName := update_proto_field mangledName rfl
    have hprotocols : ∀ q, (update s.proto p
        { s.proto p with incomplete := false } q).protocols = (s.proto q).protocols :=
      update_proto_field protocols rfl
    -- the table keeps what it has
    have hkeeps : ∀ name, s.protocols name ≠ none →
        update s.protocols (s.proto p).mangledName (some p) name = s.protocols name := by
      intro name hsome
      refine update_of_ne ?_ _ _
      rintro rfl
      exact hsome hfree
    obtain ⟨rank, hrank⟩ := h.ranked
    refine ⟨fun name q hq => ?_, fun q hq hc => ?_, fun x hx q hq => ?_, rank, fun x hx q hq => ?_⟩
    · by_cases hn : name = (s.proto p).mangledName
      · simp only [hn, update_self] at hq
        cases hq
        exact ⟨hp, by simp only [setProto, update_self]⟩
      simp only [update_of_ne hn] at hq
      obtain ⟨hlt, hc⟩ := h.table name q hq
      refine ⟨hlt, ?_⟩
      by_cases hqp : q = p
      · simp only [setProto, hqp, update_self]
      · simp only [setProto, update_of_ne hqp, hc]
    · simp only [setProto, hname]
      by_cases hqp : q = p
      · rw [hqp, update_self]
        exact some_ne_none p
      simp only [setProto, update_of_ne hqp] at hc
      rw [hkeeps _ (h.named q hq hc)]
      exact h.named q hq hc
    · simp only [setProto, hprotocols] at hq
      obtain ⟨hlt, hqname⟩ := h.refs x hx q hq
      simp only [setProto, hname]
      rw [hkeeps _ hqname]
      exact ⟨hlt, hqname⟩
    simp only [setProto, hprotocols] at hq
    obtain ⟨_, hqname⟩ := h.refs x hx q hq
    have hsame := (h.remap hqname).1
    have := hrank x hx q hq
    unfold remapProtocol getProtocol
    simp only [setProto, hname, hkeeps _ hqname, hsame, some_or, getD_some]
    exact this
  next => exact h

theorem ProtocolInv.step (h : ProtocolInv swift s) {a : ProtocolAction N}
    (hfresh : RegistersFreshName s a) (hstep : s.perform swift a = some s') :
    ProtocolInv swift s' := by
  cases a with
  | allocate name => exact some.inj hstep ▸ h.allocate name
  | addProtocol p addition =>
    simp only [perform] at hstep
    split at hstep
    next hlt => exact some.inj hstep ▸ h.addProtocol hlt.1 hlt.2
    next => cases hstep
  | addMethodDescription p name types isRequiredMethod isInstanceMethod =>
    simp only [perform] at hstep
    split at hstep
    next => exact some.inj hstep ▸
      h.addMethodDescription p name types isRequiredMethod isInstanceMethod
    next => cases hstep
  | register p => ?_
  simp only [perform] at hstep
  split at hstep
  next hlt => exact some.inj hstep ▸ h.register hlt hfresh
  next => cases hstep

/-! ## Termination -/

omit [DecidableEq N] in
theorem ProtocolInv.acyclic (h : ProtocolInv swift s) : s.Acyclic swift := by
  obtain ⟨rank, hrank⟩ := h.ranked
  have hdown : ∀ p r, Relation.TransGen (s.Incorporates swift) p r → rank r < rank p := by
    intro p r hpr
    induction hpr with
    | single hstep =>
      obtain ⟨hp, q, hq, rfl⟩ := hstep
      exact hrank _ hp q hq
    | tail _ hstep ih =>
      obtain ⟨hp, q, hq, rfl⟩ := hstep
      exact lt_trans (hrank _ hp q hq) ih
  exact fun p hp => lt_irrefl _ (hdown p p hp)

theorem searchProtocols_ne_none {β : Type} {search : Nat → Option (Option β)} {qs : List Nat}
    (h : ∀ q ∈ qs, search q ≠ none) : searchProtocols search qs ≠ none := by
  induction qs with
  | nil => exact some_ne_none _
  | cons q qs ih => ?_
  rw [searchProtocols]
  cases hq : search q with
  | none => exact absurd hq (h q mem_cons_self)
  | some found =>
    cases found with
    | some found => exact some_ne_none _
    | none => exact ih fun q' hq' => h q' (mem_cons_of_mem q hq')

section

variable {rank : Nat → Nat}

omit [DecidableEq N] in
theorem getMethod_terminates (h : ProtocolInv swift s)
    (hrank : ∀ p < s.count, ∀ q ∈ (s.proto p).protocols, rank (s.remapProtocol swift q) < rank p)
    (sel : SEL) (isRequiredMethod isInstanceMethod : Bool) :
    ∀ (fuel p : Nat) (recursive : Bool), p < s.count → rank p < fuel →
      s.protocol_getMethod_nolock swift sel isRequiredMethod isInstanceMethod recursive fuel p
        ≠ none := by
  intro fuel
  induction fuel with
  | zero => intro p recursive _ hlt; exact absurd hlt (Nat.not_lt_zero _)
  | succ fuel ih => ?_
  intro p recursive hp hlt
  rw [protocol_getMethod_nolock]
  split
  · exact some_ne_none _
  split
  · exact some_ne_none _
  split
  · refine searchProtocols_ne_none fun q hq => ?_
    have hq' := hrank p hp q hq
    exact ih _ true (h.remap (h.refs p hp q hq).2).2.1 (by omega)
  · exact some_ne_none _

theorem conformsToProtocol_terminates (h : ProtocolInv swift s)
    (hrank : ∀ p < s.count, ∀ q ∈ (s.proto p).protocols, rank (s.remapProtocol swift q) < rank p)
    (other : Nat) : ∀ fuel p : Nat, p < s.count → rank p < fuel →
      s.protocol_conformsToProtocol_nolock swift other fuel p ≠ none := by
  intro fuel
  induction fuel with
  | zero => intro p _ hlt; exact absurd hlt (Nat.not_lt_zero _)
  | succ fuel ih => ?_
  intro p hp hlt
  rw [protocol_conformsToProtocol_nolock]
  split
  · exact some_ne_none _
  refine searchProtocols_ne_none fun q hq => ?_
  split
  · exact some_ne_none _
  · have hq' := hrank p hp q hq
    exact ih _ (h.remap (h.refs p hp q hq).2).2.1 (by omega)

end

theorem ProtocolInv.terminates (h : ProtocolInv swift s) : s.Terminates swift := by
  intro p hp
  obtain ⟨rank, hrank⟩ := h.ranked
  exact ⟨rank p + 1, fun sel isRequiredMethod isInstanceMethod recursive =>
      getMethod_terminates h hrank sel isRequiredMethod isInstanceMethod _ p recursive hp
        (Nat.lt_succ_self _),
    fun other => conformsToProtocol_terminates h hrank other _ p hp (Nat.lt_succ_self _)⟩

/-! ## Runs -/

/-- **Incorporated protocols stay acyclic, and the functions that follow them terminate**, in
every run in which no name is registered twice. -/
theorem protocols_stay_acyclic (swift : SwiftNames N) (s : ProtocolState N)
    (hs : ImageProtocols swift s) (calls : List (ProtocolAction N))
    (hfresh : (protocolSystem swift).AllSteps RegistersFreshName s calls) :
    (protocolSystem swift).AllStates (fun s => s.Acyclic swift ∧ s.Terminates swift) s calls := by
  have hinv : (protocolSystem swift).AllStates (ProtocolInv swift) s calls :=
    System.AllSteps.allStates (fun s a s' h hfresh hstep => h.step hfresh hstep) calls
      hs.toProtocolInv hfresh
  exact hinv.mono (fun s h => ⟨h.acyclic, h.terminates⟩) calls

def noProtocols : ProtocolState Nat where
  proto := fun _ => ⟨0, false, false, [], none, none, none, none⟩
  count := 0
  protocols := fun _ => none

theorem noProtocols_image : ImageProtocols (fun _ => none) noProtocols where
  table := nofun
  named := fun _ h => absurd h (Nat.not_lt_zero _)
  refs := fun _ h => absurd h (Nat.not_lt_zero _)
  ranked := ⟨fun _ => 0, fun _ h => absurd h (Nat.not_lt_zero _)⟩
  complete := fun _ h => absurd h (Nat.not_lt_zero _)

instance (s : ProtocolState N) : DecidablePred (RegistersFreshName s) := fun a =>
  match a with
  | .register p => inferInstanceAs (Decidable
      ((s.proto p).incomplete = true → s.protocols (s.proto p).mangledName = none))
  | .allocate _ => .isTrue trivial
  | .addProtocol _ _ => .isTrue trivial
  | .addMethodDescription _ _ _ _ _ => .isTrue trivial

theorem two_protocols_are_acyclic :
    let calls : List (ProtocolAction Nat) :=
      [.allocate 1, .register 0, .allocate 2, .addProtocol 1 0, .register 1]
    (protocolSystem fun _ => none).AllSteps RegistersFreshName noProtocols calls ∧
      (protocolSystem fun _ => none).AllStates
        (fun s => s.Acyclic (fun _ => none) ∧ s.Terminates fun _ => none) noProtocols calls := by
  intro calls
  have hfresh : (protocolSystem fun _ => none).AllSteps RegistersFreshName noProtocols calls := by
    decide +kernel
  exact ⟨hfresh, protocols_stay_acyclic (fun _ => none) noProtocols noProtocols_image calls hfresh⟩

/-- Two protocols are allocated under one name; the second incorporates the first, and its
registration takes over the name. -/
def sameNameCalls : List (ProtocolAction Nat) :=
  [.allocate 1, .allocate 1, .register 0, .addProtocol 1 0, .register 1]

/-- **A protocol that incorporates itself**: the search for a method never ends. -/
theorem same_name_makes_cycle :
    ∃ s, (protocolSystem fun _ => none).runFrom (fun _ => True) noProtocols sameNameCalls = some s ∧
      Relation.TransGen (s.Incorporates fun _ => none) 1 1 ∧
      ∀ fuel, s.protocol_getMethod_nolock (fun _ => none) 5 true true true fuel 1 = none := by
  have hrun : ((protocolSystem fun _ => none).runFrom (fun _ => True) noProtocols
      sameNameCalls).map (fun s => (s.count, s.proto 1, s.remapProtocol (fun _ => none) 0))
      = some (2, ⟨1, false, false, [0], none, none, none, none⟩, 1) := by
    decide +kernel
  obtain ⟨s, hs, hobs⟩ := map_eq_some_iff.mp hrun
  simp only [Prod.mk.injEq] at hobs
  obtain ⟨hcount, hproto, hremap⟩ := hobs
  refine ⟨s, hs, .single ⟨by omega, 0, by rw [hproto]; exact mem_singleton_self 0, hremap⟩,
    fun fuel => ?_⟩
  induction fuel with
  | zero => rfl
  | succ fuel ih => ?_
  rw [protocol_getMethod_nolock, hproto]
  simp only [getProtocolMethodList, if_true, bind_none,
    searchProtocols, hremap, ih]
  rfl

end ObjcRuntime
