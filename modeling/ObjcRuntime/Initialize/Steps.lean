/-
EVERY STEP KEEPS THE INVARIANT OF +initialize.
-/
import ObjcRuntime.Initialize.Inv

namespace ObjcRuntime

open Lib Function List Option InitState

variable {C T : Type}

namespace InitState

/-! ## The thread's list -/

variable {cls : C} {slots : List (Option C)}

theorem fillSlot_perm {slots' : List (Option C)} (h : fillSlot cls slots = some slots') :
    slots'.reduceOption.Perm (cls :: slots.reduceOption) := by
  induction slots generalizing slots' with
  | nil => cases h
  | cons slot slots ih => ?_
  cases slot with
  | none =>
    cases h
    simp
  | some d =>
    rw [fillSlot, map_eq_some_iff] at h
    obtain ⟨slots1, h1, rfl⟩ := h
    exact ((ih h1).cons d).trans (.swap cls d _)

theorem reduceOption_replicate_none (n : Nat) :
    (replicate n (none : Option C)).reduceOption = [] := by
  induction n with
  | zero => rfl
  | succ n ih => rw [replicate_succ, reduceOption_cons_of_none, ih]

variable [DecidableEq C]

theorem setThisThreadIsInitializingClass_spec (h : some cls ∉ slots) :
    ∃ slots', setThisThreadIsInitializingClass slots cls = some slots' ∧
      slots'.reduceOption.Perm (cls :: slots.reduceOption) := by
  unfold setThisThreadIsInitializingClass
  have hmade : some cls ∉ (if slots = [] then replicate 4 none else slots) ∧
      (if slots = [] then replicate 4 none else slots).reduceOption = slots.reduceOption := by
    split
    next hnil =>
      rw [hnil, reduceOption_replicate_none]
      exact ⟨by simp, rfl⟩
    next => exact ⟨h, rfl⟩
  rw [if_neg hmade.1, ← hmade.2]
  split
  next slots' hfill => exact ⟨slots', rfl, fillSlot_perm hfill⟩
  refine ⟨_, rfl, ?_⟩
  rw [reduceOption_append, reduceOption_cons_of_some, reduceOption_replicate_none]
  exact perm_append_singleton _ _

theorem setThisThreadIsNotInitializingClass_spec (h : some cls ∈ slots) :
    ∃ slots', setThisThreadIsNotInitializingClass cls slots = some slots' ∧
      slots.reduceOption.Perm (cls :: slots'.reduceOption) := by
  induction slots with
  | nil => cases h
  | cons slot slots ih => ?_
  rw [setThisThreadIsNotInitializingClass]
  split
  next heq =>
    subst heq
    exact ⟨_, rfl, by simp⟩
  rename_i hne
  obtain ⟨slots', hrun, hperm⟩ := ih (by
    rcases mem_cons.mp h with heq | h
    · exact absurd heq.symm hne
    · exact h)
  refine ⟨slot :: slots', by rw [hrun]; rfl, ?_⟩
  cases slot with
  | none => simpa using hperm
  | some d =>
    exact (hperm.cons d).trans (.swap cls d _)

/-! ## A step of one thread -/

variable {tree : ClassTree C} {s s' : InitState C T}

omit [DecidableEq C] in
theorem InitInv.advance (h : s.InitInv tree) (t : T) (hprogress : s.Progress s')
    (hstack : ∀ t', t' ≠ t → s'.stack t' = s.stack t')
    (hslots : ∀ t', t' ≠ t → s'.metaclasses t' = s.metaclasses t')
    (hmine : ∀ t' c, t' ≠ t → s'.owner c = some t' →
      s.owner c = some t' ∧ s'.initializing c = s.initializing c)
    (hpending : ∀ t' c, t' ≠ t → s.owner c = some t' → ∀ p, c ∈ s'.pending p ↔ c ∈ s.pending p)
    (hsent : ∀ t' c, s.owner c ≠ some t → .sent t' c ∈ s'.trace → .sent t' c ∈ s.trace)
    (hglobal : s'.GlobalInv tree) (hself : s'.ThreadInv tree t) : s'.InitInv tree := by
  refine ⟨hglobal, fun t' => ?_⟩
  by_cases ht : t' = t
  · rw [ht]
    exact hself
  refine (h.thread t').frame hprogress ⟨hstack t' ht, hslots t' ht, fun c => hmine t' c ht,
    fun c => hpending t' c ht, fun t'' c ho => hsent t'' c ?_⟩
  rw [ho]
  exact fun heq => ht (some.inj heq)

variable {rest : List (InitFrame C)}

omit [DecidableEq C] in
theorem frameOK_below {top f : InitFrame C} (h : StackOK tree (top :: rest)) (hf : f ∈ rest) :
    s.FrameOK tree f := by
  unfold FrameOK
  rcases h.below f hf with hpc | hpc <;> (rw [hpc]; trivial)

variable [DecidableEq T] {t : T}

theorem InitInv.trySet (h : s.InitInv tree) (hstack : s.stack t = ⟨cls, .trySet⟩ :: rest) :
    (s.trySetInitializing t cls rest).InitInv tree := by
  have hthread := h.thread t
  have hglobal := h.global
  unfold trySetInitializing
  split
  next hfree =>
    have howner : s.owner cls = none := (hglobal.owned cls).mpr hfree
    have hne : ∀ c, s.initializing c = true → c ≠ cls := by
      rintro c hc rfl
      rw [hfree.2] at hc
      cases hc
    have hne' : ∀ c t', s.owner c = some t' → c ≠ cls := by
      rintro c t' hc rfl
      rw [howner] at hc
      cases hc
    have hsuper : s.SuperOK tree t cls := hthread.top _ rest hstack rfl
    have hnotpending : ∀ p, cls ∉ s.pending p :=
      fun p hp => hne cls (hglobal.pending p cls hp).2.1 rfl
    generalize hs' : ({ s.setStack t (⟨cls, .record⟩ :: rest) with
      initializing := update s.initializing cls true
      owner := update s.owner cls (some t) } : InitState C T) = s'
    have hinitialized : s'.initialized = s.initialized := by rw [← hs']; rfl
    have hinitializing : s'.initializing = update s.initializing cls true := by rw [← hs']
    have howner' : s'.owner = update s.owner cls (some t) := by rw [← hs']
    have hpending : s'.pending = s.pending := by rw [← hs']; rfl
    have htrace : s'.trace = s.trace := by rw [← hs']; rfl
    have hslots : s'.metaclasses = s.metaclasses := by rw [← hs']; rfl
    have hstack' : s'.stack = update s.stack t (⟨cls, .record⟩ :: rest) := by
      rw [← hs']
      rfl
    have hi : ∀ c, c ≠ cls → s'.initializing c = s.initializing c := by
      intro c hc
      rw [hinitializing, update_of_ne hc]
    have ho : ∀ c, c ≠ cls → s'.owner c = s.owner c := by
      intro c hc
      rw [howner', update_of_ne hc]
    have hicls : s'.initializing cls = true := by rw [hinitializing, update_self]
    have hocls : s'.owner cls = some t := by rw [howner', update_self]
    have hprogress : s.Progress s' := ⟨fun c hc => hinitialized ▸ hc,
      fun c hc => .inl ((hi c (hne c hc)).trans hc),
      fun c t' hc => (ho c (hne' c t' hc)).trans hc, fun e he => htrace ▸ he⟩
    have hself : s'.stack t = ⟨cls, .record⟩ :: rest := by rw [hstack', update_self]
    have hagenda : agendaOf (s'.stack t) = cls :: agendaOf (s.stack t) := by
      rw [hself, hstack]
      rfl
    refine h.advance t hprogress (fun t' ht => ?_) (fun t' _ => by rw [hslots]) (fun t' c ht hc => ?_)
      (fun t' c _ _ p => by rw [hpending]) (fun t' c _ hsent => htrace ▸ hsent) ?_ ?_
    · rw [hstack', update_of_ne ht]
    · have hcne : c ≠ cls := by
        rintro rfl
        rw [hocls] at hc
        exact ht (some.inj hc).symm
      rw [ho c hcne] at hc
      exact ⟨hc, hi c hcne⟩
    · refine ⟨fun c hc => ?_, fun c => ?_, fun c t' hc hown => ?_, ?_, ?_, fun p c hc => ?_, ?_,
        fun t' c hc => ?_, htrace ▸ hglobal.sentOnce⟩
      · by_cases heq : c = cls
        · rw [hinitialized, heq, hfree.1] at hc
          cases hc.1
        · rw [hinitialized, hi c heq] at hc
          exact hglobal.flags c hc
      · by_cases heq : c = cls
        · rw [heq, hocls, hicls]
          simp
        · rw [ho c heq, hinitialized, hi c heq]
          exact hglobal.owned c
      · by_cases heq : c = cls
        · rw [heq] at hown ⊢
          rw [hocls] at hown
          cases hown
          exact hprogress.superOK hsuper
        · rw [hi c heq] at hc
          rw [ho c heq] at hown
          exact hprogress.superOK (hglobal.superOK c t' hc hown)
      · rw [hinitialized]
        exact hglobal.superInitialized
      · rw [hinitialized]
        exact fun c hc => hprogress.returned (hglobal.returned c hc)
      · rw [hpending] at hc
        obtain ⟨h1, h2, h3, h4, h5⟩ := hglobal.pending p c hc
        rw [hi c (hne c h2), hi p (hne p h3), ho c (hne c h2), ho p (hne p h3)]
        exact ⟨h1, h2, h3, h4, hprogress.returned h5⟩
      · rw [hpending]
        exact hglobal.pendingNodup
      · rw [htrace] at hc
        exact hprogress.owner c t' (hglobal.sent t' c hc)
    have hbelow := hthread.stackOK
    rw [hstack] at hbelow
    have hfresh : cls ∉ agendaOf (s.stack t) :=
      fun hmem => hne cls (hthread.agenda cls hmem).1 rfl
    refine ⟨?_, fun c hc => ?_, fun c hc hown => ?_, fun f hf => ?_, ?_, fun f rest' hf hpc => ?_,
      ?_, fun c => ?_⟩
    · rw [hagenda]
      exact nodup_cons.mpr ⟨hfresh, hthread.agendaNodup⟩
    · rw [hagenda] at hc
      rw [hpending]
      rcases mem_cons.mp hc with rfl | hc
      · exact ⟨hicls, hocls, hnotpending⟩
      obtain ⟨h1, h2, h3⟩ := hthread.agenda c hc
      rw [hi c (hne c h1), ho c (hne c h1)]
      exact ⟨h1, h2, h3⟩
    · rw [hagenda, hpending]
      by_cases heq : c = cls
      · exact .inl (heq ▸ mem_cons_self)
      rw [hi c heq] at hc
      rw [ho c heq] at hown
      exact (hthread.placed c hc hown).imp (mem_cons_of_mem _) id
    · rw [hself] at hf
      have hnotsent : s'.NotSent cls := by
        intro t' hsent
        rw [htrace] at hsent
        exact hne' cls t' (hglobal.sent t' cls hsent) rfl
      rcases mem_cons.mp hf with rfl | hf
      · exact hnotsent
      · exact frameOK_below hbelow hf
    · rw [hself]
      exact hbelow.replace
    · rw [hself] at hf
      injection hf with hf
      rw [← hf] at hpc
      cases hpc
    · rw [hslots]
      exact hthread.slotsNodup
    rw [hslots, hself, hthread.slots c, hstack]
    have hrec : recording (⟨cls, .trySet⟩ :: rest : List (InitFrame C)) = none := rfl
    have hrec' : recording (⟨cls, .record⟩ :: rest : List (InitFrame C)) = some cls := rfl
    rw [hrec, hrec']
    by_cases heq : c = cls
    · rw [heq, hfree.2]
      simp
    · rw [hi c heq, ho c heq]
      simp [Ne.symm heq]
  rename_i hbusy
  refine h.goOn s.lock hstack rfl ?_ nofun nofun
    nofun
  show s.initialized cls = true ∨ s.initializing cls = true
  by_contra hnone
  simp only [not_or, Bool.not_eq_true] at hnone
  exact hbusy hnone

/-! ## Steps with the class in hand -/

variable {pc : InitPC C}

omit [DecidableEq C] in
theorem InitInv.advance_top (h : s.InitInv tree) {pc' : InitPC C} (slots : List (Option C))
    (extra : List (InitEvent C T)) (hstack : s.stack t = ⟨cls, pc⟩ :: rest)
    (hold : frameAgenda ⟨cls, pc⟩ = [cls]) (hnew : frameAgenda ⟨cls, pc'⟩ = [cls])
    (hs' : s' = { s.setStack t (⟨cls, pc'⟩ :: rest) with
      metaclasses := update s.metaclasses t slots
      trace := s.trace ++ extra })
    (hextra : extra = [] ∨ (∃ e, extra = [e] ∧ sentClass e = none) ∨
      extra = [.sent t cls] ∧ s.NotSent cls)
    (hok : s'.FrameOK tree ⟨cls, pc'⟩) (hslotsNodup : slots.reduceOption.Nodup)
    (hslots : ∀ c, some c ∈ slots ↔ s.initializing c = true ∧ s.owner c = some t ∧
      recording (⟨cls, pc'⟩ :: rest) ≠ some c) : s'.InitInv tree := by
  subst hs'
  have hthread := h.thread t
  have hglobal := h.global
  have hcls := (hthread.agenda cls (by
    rw [hstack]
    exact mem_append_left _ (hold ▸ mem_cons_self)))
  have hself : update s.stack t (⟨cls, pc'⟩ :: rest) t = ⟨cls, pc'⟩ :: rest := update_self ..
  have hagenda : agendaOf (update s.stack t (⟨cls, pc'⟩ :: rest) t) = agendaOf (s.stack t) := by
    rw [hself, hstack]
    exact congrArg (· ++ agendaOf rest) (hnew.trans hold.symm)
  have hmore : ∀ e ∈ s.trace, e ∈ s.trace ++ extra := fun _ he => mem_append_left _ he
  have hended : ∀ {c}, s.Ended c → ∃ t, .returned t c ∈ s.trace ++ extra ∨
      .threw t c ∈ s.trace ++ extra := fun h => h.imp fun _ => Or.imp (hmore _) (hmore _)
  have hsent : ∀ t' c, .sent t' c ∈ s.trace ++ extra → .sent t' c ∈ s.trace ∨ t' = t ∧ c = cls := by
    intro t' c hc
    rcases mem_append.mp hc with hc | hc
    · exact .inl hc
    rcases hextra with rfl | ⟨e, rfl, he⟩ | ⟨rfl, -⟩
    · cases hc
    · rw [← mem_singleton.mp hc] at he
      cases he
    · simp only [mem_singleton, InitEvent.sent.injEq] at hc
      exact .inr hc
  have hbelow := hthread.stackOK
  rw [hstack] at hbelow
  refine h.advance t ⟨fun _ => id, fun _ h => .inl h, fun _ _ => id, hmore⟩
    (fun t' ht => update_of_ne ht _ _) (fun t' ht => update_of_ne ht _ _)
    (fun _ _ _ hc => ⟨hc, rfl⟩) (fun _ _ _ _ _ => .rfl) (fun t' c hc hmem => ?_) ?_ ?_
  · rcases hsent t' c hmem with hmem | ⟨-, rfl⟩
    · exact hmem
    · exact absurd hcls.2.1 hc
  · refine ⟨hglobal.flags, hglobal.owned, hglobal.superOK, hglobal.superInitialized,
      fun c hc => hended (hglobal.returned c hc), fun p c hc => ?_, hglobal.pendingNodup,
      fun t' c hc => ?_, ?_⟩
    · obtain ⟨h1, h2, h3, h4, h5⟩ := hglobal.pending p c hc
      exact ⟨h1, h2, h3, h4, hended h5⟩
    · rcases hsent t' c hc with hc | ⟨rfl, rfl⟩
      · exact hglobal.sent t' c hc
      · exact hcls.2.1
    rw [filterMap_append]
    rcases hextra with rfl | ⟨e, rfl, he⟩ | ⟨rfl, hnot⟩
    · simpa using hglobal.sentOnce
    · rw [filterMap_cons_none he, filterMap_nil, append_nil]
      exact hglobal.sentOnce
    -- the class's +initialize was not sent before
    refine nodup_append.mpr ⟨hglobal.sentOnce, by simp [sentClass], fun a ha b hb hab => ?_⟩
    obtain ⟨e, he, hea⟩ := mem_filterMap.mp ha
    obtain rfl : b = cls := by simpa [sentClass] using hb
    cases e with
    | sent t' c =>
      injection hea with hea
      rw [hea, hab] at he
      exact hnot t' he
    | returned t' c | threw t' c => cases hea
  refine ⟨hagenda ▸ hthread.agendaNodup, fun c hc => ?_, fun c hc ho => ?_, fun f hf => ?_, ?_,
    fun f rest' hf hpc => ?_, ?_, fun c => ?_⟩
  · exact hthread.agenda c (hagenda ▸ hc)
  · show c ∈ agendaOf (update s.stack t (⟨cls, pc'⟩ :: rest) t) ∨ _
    rw [hagenda]
    exact hthread.placed c hc ho
  · change f ∈ update s.stack t _ t at hf
    rw [hself] at hf
    rcases mem_cons.mp hf with rfl | hf
    · exact hok
    · exact frameOK_below hbelow hf
  · show StackOK tree (update s.stack t _ t)
    rw [hself]
    exact hbelow.replace
  · injection hself.symm.trans hf with hf
    rw [← hf] at hpc
    rw [show pc' = .trySet from hpc] at hnew
    cases hnew
  · show (update s.metaclasses t slots t).reduceOption.Nodup
    rw [update_self]
    exact hslotsNodup
  show some c ∈ update s.metaclasses t slots t ↔ _ ∧ _ ∧ recording (update s.stack t _ t) ≠ _
  rw [hself, update_self]
  exact hslots c

section

variable (h : s.InitInv tree)

include h

omit [DecidableEq C] in
theorem InitInv.advance_record {pc' : InitPC C} {e : InitEvent C T}
    (hstack : s.stack t = ⟨cls, pc⟩ :: rest) (hold : frameAgenda ⟨cls, pc⟩ = [cls])
    (hnew : frameAgenda ⟨cls, pc'⟩ = [cls]) (hpc : pc ≠ .record) (hpc' : pc' ≠ .record)
    (he : sentClass e = none ∨ e = .sent t cls ∧ s.NotSent cls)
    (hok : ({ s.setStack t (⟨cls, pc'⟩ :: rest) with
      trace := s.trace ++ [e] } : InitState C T).FrameOK tree ⟨cls, pc'⟩) :
    ({ s.setStack t (⟨cls, pc'⟩ :: rest) with
      trace := s.trace ++ [e] } : InitState C T).InitInv tree := by
  have hthread := h.thread t
  refine h.advance_top (s.metaclasses t) [e] hstack hold hnew (by rw [update_eq_self]; rfl) ?_ hok
    hthread.slotsNodup fun c => ?_
  · rcases he with he | ⟨rfl, hnot⟩
    · exact .inr (.inl ⟨e, rfl, he⟩)
    · exact .inr (.inr ⟨rfl, hnot⟩)
  have hslots := hthread.slots c
  rw [hstack, recording_of_ne hpc] at hslots
  rw [recording_of_ne hpc']
  exact hslots

theorem InitInv.record (hstack : s.stack t = ⟨cls, .record⟩ :: rest) :
    ∃ slots, setThisThreadIsInitializingClass (s.metaclasses t) cls = some slots ∧
      ({ s.setStack t (⟨cls, .callInitialize⟩ :: rest) with
        metaclasses := update s.metaclasses t slots } : InitState C T).InitInv tree := by
  have hthread := h.thread t
  have hcls := hthread.agenda cls (by
    rw [hstack]
    exact mem_cons_self)
  have hout : some cls ∉ s.metaclasses t := by
    rw [hthread.slots, hstack]
    exact fun hin => hin.2.2 rfl
  obtain ⟨slots, hset, hperm⟩ := setThisThreadIsInitializingClass_spec hout
  refine ⟨slots, hset, h.advance_top slots [] hstack rfl
    (rfl : frameAgenda ⟨cls, .callInitialize⟩ = [cls]) ?_ (.inl rfl)
    ?_ ?_ fun c => ?_⟩
  · rw [append_nil]
    rfl
  · exact hthread.frames ⟨cls, .record⟩ (hstack ▸ mem_cons_self)
  · refine hperm.nodup_iff.mpr (nodup_cons.mpr ⟨?_, hthread.slotsNodup⟩)
    rw [reduceOption_mem_iff]
    exact hout
  have hrec : recording (⟨cls, .record⟩ :: rest : List (InitFrame C)) = some cls := rfl
  have hrec' : recording (⟨cls, .callInitialize⟩ :: rest : List (InitFrame C)) = none := rfl
  rw [← reduceOption_mem_iff, hperm.mem_iff, mem_cons, reduceOption_mem_iff,
    hthread.slots, hstack, hrec, hrec']
  by_cases heq : c = cls
  · rw [heq]
    simp [hcls.1, hcls.2.1]
  · simp [heq, Ne.symm heq]

theorem InitInv.unwind (hstack : s.stack t = ⟨cls, .lockFinish⟩ :: rest) :
    (s.setStack t (⟨cls, .lockFinish⟩ :: rest.dropWhile (·.pc = .trySet))).InitInv tree := by
  have hthread := h.thread t
  have hbelow := hthread.stackOK
  rw [hstack] at hbelow
  refine h.restack s.lock ?_ (fun f hf => ?_) hbelow.unwind (fun f rest' hf hpc => ?_) ?_
  · rw [hstack]
    exact congrArg (cls :: ·) (agendaOf_unwind rest)
  · refine hthread.frames f (hstack ▸ ?_)
    rcases mem_cons.mp hf with rfl | hf
    · exact mem_cons_self
    · exact mem_cons_of_mem _ ((dropWhile_sublist _).subset hf)
  · injection hf with hf
    rw [← hf] at hpc
    cases hpc
  · rw [hstack]
    rfl

/-! ## Marking classes -/

theorem InitInv.finishAfter {p : C}
    (hstack : s.stack t = ⟨cls, .lockFinish⟩ :: rest) (hp : tree.superclass cls = some p)
    (hnot : s.initialized p = false) :
    ({ s.setStack t rest with
      pending := update s.pending p (cls :: s.pending p) } : InitState C T).InitInv tree := by
  have hthread := h.thread t
  have hglobal := h.global
  have hbelow := hthread.stackOK
  rw [hstack] at hbelow
  have hagenda : agendaOf (s.stack t) = cls :: agendaOf rest := by
    rw [hstack]
    rfl
  obtain ⟨hicls, hocls, hnotpending⟩ := hthread.agenda cls (hagenda ▸ mem_cons_self)
  have hnodup := hthread.agendaNodup
  rw [hagenda] at hnodup
  have hreturned : s.Ended cls := hthread.frames ⟨cls, .lockFinish⟩ (hstack ▸ mem_cons_self)
  have hsuper : s.initializing p = true ∧ s.owner p = some t := by
    rcases hglobal.superOK cls t hicls hocls p hp with hfalse | hsuper
    · rw [hnot] at hfalse
      cases hfalse
    · exact hsuper
  have hmem : ∀ c q, c ∈ update s.pending p (cls :: s.pending p) q ↔
      c ∈ s.pending q ∨ q = p ∧ c = cls := by
    intro c q
    by_cases hq : q = p
    · rw [hq, update_self, mem_cons]
      tauto
    · rw [update_of_ne hq]
      tauto
  have hself : ({ s.setStack t rest with
      pending := update s.pending p (cls :: s.pending p) } : InitState C T).stack t
      = rest := update_self ..
  refine h.advance t ⟨fun _ => id, fun _ h => .inl h, fun _ _ => id, fun _ => id⟩
    (fun t' ht => update_of_ne ht _ _) (fun _ _ => rfl) (fun _ _ _ hc => ⟨hc, rfl⟩)
    (fun t' c ht hc q => ?_) (fun _ _ _ => id) ?_ ?_
  · rw [show ({ s.setStack t rest with
      pending := update s.pending p (cls :: s.pending p) } : InitState C T).pending
        = update s.pending p (cls :: s.pending p) from rfl, hmem]
    refine ⟨fun hor => hor.elim id fun heq => ?_, .inl⟩
    rw [heq.2, hocls] at hc
    exact absurd (some.inj hc).symm ht
  · refine { hglobal with pending := fun q c hc => ?_, pendingNodup := fun q => ?_ }
    · rcases (hmem c q).mp hc with hc | ⟨rfl, rfl⟩
      · exact hglobal.pending q c hc
      · exact ⟨hp, hicls, hsuper.1, hocls.trans hsuper.2.symm, hreturned⟩
    show (update s.pending p (cls :: s.pending p) q).Nodup
    by_cases hq : q = p
    · rw [hq, update_self]
      exact nodup_cons.mpr ⟨hnotpending p, hglobal.pendingNodup p⟩
    · rw [update_of_ne hq]
      exact hglobal.pendingNodup q
  refine ⟨?_, ?_, ?_, ?_, ?_, ?_, hthread.slotsNodup, fun c => ?_⟩
  · rw [hself]
    exact (nodup_cons.mp hnodup).2
  · rw [hself]
    intro c hc
    obtain ⟨h1, h2, h3⟩ := hthread.agenda c (hagenda ▸ mem_cons_of_mem _ hc)
    refine ⟨h1, h2, fun q hq => ?_⟩
    rcases (hmem c q).mp hq with hq | ⟨-, rfl⟩
    · exact h3 q hq
    · exact (nodup_cons.mp hnodup).1 hc
  · rw [hself]
    intro c hc ho
    have hplaced := hthread.placed c hc ho
    rw [hagenda] at hplaced
    rcases hplaced with hc | ⟨q, hq⟩
    · rcases mem_cons.mp hc with rfl | hc
      · exact .inr ⟨p, (hmem c p).mpr (.inr ⟨rfl, rfl⟩)⟩
      · exact .inl hc
    · exact .inr ⟨q, (hmem c q).mpr (.inl hq)⟩
  · rw [hself]
    exact fun f hf => frameOK_below hbelow hf
  · rw [hself]
    exact hbelow.tail
  · rw [hself]
    exact hthread.superOK_of_done hstack (.inr ⟨hicls, hocls⟩)
  rw [hself, recording_below hbelow]
  have hslots := hthread.slots c
  rw [hstack] at hslots
  exact hslots

theorem InitInv.finishOne {caller c : C} {work : List C}
    (hstack : s.stack t = ⟨caller, .finish (c :: work)⟩ :: rest) :
    (s.finishInitializing t caller c work rest).InitInv tree := by
  have hthread := h.thread t
  have hglobal := h.global
  have hbelow := hthread.stackOK
  rw [hstack] at hbelow
  have hagenda : agendaOf (s.stack t) = c :: (work ++ agendaOf rest) := by
    rw [hstack]
    rfl
  obtain ⟨hic, hoc, hnotpending⟩ := hthread.agenda c (hagenda ▸ mem_cons_self)
  have hnodup := hthread.agendaNodup
  rw [hagenda] at hnodup
  have hframe : (s.initialized caller = true ∨ caller ∈ c :: work) ∧
      ∀ x ∈ c :: work, s.Ended x ∧ ∀ p, tree.superclass x = some p → s.initialized p = true :=
    hthread.frames ⟨caller, .finish (c :: work)⟩ (hstack ▸ mem_cons_self)
  have hin : some c ∈ s.metaclasses t := by
    rw [hthread.slots, hstack]
    exact ⟨hic, hoc, nofun⟩
  obtain ⟨slots, hclear, hperm⟩ := setThisThreadIsNotInitializingClass_spec hin
  have hs' : s.finishInitializing t caller c work rest =
      { s.setStack t (⟨caller, .finish (s.pending c ++ work)⟩ :: rest) with
        initialized := update s.initialized c true
        initializing := update s.initializing c false
        metaclasses := update s.metaclasses t slots
        pending := update s.pending c [] } := by
    unfold finishInitializing
    simp only
    rw [hclear]
    rfl
  generalize s.finishInitializing t caller c work rest = s' at hs' ⊢
  have hinitialized : ∀ x, x ≠ c → s'.initialized x = s.initialized x := by
    intro x hx
    rw [hs']
    exact update_of_ne hx _ _
  have hinitialized' : s'.initialized c = true := by
    rw [hs']
    exact update_self ..
  have hinitializing : ∀ x, x ≠ c → s'.initializing x = s.initializing x := by
    intro x hx
    rw [hs']
    exact update_of_ne hx _ _
  have hinitializing' : s'.initializing c = false := by
    rw [hs']
    exact update_self ..
  have hne : ∀ x, s'.initializing x = true → x ≠ c := by
    rintro x hx rfl
    rw [hinitializing'] at hx
    cases hx
  have howner : s'.owner = s.owner := by rw [hs']; rfl
  have htrace : s'.trace = s.trace := by rw [hs']; rfl
  have hpending : ∀ x p, x ∈ s'.pending p ↔ x ∈ s.pending p ∧ p ≠ c := by
    intro x p
    rw [hs']
    show x ∈ update s.pending c [] p ↔ _
    by_cases hp : p = c
    · rw [hp, update_self]
      simp
    · simp [hp]
  have hself : s'.stack t = ⟨caller, .finish (s.pending c ++ work)⟩ :: rest := by
    rw [hs']
    exact update_self ..
  have hagenda' : agendaOf (s'.stack t) = s.pending c ++ (work ++ agendaOf rest) := by
    rw [hself]
    exact append_assoc _ _ _
  have hprogress : s.Progress s' := by
    refine ⟨fun x hx => ?_, fun x hx => ?_, fun x t' hx => howner ▸ hx, fun e he => htrace ▸ he⟩
    · by_cases heq : x = c
      · rw [heq]
        exact hinitialized'
      · rw [hinitialized x heq]
        exact hx
    by_cases heq : x = c
    · rw [heq]
      exact .inr hinitialized'
    · rw [hinitializing x heq]
      exact .inl hx
  refine h.advance t hprogress (fun t' ht => ?_) (fun t' ht => ?_) (fun t' x ht hx => ?_)
    (fun t' x ht hx p => ?_) (fun t' x _ hsent => htrace ▸ hsent) ?_ ?_
  · rw [hs']
    exact update_of_ne ht _ _
  · rw [hs']
    exact update_of_ne ht _ _
  · rw [howner] at hx
    refine ⟨hx, hinitializing x ?_⟩
    rintro rfl
    rw [hoc] at hx
    exact ht (some.inj hx).symm
  · rw [hpending]
    refine ⟨And.left, fun hmem => ⟨hmem, ?_⟩⟩
    -- what waits for the class is the thread's own
    rintro rfl
    have hown := (hglobal.pending p x hmem).2.2.2.1
    rw [hx, hoc] at hown
    exact ht (some.inj hown)
  · refine ⟨fun x hx => ?_, fun x => ?_, fun x t' hx ho => ?_, fun x p hx hp => ?_, fun x hx => ?_,
      fun p x hx => ?_, fun p => ?_, ?_, htrace ▸ hglobal.sentOnce⟩
    · have hxc := hne x hx.2
      rw [hinitialized x hxc, hinitializing x hxc] at hx
      exact hglobal.flags x hx
    · rw [howner]
      by_cases heq : x = c
      · rw [heq, hoc, hinitialized']
        simp
      · rw [hinitialized x heq, hinitializing x heq]
        exact hglobal.owned x
    · have hxc := hne x hx
      rw [hinitializing x hxc] at hx
      rw [howner] at ho
      exact hprogress.superOK (hglobal.superOK x t' hx ho)
    · apply hprogress.initialized
      by_cases heq : x = c
      · exact (hframe.2 c mem_cons_self).2 p (heq ▸ hp)
      · rw [hinitialized x heq] at hx
        exact hglobal.superInitialized x p hx hp
    · apply hprogress.returned
      by_cases heq : x = c
      · exact heq ▸ (hframe.2 c mem_cons_self).1
      · rw [hinitialized x heq] at hx
        exact hglobal.returned x hx
    · obtain ⟨hx, hpc⟩ := (hpending x p).mp hx
      obtain ⟨h1, h2, h3, h4, h5⟩ := hglobal.pending p x hx
      have hxc : x ≠ c := by
        rintro rfl
        exact hnotpending p hx
      rw [hinitializing x hxc, hinitializing p hpc, howner]
      exact ⟨h1, h2, h3, h4, hprogress.returned h5⟩
    · rw [hs']
      show (update s.pending c [] p).Nodup
      by_cases hp : p = c
      · rw [hp, update_self]
        exact nodup_nil
      · rw [update_of_ne hp]
        exact hglobal.pendingNodup p
    · rw [howner, htrace]
      exact hglobal.sent
  have hcout := (nodup_cons.mp hnodup).1
  refine ⟨?_, fun x hx => ?_, fun x hx ho => ?_, fun f hf => ?_, ?_, fun f rest' hf hpc => ?_, ?_,
    fun x => ?_⟩
  · rw [hagenda']
    refine nodup_append.mpr ⟨hglobal.pendingNodup c, (nodup_cons.mp hnodup).2,
      fun x hx y hy hxy => ?_⟩
    exact (hthread.agenda y (hagenda ▸ mem_cons_of_mem _ hy)).2.2 c (hxy ▸ hx)
  · rw [hagenda'] at hx
    rcases mem_append.mp hx with hx | hx
    · obtain ⟨h1, h2, h3, h4, -⟩ := hglobal.pending c x hx
      have hxc : x ≠ c := by
        rintro rfl
        exact hnotpending x hx
      rw [hinitializing x hxc, howner]
      refine ⟨h2, h4.trans hoc, fun p hp => ?_⟩
      obtain ⟨hp, hpc⟩ := (hpending x p).mp hp
      have hsame := (hglobal.pending p x hp).1
      rw [h1] at hsame
      exact hpc (some.inj hsame).symm
    obtain ⟨h1, h2, h3⟩ := hthread.agenda x (hagenda ▸ mem_cons_of_mem _ hx)
    have hxc : x ≠ c := fun heq => hcout (heq ▸ hx)
    rw [hinitializing x hxc, howner]
    exact ⟨h1, h2, fun p hp => h3 p ((hpending x p).mp hp).1⟩
  · have hxc := hne x hx
    rw [hinitializing x hxc] at hx
    rw [howner] at ho
    rw [hagenda']
    have hplaced := hthread.placed x hx ho
    rw [hagenda] at hplaced
    rcases hplaced with hmem | ⟨p, hp⟩
    · rcases mem_cons.mp hmem with heq | hmem
      · exact absurd heq hxc
      · exact .inl (mem_append_right _ hmem)
    by_cases hpc : p = c
    · exact .inl (mem_append_left _ (hpc ▸ hp))
    · exact .inr ⟨p, (hpending x p).mpr ⟨hp, hpc⟩⟩
  · rw [hself] at hf
    rcases mem_cons.mp hf with rfl | hf
    · refine ⟨?_, fun x hx => ?_⟩
      · rcases hframe.1 with hcaller | hcaller
        · exact .inl (hprogress.initialized caller hcaller)
        rcases mem_cons.mp hcaller with heq | hcaller
        · exact .inl (heq ▸ hinitialized')
        · exact .inr (mem_append_right _ hcaller)
      rcases mem_append.mp hx with hx | hx
      · obtain ⟨h1, -, -, -, h5⟩ := hglobal.pending c x hx
        refine ⟨hprogress.returned h5, fun p hp => ?_⟩
        rw [h1] at hp
        exact some.inj hp ▸ hinitialized'
      · obtain ⟨h1, h2⟩ := hframe.2 x (mem_cons_of_mem _ hx)
        exact ⟨hprogress.returned h1, fun p hp => hprogress.initialized p (h2 p hp)⟩
    · exact frameOK_below hbelow hf
  · rw [hself]
    exact hbelow.replace
  · rw [hself] at hf
    injection hf with hf
    rw [← hf] at hpc
    cases hpc
  · have hnodup' := hperm.nodup_iff.mp hthread.slotsNodup
    rw [hs']
    show (update s.metaclasses t slots t).reduceOption.Nodup
    rw [update_self]
    exact (nodup_cons.mp hnodup').2
  have hnodup' := hperm.nodup_iff.mp hthread.slotsNodup
  have hslots' : s'.metaclasses t = slots := by
    rw [hs']
    exact update_self ..
  have hold := hthread.slots x
  rw [← reduceOption_mem_iff, hperm.mem_iff, mem_cons, reduceOption_mem_iff, hstack] at hold
  rw [hslots', hself, howner]
  by_cases heq : x = c
  · rw [heq, hinitializing']
    have hcslots := (nodup_cons.mp hnodup').1
    rw [reduceOption_mem_iff] at hcslots
    simp [hcslots]
  · rw [hinitializing x heq]
    simp only [heq, false_or] at hold
    exact hold

/-! ## Every step -/

theorem InitInv.go (hgo : s.go tree t = some s') : s'.InitInv tree := by
  have hthread := h.thread t
  unfold InitState.go at hgo
  split at hgo
  next => cases hgo
  rename_i cls pc rest hstack
  have hmem : (⟨cls, pc⟩ : InitFrame C) ∈ s.stack t := hstack ▸ mem_cons_self
  have hok := hthread.frames _ hmem
  split at hgo
  next =>
    split at hgo
    next hroot =>
      cases hgo
      exact h.goOn s.lock hstack rfl trivial
        (fun _ p hp => by rw [hroot] at hp; cases hp) (by simp) (by simp)
    rename_i p hp
    split at hgo
    next hdone =>
      cases hgo
      refine h.goOn s.lock hstack rfl trivial (fun _ q hq => ?_) (by simp) (by simp)
      rw [hp] at hq
      exact .inl (some.inj hq ▸ hdone)
    cases hgo
    have hbelow := hthread.stackOK
    rw [hstack] at hbelow
    refine h.restack s.lock ?_ (fun f hf => ?_) ?_ (fun f rest' hf hpc => ?_) ?_
    · rw [hstack]
      rfl
    · rcases mem_cons.mp hf with rfl | hf
      · trivial
      rcases mem_cons.mp hf with rfl | hf
      · trivial
      · exact hthread.frames f (hstack ▸ mem_cons_of_mem _ hf)
    · exact ⟨.inl ⟨rfl, hp⟩, hbelow.replace⟩
    · injection hf with hf
      rw [← hf] at hpc
      cases hpc
    · rw [hstack]
      rfl
  next =>
    obtain ⟨-, ⟨⟩⟩ := ite_none_right_eq_some.mp hgo
    exact h.trySet hstack
  next =>
    obtain ⟨slots, hset, hinv⟩ := h.record hstack
    rw [hset] at hgo
    cases hgo
    exact hinv
  next =>
    cases hgo
    exact h.advance_record hstack rfl rfl (by simp) (by simp) (.inr ⟨rfl, hok⟩) trivial
  next => cases hgo
  next =>
    obtain ⟨-, hgo⟩ := ite_none_right_eq_some.mp hgo
    injection hgo with hgo
    have hreturned : s.Ended cls := hok
    unfold lockAndFinishInitializing at hgo
    split at hgo
    next hroot =>
      subst hgo
      refine h.goOn (some t) hstack rfl ⟨.inr mem_cons_self, fun c hc => ?_⟩ (by simp) (by simp)
        (by simp)
      rw [mem_singleton.mp hc]
      exact ⟨hreturned, fun p hp => by rw [hroot] at hp; cases hp⟩
    rename_i p hp
    split at hgo
    next hdone =>
      subst hgo
      refine h.goOn (some t) hstack rfl ⟨.inr mem_cons_self, fun c hc => ?_⟩ (by simp) (by simp)
        (by simp)
      rw [mem_singleton.mp hc]
      refine ⟨hreturned, fun q hq => ?_⟩
      rw [hp] at hq
      exact some.inj hq ▸ hdone
    next hnot =>
      subst hgo
      exact h.finishAfter hstack hp (by simpa using hnot)
  next c work =>
    cases hgo
    exact h.finishOne hstack
  next =>
    cases hgo
    refine h.pop none hstack rfl (.inl ?_)
    rcases hok.1 with hdone | hfalse
    · exact hdone
    · cases hfalse
  next =>
    split at hgo
    next hinitializing =>
      split at hgo
      next hmine =>
        cases hgo
        obtain ⟨h1, h2, -⟩ := (hthread.slots cls).mp hmine
        exact h.pop s.lock hstack rfl (.inr ⟨h1, h2⟩)
      cases hgo
      exact h.goOn s.lock hstack rfl trivial (by simp) (by simp) (by simp)
    rename_i hnot
    cases hgo
    refine h.goOn s.lock hstack rfl ?_ (by simp) (by simp) (by simp)
    -- CLS_INITIALIZING is only cleared together with setting CLS_INITIALIZED
    rcases hok with hdone | hfalse
    · exact hdone
    · exact absurd hfalse hnot
  next =>
    obtain ⟨hdone, ⟨⟩⟩ := ite_none_right_eq_some.mp hgo
    exact h.pop s.lock hstack rfl (.inl hdone.2)
  next =>
    split at hgo
    next hdone =>
      cases hgo
      exact h.pop s.lock hstack rfl (.inl hdone)
    next hnot => exact absurd hok hnot
  next => cases hgo

theorem InitInv.step {a : InitAction C T} (hstep : s.step tree a = some s') : s'.InitInv tree := by
  cases a with
  | call t cls =>
    have hthread := h.thread t
    unfold InitState.step at hstep
    simp only at hstep
    split at hstep
    next hempty =>
      cases hstep
      refine h.restack s.lock ?_ (fun f hf => ?_) trivial (fun f rest' hf hpc => ?_) ?_
      · rw [hempty]
        rfl
      · rw [mem_singleton.mp hf]
        trivial
      · injection hf with hf
        rw [← hf] at hpc
        cases hpc
      · rw [hempty]
        rfl
    next c rest hstack =>
      cases hstep
      have hbelow := hthread.stackOK
      rw [hstack] at hbelow
      refine h.restack s.lock ?_ (fun f hf => ?_) ⟨.inr rfl, hbelow⟩ (fun f rest' hf hpc => ?_) ?_
      · rw [hstack]
        rfl
      · rcases mem_cons.mp hf with rfl | hf
        · trivial
        · exact hthread.frames f (hstack ▸ hf)
      · injection hf with hf
        rw [← hf] at hpc
        cases hpc
      · rw [hstack]
        rfl
    next => cases hstep
  | ret t =>
    unfold InitState.step at hstep
    simp only at hstep
    split at hstep
    next c rest hstack =>
      cases hstep
      refine h.advance_record hstack rfl rfl (by simp) (by simp) (.inl rfl) ?_
      exact ⟨t, .inl (mem_append_right _ mem_cons_self)⟩
    next => cases hstep
  | throw t =>
    unfold InitState.step at hstep
    simp only at hstep
    split at hstep
    next c rest hstack =>
      cases hstep
      have hended := h.advance_record (e := .threw t c) hstack rfl
        (rfl : frameAgenda ⟨c, .lockFinish⟩ = [c]) (by simp) (by simp) (.inl rfl)
        ⟨t, .inr (mem_append_right _ mem_cons_self)⟩
      have hunwound := hended.unwind (t := t) (update_self ..)
      simp only [setStack, update_idem] at hunwound
      exact hunwound
    next => cases hstep
  | go t => exact h.go hstep

end

omit [DecidableEq C] [DecidableEq T] in
theorem InitInv.start : (start : InitState C T).InitInv tree where
  global :=
    { flags := fun _ h => (nomatch h.1)
      owned := fun _ => ⟨fun _ => ⟨rfl, rfl⟩, fun _ => rfl⟩
      superOK := nofun
      superInitialized := nofun
      returned := nofun
      pending := nofun
      pendingNodup := fun _ => nodup_nil
      sent := nofun
      sentOnce := nodup_nil }
  thread _ :=
    { agendaNodup := nodup_nil
      agenda := nofun
      placed := nofun
      frames := nofun
      stackOK := trivial
      top := nofun
      slotsNodup := nodup_nil
      slots := fun _ => ⟨nofun, fun h => (nomatch h.1)⟩ }

end InitState

end ObjcRuntime
