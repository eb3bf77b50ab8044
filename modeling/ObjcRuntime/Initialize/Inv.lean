/-
THE INVARIANT OF +initialize.

A class that is being initialized is either on its thread's agenda, which is
what the calls on the thread's stack are going to mark, or it waits in the
pending map for its superclass, which the same thread is initializing.
-/
import ObjcRuntime.Initialize.Model

namespace ObjcRuntime

open Lib List

variable {C T : Type}

namespace InitState

/-! ## What a thread is going to mark -/

def frameAgenda (f : InitFrame C) : List C :=
  match f.pc with
  | .record => [f.cls]
  | .callInitialize => [f.cls]
  | .inInitialize => [f.cls]
  | .lockFinish => [f.cls]
  | .finish work => work
  | _ => []

def agendaOf (frames : List (InitFrame C)) : List C := frames.flatMap frameAgenda

def recording : List (InitFrame C) → Option C
  | ⟨cls, .record⟩ :: _ => some cls
  | _ => none

def Waits (tree : ClassTree C) (above f : InitFrame C) : Prop :=
  (f.pc = .trySet ∧ tree.superclass f.cls = some above.cls) ∨ f.pc = .inInitialize

def StackOK (tree : ClassTree C) : List (InitFrame C) → Prop
  | [] => True
  | [_] => True
  | above :: f :: rest => Waits tree above f ∧ StackOK tree (f :: rest)

variable {f : InitFrame C} {rest : List (InitFrame C)} {tree : ClassTree C}

theorem StackOK.tail (h : StackOK tree (f :: rest)) : StackOK tree rest := by
  cases rest with
  | nil => trivial
  | cons g rest => exact h.2

variable {cls : C} {pc : InitPC C}

theorem StackOK.replace {pc' : InitPC C} (h : StackOK tree (⟨cls, pc⟩ :: rest)) :
    StackOK tree (⟨cls, pc'⟩ :: rest) := by
  cases rest with
  | nil => trivial
  | cons g rest => exact h

theorem recording_of_ne (h : pc ≠ .record) : recording (⟨cls, pc⟩ :: rest) = none := by
  cases pc <;> first | rfl | exact absurd rfl h

theorem StackOK.below : ∀ {top : InitFrame C},
    StackOK tree (top :: rest) → ∀ f ∈ rest, f.pc = .trySet ∨ f.pc = .inInitialize := by
  induction rest with
  | nil =>
    intro top _ f hf
    cases hf
  | cons g rest ih => ?_
  intro top h f hf
  rcases mem_cons.mp hf with rfl | hf
  · rcases h.1 with ⟨h, -⟩ | h
    · exact .inl h
    · exact .inr h
  · exact ih h.2 f hf

section

variable [DecidableEq C]

theorem agendaOf_unwind (frames : List (InitFrame C)) :
    agendaOf (frames.dropWhile (·.pc = .trySet)) = agendaOf frames := by
  induction frames with
  | nil => rfl
  | cons f frames ih => ?_
  by_cases hpc : f.pc = .trySet
  · rw [dropWhile_cons_of_pos (by simpa using hpc), ih]
    simp [agendaOf, frameAgenda, hpc]
  · rw [dropWhile_cons_of_neg (by simpa using hpc)]

theorem StackOK.unwind : ∀ {top top' : InitFrame C},
    StackOK tree (top :: rest) → StackOK tree (top' :: rest.dropWhile (·.pc = .trySet)) := by
  induction rest with
  | nil => exact fun _ => trivial
  | cons g rest ih => ?_
  intro top top' h
  by_cases hpc : g.pc = .trySet
  · rw [dropWhile_cons_of_pos (by simpa using hpc)]
    exact ih h.2
  · rw [dropWhile_cons_of_neg (by simpa using hpc)]
    exact ⟨.inr (h.1.resolve_left fun hsuper => hpc hsuper.1), h.2⟩

end

/-! ## The invariant -/

def SuperOK (tree : ClassTree C) (s : InitState C T) (t : T) (c : C) : Prop :=
  ∀ p, tree.superclass c = some p →
    s.initialized p = true ∨ s.initializing p = true ∧ s.owner p = some t

def Ended (s : InitState C T) (c : C) : Prop :=
  ∃ t, .returned t c ∈ s.trace ∨ .threw t c ∈ s.trace

def NotSent (s : InitState C T) (c : C) : Prop := ∀ t, .sent t c ∉ s.trace

def FrameOK (tree : ClassTree C) (s : InitState C T) (f : InitFrame C) : Prop :=
  match f.pc with
  | .record => s.NotSent f.cls
  | .callInitialize => s.NotSent f.cls
  | .lockFinish => s.Ended f.cls
  | .finish work => (s.initialized f.cls = true ∨ f.cls ∈ work) ∧
      ∀ c ∈ work, s.Ended c ∧ ∀ p, tree.superclass c = some p → s.initialized p = true
  | .checkInitializing => s.initialized f.cls = true ∨ s.initializing f.cls = true
  | .checkInitialized => s.initialized f.cls = true
  | .fatal => False
  | _ => True

def sentClass : InitEvent C T → Option C
  | .sent _ cls => some cls
  | .returned _ _ => none
  | .threw _ _ => none

structure GlobalInv (tree : ClassTree C) (s : InitState C T) : Prop where
  flags : ∀ c, ¬ (s.initialized c = true ∧ s.initializing c = true)
  owned : ∀ c, s.owner c = none ↔ s.initialized c = false ∧ s.initializing c = false
  superOK : ∀ c t, s.initializing c = true → s.owner c = some t → s.SuperOK tree t c
  superInitialized : ∀ c p, s.initialized c = true → tree.superclass c = some p →
    s.initialized p = true
  returned : ∀ c, s.initialized c = true → s.Ended c
  pending : ∀ p c, c ∈ s.pending p → tree.superclass c = some p ∧ s.initializing c = true ∧
    s.initializing p = true ∧ s.owner c = s.owner p ∧ s.Ended c
  pendingNodup : ∀ p, (s.pending p).Nodup
  sent : ∀ t c, .sent t c ∈ s.trace → s.owner c = some t
  sentOnce : (s.trace.filterMap sentClass).Nodup

structure ThreadInv (tree : ClassTree C) (s : InitState C T) (t : T) : Prop where
  agendaNodup : (agendaOf (s.stack t)).Nodup
  agenda : ∀ c ∈ agendaOf (s.stack t), s.initializing c = true ∧ s.owner c = some t ∧
    ∀ p, c ∉ s.pending p
  placed : ∀ c, s.initializing c = true → s.owner c = some t →
    c ∈ agendaOf (s.stack t) ∨ ∃ p, c ∈ s.pending p
  frames : ∀ f ∈ s.stack t, s.FrameOK tree f
  stackOK : StackOK tree (s.stack t)
  top : ∀ f rest, s.stack t = f :: rest → f.pc = .trySet → s.SuperOK tree t f.cls
  slotsNodup : (s.metaclasses t).reduceOption.Nodup
  slots : ∀ c, some c ∈ s.metaclasses t ↔ s.initializing c = true ∧ s.owner c = some t ∧
    recording (s.stack t) ≠ some c

structure InitInv (tree : ClassTree C) (s : InitState C T) : Prop where
  global : s.GlobalInv tree
  thread : ∀ t, s.ThreadInv tree t

/-! ## Steps of another thread -/

structure Progress (s s' : InitState C T) : Prop where
  initialized : ∀ c, s.initialized c = true → s'.initialized c = true
  initializing : ∀ c, s.initializing c = true → s'.initializing c = true ∨ s'.initialized c = true
  owner : ∀ c t, s.owner c = some t → s'.owner c = some t
  trace : ∀ e ∈ s.trace, e ∈ s'.trace

variable {tree : ClassTree C} {s s' : InitState C T} {t : T}

theorem Progress.superOK (h : s.Progress s') {c : C} (hc : s.SuperOK tree t c) :
    s'.SuperOK tree t c := by
  intro p hp
  rcases hc p hp with hp | ⟨hp, ho⟩
  · exact .inl (h.initialized p hp)
  rcases h.initializing p hp with hp | hp
  · exact .inr ⟨hp, h.owner p t ho⟩
  · exact .inl hp

theorem Progress.returned (h : s.Progress s') {c : C} (hc : s.Ended c) : s'.Ended c := by
  obtain ⟨t, ht⟩ := hc
  exact ⟨t, ht.imp (h.trace _) (h.trace _)⟩

theorem Progress.frameOK (h : s.Progress s') (hf : s.FrameOK tree f)
    (hsent : f.pc = .record ∨ f.pc = .callInitialize → s'.NotSent f.cls) : s'.FrameOK tree f := by
  unfold FrameOK at hf ⊢
  cases hpc : f.pc with
  | record => exact hsent (.inl hpc)
  | callInitialize => exact hsent (.inr hpc)
  | lockFinish =>
    rw [hpc] at hf
    exact h.returned hf
  | finish work =>
    rw [hpc] at hf
    refine ⟨hf.1.imp (h.initialized _) id, fun c hc => ?_⟩
    obtain ⟨h1, h2⟩ := hf.2 c hc
    exact ⟨h.returned h1, fun p hp => h.initialized p (h2 p hp)⟩
  | checkInitializing =>
    rw [hpc] at hf
    rcases hf with hf | hf
    · exact .inl (h.initialized _ hf)
    · exact (h.initializing _ hf).symm
  | checkInitialized =>
    rw [hpc] at hf
    exact h.initialized _ hf
  | fatal =>
    rw [hpc] at hf
    exact hf
  | superCheck | trySet | inInitialize | wait => trivial

structure Others (s s' : InitState C T) (t : T) : Prop where
  stack : s'.stack t = s.stack t
  metaclasses : s'.metaclasses t = s.metaclasses t
  mine : ∀ c, s'.owner c = some t → s.owner c = some t ∧ s'.initializing c = s.initializing c
  pending : ∀ c, s.owner c = some t → ∀ p, c ∈ s'.pending p ↔ c ∈ s.pending p
  sent : ∀ t' c, s.owner c = some t → .sent t' c ∈ s'.trace → .sent t' c ∈ s.trace

theorem mem_agendaOf {frames : List (InitFrame C)} (hf : f ∈ frames)
    (hpc : f.pc = .record ∨ f.pc = .callInitialize) : f.cls ∈ agendaOf frames := by
  refine mem_flatMap.mpr ⟨f, hf, ?_⟩
  unfold frameAgenda
  rcases hpc with hpc | hpc <;> (rw [hpc]; exact mem_cons_self)

theorem ThreadInv.frame (h : s.ThreadInv tree t) (hprogress : s.Progress s')
    (hothers : s.Others s' t) : s'.ThreadInv tree t := by
  have hmine : ∀ c, s.owner c = some t → s'.initializing c = s.initializing c :=
    fun c hc => (hothers.mine c (hprogress.owner c t hc)).2
  refine ⟨?_, fun c hc => ?_, fun c hi ho => ?_, fun f hf => ?_, ?_, fun f rest hf hpc => ?_, ?_,
    fun c => ?_⟩
  · rw [hothers.stack]
    exact h.agendaNodup
  · rw [hothers.stack] at hc
    obtain ⟨hi, ho, hp⟩ := h.agenda c hc
    exact ⟨(hmine c ho).trans hi, hprogress.owner c t ho,
      fun p hmem => hp p ((hothers.pending c ho p).mp hmem)⟩
  · obtain ⟨ho, heq⟩ := hothers.mine c ho
    rw [hothers.stack]
    rcases h.placed c (heq ▸ hi) ho with hc | ⟨p, hp⟩
    · exact .inl hc
    · exact .inr ⟨p, (hothers.pending c ho p).mpr hp⟩
  · rw [hothers.stack] at hf
    refine hprogress.frameOK (h.frames f hf) fun hpc t' hsent => ?_
    have ho := (h.agenda f.cls (mem_agendaOf hf hpc)).2.1
    have hbefore := hothers.sent t' f.cls ho hsent
    have hok := h.frames f hf
    unfold FrameOK at hok
    rcases hpc with hpc | hpc <;> (rw [hpc] at hok; exact hok t' hbefore)
  · rw [hothers.stack]
    exact h.stackOK
  · rw [hothers.stack] at hf
    exact hprogress.superOK (h.top f rest hf hpc)
  · rw [hothers.metaclasses]
    exact h.slotsNodup
  rw [hothers.metaclasses, hothers.stack, h.slots]
  constructor
  · rintro ⟨hi, ho, hr⟩
    exact ⟨(hmine c ho).trans hi, hprogress.owner c t ho, hr⟩
  rintro ⟨hi, ho, hr⟩
  obtain ⟨ho, heq⟩ := hothers.mine c ho
  exact ⟨heq ▸ hi, ho, hr⟩

/-! ## Steps that change a stack only -/

variable [DecidableEq T]

theorem progress_setStack (s : InitState C T) (t : T) (frames : List (InitFrame C))
    (lock : Option T) : s.Progress { s.setStack t frames with lock := lock } :=
  ⟨fun _ => id, fun _ h => .inl h, fun _ _ => id, fun _ => id⟩

theorem InitInv.restack (h : s.InitInv tree) (lock : Option T) {frames : List (InitFrame C)}
    (hagenda : agendaOf frames = agendaOf (s.stack t)) (hframes : ∀ f ∈ frames, s.FrameOK tree f)
    (hstack : StackOK tree frames)
    (htop : ∀ f rest, frames = f :: rest → f.pc = .trySet → s.SuperOK tree t f.cls)
    (hrecording : recording frames = recording (s.stack t)) :
    ({ s.setStack t frames with lock := lock } : InitState C T).InitInv tree := by
  refine ⟨⟨h.global.flags, h.global.owned, h.global.superOK, h.global.superInitialized,
    h.global.returned, h.global.pending, h.global.pendingNodup, h.global.sent, h.global.sentOnce⟩,
    fun t' => ?_⟩
  by_cases ht : t' = t
  · subst ht
    have hself : ({ s.setStack t' frames with lock := lock } : InitState C T).stack t' = frames :=
      Function.update_self ..
    have hthread := h.thread t'
    refine ⟨?_, ?_, ?_, ?_, ?_, ?_, hthread.slotsNodup, ?_⟩
    · rw [hself, hagenda]
      exact hthread.agendaNodup
    · rw [hself, hagenda]
      exact hthread.agenda
    · rw [hself, hagenda]
      exact hthread.placed
    · rw [hself]
      exact hframes
    · rw [hself]
      exact hstack
    · rw [hself]
      exact htop
    · rw [hself, hrecording]
      exact hthread.slots
  · exact (h.thread t').frame (progress_setStack s t frames lock)
      ⟨Function.update_of_ne ht _ _, rfl, fun _ ho => ⟨ho, rfl⟩, fun _ _ _ => .rfl,
        fun _ _ _ => id⟩

theorem InitInv.goOn (h : s.InitInv tree) (lock : Option T) {pc' : InitPC C}
    (hstack : s.stack t = ⟨cls, pc⟩ :: rest)
    (hagenda : frameAgenda ⟨cls, pc'⟩ = frameAgenda ⟨cls, pc⟩) (hok : s.FrameOK tree ⟨cls, pc'⟩)
    (htop : pc' = .trySet → s.SuperOK tree t cls) (hpc : pc ≠ .record) (hpc' : pc' ≠ .record) :
    ({ s.setStack t (⟨cls, pc'⟩ :: rest) with lock := lock } : InitState C T).InitInv tree := by
  have hthread := h.thread t
  refine h.restack lock ?_ (fun f hf => ?_) ?_ (fun f rest' hf => ?_) ?_
  · rw [hstack]
    exact congrArg (· ++ agendaOf rest) hagenda
  · rcases mem_cons.mp hf with rfl | hf
    · exact hok
    · exact hthread.frames f (hstack ▸ mem_cons_of_mem _ hf)
  · have := hthread.stackOK
    rw [hstack] at this
    exact this.replace
  · cases hf
    exact htop
  · rw [hstack]
    rw [recording_of_ne hpc, recording_of_ne hpc']

def Done (s : InitState C T) (t : T) (c : C) : Prop :=
  s.initialized c = true ∨ s.initializing c = true ∧ s.owner c = some t

omit [DecidableEq T] in
theorem ThreadInv.superOK_of_done (h : s.ThreadInv tree t)
    (hstack : s.stack t = ⟨cls, pc⟩ :: rest) (hdone : s.Done t cls) :
    ∀ f rest', rest = f :: rest' → f.pc = .trySet → s.SuperOK tree t f.cls := by
  intro f rest' hrest hpc p hp
  have hok := h.stackOK
  rw [hstack, hrest] at hok
  rcases hok.1 with ⟨-, hsuper⟩ | hin
  · rw [hp] at hsuper
    cases hsuper
    exact hdone
  · rw [hpc] at hin
    cases hin

omit [DecidableEq T] in
theorem recording_below (h : StackOK tree (⟨cls, pc⟩ :: rest)) : recording rest = none := by
  cases rest with
  | nil => rfl
  | cons f rest => ?_
  obtain ⟨c, pc'⟩ := f
  rcases h.below ⟨c, pc'⟩ mem_cons_self with hpc | hpc
  · have hpc : pc' = .trySet := hpc
    subst hpc
    rfl
  have hpc : pc' = .inInitialize := hpc
  subst hpc
  rfl

theorem InitInv.pop (h : s.InitInv tree) (lock : Option T)
    (hstack : s.stack t = ⟨cls, pc⟩ :: rest) (hagenda : frameAgenda ⟨cls, pc⟩ = [])
    (hdone : s.Done t cls) :
    ({ s.setStack t rest with lock := lock } : InitState C T).InitInv tree := by
  have hthread := h.thread t
  have hok := hthread.stackOK
  rw [hstack] at hok
  refine h.restack lock ?_ (fun f hf => hthread.frames f (hstack ▸ mem_cons_of_mem _ hf)) hok.tail
    (hthread.superOK_of_done hstack hdone) ?_
  · rw [hstack]
    show _ = frameAgenda ⟨cls, pc⟩ ++ agendaOf rest
    rw [hagenda]
    rfl
  · rw [hstack, recording_below hok]
    cases pc <;> first | rfl | cases hagenda

end InitState

end ObjcRuntime
