/-
THE TABLES AND THE VARIABLES AGREE IN EVERY INTERLEAVING.

What carries the proof: a thread that has rechecked a variable holds the lock of
the value it found there, and whoever changes a variable from `v` holds the lock
of `v`. So

* `WeakPC.expects`: the registrations of the objects whose lock the thread
  holds: as the variables say, except between the body of a store and its
  write, and while an object's referrers are being cleared,
* `Inv.advance`: the rule for one step; `Inv.quiet` for the steps that touch
  neither tables nor variables.
-/
import ObjcRuntime.Weak.Threads

namespace ObjcRuntime

open Lib Function List Option WeakPC WeakMachine Heap WeakTables Nat Layout

variable {L : Layout} {Tid : Type}

/-! ## What holds at each program point -/

def LoadRecord.Sound (r : LoadRecord Tid) : Prop :=
  r.result = 0 ∨ r.result = r.held ∧ r.deallocating = false

/-- The store that a `StoreNext` goes on with. -/
def StoreNext.call : StoreNext → Option StoreCall
  | .retry c => some c
  | .runInitialize c _ => some c
  | .done => none

def registeredAsHeld (live : Location → Bool) (mem : Location → ObjPtr) (o : ObjPtr)
    (l : Location) : Nat :=
  if live l = true ∧ mem l = o then 1 else 0

namespace WeakPC

def locks : WeakPC Tid → List Nat
  | .storeLock _ _ held _ => held
  | .storeCheck c oldObj => c.lockTwo oldObj
  | .storeBody c oldObj => c.lockTwo oldObj
  | .storeWrite c oldObj _ => c.lockTwo oldObj
  | .storeUnlock todo _ => todo
  | .loadCheck _ obj => [indexForPointer obj]
  | .loadBody _ obj => [indexForPointer obj]
  | .loadUnlock obj _ => [indexForPointer obj]
  | .clearBody obj => [indexForPointer obj]
  | .clearing obj _ => [indexForPointer obj]
  | .clearErase obj => [indexForPointer obj]
  | .clearUnlock obj => [indexForPointer obj]
  | _ => []

def Local (live : Location → Bool) (mem : Location → ObjPtr) : WeakPC Tid → Prop
  | .storeRead c => live c.location = true
  | .storeLock c oldObj held todo => live c.location = true ∧ held ++ todo = c.lockTwo oldObj
  | .storeCheck c _ => live c.location = true
  | .storeBody c oldObj => live c.location = true ∧ mem c.location = oldObj
  | .storeWrite c oldObj newObj =>
    live c.location = true ∧ mem c.location = oldObj ∧ (newObj = c.newObj ∨ newObj = 0)
  | .storeUnlock todo next => todo.Nodup ∧ ∀ c, next.call = some c → live c.location = true
  | .storeInitialize c _ => live c.location = true
  | .loadBody location obj => mem location = obj
  | .loadUnlock _ next => ∀ r, next = .done r → r.Sound
  | .rootDealloc obj => obj ≠ 0
  | .clearDeallocating obj => obj ≠ 0
  | .clearLock obj => obj ≠ 0
  | .clearBody obj => obj ≠ 0
  | .clearing obj referrers =>
    obj ≠ 0 ∧ referrers.Nodup ∧ ∀ l, l ∈ referrers ↔ live l = true ∧ mem l = obj
  | _ => True

/-- The thread is clearing `o`'s referrers, or about to remove its entry. -/
def Clears (p : WeakPC Tid) (o : ObjPtr) : Prop := ∃ referrers, p = .clearing o referrers

/-- The registrations at `l` of an object `o` whose lock the thread holds. -/
def expects (live : Location → Bool) (mem : Location → ObjPtr) (o : ObjPtr) (l : Location) :
    WeakPC Tid → Nat
  | .storeWrite c _ newObj =>
    if l = c.location then (if newObj = o then 1 else 0) else registeredAsHeld live mem o l
  | _ => registeredAsHeld live mem o l

def plain : WeakPC Tid → Bool
  | .storeWrite .. => false
  | .clearing .. => false
  | _ => true

/-- The thread is inside a `storeWeak`. -/
def inStore : WeakPC Tid → Bool
  | .storeRead .. => true
  | .storeLock .. => true
  | .storeCheck .. => true
  | .storeBody .. => true
  | .storeWrite .. => true
  | .storeUnlock .. => true
  | .storeInitialize .. => true
  | _ => false

variable {live : Location → Bool} {mem mem' : Location → ObjPtr} {p : WeakPC Tid}

theorem expects_of_plain (h : p.plain = true) (o : ObjPtr) (l : Location) :
    p.expects live mem o l = registeredAsHeld live mem o l := by
  cases p <;> first | rfl | exact Bool.noConfusion h

theorem not_clears_of_plain (h : p.plain = true) (o : ObjPtr) : ¬ p.Clears o := by
  rintro ⟨referrers, rfl⟩
  exact Bool.noConfusion h

variable {l : Location}

theorem registeredAsHeld_congr {o : ObjPtr} (h : mem' l = o ↔ mem l = o) :
    registeredAsHeld live mem' o l = registeredAsHeld live mem o l := by
  unfold registeredAsHeld
  simp only [h]

theorem expects_congr {o : ObjPtr} (h : mem' l = o ↔ mem l = o) :
    p.expects live mem' o l = p.expects live mem o l := by
  cases p <;> first
    | exact registeredAsHeld_congr h
    | simp only [expects, registeredAsHeld_congr h]

end WeakPC

/-! ## The two locks of a store -/

variable {i : Nat}

theorem mem_lockTwo {j k : Nat} : k ∈ lockTwo i j ↔ k = i ∨ k = j := by
  unfold lockTwo
  split
  · simp
  split
  · simp [or_comm]
  · simp_all

theorem mem_unlockTwo {j k : Nat} : k ∈ unlockTwo i j ↔ k = i ∨ k = j := by
  unfold unlockTwo
  split
  · simp
  · simp_all

theorem nodup_unlockTwo (i j : Nat) : (unlockTwo i j).Nodup := by
  unfold unlockTwo
  split
  next h => simpa using h.symm
  next => simp

namespace StoreCall

variable (c : StoreCall) (oldObj : ObjPtr)

theorem mem_lockTwo :
    i ∈ c.lockTwo oldObj ↔ i = indexForPointer oldObj ∨ i = indexForPointer c.newObj :=
  ObjcRuntime.mem_lockTwo

theorem mem_unlockTwo (i : Nat) : i ∈ c.unlockTwo oldObj ↔ i ∈ c.lockTwo oldObj :=
  ObjcRuntime.mem_unlockTwo.trans (c.mem_lockTwo oldObj).symm

theorem old_mem : indexForPointer oldObj ∈ c.lockTwo oldObj :=
  (c.mem_lockTwo oldObj).mpr (.inl rfl)

theorem new_mem : indexForPointer c.newObj ∈ c.lockTwo oldObj :=
  (c.mem_lockTwo oldObj).mpr (.inr rfl)

end StoreCall

namespace WeakPC

variable {c : StoreCall} {oldObj : ObjPtr} {held todo : List Nat} {live : Location → Bool}
  {mem : Location → ObjPtr}

theorem locks_storeLocking (h : held ++ todo = c.lockTwo oldObj) :
    (storeLocking c oldObj held todo : WeakPC Tid).locks = held := by
  cases todo with
  | nil => exact h.symm.trans (append_nil held)
  | cons i todo => rfl

theorem plain_storeLocking : (storeLocking c oldObj held todo : WeakPC Tid).plain = true := by
  cases todo <;> rfl

theorem local_storeLocking (hlive : live c.location = true) (h : held ++ todo = c.lockTwo oldObj) :
    (storeLocking c oldObj held todo : WeakPC Tid).Local live mem := by
  cases todo with
  | nil => exact hlive
  | cons i todo => exact ⟨hlive, h⟩

theorem locks_storeUnlocking (next : StoreNext) :
    (storeUnlocking next todo : WeakPC Tid).locks = todo := by
  cases todo with
  | nil => cases next <;> rfl
  | cons i todo => rfl

theorem plain_storeUnlocking (next : StoreNext) :
    (storeUnlocking next todo : WeakPC Tid).plain = true := by
  cases todo with
  | nil => cases next <;> rfl
  | cons i todo => rfl

theorem local_storeUnlocking {next : StoreNext} (hnodup : todo.Nodup)
    (hlive : ∀ c, next.call = some c → live c.location = true) :
    (storeUnlocking next todo : WeakPC Tid).Local live mem := by
  cases todo with
  | nil =>
    cases next with
    | retry c | runInitialize c cls => exact hlive c rfl
    | done => trivial
  | cons i todo => exact ⟨hnodup, hlive⟩

end WeakPC

/-! ## What a thread knows stays true -/

theorem WeakPC.Local.stable {live : Location → Bool} {mem mem' : Location → ObjPtr}
    {p : WeakPC Tid} (h : p.Local live mem)
    (hkeep : ∀ l o, indexForPointer o ∈ p.locks → mem l = o → mem' l = o)
    (hgain : ∀ l o, o ≠ 0 → indexForPointer o ∈ p.locks → mem' l = o → mem l = o) :
    p.Local live mem' := by
  cases p with
  | storeBody c oldObj =>
    obtain ⟨hlive, hmem⟩ := h
    exact ⟨hlive, hkeep _ _ (c.old_mem oldObj) hmem⟩
  | storeWrite c oldObj newObj =>
    obtain ⟨hlive, hmem, hnew⟩ := h
    exact ⟨hlive, hkeep _ _ (c.old_mem oldObj) hmem, hnew⟩
  | loadBody location obj => exact hkeep _ _ mem_cons_self h
  | clearing obj referrers =>
    obtain ⟨hne, hnodup, hrefs⟩ := h
    refine ⟨hne, hnodup, fun l => (hrefs l).trans ?_⟩
    constructor
    · rintro ⟨hl, hm⟩
      exact ⟨hl, hkeep l obj mem_cons_self hm⟩
    · rintro ⟨hl, hm⟩
      exact ⟨hl, hgain l obj hne mem_cons_self hm⟩
  | _ => exact h

namespace WeakMachine

/-! ## The invariant and the rule for one step -/

structure Inv (s : WeakMachine L Tid) : Prop where
  wf : s.heap.weak.WF
  held : Holds WeakPC.locks s.lock s.pc
  locals : ∀ t, (s.pc t).Local s.live s.heap.mem
  /-- an object whose table is unlocked -/
  free : ∀ o l, o ≠ 0 → s.lock (indexForPointer o) = none →
    s.heap.weak.registrations o l = registeredAsHeld s.live s.heap.mem o l
  /-- an object whose table `t` has locked -/
  mine : ∀ t o l, o ≠ 0 → indexForPointer o ∈ (s.pc t).locks → ¬ (s.pc t).Clears o →
    s.heap.weak.registrations o l = (s.pc t).expects s.live s.heap.mem o l
  loads : ∀ r ∈ s.loads, r.Sound

variable {s s' : WeakMachine L Tid} {t : Tid} {p q : WeakPC Tid}
  {o : ObjPtr}

theorem Inv.here (h : s.Inv) (hat : s.pc t = q) : q.Local s.live s.heap.mem := hat ▸ h.locals t

theorem Inv.plain_regs (h : s.Inv) (hat : s.pc t = q) (hplain : q.plain = true) (ho : o ≠ 0)
    (hin : indexForPointer o ∈ q.locks) (l : Location) :
    s.heap.weak.registrations o l = registeredAsHeld s.live s.heap.mem o l := by
  subst hat
  rw [h.mine t o l ho hin (not_clears_of_plain hplain o), expects_of_plain hplain]

variable [DecidableEq Tid]

section

variable (h : s.Inv) (hat : s.pc t = q)

include h hat

section

variable (hpc : s'.pc = update s.pc t p)

include hpc

variable (hlive : s'.live = s.live)
include hlive

/-- **The rule for one step of thread `t`.** It must leave alone the registrations of
the objects whose lock `t` does not hold, and not change a variable from or to such an
object. -/
theorem Inv.advance
    (hheld : Holds locks s'.lock (update s.pc t p)) (hwf : s'.heap.weak.WF)
    (hlocal : p.Local s.live s'.heap.mem)
    (hkeep : ∀ l o, indexForPointer o ∉ q.locks → s.heap.mem l = o → s'.heap.mem l = o)
    (hgain : ∀ l o, o ≠ 0 → indexForPointer o ∉ q.locks → s'.heap.mem l = o → s.heap.mem l = o)
    (hregs : ∀ o l, o ≠ 0 → indexForPointer o ∉ q.locks →
      s'.heap.weak.registrations o l = s.heap.weak.registrations o l)
    (hfreed : ∀ o l, o ≠ 0 → indexForPointer o ∈ q.locks → indexForPointer o ∉ p.locks →
      s'.heap.weak.registrations o l = registeredAsHeld s.live s'.heap.mem o l)
    (hmine : ∀ o l, o ≠ 0 → indexForPointer o ∈ p.locks → ¬ p.Clears o →
      s'.heap.weak.registrations o l = p.expects s.live s'.heap.mem o l)
    (hloads : ∀ r ∈ s'.loads, r.Sound) : s'.Inv := by
  subst hat
  have hsame : ∀ o l, o ≠ 0 → indexForPointer o ∉ (s.pc t).locks →
      (s'.heap.mem l = o ↔ s.heap.mem l = o) := fun o l ho hno =>
    ⟨hgain l o ho hno, hkeep l o hno⟩
  refine ⟨hwf, hpc ▸ hheld, fun u => ?_, fun o l ho hfree => ?_, fun u o l ho hin hnot => ?_, hloads⟩
  · rw [hpc, hlive]
    by_cases hu : u = t
    · rw [hu, update_self]
      exact hlocal
    rw [update_of_ne hu]
    exact (h.locals u).stable (fun l o hin => hkeep l o (h.held.disjoint hu hin))
      fun l o ho hin => hgain l o ho (h.held.disjoint hu hin)
  · rw [hlive]
    have hnotp : ∀ u, indexForPointer o ∉ (update s.pc t p u).locks := by
      intro u hin
      have := (hheld u _).mp hin
      rw [hfree] at this
      cases this
    by_cases hin : indexForPointer o ∈ (s.pc t).locks
    · refine hfreed o l ho hin ?_
      have := hnotp t
      rwa [update_self] at this
    -- the lock was free before, too
    have hbefore : s.lock (indexForPointer o) = none := by
      by_contra hsome
      obtain ⟨u, hu⟩ := ne_none_iff_exists'.mp hsome
      have hinu := (h.held u _).mpr hu
      have hut : u ≠ t := by
        rintro rfl
        exact hin hinu
      apply hnotp u
      rw [update_of_ne hut]
      exact hinu
    rw [hregs o l ho hin, h.free o l ho hbefore, registeredAsHeld_congr (hsame o l ho hin)]
  · rw [hpc] at hin hnot
    rw [hpc, hlive]
    by_cases hu : u = t
    · rw [hu, update_self] at hin hnot ⊢
      exact hmine o l ho hin hnot
    rw [update_of_ne hu] at hin hnot ⊢
    have hno := h.held.disjoint hu hin
    rw [hregs o l ho hno, h.mine u o l ho hin hnot, expects_congr (hsame o l ho hno)]

theorem Inv.quiet (hheld : Holds locks s'.lock (update s.pc t p))
    (hweak : s'.heap.weak = s.heap.weak) (hmem : s'.heap.mem = s.heap.mem)
    (hplain : q.plain = true) (hplain' : p.plain = true)
    (hlocal : p.Local s.live s.heap.mem) (hloads : ∀ r ∈ s'.loads, r.Sound) : s'.Inv := by
  refine h.advance hat hpc hlive hheld (hweak ▸ h.wf) (hmem ▸ hlocal) (fun l o _ hm => hmem ▸ hm)
    (fun l o _ _ hm => hmem ▸ hm) (fun o l _ _ => by rw [hweak])
    (fun o l ho hin _ => ?_) (fun o l ho hin _ => ?_) hloads
  · rw [hweak, hmem]
    exact h.plain_regs hat hplain ho hin l
  rw [hweak, hmem, expects_of_plain hplain']
  by_cases hbefore : indexForPointer o ∈ q.locks
  · exact h.plain_regs hat hplain ho hbefore l
  -- the lock was just taken, so it was free
  refine h.free o l ho ?_
  by_contra hsome
  obtain ⟨u, hu⟩ := ne_none_iff_exists'.mp hsome
  have hinu := (h.held u _).mpr hu
  have hut : u ≠ t := by
    rintro rfl
    exact hbefore (hat ▸ hinu)
  have hafter : indexForPointer o ∈ (update s.pc t p u).locks := by
    rw [update_of_ne hut]
    exact hinu
  refine hheld.disjoint hut hafter ?_
  rw [update_self]
  exact hin

theorem Inv.quiet_goto (hlock : s'.lock = s.lock)
    (hweak : s'.heap.weak = s.heap.weak) (hmem : s'.heap.mem = s.heap.mem)
    (hloads : ∀ r ∈ s'.loads, r.Sound)
    (hlocks : ∀ i, i ∈ p.locks ↔ i ∈ q.locks) (hplain : q.plain = true)
    (hplain' : p.plain = true) (hlocal : p.Local s.live s.heap.mem) : s'.Inv := by
  refine h.quiet hat hpc hlive ?_ hweak hmem hplain hplain' hlocal hloads
  rw [hlock]
  exact h.held.move t (hat ▸ hlocks)

end

theorem Inv.goto (hlocks : ∀ i, i ∈ p.locks ↔ i ∈ q.locks) (hplain : q.plain = true)
    (hplain' : p.plain = true) (hlocal : p.Local s.live s.heap.mem) : (s.goto t p).Inv :=
  h.quiet_goto hat rfl rfl rfl rfl rfl h.loads hlocks hplain hplain' hlocal

theorem Inv.acquire (hstep : s.acquire t i p = some s')
    (hlocks : ∀ j, j ∈ p.locks ↔ j = i ∨ j ∈ q.locks) (hplain : q.plain = true)
    (hplain' : p.plain = true) (hlocal : p.Local s.live s.heap.mem) : s'.Inv := by
  obtain ⟨hfree, ⟨⟩⟩ := ite_none_right_eq_some.mp hstep
  exact h.quiet hat rfl rfl (h.held.acquire t hfree (hat ▸ hlocks)) rfl rfl hplain hplain' hlocal
    h.loads

theorem Inv.unlock (hi : i ∈ q.locks)
    (hlocks : ∀ j, j ∈ p.locks ↔ j ∈ q.locks ∧ j ≠ i) (hplain : q.plain = true)
    (hplain' : p.plain = true) (hlocal : p.Local s.live s.heap.mem) : (s.unlock t i p).Inv :=
  h.quiet hat rfl rfl (h.held.release t (hat ▸ hi) (hat ▸ hlocks)) rfl rfl hplain hplain' hlocal
    h.loads

end

/-! ## The steps of a store -/

variable {c : StoreCall} {oldObj : ObjPtr}

theorem old_ne_of_not_mem (hno : indexForPointer o ∉ c.lockTwo oldObj) : oldObj ≠ o := by
  intro heq
  subst heq
  exact hno (c.old_mem oldObj)

theorem new_ne_of_not_mem {oldObj newObj : ObjPtr}
    (hno : indexForPointer o ∉ c.lockTwo oldObj) (hnew : newObj = c.newObj ∨ newObj = 0)
    (ho : o ≠ 0) : newObj ≠ o := by
  intro heq
  rcases hnew with hnew | hnil
  · exact hno (heq ▸ hnew ▸ c.new_mem oldObj)
  · exact ho (heq.symm.trans hnil)

variable {C : Tid → ClassInfo L}

theorem Inv.storeBodied (h : s.Inv)
    (hat : s.pc t = .storeBody c oldObj) (hstep : s.storeBodied C t c oldObj = some s') :
    s'.Inv := by
  obtain ⟨hlive, hmem⟩ := h.here hat
  unfold WeakMachine.storeBodied at hstep
  simp only at hstep
  split at hstep
  next =>
    cases hstep
    refine h.goto hat (c.mem_unlockTwo oldObj) rfl rfl ⟨nodup_unlockTwo _ _, fun c' hc' => ?_⟩
    cases hc'
    exact hlive
  rcases storeWeakLocked_spec (C := C t) h.wf true true c.crashIfDeallocating c.location oldObj
      c.newObj with herr | ⟨heap, newObj, hrun, hnew, hst⟩
  · rw [herr] at hstep
    cases hstep
  rw [hrun] at hstep
  cases hstep
  refine h.advance hat (p := .storeWrite c oldObj newObj) rfl rfl
    (h.held.move t fun i => by rw [hat]; rfl) hst.wf ⟨hlive, ?_, hnew⟩
    (fun l o _ hm => ?_) (fun l o _ _ hm => ?_) (fun o l ho hno => ?_)
    (fun o l _ hin hno => absurd hin hno) (fun o l ho hin _ => ?_) h.loads
  · show heap.mem c.location = oldObj
    rw [hst.mem]
    exact hmem
  · show heap.mem l = o
    rw [hst.mem]
    exact hm
  · rw [← hst.mem]
    exact hm
  · show heap.weak.registrations o l = _
    rw [hst.regs o l ho, hit_of_ne (old_ne_of_not_mem hno).symm,
      hit_of_ne (new_ne_of_not_mem hno hnew ho).symm]
    simp only [if_true, Nat.sub_zero, add_zero]
  have hbefore := h.plain_regs hat rfl ho hin l
  show heap.weak.registrations o l = if l = c.location then (if newObj = o then 1 else 0)
      else registeredAsHeld s.live heap.mem o l
  rw [hst.regs o l ho, hbefore, hst.mem]
  unfold registeredAsHeld hit
  by_cases hl : l = c.location
  · -- off the old value, on to the new one
    subst hl
    simp only [hlive, hmem, true_and, and_true, if_true]
    by_cases heq : oldObj = o <;> simp [heq]
  · have hne : ¬ c.location = l := Ne.symm hl
    simp [hl, hne]

theorem Inv.storeWritten (h : s.Inv) {oldObj newObj : ObjPtr}
    (hat : s.pc t = .storeWrite c oldObj newObj) :
    { s.goto t (.storeUnlock (c.unlockTwo oldObj) .done) with
      heap := { s.heap with mem := update s.heap.mem c.location newObj } }.Inv := by
  obtain ⟨hlive, hmem, hnew⟩ := h.here hat
  refine h.advance hat (p := .storeUnlock (c.unlockTwo oldObj) .done) rfl rfl
    (h.held.move t fun i => by rw [hat]; exact c.mem_unlockTwo oldObj i) h.wf
    ⟨nodup_unlockTwo _ _, nofun⟩ (fun l o hno hm => ?_) (fun l o ho hno hm => ?_)
    (fun _ _ _ _ => rfl) (fun o l _ hin hno => absurd ((c.mem_unlockTwo oldObj _).mpr hin) hno)
    (fun o l ho hin _ => ?_) h.loads
  · have hl : l ≠ c.location := by
      rintro rfl
      exact old_ne_of_not_mem hno (hmem.symm.trans hm)
    show update s.heap.mem c.location newObj l = o
    rw [update_of_ne hl]
    exact hm
  · replace hm : update s.heap.mem c.location newObj l = o := hm
    have hl : l ≠ c.location := by
      rintro rfl
      rw [update_self] at hm
      exact new_ne_of_not_mem hno hnew ho hm
    rw [update_of_ne hl] at hm
    exact hm
  have hbefore := h.mine t o l ho (by rw [hat]; exact (c.mem_unlockTwo oldObj _).mp hin)
    (by rw [hat]; rintro ⟨_, hno⟩; cases hno)
  rw [hat] at hbefore
  show s.heap.weak.registrations o l
    = registeredAsHeld s.live (update s.heap.mem c.location newObj) o l
  rw [hbefore]
  unfold expects registeredAsHeld
  by_cases hl : l = c.location
  · subst hl
    simp [hlive]
  · simp [hl]

theorem Inv.storeLocked (h : s.Inv) {held todo : List Nat}
    (hat : s.pc t = .storeLock c oldObj held (i :: todo))
    (hstep : s.acquire t i (.storeLocking c oldObj (held ++ [i]) todo) = some s') : s'.Inv := by
  obtain ⟨hlive, hall⟩ := h.here hat
  have hsplit : (held ++ [i]) ++ todo = c.lockTwo oldObj := by
    rw [append_assoc]
    exact hall
  refine h.acquire hat hstep (fun j => ?_) rfl plain_storeLocking (local_storeLocking hlive hsplit)
  rw [locks_storeLocking hsplit]
  show j ∈ held ++ [i] ↔ j = i ∨ j ∈ held
  simp [or_comm]

theorem Inv.storeUnlocked (h : s.Inv) {todo : List Nat} {next : StoreNext}
    (hat : s.pc t = .storeUnlock (i :: todo) next) :
    (s.unlock t i (.storeUnlocking next todo)).Inv := by
  obtain ⟨hnodup, hlive⟩ := h.here hat
  rw [nodup_cons] at hnodup
  refine h.unlock hat mem_cons_self (fun j => ?_) rfl (plain_storeUnlocking next)
    (local_storeUnlocking hnodup.2 hlive)
  rw [locks_storeUnlocking]
  show j ∈ todo ↔ j ∈ i :: todo ∧ j ≠ i
  rw [mem_cons]
  constructor
  · intro hj
    refine ⟨.inr hj, ?_⟩
    rintro rfl
    exact hnodup.1 hj
  · rintro ⟨hor, hne⟩
    exact hor.resolve_left hne

/-! ## The steps of a load -/

variable {obj : ObjPtr}

section

variable (h : s.Inv)

include h

theorem Inv.loadBodied (C : Tid → ClassInfo L) {location : Location}
    (hat : s.pc t = .loadBody location obj) : (s.loadBodied C t location obj).Inv := by
  have hmem : s.heap.mem location = obj := h.here hat
  obtain ⟨hweak, hmem', -, hres⟩ := loadWeakLocked_spec (C := C t) (s := s.heap) obj
  unfold WeakMachine.loadBodied
  simp only
  split
  · exact h.goto hat (fun _ => Iff.rfl) rfl rfl nofun
  -- the record is sound: the variable holds what was retained
  have hsound : LoadRecord.Sound ⟨t, location, (s.heap.loadWeakLocked (C t) obj).2,
      s.heap.mem location, (s.heap.obj obj).rootIsDeallocating⟩ := by
    rcases hres with hz | ⟨heq, hdeal⟩
    · exact .inl hz
    · exact .inr ⟨heq.trans hmem.symm, hdeal⟩
  have hlocal : ∀ r, (LoadNext.done ⟨t, location, (s.heap.loadWeakLocked (C t) obj).2,
      s.heap.mem location, (s.heap.obj obj).rootIsDeallocating⟩ : LoadNext Tid) = .done r →
        r.Sound := by
    intro r hr
    cases hr
    exact hsound
  split <;> exact h.quiet_goto hat rfl rfl rfl hweak hmem' h.loads (fun _ => Iff.rfl) rfl rfl hlocal

theorem Inv.loadUnlocked {next : LoadNext Tid} (hat : s.pc t = .loadUnlock obj next) :
    (s.loadUnlocked t obj next).Inv := by
  have hsound : ∀ r, next = .done r → r.Sound := h.here hat
  have hafter : (afterLoad next).locks = [] := by cases next <;> rfl
  have hplain : (afterLoad next).plain = true := by cases next <;> rfl
  have hlocal : (afterLoad next).Local s.live s.heap.mem := by cases next <;> trivial
  have hunlock : (s.unlock t (indexForPointer obj) (.afterLoad next)).Inv := by
    refine h.unlock hat mem_cons_self (fun j => ?_) rfl hplain hlocal
    rw [hafter]
    simp [locks]
  cases next with
  | retry location | runInitialize location cls => exact hunlock
  | done record => ?_
  refine { hunlock with loads := fun r hr => ?_ }
  rcases mem_cons.mp hr with rfl | hr
  · exact hsound _ rfl
  · exact h.loads r hr

/-! ## The steps of a deallocation -/

theorem Inv.clearBodied (hat : s.pc t = .clearBody obj)
    (hstep : s.clearBodied t obj = some s') : s'.Inv := by
  have hne : obj ≠ 0 := h.here hat
  have herase : (s.goto t (.clearErase obj)).Inv := h.goto hat (fun _ => Iff.rfl) rfl rfl trivial
  unfold WeakMachine.clearBodied at hstep
  split at hstep
  next =>
    obtain ⟨refs, hrefs, hcount⟩ := referrers_spec h.wf obj
    rw [hrefs] at hstep
    cases refs with
    | none =>
      cases hstep
      exact herase
    | some refs => ?_
    cases hstep
    have hregs : ∀ l, refs.count l = registeredAsHeld s.live s.heap.mem obj l := by
      intro l
      rw [← h.plain_regs hat rfl hne mem_cons_self l, ← hcount l]
      rfl
    refine h.advance hat (p := .clearing obj refs) rfl rfl
      (h.held.move t fun i => by rw [hat]; rfl) h.wf ⟨hne, ?_, fun l => ?_⟩
      (fun _ _ _ => id) (fun _ _ _ _ => id) (fun _ _ _ _ => rfl)
      (fun o l _ hin hno => absurd hin hno) (fun o l ho hin _ => h.plain_regs hat rfl ho hin l) h.loads
    · rw [nodup_iff_count_le_one]
      intro l
      rw [hregs]
      unfold registeredAsHeld
      split <;> omega
    · rw [← count_pos_iff, hregs]
      show 0 < (if s.live l = true ∧ s.heap.mem l = obj then 1 else 0)
        ↔ s.live l = true ∧ s.heap.mem l = obj
      by_cases hheld : s.live l = true ∧ s.heap.mem l = obj
      · simp [hheld]
      · rw [if_neg hheld]
        exact ⟨fun hlt => absurd hlt (lt_irrefl 0), fun hyes => absurd hyes hheld⟩
  cases hstep
  exact herase

theorem Inv.clearReferrer {referrer : Location} {referrers : List Location}
    (hat : s.pc t = .clearing obj (referrer :: referrers))
    (hstep : s.clearStepped t obj (referrer :: referrers) = some s') : s'.Inv := by
  obtain ⟨hne, hnodup, hrefs⟩ := h.here hat
  rw [nodup_cons] at hnodup
  have hheld := (hrefs referrer).mp mem_cons_self
  unfold clearStepped at hstep
  simp only [hheld.2, if_true, some.injEq] at hstep
  subst hstep
  have hval : ∀ l o, o ≠ 0 → o ≠ obj → (update s.heap.mem referrer 0 l = o ↔ s.heap.mem l = o) := by
    intro l o ho hobj
    by_cases hl : l = referrer
    · rw [hl, update_self, hheld.2]
      exact ⟨fun heq => absurd heq.symm ho, fun heq => absurd heq.symm hobj⟩
    · rw [update_of_ne hl]
  have hother : ∀ o, indexForPointer o ∉ [indexForPointer obj] → o ≠ obj := by
    rintro o hno rfl
    exact hno mem_cons_self
  refine h.advance hat (p := .clearing obj referrers) rfl rfl
    (h.held.move t fun i => by rw [hat]; rfl) h.wf ⟨hne, hnodup.2, fun l => ?_⟩
    (fun l o hno hm => ?_) (fun l o ho hno hm => (hval l o ho (hother o hno)).mp hm)
    (fun _ _ _ _ => rfl) (fun o l _ hin hno => absurd hin hno) (fun o l ho hin hnot => ?_) h.loads
  · show l ∈ referrers ↔ s.live l = true ∧ update s.heap.mem referrer 0 l = obj
    by_cases hl : l = referrer
    · rw [hl, update_self]
      exact ⟨fun hin => absurd hin hnodup.1, fun hand => absurd hand.2.symm hne⟩
    · rw [update_of_ne hl, ← hrefs l, mem_cons]
      exact ⟨.inr, fun hor => hor.resolve_left hl⟩
  · have hl : l ≠ referrer := by
      rintro rfl
      exact hother o hno (hm.symm.trans hheld.2)
    show update s.heap.mem referrer 0 l = o
    rw [update_of_ne hl]
    exact hm
  have hobj : o ≠ obj := by
    rintro rfl
    exact hnot ⟨referrers, rfl⟩
  have hbefore := h.mine t o l ho (by rw [hat]; exact hin) (by
    rw [hat]
    rintro ⟨_, heq⟩
    cases heq
    exact hobj rfl)
  rw [hat] at hbefore
  show s.heap.weak.registrations o l = registeredAsHeld s.live (update s.heap.mem referrer 0) o l
  rw [hbefore, registeredAsHeld_congr (hval l o ho hobj)]
  rfl

theorem Inv.clearRemoved (hat : s.pc t = .clearing obj [])
    (hstep : s.clearStepped t obj [] = some s') : s'.Inv := by
  obtain ⟨hne, -, hrefs⟩ := h.here hat
  obtain ⟨w, hrun, hwf, hregs⟩ := remove_spec h.wf hne
  unfold clearStepped at hstep
  simp only [hrun, some.injEq] at hstep
  subst hstep
  refine h.advance hat (p := .clearErase obj) rfl rfl (h.held.move t fun i => by rw [hat]; rfl) hwf
    trivial (fun _ _ _ => id) (fun _ _ _ _ => id) (fun o l _ hno => ?_)
    (fun o l _ hin hno => absurd hin hno) (fun o l ho hin _ => ?_) h.loads
  · show w.registrations o l = s.heap.weak.registrations o l
    rw [hregs, if_neg]
    rintro rfl
    exact hno mem_cons_self
  show w.registrations o l = registeredAsHeld s.live s.heap.mem o l
  rw [hregs]
  by_cases hobj : o = obj
  · subst hobj
    have hno : ¬ (s.live l = true ∧ s.heap.mem l = o) := fun hand =>
      absurd ((hrefs l).mpr hand) not_mem_nil
    rw [if_pos rfl, registeredAsHeld, if_neg hno]
  rw [if_neg hobj, h.mine t o l ho (by rw [hat]; exact hin), hat]
  · rfl
  rw [hat]
  rintro ⟨_, heq⟩
  cases heq
  exact hobj rfl

theorem Inv.clearErased (hat : s.pc t = .clearErase obj) : (s.clearErased t obj).Inv := by
  unfold WeakMachine.clearErased
  simp only
  split
  all_goals split
  all_goals exact h.quiet_goto hat rfl rfl rfl rfl rfl h.loads (fun _ => Iff.rfl) rfl rfl trivial

/-! ## Every step, every run -/

theorem Inv.unlocked_goto (hat : s.pc t = q) (hq : q.locks = [] ∧ q.plain = true)
    (hpc : s'.pc = update s.pc t p) (hlive : s'.live = s.live) (hlock : s'.lock = s.lock)
    (hweak : s'.heap.weak = s.heap.weak) (hmem : s'.heap.mem = s.heap.mem)
    (hloads : ∀ r ∈ s'.loads, r.Sound) (hp : p.locks = [] ∧ p.plain = true)
    (hlocal : p.Local s.live s.heap.mem) : s'.Inv := by
  refine h.quiet_goto hat hpc hlive hlock hweak hmem hloads (fun i => ?_) hq.2 hp.2 hlocal
  rw [hq.1, hp.1]

end

variable {call : WeakCall}

theorem Inv.start (h : s.Inv) (hat : s.pc t = .idle) (hstep : s.start t call = some s') :
    s'.Inv := by
  have hstore : ∀ crash l o, s.startStore t crash l o = some s' → s'.Inv := by
    intro crash l o hstep
    obtain ⟨hok, ⟨⟩⟩ := ite_none_right_eq_some.mp hstep
    exact h.unlocked_goto hat ⟨rfl, rfl⟩ rfl rfl rfl rfl rfl h.loads ⟨rfl, rfl⟩ hok.1
  cases call with
  | storeWeak l o => exact hstore true l o hstep
  | storeWeakOrNil l o => exact hstore false l o hstep
  | loadWeakRetained l =>
    obtain ⟨-, ⟨⟩⟩ := ite_none_right_eq_some.mp hstep
    exact h.unlocked_goto hat ⟨rfl, rfl⟩ rfl rfl rfl rfl rfl h.loads ⟨rfl, rfl⟩ trivial
  | retain o =>
    obtain ⟨-, ⟨⟩⟩ := ite_none_right_eq_some.mp hstep
    refine h.unlocked_goto (p := .idle) hat ⟨rfl, rfl⟩ ?_ rfl rfl rfl rfl h.loads ⟨rfl, rfl⟩ trivial
    rw [← hat]
    exact (update_eq_self t s.pc).symm
  | release o => ?_
  obtain ⟨hok, ⟨⟩⟩ := ite_none_right_eq_some.mp hstep
  unfold released
  simp only
  cases (s.heap.obj o).rootRelease.2 with
  | true =>
    exact h.unlocked_goto hat ⟨rfl, rfl⟩ rfl rfl rfl rfl rfl h.loads ⟨rfl, rfl⟩ hok.1
  | false =>
    exact h.unlocked_goto hat ⟨rfl, rfl⟩ rfl rfl rfl rfl rfl h.loads ⟨rfl, rfl⟩ trivial

theorem Inv.clearDeallocatingRead (h : s.Inv) (hat : s.pc t = .clearDeallocating obj) :
    (s.clearDeallocatingRead t obj).Inv := by
  have hne : obj ≠ 0 := h.here hat
  have hlock : (s.goto t (.clearLock obj)).Inv :=
    h.unlocked_goto hat ⟨rfl, rfl⟩ rfl rfl rfl rfl rfl h.loads ⟨rfl, rfl⟩ hne
  unfold WeakMachine.clearDeallocatingRead
  split
  · exact hlock
  split
  · exact hlock
  · exact h.unlocked_goto hat ⟨rfl, rfl⟩ rfl rfl rfl rfl rfl h.loads ⟨rfl, rfl⟩ trivial

theorem Inv.step (h : s.Inv) (hstep : s.step C t call = some s') : s'.Inv := by
  have hlocal := h.locals t
  have hone : ∀ j i : Nat, j ∈ [i] ↔ j = i ∨ j ∈ ([] : List Nat) := fun j i => by simp
  unfold WeakMachine.step at hstep
  cases hat : s.pc t <;> simp only [hat, some.injEq] at hstep hlocal
  case idle => exact h.start hat hstep
  case storeRead c =>
      subst hstep
      have hlocks : (storeLocking c (s.heap.mem c.location) []
          (c.lockTwo (s.heap.mem c.location)) : WeakPC Tid).locks = [] :=
        locks_storeLocking rfl
      exact h.unlocked_goto hat ⟨rfl, rfl⟩ rfl rfl rfl rfl rfl h.loads
        ⟨hlocks, plain_storeLocking⟩ (local_storeLocking hlocal rfl)
  case storeLock c oldObj held todo =>
      cases todo with
      | nil => cases hstep
      | cons i todo => exact h.storeLocked hat hstep
  case storeCheck c oldObj =>
      split at hstep
      · cases hstep
        refine h.goto hat (c.mem_unlockTwo oldObj) rfl rfl ⟨nodup_unlockTwo _ _, fun c' hc' => ?_⟩
        cases hc'
        exact hlocal
      · next hsame =>
          cases hstep
          exact h.goto hat (fun _ => Iff.rfl) rfl rfl ⟨hlocal, not_not.mp hsame⟩
  case storeBody c oldObj => exact h.storeBodied hat hstep
  case storeWrite c oldObj newObj =>
      subst hstep
      exact h.storeWritten hat
  case storeUnlock todo next =>
      cases todo with
      | nil => cases hstep
      | cons i todo =>
        cases hstep
        exact h.storeUnlocked hat
  case storeInitialize c cls =>
      subst hstep
      obtain ⟨hweak, hmem, -⟩ := classInitialize_same (C := C t) (s := s.heap) cls
      exact h.unlocked_goto hat ⟨rfl, rfl⟩ rfl rfl rfl hweak hmem h.loads ⟨rfl, rfl⟩ hlocal
  case loadRead location =>
      split at hstep
      · cases hstep
        refine h.unlocked_goto hat ⟨rfl, rfl⟩ rfl rfl rfl rfl rfl (fun r hr => ?_) ⟨rfl, rfl⟩ trivial
        rcases mem_cons.mp hr with rfl | hr
        · exact .inl rfl
        · exact h.loads r hr
      · cases hstep
        exact h.unlocked_goto hat ⟨rfl, rfl⟩ rfl rfl rfl rfl rfl h.loads ⟨rfl, rfl⟩ trivial
  case loadLock location obj =>
      exact h.acquire hat hstep (fun j => hone j _) rfl rfl trivial
  case loadCheck location obj =>
      split at hstep
      · cases hstep
        exact h.goto hat (fun _ => Iff.rfl) rfl rfl nofun
      next hsame =>
        cases hstep
        exact h.goto hat (fun _ => Iff.rfl) rfl rfl (not_not.mp hsame)
  case loadBody location obj =>
      subst hstep
      exact h.loadBodied C hat
  case loadUnlock obj next =>
      subst hstep
      exact h.loadUnlocked hat
  case loadInitialize location cls =>
      subst hstep
      obtain ⟨hweak, hmem, -⟩ := classInitialize_same (C := C t) (s := s.heap) cls
      exact h.unlocked_goto hat ⟨rfl, rfl⟩ rfl rfl rfl hweak hmem h.loads ⟨rfl, rfl⟩ trivial
  case rootDealloc obj =>
      split at hstep
      · cases hstep
        exact h.unlocked_goto hat ⟨rfl, rfl⟩ rfl rfl rfl rfl rfl h.loads ⟨rfl, rfl⟩ trivial
      cases hstep
      exact h.unlocked_goto hat ⟨rfl, rfl⟩ rfl rfl rfl rfl rfl h.loads ⟨rfl, rfl⟩ hlocal
  case clearDeallocating obj =>
      subst hstep
      exact h.clearDeallocatingRead hat
  case clearLock obj =>
      exact h.acquire hat hstep (fun j => hone j _) rfl rfl hlocal
  case clearBody obj => exact h.clearBodied hat hstep
  case clearing obj referrers =>
      cases referrers with
      | nil => exact h.clearRemoved hat hstep
      | cons referrer referrers => exact h.clearReferrer hat hstep
  case clearErase obj =>
      subst hstep
      exact h.clearErased hat
  case clearUnlock obj =>
      subst hstep
      refine h.unlock hat mem_cons_self (fun j => ?_) rfl rfl trivial
      show j ∈ ([] : List Nat) ↔ j ∈ [indexForPointer obj] ∧ j ≠ indexForPointer obj
      simp
  case free obj =>
      subst hstep
      exact h.unlocked_goto hat ⟨rfl, rfl⟩ rfl rfl rfl rfl rfl h.loads ⟨rfl, rfl⟩ trivial

omit [DecidableEq Tid] in
theorem Initial.inv (h : s.Initial) : s.Inv := by
  have hlocks : ∀ t, (s.pc t).locks = [] := by
    intro t
    rw [h.idle t]
    rfl
  refine ⟨h.tracks.wf, fun t i => ?_, fun t => ?_, fun o l ho _ => h.tracks.regs o l ho,
    fun t o l _ hin _ => ?_, fun r hr => ?_⟩
  · rw [hlocks, h.unlocked]
    exact ⟨fun hin => absurd hin not_mem_nil, by simp⟩
  · rw [h.idle t]
    trivial
  · rw [hlocks] at hin
    exact absurd hin not_mem_nil
  · rw [h.loads] at hr
    exact absurd hr not_mem_nil

theorem inv_of_reachable (h : (weakThreads C).Reachable (fun _ => True) s) : s.Inv := by
  have hinit : ∀ s : WeakMachine L Tid, (weakThreads C).init s → True → s.Inv :=
    fun s hs _ => Initial.inv hs
  have hstep : ∀ (s : WeakMachine L Tid) a s', s.Inv → True → (weakThreads C).step s a = some s' →
      True → s'.Inv := fun s a s' hs _ hstep _ => hs.step hstep
  exact h.invariant hinit hstep

theorem Inv.store_unregisters (h : s.Inv) (hin : (s.pc t).inStore = true)
    (hstep : s.step C t call = some s')
    (hless : s'.heap.weak.registrations o l < s.heap.weak.registrations o l) :
    s.heap.mem l = o := by
  have hlocal := h.locals t
  have hsame : s'.heap.weak ≠ s.heap.weak := fun heq => by
    rw [heq] at hless
    exact lt_irrefl _ hless
  unfold WeakMachine.step at hstep
  cases hat : s.pc t <;> rw [hat] at hin <;> cases hin
  all_goals simp only [hat, some.injEq] at hstep hlocal
  case storeBody c oldObj =>
      unfold WeakMachine.storeBodied at hstep
      simp only at hstep
      split at hstep
      next =>
        cases hstep
        exact absurd rfl hsame
      rcases Heap.storeWeakLocked_spec (C := C t) h.wf true true c.crashIfDeallocating c.location
          oldObj c.newObj with herr | ⟨heap, newObj, hrun, hnew, hst⟩
      · rw [herr] at hstep
        cases hstep
      rw [hrun] at hstep
      cases hstep
      by_cases hhit : oldObj = o ∧ c.location = l
      · rw [← hhit.2, hlocal.2]
        exact hhit.1
      -- nothing was taken away here
      exfalso
      have hne : o ≠ 0 := by
        rintro rfl
        rw [h.wf.nil_regs] at hless
        exact Nat.not_lt_zero _ hless
      rw [hst.regs o l hne, hit, if_neg hhit] at hless
      simp only [if_true, Nat.sub_zero] at hless
      omega
  case storeLock c oldObj held todo =>
      cases todo with
      | nil => cases hstep
      | cons i todo => ?_
      simp only [WeakMachine.acquire] at hstep
      split at hstep
      · cases hstep
        exact absurd rfl hsame
      · cases hstep
  case storeCheck c oldObj =>
      split at hstep <;> cases hstep <;> exact absurd rfl hsame
  case storeUnlock todo next =>
      cases todo with
      | nil => cases hstep
      | cons i todo =>
        cases hstep
        exact absurd rfl hsame
  case storeInitialize c cls =>
      subst hstep
      exact absurd (Heap.classInitialize_same (C := C t) (s := s.heap) cls).1 hsame
  all_goals
    subst hstep
    exact absurd rfl hsame

end WeakMachine

/-- **In every interleaving**: a variable is registered for exactly what it holds, as far as
the objects whose side table is unlocked are concerned; a load returned nil, or what the
variable held when it was retained, and that was not deallocating; a store that finds
another value than the one it read retries and has changed nothing; and no store takes a
registration from an object that the variable does not hold. -/
theorem weak_interleaving_registers_held_object [DecidableEq Tid] (C : Tid → ClassInfo L)
    (s : WeakMachine L Tid)
    (h : (weakThreads C).Reachable (fun _ => True) s) :
    (∀ o l, o ≠ 0 → s.live l = true → s.lock (indexForPointer o) = none →
        s.heap.weak.registrations o l = if s.heap.mem l = o then 1 else 0)
      ∧ (∀ r ∈ s.loads, r.result = 0 ∨ r.result = r.held ∧ r.deallocating = false)
      ∧ (∀ t c oldObj, s.pc t = .storeCheck c oldObj → s.heap.mem c.location ≠ oldObj →
          ∀ call, s.step C t call
            = some (s.goto t (.storeUnlock (c.unlockTwo oldObj) (.retry c))))
      ∧ ∀ t call s', (s.pc t).inStore = true → s.step C t call = some s' → ∀ o l,
          s'.heap.weak.registrations o l < s.heap.weak.registrations o l → s.heap.mem l = o := by
  have hinv := inv_of_reachable h
  refine ⟨fun o l ho hl hfree => ?_, hinv.loads, fun t c oldObj hat hne call => ?_,
    fun t call s' hin hstep o l hless => hinv.store_unregisters hin hstep hless⟩
  · rw [hinv.free o l ho hfree]
    unfold registeredAsHeld
    simp only [hl, true_and]
  · unfold step
    simp only [hat, if_pos hne]

def WeakMachine.ofState (w : WeakState L) (owned : Tid → ObjPtr → Nat) : WeakMachine L Tid :=
  ⟨w.heap, fun _ => none, fun _ => .idle, w.live, w.allocated, owned, []⟩

theorem WeakMachine.ofState_initial {w : WeakState L} (h : w.Tracks) (owned : Tid → ObjPtr → Nat) :
    (ofState w owned).Initial :=
  ⟨h, fun _ => rfl, fun _ => rfl, rfl⟩

def raceSetup : List WeakOp := [.alloc 16 1 true false, .alloc 4096 2 false false, .initWeak 8 16]

/-- One thread has read the variable for a store of 4096 when the other releases and
deallocates 16; the store retries and goes through; the other thread loads. -/
def raceRun : List (Bool × WeakCall) :=
  replicate 2 (false, .storeWeak 8 4096) ++ replicate 10 (true, .release 16)
    ++ replicate 21 (false, .storeWeak 8 4096) ++ replicate 6 (true, .loadWeakRetained 8)

def race : Option (WeakMachine Layout.x86_64 Bool) :=
  ((weakSystem (ClassInfo.plain Layout.x86_64)).runFrom (fun _ => True)
      (WeakState.empty Layout.x86_64) raceSetup).bind fun w =>
    (weakThreads fun _ => ClassInfo.plain Layout.x86_64).runFrom (fun _ => True)
      (WeakMachine.ofState w fun t o => if (t, o) = (false, 4096) ∨ (t, o) = (true, 16) then 1 else 0)
      raceRun

/-- At the end the variable is registered for 4096 and no longer for 16, and the load
returned what it held. -/
theorem race_registers_held_object :
    ∃ s, race = some s ∧ s.heap.weak.registrations 4096 8 = 1
      ∧ s.heap.weak.registrations 16 8 = 0
      ∧ ∀ r ∈ s.loads, r.result = 0 ∨ r.result = r.held ∧ r.deallocating = false := by
  have hend : race.map (fun s => (s.live 8, s.heap.mem 8, s.lock (indexForPointer 4096),
      s.lock (indexForPointer 16), s.loads.map LoadRecord.result))
      = some (true, 4096, none, none, [4096]) := by
    decide +kernel
  obtain ⟨s, hrun, hobs⟩ := map_eq_some_iff.mp hend
  simp only [Prod.mk.injEq] at hobs
  obtain ⟨hlive, hmem, hfree, hfree', -⟩ := hobs
  obtain ⟨w, hsetup, hrace⟩ := bind_eq_some_iff.mp hrun
  have hempty : (weakSystem (ClassInfo.plain x86_64)).Reachable (fun _ => True)
      (WeakState.empty x86_64) := .init ⟨rfl, rfl, rfl, rfl⟩ trivial
  have hstart := ofState_initial
    (WeakState.tracks_of_reachable (hempty.of_run raceSetup hsetup))
    (fun (t : Bool) o => if (t, o) = (false, 4096) ∨ (t, o) = (true, 16) then 1 else 0)
  have hreach : (weakThreads fun _ => ClassInfo.plain x86_64).Reachable (fun _ => True) s :=
    System.Reachable.of_run raceRun (.init hstart trivial) hrace
  obtain ⟨hregs, hloads, -⟩ := weak_interleaving_registers_held_object _ s hreach
  refine ⟨s, hrun, ?_, ?_, hloads⟩
  · rw [hregs 4096 8 (by decide) hlive hfree, hmem]
    rfl
  · rw [hregs 16 8 (by decide) hlive hfree', hmem]
    rfl

end ObjcRuntime
