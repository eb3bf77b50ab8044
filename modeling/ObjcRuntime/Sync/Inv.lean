/-
THE INVARIANT OF @synchronized.

`ThreadOK` is what each thread's caches, place in the code and mutexes have to
do with each other; `SyncInv` adds that no more threads use a record than it
counts, and that no object has two records.
-/
import ObjcRuntime.Sync.Caches

namespace ObjcRuntime

open Lib

variable {ι O T : Type}

/-! ## What a thread has in hand -/

namespace SyncPC

def waiting : SyncPC O → Option Nat
  | .acquireMutex _ d => some d
  | _ => none

def waitingFor : SyncPC O → Option O
  | .acquireMutex object _ => some object
  | _ => none

def pending : SyncPC O → Option Nat
  | .acquireCache _ d => some d
  | .releaseCount _ d => some d
  | _ => none

def unlocking : SyncPC O → Option Nat
  | .releaseCount _ d => some d
  | .releaseMutex _ d => some d
  | _ => none

/-- Between the begin and the end of `id2data`. -/
def inId2data : SyncPC O → Bool
  | .acquireList _ => true
  | .acquireCache _ _ => true
  | .releaseList _ => true
  | .releaseCount _ _ => true
  | _ => false

structure HandsFree (pc : SyncPC O) : Prop where
  pending : pc.pending = none
  waiting : pc.waiting = none
  waitingFor : pc.waitingFor = none
  unlocking : pc.unlocking = none

end SyncPC

namespace SyncState

variable [DecidableEq O] [DecidableEq T]

def acct (s : SyncState ι O T) (t : T) (d : Nat) : Nat :=
  holdings (s.entries t) d + if (s.pc t).pending = some d then 1 else 0

def lockedBy (s : SyncState ι O T) (d : Nat) (t : T) : Nat :=
  if (s.data d).owner = some t then (s.data d).recursion else 0

def PCOK (s : SyncState ι O T) (t : T) : Prop :=
  match s.pc t with
  | .acquireList o => ∀ item ∈ s.entries t, (s.data item.data).object ≠ o
  | .acquireCache o d =>
    (∀ item ∈ s.entries t, (s.data item.data).object ≠ o) ∧ (s.data d).object = o
  | .acquireMutex o d => (s.data d).object = o ∧ ∃ item ∈ s.entries t, item.data = d
  | .fatal => False
  | _ => True

structure ThreadOK (stripe : O → ι) (s : SyncState ι O T) (t : T) : Prop where
  positive : ∀ item ∈ s.entries t, 0 < item.lockCount
  distinct : ((s.entries t).map (·.data)).Nodup
  listed : ∀ d, 0 < s.acct t d → d ∈ s.lists (stripe (s.data d).object)
  pcOK : s.PCOK t
  mutex : ∀ d, s.lockedBy d t + (if (s.pc t).waiting = some d then 1 else 0)
    = lockTotal (s.entries t) d + if (s.pc t).unlocking = some d then 1 else 0
  nesting : ∀ o, s.depth t o + (if (s.pc t).waitingFor = some o then 1 else 0)
    = s.objectTotal (s.entries t) o

variable [Fintype T]

def slack (s : SyncState ι O T) (d : Nat) : Int :=
  (s.data d).threadCount - ((∑ t, s.acct t d : Nat) : Int)

structure SyncInv (stripe : O → ι) (s : SyncState ι O T) : Prop where
  thread : ∀ t, s.ThreadOK stripe t
  counted : ∀ d, 0 ≤ s.slack d
  unique : ∀ i, ((s.lists i).map fun d => (s.data d).object).Nodup
  inList : ∀ i d, d ∈ s.lists i → d < s.allocated ∧ stripe (s.data d).object = i
  owner : ∀ d, (s.data d).owner = none ↔ (s.data d).recursion = 0
  fresh : ∀ d, s.allocated ≤ d → (s.data d).threadCount = 0 ∧ (s.data d).owner = none

/-! ## Steps of another thread -/

variable {stripe : O → ι} {s s' : SyncState ι O T} {t : T}

omit [DecidableEq O] [DecidableEq T] [Fintype T] in
theorem acct_pos_of_mem {item : SyncCacheItem} (h : item ∈ s.entries t) :
    0 < s.acct t item.data :=
  Nat.lt_of_lt_of_le (holdings_pos.mpr ⟨item, h, rfl⟩) (Nat.le_add_right _ _)

structure SameThread (s s' : SyncState ι O T) (t : T) : Prop where
  fast : s'.fast t = s.fast t
  slow : s'.slow t = s.slow t
  pc : s'.pc t = s.pc t
  depth : s'.depth t = s.depth t

omit [DecidableEq O] [DecidableEq T] [Fintype T] in
theorem SameThread.entries (h : s.SameThread s' t) : s'.entries t = s.entries t := by
  unfold SyncState.entries
  rw [h.fast, h.slow]

omit [DecidableEq O] [DecidableEq T] [Fintype T] in
theorem SameThread.acct (h : s.SameThread s' t) (d : Nat) : s'.acct t d = s.acct t d := by
  unfold SyncState.acct
  rw [h.entries, h.pc]

omit [Fintype T] in
theorem ThreadOK.frame (h : s.ThreadOK stripe t) (hsame : s.SameThread s' t)
    (hobj : ∀ d, 0 < s.acct t d → (s'.data d).object = (s.data d).object)
    (hlist : ∀ i d, d ∈ s.lists i → d ∈ s'.lists i)
    (hlock : ∀ d, s'.lockedBy d t = s.lockedBy d t) : s'.ThreadOK stripe t := by
  have hentries := hsame.entries
  have hitems : ∀ item ∈ s.entries t, (s'.data item.data).object = (s.data item.data).object :=
    fun item hmem => hobj item.data (acct_pos_of_mem hmem)
  refine ⟨?_, ?_, fun d hd => ?_, ?_, fun d => ?_, fun o => ?_⟩
  · rw [hentries]
    exact h.positive
  · rw [hentries]
    exact h.distinct
  · rw [hsame.acct] at hd
    rw [hobj d hd]
    exact hlist _ d (h.listed d hd)
  · have hpc := h.pcOK
    unfold PCOK at hpc ⊢
    rw [hsame.pc, hentries]
    cases hcase : s.pc t with
    | acquireList o =>
      rw [hcase] at hpc
      intro item hmem
      rw [hitems item hmem]
      exact hpc item hmem
    | acquireCache o d =>
      rw [hcase] at hpc
      refine ⟨fun item hmem => ?_, ?_⟩
      · rw [hitems item hmem]
        exact hpc.1 item hmem
      rw [hobj d]
      · exact hpc.2
      unfold acct
      rw [hcase, SyncPC.pending, if_pos rfl]
      omega
    | acquireMutex o d =>
      rw [hcase] at hpc
      obtain ⟨hd, item, hmem, rfl⟩ := hpc
      exact ⟨(hitems item hmem).trans hd, item, hmem, rfl⟩
    | fatal =>
      rw [hcase] at hpc
      exact hpc
    | idle | releaseList o | releaseCount o d | releaseMutex o d => trivial
  · rw [hlock, hsame.pc, hentries]
    exact h.mutex d
  · rw [hsame.depth, hsame.pc, hentries, objectTotal_congr hitems]
    exact h.nesting o

omit [DecidableEq O] in
theorem sum_acct (s s' : SyncState ι O T) {d : Nat}
    (h : ∀ t', t' ≠ t → s'.acct t' d = s.acct t' d) :
    (∑ t', s'.acct t' d) + s.acct t d = (∑ t', s.acct t' d) + s'.acct t d := by
  have hupdate : (fun t' => s'.acct t' d)
      = Function.update (fun t' => s.acct t' d) t (s'.acct t d) := by
    funext t'
    by_cases ht : t' = t
    · rw [ht, Function.update_self]
    · rw [Function.update_of_ne ht]
      exact h t' ht
  rw [hupdate]
  exact sum_update (fun t' => s.acct t' d) t (s'.acct t d)

section

variable (h : s.SyncInv stripe)

include h

theorem SyncInv.acct_le (t : T) (d : Nat) : (s.acct t d : Int) ≤ (s.data d).threadCount := by
  have hle : s.acct t d ≤ ∑ t', s.acct t' d :=
    Finset.single_le_sum (f := fun t' => s.acct t' d) (fun _ _ => Nat.zero_le _) (Finset.mem_univ t)
  have hslack := h.counted d
  unfold slack at hslack
  omega

theorem SyncInv.advance (t : T) (hother : ∀ t', t' ≠ t → s.SameThread s' t')
    (hobj : ∀ t' d, t' ≠ t → 0 < s.acct t' d → (s'.data d).object = (s.data d).object)
    (hlist : ∀ i d, d ∈ s.lists i → d ∈ s'.lists i)
    (hlock : ∀ t' d, t' ≠ t → s'.lockedBy d t' = s.lockedBy d t')
    (hself : s'.ThreadOK stripe t)
    (hcount : ∀ d, (s'.data d).threadCount + s.acct t d = (s.data d).threadCount + s'.acct t d)
    (hunique : ∀ i, ((s'.lists i).map fun d => (s'.data d).object).Nodup)
    (hinList : ∀ i d, d ∈ s'.lists i → d < s'.allocated ∧ stripe (s'.data d).object = i)
    (howner : ∀ d, (s'.data d).owner = none ↔ (s'.data d).recursion = 0)
    (hfresh : ∀ d, s'.allocated ≤ d → (s'.data d).threadCount = 0 ∧ (s'.data d).owner = none) :
    s'.SyncInv stripe ∧ ∀ d, s'.slack d = s.slack d := by
  have hslack : ∀ d, s'.slack d = s.slack d := by
    intro d
    have hsum := sum_acct s s' (t := t) (d := d) fun t' ht => (hother t' ht).acct d
    have hc := hcount d
    unfold slack
    omega
  refine ⟨⟨fun t' => ?_, fun d => ?_, hunique, hinList, howner, hfresh⟩, hslack⟩
  · by_cases ht : t' = t
    · rw [ht]
      exact hself
    · exact (h.thread t').frame (hother t' ht) (fun d => hobj t' d ht) hlist fun d => hlock t' d ht
  · rw [hslack]
    exact h.counted d

theorem SyncInv.advance_local (t : T) (hother : ∀ t', t' ≠ t → s.SameThread s' t')
    (hlists : s'.lists = s.lists) (hallocated : s'.allocated = s.allocated)
    (hobj : ∀ d, (s'.data d).object = (s.data d).object)
    (hlock : ∀ t' d, t' ≠ t → s'.lockedBy d t' = s.lockedBy d t')
    (hself : s'.ThreadOK stripe t)
    (hcount : ∀ d, (s'.data d).threadCount + s.acct t d = (s.data d).threadCount + s'.acct t d)
    (howner : ∀ d, (s'.data d).owner = none ↔ (s'.data d).recursion = 0)
    (hfresh : ∀ d, s.allocated ≤ d → (s'.data d).threadCount = 0 ∧ (s'.data d).owner = none) :
    s'.SyncInv stripe ∧ ∀ d, s'.slack d = s.slack d := by
  refine h.advance t hother (fun _ d _ _ => hobj d) (fun i d hd => ?_) hlock hself hcount
    (fun i => ?_) (fun i d hd => ?_) howner fun d hd => hfresh d (hallocated ▸ hd)
  · rw [hlists]
    exact hd
  · rw [hlists]
    simp only [hobj]
    exact h.unique i
  rw [hlists] at hd
  rw [hallocated, hobj]
  exact h.inList i d hd

theorem SyncInv.lt_allocated {d : Nat} (hd : 0 < s.acct t d) :
    d < s.allocated :=
  (h.inList _ d ((h.thread t).listed d hd)).1

theorem SyncInv.eq_of_object {t' : T} {d d' : Nat} (hd : 0 < s.acct t d)
    (hd' : 0 < s.acct t' d') (hobj : (s.data d).object = (s.data d').object) : d = d' := by
  have hmem := (h.thread t).listed d hd
  have hmem' := (h.thread t').listed d' hd'
  rw [hobj] at hmem
  exact List.inj_on_of_nodup_map (h.unique _) hmem hmem' hobj

end

end SyncState

end ObjcRuntime
