/-
EVERY STEP KEEPS THE INVARIANT OF @synchronized.
-/
import ObjcRuntime.Sync.Inv

namespace ObjcRuntime

open Lib Function List Option Nat SyncPC SyncState

variable {ι O T : Type}

namespace SyncState

variable [DecidableEq O] [DecidableEq T] [Fintype T] {stripe : O → ι} {s s' : SyncState ι O T}

/-! ## Steps on the thread's own caches -/

variable {t : T}

omit [Fintype T] in
theorem ThreadOK.recache (h : s.ThreadOK stripe t) (old new rest : List SyncCacheItem)
    (hdata : s'.data = s.data) (hlists : s'.lists = s.lists)
    (hold : (s.entries t).Perm (old ++ rest)) (hnew : (s'.entries t).Perm (new ++ rest))
    (hpositive : ∀ item ∈ new, 0 < item.lockCount)
    (hdistinct : ((new ++ rest).map (·.data)).Nodup) (hacct : ∀ d, s'.acct t d = s.acct t d)
    (hpc : s'.PCOK t)
    (hmutex : ∀ d, lockTotal old d + (if (s.pc t).unlocking = some d then 1 else 0)
        + (if (s'.pc t).waiting = some d then 1 else 0)
      = lockTotal new d + (if (s'.pc t).unlocking = some d then 1 else 0)
        + if (s.pc t).waiting = some d then 1 else 0)
    (hnesting : ∀ o, s'.depth t o + (if (s'.pc t).waitingFor = some o then 1 else 0)
        + s.objectTotal old o
      = s.depth t o + (if (s.pc t).waitingFor = some o then 1 else 0) + s.objectTotal new o) :
    s'.ThreadOK stripe t := by
  have hlt : ∀ (l l' : List SyncCacheItem) d, lockTotal (l ++ l') d
      = lockTotal l d + lockTotal l' d := by
    intro l l' d
    simp [lockTotal]
  have hot : ∀ (l l' : List SyncCacheItem) o,
      s.objectTotal (l ++ l') o = s.objectTotal l o + s.objectTotal l' o := by
    intro l l' o
    simp [objectTotal]
  have hot' : ∀ l o, s'.objectTotal l o = s.objectTotal l o := by
    intro l o
    unfold objectTotal
    rw [hdata]
  refine ⟨fun item hmem => ?_, ?_, fun d hd => ?_, hpc, fun d => ?_, fun o => ?_⟩
  · rcases mem_append.mp (hnew.mem_iff.mp hmem) with hmem | hmem
    · exact hpositive item hmem
    · exact h.positive item (hold.mem_iff.mpr (mem_append_right _ hmem))
  · exact (hnew.map _).nodup_iff.mpr hdistinct
  · rw [hacct] at hd
    rw [hdata, hlists]
    exact h.listed d hd
  · have hm := h.mutex d
    have hm' := hmutex d
    rw [lockTotal_perm hold, hlt] at hm
    rw [lockTotal_perm hnew, hlt]
    unfold lockedBy at hm ⊢
    rw [hdata]
    omega
  have hn := h.nesting o
  have hn' := hnesting o
  rw [objectTotal_perm hold, hot] at hn
  rw [hot', objectTotal_perm hnew, hot]
  omega

variable (h : s.SyncInv stripe)
theorem SyncInv.advance_caches (h : s.SyncInv stripe) (t : T)
    (hother : ∀ t', t' ≠ t → s.SameThread s' t') (hlists : s'.lists = s.lists)
    (hallocated : s'.allocated = s.allocated) (hdata : s'.data = s.data)
    (hself : s'.ThreadOK stripe t) (hacct : ∀ d, s'.acct t d = s.acct t d) :
    s'.SyncInv stripe ∧ ∀ d, s'.slack d = s.slack d := by
  refine h.advance_local t hother hlists hallocated (fun d => by rw [hdata])
    (fun t' d _ => by unfold lockedBy; rw [hdata]) hself (fun d => by rw [hdata, hacct]) ?_ ?_
  · rw [hdata]
    exact h.owner
  · rw [hdata]
    exact h.fresh

omit [DecidableEq O] [Fintype T] in
theorem sameThread_goto {t' : T} (ht : t' ≠ t) (pc : SyncPC O) :
    s.SameThread (s.goto t pc) t' :=
  ⟨rfl, rfl, update_of_ne ht _ _, rfl⟩

/-- What a step on the caches of `t` leaves behind: `t` is at `pc` with the given entries, and the
    other threads, the lists and the records are as before. -/
structure OwnStep (s s' : SyncState ι O T) (t : T) (pc : SyncPC O)
    (entries : List SyncCacheItem) : Prop where
  other : ∀ t', t' ≠ t → s.SameThread s' t'
  lists : s'.lists = s.lists
  allocated : s'.allocated = s.allocated
  data : s'.data = s.data
  pc : s'.pc t = pc
  entries : (s'.entries t).Perm entries

variable {item : SyncCacheItem} {l : List SyncCacheItem}

omit [DecidableEq O] [Fintype T] in
theorem OwnStep.setItem {place : CachePlace} (hset : ((s.setItem t place item).entries t).Perm l)
    (pc : SyncPC O) : OwnStep s ((s.setItem t place item).goto t pc) t pc l := by
  cases place with
  | fast =>
    exact ⟨fun t' ht => ⟨update_of_ne ht _ _, rfl, update_of_ne ht _ _, rfl⟩,
      rfl, rfl, rfl, update_self .., hset⟩
  | slow i =>
    exact ⟨fun t' ht => ⟨rfl, update_of_ne ht _ _, update_of_ne ht _ _, rfl⟩,
      rfl, rfl, rfl, update_self .., hset⟩

omit [DecidableEq O] [Fintype T] in
theorem OwnStep.dropItem {place : CachePlace} (hdrop : ((s.dropItem t place).entries t).Perm l)
    (pc : SyncPC O) :
    OwnStep s ((s.dropItem t place).goto t pc) t pc l := by
  cases place with
  | fast =>
    exact ⟨fun t' ht => ⟨update_of_ne ht _ _, rfl, update_of_ne ht _ _, rfl⟩,
      rfl, rfl, rfl, update_self .., hdrop⟩
  | slow i =>
    exact ⟨fun t' ht => ⟨rfl, update_of_ne ht _ _, update_of_ne ht _ _, rfl⟩,
      rfl, rfl, rfl, update_self .., hdrop⟩

omit [DecidableEq O] [Fintype T] in
theorem OwnStep.of_depth {nesting : O → Nat} {pc : SyncPC O}
    (h : OwnStep { s with depth := update s.depth t nesting } s' t pc l) :
    OwnStep s s' t pc l :=
  { h with
    other := fun t' ht =>
      { h.other t' ht with depth := (h.other t' ht).depth.trans (update_of_ne ht _ _) } }

omit [DecidableEq O] [DecidableEq T] [Fintype T] in
theorem pcOK_of_idle (hpc : s.pc t = .idle) : s.PCOK t := by
  unfold PCOK
  rw [hpc]
  trivial

theorem SyncInv.goto (h : s.SyncInv stripe) {pc : SyncPC O} (hfree : (s.pc t).HandsFree)
    (hpc : (s.goto t pc).PCOK t) (hfree' : pc.HandsFree) :
    (s.goto t pc).SyncInv stripe ∧ ∀ d, (s.goto t pc).slack d = s.slack d := by
  have hpc' : (s.goto t pc).pc t = pc := update_self ..
  have hacct : ∀ d, (s.goto t pc).acct t d = s.acct t d := by
    intro d
    unfold acct
    rw [hpc', hfree'.pending, hfree.pending]
    rfl
  refine h.advance_caches t (fun t' ht => sameThread_goto ht pc) rfl rfl rfl ?_ hacct
  refine (h.thread t).recache [] [] (s.entries t) rfl rfl (Perm.refl _) (Perm.refl _)
    (fun item hmem => ?_) (h.thread t).distinct hacct hpc (fun d => ?_) fun o => ?_
  · cases hmem
  · rw [hpc', hfree'.waiting, hfree'.unlocking, hfree.waiting, hfree.unlocking]
  · rw [hpc', hfree'.waitingFor, hfree.waitingFor]
    rfl

variable {rest : List SyncCacheItem} {object : O} {pc : SyncPC O} {d a b p w u : Nat}

/-- The entries of a record that is counted `n` times. -/
def counts (d n : Nat) : List SyncCacheItem :=
  if n = 0 then [] else [⟨d, n⟩]

omit [DecidableEq T] [Fintype T] in
theorem totals_counts (d n : Nat) :
    (∀ d', holdings (counts d n) d' = if d = d' then min n 1 else 0) ∧
      (∀ d', lockTotal (counts d n) d' = if d = d' then n else 0) ∧
      ∀ o, s.objectTotal (counts d n) o = if (s.data d).object = o then n else 0 := by
  cases n with
  | zero | succ n => simp [counts, holdings, lockTotal, objectTotal]

/-- The thread has at most the record `d` of `object` in hand: how often it is pending, how often
the thread waits for it, and how often it is about to unlock it. -/
inductive InHand (object : O) (d : Nat) : SyncPC O → Nat → Nat → Nat → Prop
  | idle : InHand object d .idle 0 0 0
  | acquireCache : InHand object d (.acquireCache object d) 1 0 0
  | acquireMutex : InHand object d (.acquireMutex object d) 0 1 0
  | releaseCount : InHand object d (.releaseCount object d) 1 0 1
  | releaseMutex : InHand object d (.releaseMutex object d) 0 0 1

def HandCounts (object : O) (d : Nat) (pc : SyncPC O) (p w u : Nat) : Prop :=
  (∀ d', (if pc.pending = some d' then 1 else 0) = if d = d' then p else 0) ∧
    (∀ d', (if pc.waiting = some d' then 1 else 0) = if d = d' then w else 0) ∧
    (∀ d', (if pc.unlocking = some d' then 1 else 0) = if d = d' then u else 0) ∧
    ∀ o, (if pc.waitingFor = some o then 1 else 0) = if object = o then w else 0

theorem InHand.counts (h : InHand object d pc p w u) : HandCounts object d pc p w u := by
  unfold HandCounts
  cases h <;> simp [pending, waiting, unlocking, waitingFor]

include h

theorem SyncInv.recount {pc0 : SyncPC O} {p0 w0 u0 : Nat}
    (hpc₀ : s.pc t = pc0) (hobj : (s.data d).object = object) (hhand0 : InHand object d pc0 p0 w0 u0)
    (hhand : InHand object d pc p w u) (hold : (s.entries t).Perm (counts d a ++ rest))
    (hrest : d ∉ rest.map (·.data))
    (hown : OwnStep s s' t pc (counts d b ++ rest)) (hpcOK : s'.PCOK t)
    (hacct : min b 1 + p = min a 1 + p0) (hmutex : a + u0 + w = b + u + w0)
    (hdepth : s'.depth t object + w + a = s.depth t object + w0 + b)
    (hdepth' : ∀ o, o ≠ object → s'.depth t o = s.depth t o) :
    s'.SyncInv stripe ∧ ∀ d, s'.slack d = s.slack d := by
  obtain ⟨hother, hlists, hallocated, hdata, hpc, hentries⟩ := hown
  obtain ⟨hpending0, hwaiting0, hunlocking₀, hwaitingFor₀⟩ := hhand0.counts
  obtain ⟨hpending, hwaiting, hunlocking, hwaitingFor⟩ := hhand.counts
  obtain ⟨hholds, hlocks, hobjects⟩ := totals_counts (s := s) d a
  obtain ⟨hholds', hlocks', hobjects'⟩ := totals_counts (s := s) d b
  have hacct' : ∀ d', s'.acct t d' = s.acct t d' := by
    intro d'
    unfold acct
    rw [hpc, hpc₀, holdings_perm hentries, holdings_perm hold, hpending, hpending0]
    have happend : ∀ l : List SyncCacheItem,
        holdings (l ++ rest) d' = holdings l d' + holdings rest d' := by
      intro l
      simp [holdings]
    rw [happend, happend, hholds, hholds']
    by_cases hd : d = d'
    · simp only [hd, if_true]
      omega
    · simp only [hd, if_false]
  refine h.advance_caches t hother hlists hallocated hdata ?_ hacct'
  refine (h.thread t).recache (counts d a) (counts d b) rest hdata hlists hold hentries
    (fun i hi => ?_) ?_ hacct' hpcOK (fun d' => ?_) fun o => ?_
  · unfold counts at hi
    split at hi
    next => cases hi
    next hb =>
      rw [mem_singleton.mp hi]
      exact pos_of_ne_zero hb
  · have hnodup : (rest.map (·.data)).Nodup := by
      have hd := (h.thread t).distinct
      rw [(hold.map _).nodup_iff, map_append] at hd
      exact hd.of_append_right
    unfold counts
    split
    next => exact hnodup
    next => exact nodup_cons.mpr ⟨hrest, hnodup⟩
  · rw [hpc, hpc₀, hwaiting, hwaiting0, hunlocking, hunlocking₀, hlocks, hlocks']
    by_cases hd : d = d'
    · simp only [hd, if_true]
      exact hmutex
    · simp only [hd, if_false]
  rw [hpc, hpc₀, hwaitingFor, hwaitingFor₀, hobjects, hobjects', hobj]
  by_cases ho : object = o
  · simp only [← ho, if_true]
    exact hdepth
  · simp only [ho, if_false]
    rw [hdepth' o (Ne.symm ho)]

theorem SyncInv.found (hperm : (s.entries t).Perm (item :: rest)) :
    ¬ ((s.data item.data).threadCount ≤ 0 ∨ item.lockCount = 0) := by
  have hmem : item ∈ s.entries t := hperm.mem_iff.mpr mem_cons_self
  have hpos := (h.thread t).positive item hmem
  have hacct := acct_pos_of_mem hmem
  have hle := h.acct_le t item.data
  rintro (hcount | hzero)
  · omega
  · omega

theorem SyncInv.withResult (result : T → SyncResult) :
    { s with result := result }.SyncInv stripe :=
  { h with
    thread := fun t => (h.thread t).frame ⟨rfl, rfl, rfl, rfl⟩ (fun _ _ => rfl) (fun _ _ => id)
      fun _ => rfl }

omit h

section

variable (h : s.SyncInv stripe) (hidle : s.pc t = .idle)

include h hidle

section

variable (hperm : (s.entries t).Perm (item :: rest)) (hobj : (s.data item.data).object = object)

include hperm hobj

theorem SyncInv.recount_found (hhand : InHand object item.data pc p w u)
    (hown : OwnStep s s' t pc (counts item.data b ++ rest)) (hpcOK : s'.PCOK t)
    (hacct : min b 1 + p = 1) (hmutex : item.lockCount + w = b + u)
    (hdepth : s'.depth t object + w + item.lockCount = s.depth t object + b)
    (hdepth' : ∀ o, o ≠ object → s'.depth t o = s.depth t o) :
    s'.SyncInv stripe ∧ ∀ d, s'.slack d = s.slack d := by
  have hpos : ¬ item.lockCount = 0 := fun hzero => h.found hperm (.inr hzero)
  have hcounted : counts item.data item.lockCount = [item] := if_neg hpos
  have hdistinct := (h.thread t).distinct
  rw [(hperm.map _).nodup_iff] at hdistinct
  refine h.recount hidle hobj .idle hhand (a := item.lockCount) ?_ (nodup_cons.mp hdistinct).1
    hown hpcOK ?_ hmutex hdepth hdepth'
  · rw [hcounted]
    exact hperm
  · omega

theorem SyncInv.depth_pos : 0 < s.depth t object := by
  have hpos := (h.thread t).positive item (hperm.mem_iff.mpr mem_cons_self)
  have hn := (h.thread t).nesting object
  rw [hidle, objectTotal_perm hperm, objectTotal_cons, if_pos hobj] at hn
  simp only [waitingFor, reduceCtorEq, if_false] at hn
  omega

theorem SyncInv.leave (hhand : InHand object item.data pc p 0 1)
    (hlast : min (item.lockCount - 1) 1 + p = 1)
    (hown : OwnStep s s' t pc (counts item.data (item.lockCount - 1) ++ rest))
    (hdepth : s'.depth t = update (s.depth t) object (s.depth t object - 1)) :
    s'.SyncInv stripe ∧ ∀ d, s'.slack d = s.slack d := by
  have hpos := (h.thread t).positive item (hperm.mem_iff.mpr mem_cons_self)
  have hnested := h.depth_pos hidle hperm hobj
  refine h.recount_found hidle hperm hobj hhand hown ?_ hlast ?_ ?_ fun o ho => ?_
  · unfold PCOK
    rw [hown.pc]
    cases hhand <;> trivial
  · omega
  · rw [hdepth, update_self]
    omega
  · rw [hdepth]
    exact update_of_ne ho _ _

end

omit h hidle in
theorem count_of_fits (place : CachePlace) {n : Nat} (hn : n < 2 ^ 32)
    (hpos : 0 < (n + 1) % 2 ^ place.countBits) : (n + 1) % 2 ^ place.countBits = n + 1 := by
  cases place <;> (simp only [CachePlace.countBits] at hpos ⊢; omega)

theorem SyncInv.enter (object : Option O) (hfits : s.Fits)
    (hfits' : (s.objc_sync_enter t object).Fits) :
    (s.objc_sync_enter t object).SyncInv stripe ∧
      ∀ d, (s.objc_sync_enter t object).slack d = s.slack d := by
  cases object with
  | none => exact ⟨h.withResult _, fun _ => rfl⟩
  | some object => ?_
  cases hplace : s.cachePlace t object with
  | none =>
    have hrun : s.objc_sync_enter t (some object) = s.goto t (.acquireList object) := by
      simp only [objc_sync_enter, hplace]
    rw [hrun]
    refine h.goto (hidle ▸ ⟨rfl, rfl, rfl, rfl⟩) ?_ ⟨rfl, rfl, rfl, rfl⟩
    unfold PCOK
    rw [show (s.goto t (.acquireList object)).pc t = .acquireList object from
      update_self ..]
    show ∀ item ∈ s.entries t, (s.data item.data).object ≠ object
    exact cachePlace_none hplace
  | some found => ?_
  obtain ⟨place, item⟩ := found
  obtain ⟨hobj, rest, hperm, hset, _⟩ := cachePlace_spec hplace
  simp only [objc_sync_enter, hplace] at hfits' ⊢
  rw [if_neg (h.found hperm)] at hfits' ⊢
  have hcount : (item.lockCount + 1) % 2 ^ place.countBits = item.lockCount + 1 := by
    have hnew := OwnStep.setItem (hset ⟨item.data, (item.lockCount + 1) % 2 ^ place.countBits⟩)
      (.acquireMutex object item.data)
    exact count_of_fits place (hfits.2 t item (hperm.mem_iff.mpr mem_cons_self)).2
      (hfits'.2 t _ (hnew.entries.mem_iff.mpr mem_cons_self)).1
  rw [hcount]
  have hown := OwnStep.setItem (hset ⟨item.data, item.lockCount + 1⟩)
    (.acquireMutex object item.data)
  have hdepth : ((s.setItem t place ⟨item.data, item.lockCount + 1⟩).goto t
      (.acquireMutex object item.data)).depth = s.depth := by
    cases place <;> rfl
  refine h.recount_found (b := item.lockCount + 1) hidle hperm hobj .acquireMutex hown ?_ ?_ rfl ?_
    fun o _ => ?_
  · unfold PCOK
    rw [hown.pc, hown.data]
    exact ⟨hobj, _, hown.entries.mem_iff.mpr mem_cons_self, rfl⟩
  · omega
  · rw [hdepth]
    omega
  · rw [hdepth]

theorem SyncInv.exit (object : Option O) :
    (s.objc_sync_exit t object).SyncInv stripe ∧
      ∀ d, (s.objc_sync_exit t object).slack d = s.slack d := by
  cases object with
  | none => exact ⟨h.withResult _, fun _ => rfl⟩
  | some object => ?_
  cases hplace : s.cachePlace t object with
  | none =>
    have hrun : s.objc_sync_exit t (some object) = s.goto t (.releaseList object) := by
      simp only [objc_sync_exit, hplace]
    rw [hrun]
    refine h.goto (hidle ▸ ⟨rfl, rfl, rfl, rfl⟩) ?_ ⟨rfl, rfl, rfl, rfl⟩
    unfold PCOK
    rw [show (s.goto t (.releaseList object)).pc t = .releaseList object from
      update_self ..]
    trivial
  | some found => ?_
  obtain ⟨place, item⟩ := found
  obtain ⟨hobj, rest, hperm, hset, hdrop⟩ := cachePlace_spec hplace
  simp only [objc_sync_exit, hplace]
  rw [if_neg (h.found hperm)]
  by_cases hone : item.lockCount - 1 = 0
  · rw [if_pos hone]
    refine h.leave hidle hperm hobj .releaseCount ?_ (OwnStep.dropItem ?_ _).of_depth ?_
    · omega
    · rw [hone]
      cases place <;> exact hdrop
    · cases place <;> exact update_self ..
  rw [if_neg hone]
  refine h.leave hidle hperm hobj .releaseMutex ?_ (OwnStep.setItem ?_ _).of_depth ?_
  · omega
  · rw [counts, if_neg hone]
    cases place <;> exact hset _
  · cases place <;> exact update_self ..

end

theorem SyncInv.saveInCache (h : s.SyncInv stripe) (directKeys : Bool)
    (hpc₀ : s.pc t = .acquireCache object d) :
    (s.saveInCache directKeys t object d).SyncInv stripe ∧
      ∀ d', (s.saveInCache directKeys t object d).slack d' = s.slack d' := by
  have hok := (h.thread t).pcOK
  unfold PCOK at hok
  rw [hpc₀] at hok
  obtain ⟨hnone, hobj⟩ := hok
  -- either cache: one more entry
  have hfields : OwnStep s (s.saveInCache directKeys t object d) t (.acquireMutex object d)
      (⟨d, 1⟩ :: s.entries t) ∧ (s.saveInCache directKeys t object d).depth = s.depth := by
    unfold SyncState.saveInCache
    rw [if_neg (by simpa using hobj)]
    split
    next hfast =>
      refine ⟨⟨fun t' ht => ⟨update_of_ne ht _ _, rfl, update_of_ne ht _ _, rfl⟩, rfl, rfl, rfl,
        update_self .., ?_⟩, rfl⟩
      show ((update s.fast t (some ⟨d, 1⟩) t).toList ++ s.slow t).Perm _
      rw [update_self, entries, hfast.2]
      exact Perm.refl _
    refine ⟨⟨fun t' ht => ⟨rfl, update_of_ne ht _ _, update_of_ne ht _ _, rfl⟩, rfl, rfl, rfl,
      update_self .., ?_⟩, rfl⟩
    show ((s.fast t).toList ++ update s.slow t (s.slow t ++ [⟨d, 1⟩]) t).Perm _
    rw [update_self, entries, ← append_assoc]
    exact perm_append_singleton _ _
  obtain ⟨hown, hdepth⟩ := hfields
  refine h.recount (a := 0) (b := 1) hpc₀ hobj .acquireCache .acquireMutex (Perm.refl _)
    (fun hmem => ?_) hown ?_ rfl rfl ?_ fun o _ => ?_
  · obtain ⟨item, hitem, heq⟩ := mem_map.mp hmem
    exact hnone item hitem (by rw [heq]; exact hobj)
  · unfold PCOK
    rw [hown.pc, hown.data]
    exact ⟨hobj, _, hown.entries.mem_iff.mpr mem_cons_self, rfl⟩
  · rw [hdepth]
  · rw [hdepth]

/-! ## Steps on a record -/

omit [Fintype T] in
theorem ThreadOK.rerecord (h : s.ThreadOK stripe t) (hentries : s'.entries t = s.entries t)
    (hitems : ∀ item ∈ s.entries t, (s'.data item.data).object = (s.data item.data).object)
    (hlisted : ∀ d, 0 < s'.acct t d → d ∈ s'.lists (stripe (s'.data d).object)) (hpc : s'.PCOK t)
    (hmutex : ∀ d, s'.lockedBy d t + (if (s.pc t).unlocking = some d then 1 else 0)
        + (if (s'.pc t).waiting = some d then 1 else 0)
      = s.lockedBy d t + (if (s'.pc t).unlocking = some d then 1 else 0)
        + if (s.pc t).waiting = some d then 1 else 0)
    (hnesting : ∀ o, s'.depth t o + (if (s'.pc t).waitingFor = some o then 1 else 0)
      = s.depth t o + if (s.pc t).waitingFor = some o then 1 else 0) :
    s'.ThreadOK stripe t := by
  refine ⟨?_, ?_, hlisted, hpc, fun d => ?_, fun o => ?_⟩
  · rw [hentries]
    exact h.positive
  · rw [hentries]
    exact h.distinct
  · have hm := h.mutex d
    have hm' := hmutex d
    rw [hentries]
    omega
  · rw [hentries, objectTotal_congr hitems, hnesting]
    exact h.nesting o

section

variable (h : s.SyncInv stripe)

include h

theorem SyncInv.advance_record {r : SyncData O T} {pc0 : SyncPC O} {p0 w0 u0 : Nat}
    (hpc₀ : s.pc t = pc0) (hpc : s'.pc t = pc) (hhand0 : HandCounts object d pc0 p0 w0 u0)
    (hhand : HandCounts object d pc p w u) (hd : d < s.allocated)
    (hdata : s'.data = update s.data d r) (hlists : s'.lists = s.lists)
    (hallocated : s'.allocated = s.allocated) (hother : ∀ t', t' ≠ t → s.SameThread s' t')
    (hentries : s'.entries t = s.entries t) (hobject : r.object = (s.data d).object)
    (howner : r.owner = none ↔ r.recursion = 0)
    (hlock : ∀ t', t' ≠ t → (if r.owner = some t' then r.recursion else 0) = s.lockedBy d t')
    (hcount : r.threadCount + p0 = (s.data d).threadCount + p)
    (hlisted : p0 < p → d ∈ s.lists (stripe (s.data d).object)) (hpcOK : s'.PCOK t)
    (hmutex : (if r.owner = some t then r.recursion else 0) + u0 + w = s.lockedBy d t + u + w0)
    (hnesting : ∀ o, s'.depth t o + (if object = o then w else 0)
      = s.depth t o + if object = o then w0 else 0) :
    s'.SyncInv stripe ∧ ∀ d', s'.slack d' = s.slack d' := by
  obtain ⟨hpending0, hwaiting0, hunlocking0, hfor0⟩ := hhand0
  obtain ⟨hpending, hwaiting, hunlocking, hfor⟩ := hhand
  have hacct : ∀ d', s'.acct t d' + (if d = d' then p0 else 0)
      = s.acct t d' + if d = d' then p else 0 := by
    intro d'
    unfold acct
    rw [hentries, hpc, hpc₀, hpending, hpending0]
    omega
  have hself : s'.data d = r := by
    rw [hdata]
    exact update_self ..
  have hne : ∀ d', ¬ d = d' → s'.data d' = s.data d' := by
    intro d' hd'
    rw [hdata]
    exact update_of_ne (Ne.symm hd') _ _
  have hobj : ∀ d', (s'.data d').object = (s.data d').object := by
    intro d'
    by_cases hd' : d = d'
    · rw [← hd', hself]
      exact hobject
    · rw [hne d' hd']
  refine h.advance_local t hother hlists hallocated hobj (fun t' d' ht => ?_) ?_ (fun d' => ?_)
    (fun d' => ?_) fun d' hd' => ?_
  · unfold lockedBy
    by_cases hd' : d = d'
    · rw [← hd', hself]
      exact hlock t' ht
    · rw [hne d' hd']
  · refine (h.thread t).rerecord hentries (fun item _ => hobj item.data) (fun d' hpos => ?_) hpcOK
      (fun d' => ?_) fun o => ?_
    · rw [hlists, hobj]
      have hone := hacct d'
      by_cases hd' : d = d' ∧ p0 < p
      · exact hd'.1 ▸ hlisted hd'.2
      · refine (h.thread t).listed d' ?_
        split_ifs at hone <;> omega
    · rw [hpc, hpc₀, hwaiting, hwaiting0, hunlocking, hunlocking0]
      unfold lockedBy at hmutex ⊢
      by_cases hd' : d = d'
      · rw [← hd', hself]
        simp only [if_true]
        exact hmutex
      · rw [hne d' hd']
        simp only [hd', if_false]
    · rw [hpc, hpc₀, hfor, hfor0]
      exact hnesting o
  · have hone := hacct d'
    by_cases hd' : d = d'
    · rw [if_pos hd', if_pos hd', ← hd'] at hone
      rw [← hd', hself]
      omega
    · rw [if_neg hd', if_neg hd'] at hone
      rw [hne d' hd']
      omega
  · by_cases hd' : d = d'
    · rw [← hd', hself]
      exact howner
    · rw [hne d' hd']
      exact h.owner d'
  · rw [hne d' (by omega)]
    exact h.fresh d' hd'

theorem SyncInv.lockMutex (hfits : s.Fits) (hpc₀ : s.pc t = .acquireMutex object d)
    (hrun : s.lockMutex t object d = some s') :
    s'.SyncInv stripe ∧ ∀ d', s'.slack d' = s.slack d' := by
  obtain ⟨hfree, ⟨⟩⟩ := ite_none_right_eq_some.mp hrun
  have hlocked : s.lockedBy d t = (s.data d).recursion := by
    unfold lockedBy
    rcases hfree with hnone | hown
    · rw [hnone, if_neg (by simp), (h.owner d).mp hnone]
    · rw [if_pos hown]
  -- the cache has counted this lock already, and its count fits
  have hcount : (s.data d).recursion % 2 ^ 32 = (s.data d).recursion := by
    have hmutex := (h.thread t).mutex d
    have hlt := lockTotal_lt (by decide) (h.thread t).distinct
      (fun item hmem => (hfits.2 t item hmem).2) d
    rw [hpc₀, hlocked] at hmutex
    simp only [SyncPC.waiting, SyncPC.unlocking, reduceCtorEq, if_true, if_false] at hmutex
    exact Nat.mod_eq_of_lt (by omega)
  have hok := (h.thread t).pcOK
  unfold PCOK at hok
  rw [hpc₀] at hok
  obtain ⟨_, item, hmem, hitem⟩ := hok
  have hpc : update s.pc t .idle t = .idle := update_self ..
  refine h.advance_record hpc₀ hpc InHand.acquireMutex.counts InHand.idle.counts
    (h.lt_allocated (hitem ▸ acct_pos_of_mem hmem)) rfl rfl rfl
    (fun t' ht => ⟨rfl, rfl, update_of_ne ht _ _, update_of_ne ht _ _⟩) rfl rfl (by simp)
    (fun t' ht => ?_) rfl (fun hlt => absurd hlt (lt_irrefl 0)) (pcOK_of_idle hpc) ?_ fun o => ?_
  · -- the other threads do not have the mutex, before or after
    unfold lockedBy
    rw [if_neg (by simpa using Ne.symm ht), if_neg]
    rcases hfree with hnone | hown
    · rw [hnone]
      simp
    · rw [hown]
      simpa using Ne.symm ht
  · rw [hlocked, if_pos rfl, hcount]
  show update s.depth t (update (s.depth t) object (s.depth t object + 1)) t o + _ = _
  rw [update_self]
  by_cases ho : o = object
  · rw [ho, update_self, if_pos rfl, if_pos rfl]
  · rw [update_of_ne ho, if_neg (Ne.symm ho), if_neg (Ne.symm ho)]

theorem SyncInv.releaseThreadCount (hpc₀ : s.pc t = .releaseCount object d) :
    (s.releaseThreadCount t object d).SyncInv stripe ∧
      ∀ d', (s.releaseThreadCount t object d).slack d' = s.slack d' := by
  have hpending : 0 < s.acct t d := by
    unfold acct
    rw [hpc₀, pending, if_pos rfl]
    omega
  have hpc : (s.releaseThreadCount t object d).pc t = .releaseMutex object d :=
    update_self ..
  refine h.advance_record hpc₀ hpc InHand.releaseCount.counts InHand.releaseMutex.counts
    (h.lt_allocated hpending) rfl rfl rfl (fun t' ht => ⟨rfl, rfl, update_of_ne ht _ _, rfl⟩) rfl
    rfl (h.owner d) (fun t' _ => rfl) (by simp) (fun hlt => absurd hlt (by decide))
    ?_ rfl fun o => rfl
  unfold PCOK
  rw [hpc]
  trivial

theorem SyncInv.tryUnlock (hpc₀ : s.pc t = .releaseMutex object d) :
    (s.data d).owner = some t ∧ (s.tryUnlock t d).SyncInv stripe ∧
      ∀ d', (s.tryUnlock t d).slack d' = s.slack d' := by
  -- the cache said that the thread has the mutex
  have hlocked : 0 < s.lockedBy d t := by
    have hm := (h.thread t).mutex d
    rw [hpc₀] at hm
    simp only [SyncPC.waiting, SyncPC.unlocking, reduceCtorEq, if_false, if_true] at hm
    omega
  have howner : (s.data d).owner = some t := by
    by_contra hne
    unfold lockedBy at hlocked
    rw [if_neg hne] at hlocked
    exact absurd hlocked (lt_irrefl 0)
  have hlockedEq : s.lockedBy d t = (s.data d).recursion := by
    unfold lockedBy
    rw [if_pos howner]
  have hlt : d < s.allocated := by
    by_contra hge
    have := (h.fresh d (Nat.le_of_not_lt hge)).2
    rw [howner] at this
    cases this
  refine ⟨howner, ?_⟩
  have hpc : (s.tryUnlock t d).pc t = .idle := by
    unfold SyncState.tryUnlock
    rw [if_pos howner]
    exact update_self ..
  unfold SyncState.tryUnlock at hpc ⊢
  rw [if_pos howner] at hpc ⊢
  refine h.advance_record hpc₀ hpc InHand.releaseMutex.counts InHand.idle.counts hlt rfl rfl rfl
    (fun t' ht => ⟨rfl, rfl, update_of_ne ht _ _, rfl⟩) rfl rfl ?_ (fun t' ht => ?_) rfl
    (fun hlt => absurd hlt (lt_irrefl 0)) (pcOK_of_idle hpc) ?_ fun o => rfl
  · by_cases hz : (s.data d).recursion - 1 = 0 <;> simp [hz]
  · have hzero : s.lockedBy d t' = 0 := by
      unfold lockedBy
      rw [howner, if_neg (by simpa using Ne.symm ht)]
    rw [hzero]
    by_cases hz : (s.data d).recursion - 1 = 0
    · simp [hz]
    · simp [hz, Ne.symm ht]
  · rw [hlockedEq] at hlocked ⊢
    by_cases hz : (s.data d).recursion - 1 = 0
    all_goals
      simp [hz]
      omega

/-! ## The section under the list's lock -/

theorem SyncInv.acct_eq_zero (hd : (s.data d).threadCount = 0) (t : T) : s.acct t d = 0 := by
  have := h.acct_le t d
  omega

end

variable [DecidableEq ι]

section

variable (h : s.SyncInv stripe)

include h

section

variable (hpc₀ : s.pc t = .acquireList object)

include hpc₀

omit [DecidableEq ι] in
theorem SyncInv.acquire_found {p : Nat} (hmem : p ∈ s.lists (stripe object))
    (hobj : (s.data p).object = object)
    (hs' : s' = (s.setData p { s.data p with threadCount := (s.data p).threadCount + 1 }).goto t
      (.acquireCache object p)) :
    s'.SyncInv stripe ∧ ∀ d, s'.slack d = s.slack d := by
  subst hs'
  have hok := (h.thread t).pcOK
  unfold PCOK at hok
  rw [hpc₀] at hok
  have hpc : update s.pc t (.acquireCache object p) t = .acquireCache object p := update_self ..
  have hdata : ∀ d, (update s.data p { s.data p with
      threadCount := (s.data p).threadCount + 1 } d).object = (s.data d).object := by
    intro d
    by_cases hd : d = p
    · rw [hd, update_self]
    · rw [update_of_ne hd]
  have hfree : HandCounts object p (.acquireList object) 0 0 0 := by
    simp [HandCounts, pending, waiting, unlocking, waitingFor]
  refine h.advance_record hpc₀ hpc hfree InHand.acquireCache.counts (h.inList _ p hmem).1
    rfl rfl rfl (fun t' ht => ⟨rfl, rfl, update_of_ne ht _ _, rfl⟩) rfl rfl (h.owner p)
    (fun t' _ => rfl) (by simp) (fun _ => hobj ▸ hmem) ?_ rfl fun o => rfl
  unfold PCOK
  rw [show SyncState.pc _ t = .acquireCache object p from hpc]
  refine ⟨fun item hitem => ?_, (hdata p).trans hobj⟩
  rw [show (SyncState.data _ item.data).object = _ from hdata item.data]
  exact hok item hitem
omit [DecidableEq ι] in
theorem SyncInv.acquire_fresh {p : Nat}
    (hnone : ∀ d ∈ s.lists (stripe object), (s.data d).object ≠ object)
    (hcount : (s.data p).threadCount = 0) (hpc : s'.pc t = .acquireCache object p)
    (hother : ∀ t', t' ≠ t → s.SameThread s' t') (hentries : s'.entries t = s.entries t)
    (hdepth : s'.depth t = s.depth t)
    (hp : (s'.data p).object = object ∧ (s'.data p).threadCount = 1 ∧
      (s'.data p).owner = (s.data p).owner ∧
      ((s'.data p).owner ≠ none → (s'.data p).recursion = (s.data p).recursion) ∧
      ((s'.data p).owner = none → (s'.data p).recursion = 0))
    (hne : ∀ d, d ≠ p → s'.data d = s.data d)
    (hlists : ∀ i, s'.lists i = s.lists i ∧ (p ∈ s.lists i → i = stripe object) ∧
        (i = stripe object → p ∈ s.lists i) ∨
      s'.lists i = p :: s.lists i ∧ i = stripe object ∧ p ∉ s.lists i)
    (hp' : p ∈ s'.lists (stripe object)) (halloc : s.allocated ≤ s'.allocated)
    (hlt : p < s'.allocated) (hfresh : ∀ d, s'.allocated ≤ d → s.allocated ≤ d) :
    s'.SyncInv stripe ∧ ∀ d, s'.slack d = s.slack d := by
  have hok := (h.thread t).pcOK
  unfold PCOK at hok
  rw [hpc₀] at hok
  have hzero : ∀ t', s.acct t' p = 0 := h.acct_eq_zero hcount
  have hacct : ∀ d, s'.acct t d = s.acct t d + if p = d then 1 else 0 := by
    intro d
    unfold acct
    rw [hentries, hpc, hpc₀]
    simp [pending]
  have hlocked : ∀ t' d, s'.lockedBy d t' = s.lockedBy d t' := by
    intro t' d
    unfold lockedBy
    by_cases hd : d = p
    · subst hd
      rw [hp.2.2.1]
      by_cases hown : (s.data d).owner = some t'
      · rw [if_pos hown, if_pos hown]
        exact hp.2.2.2.1 (by rw [hp.2.2.1, hown]; simp)
      · rw [if_neg hown, if_neg hown]
    · rw [hne d hd]
  have hitem : ∀ item ∈ s.entries t, item.data ≠ p := by
    intro item hmem heq
    have := acct_pos_of_mem hmem
    rw [heq, hzero] at this
    exact absurd this (lt_irrefl 0)
  have hsub : ∀ i d, d ∈ s.lists i → d ∈ s'.lists i := by
    intro i d hd
    rcases hlists i with ⟨heq, _⟩ | ⟨heq, _⟩
    · rw [heq]
      exact hd
    · rw [heq]
      exact mem_cons_of_mem _ hd
  refine h.advance t hother (fun t' d _ hpos => ?_) hsub (fun t' d _ => hlocked t' d) ?_
    (fun d => ?_) (fun i => ?_) (fun i d hd => ?_) (fun d => ?_) fun d hd => ?_
  · rw [hne d]
    rintro rfl
    rw [hzero] at hpos
    exact absurd hpos (lt_irrefl 0)
  · refine (h.thread t).rerecord hentries (fun item hmem => by rw [hne _ (hitem item hmem)])
      (fun d hpos => ?_) ?_ (fun d => ?_) fun o => ?_
    · by_cases hd : d = p
      · rw [hd, hp.1]
        exact hp'
      rw [hacct, if_neg (Ne.symm hd), add_zero] at hpos
      rw [hne d hd]
      exact hsub _ d ((h.thread t).listed d hpos)
    · unfold PCOK
      rw [hpc, hentries]
      refine ⟨fun item hmem => ?_, hp.1⟩
      rw [hne _ (hitem item hmem)]
      exact hok item hmem
    · rw [hlocked, hpc, hpc₀]
      rfl
    · rw [hdepth, hpc, hpc₀]
      rfl
  · by_cases hd : d = p
    · rw [hd, hacct, if_pos rfl, hp.2.1, hcount, hzero]
      rfl
    · rw [hne d hd, hacct, if_neg (Ne.symm hd), add_zero]
  · -- no other record of the list has the object
    have hold : ∀ d ∈ s.lists i, d ≠ p → i = stripe object → (s'.data d).object ≠ object := by
      intro d hd hdp hi
      rw [hne d hdp]
      exact hnone d (hi ▸ hd)
    rcases hlists i with ⟨heq, hin, _⟩ | ⟨heq, hi, hnot⟩
    · rw [heq]
      refine Nodup.map_on (fun x hx y hy hxy => ?_) (h.unique i).of_map
      by_cases hxp : x = p
      · by_cases hyp : y = p
        · rw [hxp, hyp]
        refine absurd ?_ (hold y hy hyp (hin (hxp ▸ hx)))
        rw [← hxy, hxp]
        exact hp.1
      by_cases hyp : y = p
      · refine absurd ?_ (hold x hx hxp (hin (hyp ▸ hy)))
        rw [hxy, hyp]
        exact hp.1
      · rw [hne x hxp, hne y hyp] at hxy
        exact inj_on_of_nodup_map (h.unique i) hx hy hxy
    rw [heq, map_cons, nodup_cons]
    refine ⟨fun hmem => ?_, ?_⟩
    · obtain ⟨d, hd, hdobj⟩ := mem_map.mp hmem
      refine hold d hd (fun hdp => hnot (hdp ▸ hd)) hi ?_
      rw [hdobj]
      exact hp.1
    have hsame : (s.lists i).map (fun d => (s'.data d).object)
        = (s.lists i).map fun d => (s.data d).object := by
      refine map_congr_left fun d hd => ?_
      rw [hne d fun hdp => hnot (hdp ▸ hd)]
    rw [hsame]
    exact h.unique i
  · by_cases hdp : d = p
    · subst hdp
      refine ⟨hlt, ?_⟩
      rw [hp.1]
      rcases hlists i with ⟨heq, hin, _⟩ | ⟨_, hi, _⟩
      · exact (hin (heq ▸ hd)).symm
      · exact hi.symm
    have hold : d ∈ s.lists i := by
      rcases hlists i with ⟨heq, _⟩ | ⟨heq, _⟩
      · exact heq ▸ hd
      · rw [heq] at hd
        exact (mem_cons.mp hd).resolve_left hdp
    obtain ⟨h1, h2⟩ := h.inList i d hold
    rw [hne d hdp]
    exact ⟨lt_of_lt_of_le h1 halloc, h2⟩
  · by_cases hdp : d = p
    · subst hdp
      refine ⟨hp.2.2.2.2, fun hrec => ?_⟩
      by_contra hown
      have hrec' := hp.2.2.2.1 hown
      rw [hrec] at hrec'
      rw [hp.2.2.1] at hown
      exact hown ((h.owner d).mpr hrec'.symm)
    · rw [hne d hdp]
      exact h.owner d
  · have hdp : d ≠ p := by omega
    rw [hne d hdp]
    exact h.fresh d (hfresh d hd)

theorem SyncInv.id2dataList :
    (s.id2dataList stripe t object).SyncInv stripe ∧
      ∀ d, (s.id2dataList stripe t object).slack d = s.slack d := by
  obtain ⟨hsome, hnone⟩ := searchList_spec s object (s.lists (stripe object)) none
  cases hsearch : s.searchList object (s.lists (stripe object)) none with
  | mk result firstUnused =>
    rw [hsearch] at hsome hnone
    cases result with
    | some p =>
      obtain ⟨hmem, hobj⟩ := hsome p rfl
      refine h.acquire_found hpc₀ hmem hobj ?_
      simp only [SyncState.id2dataList, hsearch]
    | none => ?_
    obtain ⟨hall, hunused⟩ := hnone rfl
    cases firstUnused with
    | some p =>
      obtain ⟨hmem, hzero⟩ := (hunused p rfl).resolve_left (by simp)
      have hrun : s.id2dataList stripe t object
          = (s.setData p { s.data p with object := object, threadCount := 1 }).goto t
              (.acquireCache object p) := by
        simp only [SyncState.id2dataList, hsearch]
      rw [hrun]
      have hself : ((s.setData p { s.data p with object := object, threadCount := 1 }).goto t
          (.acquireCache object p)).data p
            = { s.data p with object := object, threadCount := 1 } :=
        update_self ..
      refine h.acquire_fresh hpc₀ hall hzero (update_self ..)
        (fun t' ht => ⟨rfl, rfl, update_of_ne ht _ _, rfl⟩) rfl rfl ?_
        (fun d hd => update_of_ne hd _ _) (fun i => Or.inl ⟨rfl, fun hi => ?_, ?_⟩)
        hmem (le_refl _) (h.inList _ p hmem).1 fun d hd => hd
      · rw [hself]
        exact ⟨rfl, rfl, rfl, fun _ => rfl, (h.owner p).mp⟩
      · exact (h.inList i p hi).2.symm.trans (h.inList _ p hmem).2
      · rintro rfl
        exact hmem
    | none => ?_
    have hrun : s.id2dataList stripe t object
        = { (s.setData s.allocated ⟨object, 1, none, 0⟩).goto t
              (.acquireCache object s.allocated) with
            allocated := s.allocated + 1
            lists := update s.lists (stripe object)
              (s.allocated :: s.lists (stripe object)) } := by
      simp only [SyncState.id2dataList, hsearch]
    rw [hrun]
    obtain ⟨hcount, hown⟩ := h.fresh s.allocated (le_refl _)
    have hnew : ∀ i, s.allocated ∉ s.lists i := fun i hmem =>
      lt_irrefl _ (h.inList i _ hmem).1
    refine h.acquire_fresh hpc₀ hall hcount (update_self ..)
      (fun t' ht => ⟨rfl, rfl, update_of_ne ht _ _, rfl⟩) rfl rfl ?_
      (fun d hd => update_of_ne hd _ _) (fun i => ?_) ?_ (Nat.le_succ _)
      (Nat.lt_succ_self _) fun d hd => Nat.le_of_succ_le hd
    · rw [show ({ (s.setData s.allocated ⟨object, 1, none, 0⟩).goto t
          (.acquireCache object s.allocated) with
        allocated := s.allocated + 1
        lists := update s.lists (stripe object)
          (s.allocated :: s.lists (stripe object)) } : SyncState ι O T).data s.allocated
          = ⟨object, 1, none, 0⟩ from update_self .., hown]
      exact ⟨rfl, rfl, rfl, fun hne => absurd rfl hne, fun _ => rfl⟩
    · by_cases hi : i = stripe object
      · refine Or.inr ⟨?_, hi, hnew i⟩
        rw [hi]
        exact update_self ..
      · exact Or.inl ⟨update_of_ne hi _ _, fun hmem => absurd hmem (hnew i),
          fun heq => absurd heq hi⟩
    show s.allocated ∈ update s.lists (stripe object)
      (s.allocated :: s.lists (stripe object)) (stripe object)
    rw [update_self]
    exact mem_cons_self

end

omit [DecidableEq ι] in
theorem SyncInv.bump {p : Nat} (hp : p < s.allocated) :
    (s.setData p { s.data p with threadCount := (s.data p).threadCount + 1 }).SyncInv stripe := by
  generalize hs' : s.setData p { s.data p with threadCount := (s.data p).threadCount + 1 } = s'
  have hself : s'.data p = { s.data p with threadCount := (s.data p).threadCount + 1 } := by
    rw [← hs']
    exact update_self ..
  have hne : ∀ d, d ≠ p → s'.data d = s.data d := by
    intro d hd
    rw [← hs']
    exact update_of_ne hd _ _
  have hfields : ∀ d, (s'.data d).object = (s.data d).object ∧
      (s'.data d).owner = (s.data d).owner ∧ (s'.data d).recursion = (s.data d).recursion ∧
      (s.data d).threadCount ≤ (s'.data d).threadCount := by
    intro d
    by_cases hd : d = p
    · rw [hd, hself]
      exact ⟨rfl, rfl, rfl, by show _ ≤ _ + 1; omega⟩
    · rw [hne d hd]
      exact ⟨rfl, rfl, rfl, Int.le_refl _⟩
  have hlists : s'.lists = s.lists := by rw [← hs']; rfl
  have hallocated : s'.allocated = s.allocated := by rw [← hs']; rfl
  have hsame : ∀ t, s.SameThread s' t := by
    intro t
    rw [← hs']
    exact ⟨rfl, rfl, rfl, rfl⟩
  refine ⟨fun t => (h.thread t).frame (hsame t) (fun d _ => (hfields d).1) (fun i d hd => ?_)
    fun d => ?_, fun d => ?_, fun i => ?_, fun i d hd => ?_, fun d => ?_, fun d hd => ?_⟩
  · rw [hlists]
    exact hd
  · unfold lockedBy
    rw [(hfields d).2.1, (hfields d).2.2.1]
  · have hslack := h.counted d
    have hle := (hfields d).2.2.2
    unfold slack at hslack ⊢
    simp only [fun t => (hsame t).acct d]
    omega
  · rw [hlists]
    simp only [fun d => (hfields d).1]
    exact h.unique i
  · rw [hlists] at hd
    rw [hallocated, (hfields d).1]
    exact h.inList i d hd
  · rw [(hfields d).2.1, (hfields d).2.2.1]
    exact h.owner d
  rw [hallocated] at hd
  rw [hne d (by omega)]
  exact h.fresh d hd

omit [DecidableEq ι] in
theorem SyncInv.id2dataListRelease (hpc₀ : s.pc t = .releaseList object) :
    (s.id2dataListRelease stripe t object).SyncInv stripe := by
  have hgoto : ∀ {s1 : SyncState ι O T}, s1.SyncInv stripe → s1.pc t = .releaseList object →
      (s1.goto t .idle).SyncInv stripe := by
    intro s1 h1 hpc1
    exact (h1.goto (hpc1 ▸ ⟨rfl, rfl, rfl, rfl⟩) (pcOK_of_idle (update_self ..))
      ⟨rfl, rfl, rfl, rfl⟩).1
  obtain ⟨hsome, _⟩ := searchList_spec s object (s.lists (stripe object)) none
  unfold SyncState.id2dataListRelease
  split
  next p _ hsearch =>
    rw [hsearch] at hsome
    obtain ⟨hmem, _⟩ := hsome p rfl
    exact (hgoto (h.bump (h.inList _ p hmem).1) hpc₀).withResult _
  next => exact (hgoto h hpc₀).withResult _

/-! ## Every step -/

theorem SyncInv.step {owned directKeys : Bool} {a : SyncAction O T} (hfits : s.Fits)
    (hstep : s.step owned directKeys stripe a = some s') (hfits' : s'.Fits) :
    s'.SyncInv stripe ∧ ((∀ t o, s.pc t ≠ .releaseList o) → ∀ d, s'.slack d = s.slack d) := by
  cases a with
  | enter t object =>
    obtain ⟨hidle, ⟨⟩⟩ := ite_none_right_eq_some.mp hstep
    exact (h.enter hidle object hfits hfits').imp_right fun hslack _ => hslack
  | exit t object =>
    obtain ⟨hidle, ⟨⟩⟩ := ite_none_right_eq_some.mp hstep
    exact (h.exit hidle.1 object).imp_right fun hslack _ => hslack
  | go t => ?_
  rw [SyncState.step, go] at hstep
  split at hstep
  next => cases hstep
  next object hpc =>
    cases hstep
    exact (h.id2dataList hpc).imp_right fun hslack _ => hslack
  next object d hpc =>
    cases hstep
    exact (h.saveInCache directKeys hpc).imp_right fun hslack _ => hslack
  next object d hpc =>
    exact (h.lockMutex hfits hpc hstep).imp_right fun hslack _ => hslack
  next object hpc =>
    cases hstep
    exact ⟨h.id2dataListRelease hpc, fun hno => absurd hpc (hno t object)⟩
  next object d hpc =>
    cases hstep
    exact (h.releaseThreadCount hpc).imp_right fun hslack _ => hslack
  next object d hpc =>
    cases hstep
    exact (h.tryUnlock hpc).2.imp_right fun hslack _ => hslack
  next => cases hstep

end

omit [DecidableEq ι] in
theorem SyncInv.initial (hs : s.Initial) : s.SyncInv stripe := by
  obtain ⟨hlists, hallocated, hdata, hfast, hslow, hpc, hdepth⟩ := hs
  have hentries : ∀ t, s.entries t = [] := by
    intro t
    rw [entries, hfast, hslow]
    rfl
  have hacct : ∀ t d, s.acct t d = 0 := by
    intro t d
    rw [acct, hentries, hpc]
    rfl
  refine ⟨fun t => ⟨?_, ?_, fun d hd => ?_, ?_, fun d => ?_, fun o => ?_⟩, fun d => ?_, fun i => ?_,
    fun i d hd => ?_, fun d => ?_, fun d _ => ⟨(hdata d).1, (hdata d).2.1⟩⟩
  · rw [hentries]
    intro item hmem
    cases hmem
  · rw [hentries]
    exact nodup_nil
  · rw [hacct] at hd
    exact absurd hd (lt_irrefl 0)
  · exact pcOK_of_idle (hpc t)
  · rw [lockedBy, (hdata d).2.1, hentries, hpc]
    rfl
  · rw [hdepth, hentries, hpc]
    rfl
  · unfold slack
    simp [hacct, (hdata d).1]
  · rw [hlists]
    exact nodup_nil
  · rw [hlists] at hd
    cases hd
  · rw [(hdata d).2.1, (hdata d).2.2]
    simp

end SyncState

end ObjcRuntime
