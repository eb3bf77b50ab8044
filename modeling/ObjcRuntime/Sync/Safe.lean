/-
@synchronized EXCLUDES, AND WHAT A STRAY EXIT LEAVES.
-/
import ObjcRuntime.Sync.Steps

namespace ObjcRuntime

open Lib Function List Option SyncState SyncInv SyncPC

variable {ι O T : Type} [DecidableEq ι] [DecidableEq O] [DecidableEq T] [Fintype T]

namespace SyncState

variable {stripe : O → ι} {s s' : SyncState ι O T}

/-! ## A thread without the object has no cache entry for it -/

variable {t : T} (h : s.SyncInv stripe)
include h

omit [DecidableEq ι] in
theorem SyncInv.objectTotal_eq_depth (hpc : (s.pc t).waitingFor = none)
    (o : O) : s.objectTotal (s.entries t) o = s.depth t o := by
  have hnesting := (h.thread t).nesting o
  rw [hpc, if_neg (by simp)] at hnesting
  omega

variable {o : O}

omit [DecidableEq ι] in
theorem SyncInv.entry_of_depth (hdepth : 0 < s.depth t o) :
    ∃ item ∈ s.entries t, (s.data item.data).object = o := by
  have hnesting := (h.thread t).nesting o
  exact exists_of_objectTotal_pos (by omega)

omit [DecidableEq ι] in
theorem SyncInv.cachePlace_of_depth_zero (hidle : s.pc t = .idle)
    (hdepth : s.depth t o = 0) : s.cachePlace t o = none := by
  cases hplace : s.cachePlace t o with
  | none => rfl
  | some found => ?_
  obtain ⟨hobj, rest, hperm, -⟩ := cachePlace_spec hplace
  have htotal := h.objectTotal_eq_depth (t := t) (by rw [hidle]; rfl) o
  have hpos := (h.thread t).positive found.2 (hperm.mem_iff.mpr mem_cons_self)
  rw [objectTotal_perm hperm, objectTotal_cons, if_pos hobj] at htotal
  omega

omit h

/-! ## Threads that exit only what they entered -/

structure Strict (stripe : O → ι) (s : SyncState ι O T) : Prop where
  inv : s.SyncInv stripe
  exact : ∀ d, s.slack d = 0
  noSearch : ∀ t o, s.pc t ≠ .releaseList o

omit [DecidableEq ι] [DecidableEq O] [Fintype T] in
theorem noSearch_update (h : ∀ t o, s.pc t ≠ .releaseList o) {pc : SyncPC O}
    (hpc : s'.pc = update s.pc t pc) (hne : ∀ o, pc ≠ .releaseList o) :
    ∀ t o, s'.pc t ≠ .releaseList o := by
  intro t' o
  rw [hpc]
  by_cases ht : t' = t
  · rw [ht, update_self]
    exact hne o
  · rw [update_of_ne ht]
    exact h t' o

omit [DecidableEq ι] [DecidableEq O] [Fintype T] in
theorem setItem_goto_pc (t : T) (place : CachePlace) (item : SyncCacheItem) (pc : SyncPC O) :
    ((s.setItem t place item).goto t pc).pc = update s.pc t pc := by
  cases place <;> rfl

omit [DecidableEq ι] [DecidableEq O] [Fintype T] in
theorem dropItem_goto_pc (t : T) (place : CachePlace) (pc : SyncPC O) :
    ((s.dropItem t place).goto t pc).pc = update s.pc t pc := by
  cases place <;> rfl

omit [DecidableEq ι] [Fintype T] in
theorem noSearch_enter (h : ∀ t o, s.pc t ≠ .releaseList o) (t : T) (object : Option O) :
    ∀ t' o, (s.objc_sync_enter t object).pc t' ≠ .releaseList o := by
  cases object with
  | none => exact h
  | some object => ?_
  unfold objc_sync_enter
  simp only
  split
  next => exact noSearch_update h rfl (by simp)
  next place item _ =>
    split
    next => exact noSearch_update h rfl (by simp)
    next => exact noSearch_update h (setItem_goto_pc t place _ _) (by simp)

omit [DecidableEq ι] in
theorem Strict.noSearch_exit (h : s.Strict stripe) (object : Option O)
    (howned : ∀ o ∈ object, 0 < s.depth t o) :
    ∀ t' o, (s.objc_sync_exit t object).pc t' ≠ .releaseList o := by
  cases object with
  | none => exact h.noSearch
  | some object => ?_
  obtain ⟨item, hmem, hobj⟩ := h.inv.entry_of_depth (howned object rfl)
  unfold objc_sync_exit
  simp only
  split
  next hplace => exact absurd hobj (cachePlace_none hplace item hmem)
  rename_i place item' _
  split
  next => exact noSearch_update h.noSearch rfl (by simp)
  split
  next => exact noSearch_update h.noSearch (dropItem_goto_pc t place _) (by simp)
  next => exact noSearch_update h.noSearch (setItem_goto_pc t place _ _) (by simp)

variable {directKeys : Bool}

omit [Fintype T] in
theorem noSearch_go (h : ∀ t o, s.pc t ≠ .releaseList o)
    (hgo : s.go directKeys stripe t = some s') : ∀ t' o, s'.pc t' ≠ .releaseList o := by
  unfold go at hgo
  split at hgo
  next => cases hgo
  next object _ =>
    cases hgo
    unfold id2dataList
    split <;> exact noSearch_update h rfl (by simp)
  next object d _ =>
    cases hgo
    unfold saveInCache
    split
    next => exact noSearch_update h rfl (by simp)
    split <;> exact noSearch_update h rfl (by simp)
  next object d _ =>
    obtain ⟨-, ⟨⟩⟩ := ite_none_right_eq_some.mp hgo
    exact noSearch_update h rfl (by simp)
  next object hpc => exact absurd hpc (h t object)
  next object d _ =>
    cases hgo
    exact noSearch_update h rfl (by simp)
  next object d _ =>
    cases hgo
    unfold tryUnlock
    split <;> exact noSearch_update h rfl (by simp)
  next => cases hgo

theorem Strict.step (h : s.Strict stripe) {a : SyncAction O T} (hfits : s.Fits)
    (hstep : s.step true directKeys stripe a = some s') (hfits' : s'.Fits) : s'.Strict stripe := by
  obtain ⟨hinv, hslack⟩ := h.inv.step hfits hstep hfits'
  refine ⟨hinv, fun d => (hslack h.noSearch d).trans (h.exact d), ?_⟩
  cases a with
  | enter t object =>
    obtain ⟨-, ⟨⟩⟩ := ite_none_right_eq_some.mp hstep
    exact noSearch_enter h.noSearch t object
  | exit t object =>
    obtain ⟨hguard, ⟨⟩⟩ := ite_none_right_eq_some.mp hstep
    exact h.noSearch_exit object (hguard.2 rfl)
  | go t => exact noSearch_go h.noSearch hstep

omit [DecidableEq ι] in
theorem Strict.initial (hs : s.Initial) : s.Strict stripe := by
  have hinv : s.SyncInv stripe := SyncInv.initial hs
  obtain ⟨-, -, hdata, -, -, hpc, -⟩ := hs
  refine ⟨hinv, fun d => ?_, fun t o => ?_⟩
  · have hslack := hinv.counted d
    have hcount := (hdata d).1
    unfold slack at hslack ⊢
    omega
  · rw [hpc]
    simp

theorem strict_of_reachable (h : (syncSystem true directKeys stripe).Reachable Fits s) :
    s.Strict stripe :=
  h.invariant (fun _ hs _ => Strict.initial hs) fun _ _ _ hs hfits hstep hfits' =>
    hs.step hfits hstep hfits'

theorem syncInv_of_reachable {owned : Bool}
    (h : (syncSystem owned directKeys stripe).Reachable Fits s) : s.SyncInv stripe :=
  h.invariant (fun _ hs _ => SyncInv.initial hs) fun _ _ _ hs hfits hstep hfits' =>
    (hs.step hfits hstep hfits').1

/-! ## Exclusion -/

include h

omit [DecidableEq ι] in
theorem SyncInv.locked_of_depth (hdepth : 0 < s.depth t o) :
    ∃ d, 0 < s.acct t d ∧ (s.data d).object = o ∧ (s.data d).owner = some t := by
  obtain ⟨item, hmem, hobj⟩ := h.entry_of_depth hdepth
  refine ⟨item.data, acct_pos_of_mem hmem, hobj, ?_⟩
  obtain ⟨before, after, hsplit⟩ := append_of_mem hmem
  have hperm : (s.entries t).Perm (item :: (before ++ after)) := hsplit ▸ perm_middle
  have hmutex := (h.thread t).mutex item.data
  have hnesting := (h.thread t).nesting o
  rw [lockTotal_perm hperm, lockTotal_cons, if_pos rfl] at hmutex
  rw [objectTotal_perm hperm, objectTotal_cons, if_pos hobj] at hnesting
  have hdistinct : ((item :: (before ++ after)).map (·.data)).Nodup :=
    (hperm.map _).nodup_iff.mp (h.thread t).distinct
  have hrest : s.objectTotal (before ++ after) o = 0 := by
    refine objectTotal_of_not_mem fun item' hmem' hobj' => ?_
    have heq := h.eq_of_object (acct_pos_of_mem hmem)
      (acct_pos_of_mem (hperm.mem_iff.mpr (mem_cons_of_mem _ hmem'))) (hobj.trans hobj'.symm)
    exact (nodup_cons.mp hdistinct).1 (mem_map.mpr ⟨item', hmem', heq.symm⟩)
  by_contra howner
  have hlocked : s.lockedBy item.data t = 0 := if_neg howner
  have hok := (h.thread t).pcOK
  unfold PCOK at hok
  cases hpc : s.pc t with
  | acquireMutex o' d' =>
    rw [hpc] at hmutex hnesting hok
    obtain ⟨hobj', -⟩ := hok
    -- the entry has the lock that is waited for and those that were entered
    simp only [waiting, unlocking, waitingFor, some.injEq,
      reduceCtorEq, if_false] at hmutex hnesting
    by_cases hd : d' = item.data
    · have ho : o' = o := by rw [← hobj', hd, hobj]
      rw [if_pos hd] at hmutex
      rw [if_pos ho] at hnesting
      omega
    · rw [if_neg hd] at hmutex
      omega
  | _ =>
    rw [hpc] at hmutex hnesting
    simp only [waiting, unlocking, reduceCtorEq, if_false] at hmutex
    omega

omit [DecidableEq ι] in
theorem SyncInv.exclusive {t' : T} (hdepth : 0 < s.depth t o)
    (hdepth' : 0 < s.depth t' o) : t = t' := by
  obtain ⟨d, hacct, hobj, howner⟩ := h.locked_of_depth hdepth
  obtain ⟨d', hacct', hobj', howner'⟩ := h.locked_of_depth hdepth'
  have hd := h.eq_of_object hacct hacct' (hobj.trans hobj'.symm)
  rw [hd, howner'] at howner
  injection howner with heq
  exact heq.symm

/-! ## The users of a record -/

def users (s : SyncState ι O T) (d : Nat) : Finset T :=
  Finset.univ.filter fun t => ∃ item ∈ s.entries t, item.data = d

omit [DecidableEq ι] in
theorem SyncInv.card_users (d : Nat) :
    (s.users d).card = ∑ t, holdings (s.entries t) d := by
  rw [users, Finset.card_filter]
  refine Finset.sum_congr rfl fun t _ => ?_
  have hle := holdings_le_one (h.thread t).distinct d
  split
  next hmem =>
    have hpos := holdings_pos.mpr hmem
    omega
  next hmem =>
    have hzero : ¬ 0 < holdings (s.entries t) d := fun hpos => hmem (holdings_pos.mp hpos)
    omega

omit [DecidableEq ι] in
theorem SyncInv.card_users_le (d : Nat) :
    ((s.users d).card : Int) ≤ (s.data d).threadCount := by
  have hslack := h.counted d
  have hle : ∑ t, holdings (s.entries t) d ≤ ∑ t, s.acct t d :=
    Finset.sum_le_sum fun t _ => Nat.le_add_right _ _
  rw [h.card_users]
  unfold slack at hslack
  omega

omit h

omit [DecidableEq ι] [DecidableEq O] [DecidableEq T] [Fintype T] in
theorem acct_eq_holdings (h : (s.pc t).inId2data = false) (d : Nat) :
    s.acct t d = holdings (s.entries t) d := by
  unfold acct
  cases hpc : s.pc t with
  | acquireCache o d' | releaseCount o d' =>
    rw [hpc] at h
    cases h
  | _ => rfl

omit [DecidableEq ι] in
theorem Strict.card_users_eq (h : s.Strict stripe) (hout : ∀ t, (s.pc t).inId2data = false)
    (d : Nat) : (s.data d).threadCount = (s.users d).card := by
  have hslack := h.exact d
  rw [h.inv.card_users]
  unfold slack at hslack
  simp only [fun t => acct_eq_holdings (hout t)] at hslack
  omega

/-! ## A record in use stays its object's -/

omit [DecidableEq ι] [DecidableEq T] [Fintype T] in
theorem searchList_unused (object : O) {list : List Nat} {p : Nat}
    (h : s.searchList object list none = (none, some p)) : (s.data p).threadCount = 0 := by
  obtain ⟨-, hnone⟩ := searchList_spec s object list none
  rw [h] at hnone
  rcases (hnone rfl).2 p rfl with hfalse | ⟨-, hzero⟩
  · cases hfalse
  · exact hzero

omit [DecidableEq ι] [DecidableEq O] [DecidableEq T] [Fintype T] in
theorem object_of_update {r : SyncData O T} {p : Nat} (hdata : s'.data = update s.data p r)
    (hr : r.object = (s.data p).object) (d : Nat) : (s'.data d).object = (s.data d).object := by
  rw [hdata]
  by_cases hd : d = p
  · rw [hd, update_self, hr]
  · rw [update_of_ne hd]

theorem SyncInv.id2dataList_object (h : s.SyncInv stripe) (t : T) (object : O) {d : Nat}
    (hd : 0 < (s.data d).threadCount) :
    ((s.id2dataList stripe t object).data d).object = (s.data d).object := by
  unfold SyncState.id2dataList
  split
  next p _ _ =>
    exact object_of_update rfl (by rfl) d
  next p hsearch =>
    show (update s.data p _ d).object = _
    have hzero := searchList_unused object hsearch
    rw [update_of_ne (by rintro rfl; omega)]
  show (update s.data s.allocated _ d).object = _
  have hzero := (h.fresh s.allocated le_rfl).1
  rw [update_of_ne (by rintro rfl; omega)]

omit [DecidableEq ι] [Fintype T] in
theorem objc_sync_enter_data (s : SyncState ι O T) (t : T) (object : Option O) :
    (s.objc_sync_enter t object).data = s.data := by
  cases object with
  | none => rfl
  | some object => ?_
  unfold objc_sync_enter
  simp only
  split
  next => rfl
  next place item _ =>
    split
    next => rfl
    next => cases place <;> rfl

omit [DecidableEq ι] [Fintype T] in
theorem objc_sync_exit_data (s : SyncState ι O T) (t : T) (object : Option O) :
    (s.objc_sync_exit t object).data = s.data := by
  cases object with
  | none => rfl
  | some object => ?_
  unfold objc_sync_exit
  simp only
  split
  next => rfl
  rename_i place item _
  split
  next => rfl
  split <;> cases place <;> rfl

omit [DecidableEq ι] [Fintype T] in
theorem saveInCache_data (directKeys : Bool) (s : SyncState ι O T) (t : T) (object : O)
    (result : Nat) : (s.saveInCache directKeys t object result).data = s.data := by
  unfold saveInCache
  split
  next => rfl
  split <;> rfl

theorem SyncInv.step_object (h : s.SyncInv stripe) {owned : Bool} {a : SyncAction O T}
    (hstep : s.step owned directKeys stripe a = some s') {d : Nat}
    (hd : 0 < (s.data d).threadCount) : (s'.data d).object = (s.data d).object := by
  cases a with
  | enter t object =>
    obtain ⟨-, hstep⟩ := ite_none_right_eq_some.mp hstep
    injection hstep with hstep
    rw [← hstep, objc_sync_enter_data]
  | exit t object =>
    obtain ⟨-, hstep⟩ := ite_none_right_eq_some.mp hstep
    injection hstep with hstep
    rw [← hstep, objc_sync_exit_data]
  | go t => ?_
  rw [SyncState.step, SyncState.go] at hstep
  split at hstep
  next => cases hstep
  next object _ =>
    cases hstep
    exact h.id2dataList_object t object hd
  next object d' _ =>
    injection hstep with hstep
    rw [← hstep, saveInCache_data]
  next object d' _ =>
    obtain ⟨-, hstep⟩ := ite_none_right_eq_some.mp hstep
    cases hstep
    exact object_of_update rfl (by rfl) d
  next object _ =>
    cases hstep
    unfold SyncState.id2dataListRelease
    split
    next => exact object_of_update rfl (by rfl) d
    next => rfl
  next object d' _ =>
    cases hstep
    exact object_of_update rfl (by rfl) d
  next object d' _ =>
    cases hstep
    unfold SyncState.tryUnlock
    split
    next => exact object_of_update rfl (by rfl) d
    next => rfl
  next => cases hstep

/-! ## An object is cached once, with its depth -/

omit [DecidableEq ι] [DecidableEq T] [Fintype T] in
theorem objectTotal_eq_filter (items : List SyncCacheItem) (o : O) :
    s.objectTotal items o
      = ((items.filter fun item => (s.data item.data).object = o).map (·.lockCount)).sum := by
  induction items with
  | nil => rfl
  | cons item items ih => ?_
  rw [objectTotal_cons, ih]
  by_cases ho : (s.data item.data).object = o
  · rw [if_pos ho, filter_cons_of_pos (by simpa using ho), map_cons, sum_cons]
  · rw [if_neg ho, filter_cons_of_neg (by simpa using ho), zero_add]

include h

omit [DecidableEq ι] in
theorem SyncInv.cached_once (hidle : s.pc t = .idle) (o : O) :
    ((s.entries t).filter fun item => (s.data item.data).object = o).map (·.lockCount)
      = if s.depth t o = 0 then [] else [s.depth t o] := by
  have htotal := h.objectTotal_eq_depth (t := t) (by rw [hidle]; rfl) o
  have hfiltered : s.objectTotal (s.entries t) o
      = (((s.entries t).filter fun item => (s.data item.data).object = o).map (·.lockCount)).sum := by
    exact objectTotal_eq_filter _ o
  have hmem : ∀ item ∈ (s.entries t).filter fun item => (s.data item.data).object = o,
      item ∈ s.entries t ∧ (s.data item.data).object = o := by
    intro item hitem
    obtain ⟨hitem, hobj⟩ := mem_filter.mp hitem
    exact ⟨hitem, by simpa using hobj⟩
  have hdistinct : (((s.entries t).filter fun item =>
      (s.data item.data).object = o).map (·.data)).Nodup :=
    (h.thread t).distinct.sublist (filter_sublist.map _)
  generalize (s.entries t).filter (fun item => (s.data item.data).object = o) = items
    at hfiltered hmem hdistinct
  rw [htotal] at hfiltered
  match items with
  | [] =>
    rw [hfiltered]
    rfl
  | [item] =>
    have hpos := (h.thread t).positive item (hmem item mem_cons_self).1
    have hdepth : s.depth t o = item.lockCount := by simpa using hfiltered
    rw [if_neg (by omega), hdepth]
    rfl
  | item :: item' :: rest =>
    -- two entries for one object would be entries for one record
    obtain ⟨h1, hobj1⟩ := hmem item mem_cons_self
    obtain ⟨h2, hobj2⟩ := hmem item' (mem_cons_of_mem _ mem_cons_self)
    have heq := h.eq_of_object (acct_pos_of_mem h1) (acct_pos_of_mem h2) (hobj1.trans hobj2.symm)
    rw [map_cons, map_cons, nodup_cons, heq] at hdistinct
    exact absurd mem_cons_self hdistinct.1

end SyncState

/-! ## The list search of an exit -/

def SyncState.SameTables (s s' : SyncState ι O T) : Prop :=
  s'.lists = s.lists ∧ s'.data = s.data ∧ s'.fast = s.fast ∧ s'.slow = s.slow

variable {s : SyncState ι O T}

omit [Fintype T] in
theorem SyncState.go_releaseList (directKeys : Bool) (stripe : O → ι) {t : T}
    {o : O} (hpc : s.pc t = .releaseList o) :
    ∃ s', s.step false directKeys stripe (.go t) = some s' ∧ s'.pc t = .idle ∧
      s'.result t = .OBJC_SYNC_NOT_OWNING_THREAD_ERROR ∧
      (s.SameTables s' ↔ ∀ p ∈ s.lists (stripe o), (s.data p).object ≠ o) := by
  refine ⟨s.id2dataListRelease stripe t o, ?_, ?_, ?_, ?_⟩
  · rw [step, go, hpc]
  · exact update_self ..
  · exact update_self ..
  obtain ⟨hsome, hnone⟩ := searchList_spec s o (s.lists (stripe o)) none
  unfold id2dataListRelease
  split
  next p _ hsearch =>
    rw [hsearch] at hsome
    obtain ⟨hmem, hobj⟩ := hsome p rfl
    refine iff_of_false ?_ fun hall => hall p hmem hobj
    rintro ⟨-, hdata, -⟩
    have hself : update s.data p
        { s.data p with threadCount := (s.data p).threadCount + 1 } p = s.data p :=
      congrFun hdata p
    rw [update_self] at hself
    have hcount : (s.data p).threadCount + 1 = (s.data p).threadCount :=
      congrArg SyncData.threadCount hself
    omega
  next _ hsearch =>
    rw [hsearch] at hnone
    exact iff_of_true ⟨rfl, rfl, rfl, rfl⟩ (hnone rfl).1

/-! ## The main results -/

/-- **Synchronized threads exclude each other.**  In every interleaving in which a thread exits
only what it has entered and no counter wraps: one thread has an object; an object has one record;
a record counts at least the threads that cache it, and just these when no thread is in `id2data`;
a record in use stays its object's; a thread outside of calls caches an object once, with its
depth; and the checks for bugs never fail. -/
theorem synchronized_excludes {directKeys : Bool} {stripe : O → ι} {s : SyncState ι O T}
    (h : (syncSystem true directKeys stripe).Reachable SyncState.Fits s) :
    (∀ t t' o, 0 < s.depth t o → 0 < s.depth t' o → t = t') ∧
    (∀ i, ((s.lists i).map fun d => (s.data d).object).Nodup) ∧
    (∀ d, ((s.users d).card : Int) ≤ (s.data d).threadCount) ∧
    ((∀ t, (s.pc t).inId2data = false) → ∀ d, (s.data d).threadCount = (s.users d).card) ∧
    (∀ a s', (syncSystem true directKeys stripe).step s a = some s' →
      ∀ d, 0 < (s.data d).threadCount → (s'.data d).object = (s.data d).object) ∧
    (∀ t, s.pc t = .idle → ∀ o,
      ((s.entries t).filter fun item => (s.data item.data).object = o).map (·.lockCount)
        = if s.depth t o = 0 then [] else [s.depth t o]) ∧
    ∀ t, s.pc t ≠ .fatal := by
  have hstrict := strict_of_reachable h
  have hinv := hstrict.inv
  refine ⟨fun t t' o => hinv.exclusive, hinv.unique, hinv.card_users_le, hstrict.card_users_eq,
    fun a s' hstep d hd => hinv.step_object hstep hd, fun t hidle o => hinv.cached_once hidle o,
    fun t hfatal => ?_⟩
  have hok := (hinv.thread t).pcOK
  unfold PCOK at hok
  rw [hfatal] at hok
  exact hok

namespace SyncState

def start : SyncState Unit Nat Bool where
  lists _ := []
  allocated := 0
  data _ := ⟨0, 0, none, 0⟩
  fast _ := none
  slow _ := []
  pc _ := .idle
  result _ := .OBJC_SYNC_SUCCESS
  depth _ _ := 0

theorem start_initial : start.Initial :=
  ⟨fun _ => rfl, rfl, fun _ => ⟨rfl, rfl, rfl⟩, fun _ => rfl, fun _ => rfl, fun _ => rfl,
    fun _ _ => rfl⟩

theorem start_reachable (owned : Bool) :
    (syncSystem owned true fun _ : Nat => ()).Reachable Fits start :=
  .init start_initial (by decide +kernel)

end SyncState

def waitingRun : List (SyncAction Nat Bool) :=
  [.enter true (some 16), .go true, .go true, .go true, .enter true (some 32), .go true, .go true,
    .go true, .enter true (some 16), .go true, .enter false (some 16), .go false, .go false]

theorem second_thread_waits :
    ∃ s, (syncSystem true true fun _ : Nat => ()).runFrom SyncState.Fits SyncState.start
        waitingRun = some s ∧ (s.data 0).threadCount = 2 ∧ s.users 0 = {true, false} ∧
      s.depth true 16 = 2 ∧ ¬ 0 < s.depth false 16 := by
  have hend : ((syncSystem true true fun _ : Nat => ()).runFrom Fits start
      waitingRun).map (fun s => (s.depth true 16, s.users 0, (s.pc true).inId2data,
        (s.pc false).inId2data)) = some (2, {true, false}, false, false) := by
    decide +kernel
  obtain ⟨s, hrun, hobs⟩ := map_eq_some_iff.mp hend
  simp only [Prod.mk.injEq] at hobs
  obtain ⟨hdepth, husers, htrue, hfalse⟩ := hobs
  obtain ⟨hexcl, -, -, hcount, -⟩ := synchronized_excludes
    ((start_reachable true).of_run waitingRun hrun)
  refine ⟨s, hrun, ?_, husers, hdepth, fun hpos => ?_⟩
  · rw [hcount (fun t => by cases t <;> assumption) 0, husers]
    rfl
  · have hsame := hexcl true false 16 (by omega) hpos
    cases hsame

/-- One thread has entered object 16 `n` times, and has its record in the slow cache. -/
structure SyncState.Nested (s : SyncState Unit Nat Bool) (n : Nat) : Prop where
  reachable : (syncSystem true false fun _ : Nat => ()).Reachable (fun _ => True) s
  idle : s.pc true = .idle
  fast : s.fast true = none
  slow : s.slow true = [⟨0, n % 2 ^ 32⟩]
  object : (s.data 0).object = 16
  threadCount : (s.data 0).threadCount = 1
  owner : (s.data 0).owner = some true
  depth : s.depth true 16 = n

theorem SyncState.Nested.enter {s : SyncState Unit Nat Bool} {n : Nat} (h : s.Nested n)
    (hn : n % 2 ^ 32 ≠ 0) : ∃ s', SyncState.Nested s' (n + 1) := by
  have hplace : s.cachePlace true 16 = some (.slow 0, ⟨0, n % 2 ^ 32⟩) := by
    simp [cachePlace, h.fast, h.slow, searchSlow, h.object]
  let s₁ := (s.setItem true (.slow 0) ⟨0, (n + 1) % 2 ^ 32⟩).goto true (.acquireMutex 16 0)
  have hstep : (syncSystem true false fun _ : Nat => ()).step s (.enter true (some 16)) = some s₁ := by
    show (if s.pc true = .idle then _ else none) = _
    rw [if_pos h.idle, objc_sync_enter]
    simp only [hplace, h.threadCount]
    rw [if_neg (not_or.mpr ⟨by decide, hn⟩), CachePlace.countBits, Nat.mod_add_mod]
  have hpc : s₁.pc true = .acquireMutex 16 0 := by
    show update s.pc true (.acquireMutex 16 0) true = _
    rw [update_self]
  obtain ⟨s₂, hlock⟩ : ∃ s₂, s₁.lockMutex true 16 0 = some s₂ := ⟨_, if_pos (.inr h.owner)⟩
  have hgo : (syncSystem true false fun _ : Nat => ()).step s₁ (.go true) = some s₂ := by
    show s₁.go false (fun _ => ()) true = some s₂
    rw [SyncState.go, hpc]
    exact hlock
  obtain ⟨-, ⟨⟩⟩ := ite_none_right_eq_some.mp hlock
  have hdata : (s₁.data 0).object = 16 ∧ (s₁.data 0).threadCount = 1 := ⟨h.object, h.threadCount⟩
  refine ⟨_, .step (.step h.reachable hstep trivial) hgo trivial, ?_, h.fast, ?_, ?_, ?_, ?_, ?_⟩
  · show update s₁.pc true .idle true = .idle
    rw [update_self]
  · show update s.slow true ((s.slow true).set 0 _) true = _
    rw [update_self, h.slow]
    rfl
  · show (update s₁.data 0 _ 0).object = 16
    rw [update_self]
    exact hdata.1
  · show (update s₁.data 0 _ 0).threadCount = 1
    rw [update_self]
    exact hdata.2
  · show (update s₁.data 0 _ 0).owner = some true
    rw [update_self]
    rfl
  · show update s.depth true (update (s.depth true) 16 (s.depth true 16 + 1)) true 16 = n + 1
    rw [update_self, update_self, h.depth]

/-- By induction on the number of enters. -/
theorem SyncState.nested_of_le (n : Nat) (hn : n < 2 ^ 32) :
    ∃ s, SyncState.Nested s (n + 1) := by
  induction n with
  | zero =>
    have hend : ((syncSystem true false fun _ : Nat => ()).runFrom (fun _ => True) start
        [.enter true (some 16), .go true, .go true, .go true]).map (fun s => (s.pc true,
          s.fast true, s.slow true, s.depth true 16)) = some (.idle, none, [⟨0, 1⟩], 1) := by
      decide +kernel
    have hrecord : ((syncSystem true false fun _ : Nat => ()).runFrom (fun _ => True) start
        [.enter true (some 16), .go true, .go true, .go true]).map (fun s => ((s.data 0).object,
          (s.data 0).threadCount, (s.data 0).owner)) = some (16, 1, some true) := by
      decide +kernel
    obtain ⟨s, hrun, hobs⟩ := map_eq_some_iff.mp hend
    rw [hrun, map_some, some.injEq] at hrecord
    simp only [Prod.mk.injEq] at hobs hrecord
    obtain ⟨h1, h2, h3, h7⟩ := hobs
    obtain ⟨h4, h5, h6⟩ := hrecord
    have hreach : (syncSystem true false fun _ : Nat => ()).Reachable (fun _ => True) s :=
      System.Reachable.of_run _ (.init start_initial trivial) hrun
    exact ⟨s, hreach, h1, h2, h3, h4, h5, h6, h7⟩
  | succ n ih =>
    obtain ⟨s, hs⟩ := ih (by omega)
    exact hs.enter (by omega)

/-- **A thread that enters an object 2^32 times has a lock count of 0**, in the slow cache. -/
theorem nested_enters_wrap :
    ¬ ∀ s : SyncState Unit Nat Bool,
      (syncSystem true false fun _ : Nat => ()).Reachable (fun _ => True) s →
      ∀ t, s.pc t = .idle → ∀ o,
        ((s.entries t).filter fun item => (s.data item.data).object = o).map (·.lockCount)
          = if s.depth t o = 0 then [] else [s.depth t o] := by
  intro hclaim
  obtain ⟨s, hs⟩ := SyncState.nested_of_le (2 ^ 32 - 1) (by decide)
  have hcached := hclaim s hs.reachable true hs.idle 16
  rw [hs.depth, entries, hs.fast, hs.slow] at hcached
  simp [hs.object] at hcached

/-- **A stray exit.**  Whatever the threads did before, as long as no counter wraps, an exit by a
thread that does not have the object searches the list and answers with an error; it leaves the tables alone just when no
record of the list is the object's.  This is so with and without steps of other threads between
the search of the caches and that of the list. -/
theorem stray_exit_leaves_tables_iff {directKeys : Bool} {stripe : O → ι} {s : SyncState ι O T}
    (h : (syncSystem false directKeys stripe).Reachable SyncState.Fits s) :
    (∀ t o, s.pc t = .idle → s.depth t o = 0 →
      ∃ s₁ s₂, (syncSystem false directKeys stripe).step s (.exit t (some o)) = some s₁ ∧
        s₁.pc t = .releaseList o ∧ s.SameTables s₁ ∧
        (syncSystem false directKeys stripe).step s₁ (.go t) = some s₂ ∧ s₂.pc t = .idle ∧
        s₂.result t = .OBJC_SYNC_NOT_OWNING_THREAD_ERROR ∧
        (s.SameTables s₂ ↔ ∀ p ∈ s.lists (stripe o), (s.data p).object ≠ o)) ∧
    ∀ t o, s.pc t = .releaseList o →
      ∃ s₂, (syncSystem false directKeys stripe).step s (.go t) = some s₂ ∧ s₂.pc t = .idle ∧
        s₂.result t = .OBJC_SYNC_NOT_OWNING_THREAD_ERROR ∧
        (s.SameTables s₂ ↔ ∀ p ∈ s.lists (stripe o), (s.data p).object ≠ o) := by
  refine ⟨fun t o hidle hdepth => ?_, fun t o hpc => ?_⟩
  · have hplace := (syncInv_of_reachable h).cachePlace_of_depth_zero hidle hdepth
    have hexit : s.objc_sync_exit t (some o) = s.goto t (.releaseList o) := by
      simp only [objc_sync_exit, hplace]
    have hpc : (s.goto t (.releaseList o)).pc t = .releaseList o := update_self ..
    obtain ⟨s₂, hgo, hrest⟩ := go_releaseList directKeys stripe hpc
    refine ⟨s.goto t (.releaseList o), s₂, ?_, hpc, ⟨rfl, rfl, rfl, rfl⟩, hgo, hrest⟩
    show step false directKeys stripe s (.exit t (some o)) = _
    rw [SyncState.step, if_pos ⟨hidle, by simp⟩, hexit]
  · exact go_releaseList directKeys stripe hpc

def balancedRun : List (SyncAction Nat Bool) :=
  [.enter true (some 16), .go true, .go true, .go true, .exit true (some 16), .go true, .go true]

/-- A stray exit of an object without a record changes nothing, though the list has the record of
another object. -/
theorem stray_exit_at_start :
    ∃ s s₁ s₂, (syncSystem false true fun _ : Nat => ()).runFrom SyncState.Fits SyncState.start
        balancedRun = some s ∧ s.lists () = [0] ∧
      (syncSystem false true fun _ : Nat => ()).step s (.exit true (some 32)) = some s₁ ∧
      (syncSystem false true fun _ : Nat => ()).step s₁ (.go true) = some s₂ ∧
      s₂.result true = .OBJC_SYNC_NOT_OWNING_THREAD_ERROR ∧ s.SameTables s₂ := by
  have hend : ((syncSystem false true fun _ : Nat => ()).runFrom Fits start
      balancedRun).map (fun s => (s.pc true, s.depth true 32, s.lists (), (s.data 0).object))
        = some (.idle, 0, [0], 16) := by
    decide +kernel
  obtain ⟨s, hrun, hobs⟩ := map_eq_some_iff.mp hend
  simp only [Prod.mk.injEq] at hobs
  obtain ⟨hidle, hdepth, hlist, hobject⟩ := hobs
  obtain ⟨s₁, s₂, h1, -, -, h2, -, hresult, hiff⟩ := (stray_exit_leaves_tables_iff
    ((start_reachable false).of_run balancedRun hrun)).1 true 32 hidle hdepth
  refine ⟨s, s₁, s₂, hrun, hlist, h1, h2, hresult, hiff.mpr fun p hp => ?_⟩
  rw [show s.lists _ = [0] from hlist] at hp
  rw [mem_singleton.mp hp, hobject]
  decide

/-- After an enter and its exit, another exit leaves the record counted. -/
theorem stray_exit_counts_record :
    ¬ ∀ s : SyncState Unit Nat Bool,
      (syncSystem false true fun _ : Nat => ()).Reachable SyncState.Fits s →
      ∀ t o, s.pc t = .idle → s.depth t o = 0 →
        ∃ s₁ s₂, (syncSystem false true fun _ : Nat => ()).step s (.exit t (some o)) = some s₁ ∧
          (syncSystem false true fun _ : Nat => ()).step s₁ (.go t) = some s₂ ∧
          s₂.result t = .OBJC_SYNC_NOT_OWNING_THREAD_ERROR ∧ s.SameTables s₂ := by
  intro hclaim
  have hend : ((syncSystem false true fun _ : Nat => ()).runFrom Fits start
      balancedRun).map (fun s => (s.pc true, s.depth true 16, (s.data 0).threadCount))
        = some (.idle, 0, 0) := by
    decide +kernel
  have hlater : ((syncSystem false true fun _ : Nat => ()).runFrom Fits start
      balancedRun).bind (fun s => (((syncSystem false true fun _ : Nat => ()).step s
        (.exit true (some 16))).bind fun s₁ =>
          (syncSystem false true fun _ : Nat => ()).step s₁ (.go true)).map
            fun s₂ => (s₂.data 0).threadCount) = some 1 := by
    decide +kernel
  obtain ⟨s, hrun, hobs⟩ := map_eq_some_iff.mp hend
  simp only [Prod.mk.injEq] at hobs
  obtain ⟨hidle, hdepth, hcount⟩ := hobs
  obtain ⟨s₁, s₂, h1, h2, -, -, hdata, -⟩ := hclaim s
    ((start_reachable false).of_run balancedRun hrun) true 16 hidle hdepth
  rw [hrun, bind_some, h1, bind_some, h2, map_some, hdata, hcount] at hlater
  cases hlater

/-- **Stray exits break no exclusion**, as long as no counter wraps; each may count one up. -/
theorem stray_exits_keep_exclusion {directKeys : Bool} {stripe : O → ι} {s : SyncState ι O T}
    (h : (syncSystem false directKeys stripe).Reachable SyncState.Fits s) :
    (∀ t t' o, 0 < s.depth t o → 0 < s.depth t' o → t = t') ∧
    (∀ i, ((s.lists i).map fun d => (s.data d).object).Nodup) ∧
    (∀ a s', (syncSystem false directKeys stripe).step s a = some s' →
      ∀ d, (s.users d).Nonempty → (s'.data d).object = (s.data d).object) ∧
    ∀ t, s.pc t ≠ .fatal := by
  have hinv := syncInv_of_reachable h
  refine ⟨fun t t' o => hinv.exclusive, hinv.unique, fun a s' hstep d hd => ?_, fun t hfatal => ?_⟩
  · have hle := hinv.card_users_le d
    have hpos := Finset.card_pos.mpr hd
    exact hinv.step_object hstep (by omega)
  have hok := (hinv.thread t).pcOK
  unfold PCOK at hok
  rw [hfatal] at hok
  exact hok

theorem stray_exit_keeps_exclusion : ∃ s, (syncSystem false true fun _ : Nat => ()).runFrom
      SyncState.Fits start (balancedRun ++ [.exit true (some 16), .go true]) = some s ∧
    ∀ t, s.pc t ≠ .fatal := by
  refine ⟨_, eq_some_of_isSome (by decide +kernel), ?_⟩
  exact (stray_exits_keep_exclusion (System.Reachable.of_run _
    (.init start_initial (by decide +kernel)) (eq_some_of_isSome _))).2.2.2

end ObjcRuntime
