/-
WHAT A THREAD CACHES, AND WHAT THE LIST SEARCH FINDS.

`entries` joins the fast and the slow cache of a thread. Whether a record is
there, and how often it is locked, does not depend on the order.
-/
import Mathlib.Algebra.BigOperators.Ring.Finset
import Mathlib.Data.List.Perm.Basic
import ObjcRuntime.Sync.Model

namespace ObjcRuntime

open Function List

variable {ι O T : Type}

namespace SyncState

/-! ## Entries -/

def entries (s : SyncState ι O T) (t : T) : List SyncCacheItem := (s.fast t).toList ++ s.slow t

/-- The counters fit `int32_t` and `unsigned int`: no lock count has reached 2^32 or wrapped. -/
abbrev Fits (s : SyncState ι O T) : Prop :=
  (∀ d < s.allocated, (s.data d).threadCount < 2 ^ 31) ∧
    ∀ t, ∀ item ∈ s.entries t, 0 < item.lockCount ∧ item.lockCount < 2 ^ 32

def holdings (items : List SyncCacheItem) (d : Nat) : Nat :=
  (items.map fun item => if item.data = d then 1 else 0).sum

def lockTotal (items : List SyncCacheItem) (d : Nat) : Nat :=
  (items.map fun item => if item.data = d then item.lockCount else 0).sum

variable [DecidableEq O]

def objectTotal (s : SyncState ι O T) (items : List SyncCacheItem) (o : O) : Nat :=
  (items.map fun item => if (s.data item.data).object = o then item.lockCount else 0).sum

theorem holdings_cons (item : SyncCacheItem) (items : List SyncCacheItem) (d : Nat) :
    holdings (item :: items) d = (if item.data = d then 1 else 0) + holdings items d := rfl

theorem lockTotal_cons (item : SyncCacheItem) (items : List SyncCacheItem) (d : Nat) :
    lockTotal (item :: items) d
      = (if item.data = d then item.lockCount else 0) + lockTotal items d := rfl

theorem objectTotal_cons (s : SyncState ι O T) (item : SyncCacheItem)
    (items : List SyncCacheItem) (o : O) :
    s.objectTotal (item :: items) o = (if (s.data item.data).object = o then item.lockCount else 0)
        + s.objectTotal items o := rfl

variable {items : List SyncCacheItem}

theorem holdings_pos {d : Nat} : 0 < holdings items d ↔ ∃ item ∈ items, item.data = d := by
  induction items with
  | nil => simp [holdings]
  | cons item items ih => ?_
  rw [holdings_cons]
  by_cases h : item.data = d
  · rw [if_pos h]
    exact ⟨fun _ => ⟨item, mem_cons_self, h⟩, fun _ => by omega⟩
  rw [if_neg h, zero_add, ih]
  constructor
  · rintro ⟨x, hx, hd⟩
    exact ⟨x, mem_cons_of_mem _ hx, hd⟩
  rintro ⟨x, hx, hd⟩
  rcases mem_cons.mp hx with rfl | hx
  · exact absurd hd h
  · exact ⟨x, hx, hd⟩

theorem holdings_le_one (h : (items.map (·.data)).Nodup) (d : Nat) : holdings items d ≤ 1 := by
  induction items with
  | nil => simp [holdings]
  | cons item items ih => ?_
  obtain ⟨hnot, hrest⟩ := nodup_cons.mp h
  rw [holdings_cons]
  by_cases hd : item.data = d
  · have hzero : holdings items d = 0 := by
      by_contra hne
      obtain ⟨x, hx, hxd⟩ := holdings_pos.mp (Nat.pos_of_ne_zero hne)
      exact hnot (mem_map.mpr ⟨x, hx, hxd.trans hd.symm⟩)
    rw [if_pos hd, hzero]
  · rw [if_neg hd, zero_add]
    exact ih hrest

theorem lockTotal_lt {n : Nat} (hn : 0 < n) (h : (items.map (·.data)).Nodup)
    (hlt : ∀ item ∈ items, item.lockCount < n) (d : Nat) : lockTotal items d < n := by
  induction items with
  | nil => exact hn
  | cons item items ih => ?_
  obtain ⟨hnot, hrest⟩ := nodup_cons.mp h
  rw [lockTotal_cons]
  by_cases hd : item.data = d
  · have hzero : lockTotal items d = 0 := by
      refine sum_eq_zero fun m hm => ?_
      obtain ⟨x, hx, rfl⟩ := mem_map.mp hm
      exact if_neg fun hxd => hnot (mem_map.mpr ⟨x, hx, hxd.trans hd.symm⟩)
    rw [if_pos hd, hzero]
    exact hlt item mem_cons_self
  · rw [if_neg hd, zero_add]
    exact ih hrest fun x hx => hlt x (mem_cons_of_mem _ hx)

variable {s : SyncState ι O T}

theorem objectTotal_of_not_mem {o : O}
    (h : ∀ item ∈ items, (s.data item.data).object ≠ o) : s.objectTotal items o = 0 := by
  refine sum_eq_zero fun n hn => ?_
  obtain ⟨item, hmem, rfl⟩ := mem_map.mp hn
  exact if_neg (h item hmem)

theorem objectTotal_congr {s' : SyncState ι O T}
    (h : ∀ item ∈ items, (s'.data item.data).object = (s.data item.data).object) (o : O) :
    s'.objectTotal items o = s.objectTotal items o := by
  refine congrArg sum (map_congr_left fun item hmem => ?_)
  rw [h item hmem]

theorem exists_of_objectTotal_pos {o : O} (h : 0 < s.objectTotal items o) :
    ∃ item ∈ items, (s.data item.data).object = o := by
  by_contra hnone
  rw [objectTotal_of_not_mem fun item hmem heq => hnone ⟨item, hmem, heq⟩] at h
  exact absurd h (lt_irrefl 0)

section Perm

variable {items items' : List SyncCacheItem}

theorem holdings_perm (h : items.Perm items') (d : Nat) : holdings items d = holdings items' d :=
  (h.map _).sum_eq

theorem lockTotal_perm (h : items.Perm items') (d : Nat) : lockTotal items d = lockTotal items' d :=
  (h.map _).sum_eq

theorem objectTotal_perm (h : items.Perm items') (o : O) :
    s.objectTotal items o = s.objectTotal items' o :=
  (h.map _).sum_eq

end Perm

/-! ## Searching and changing the caches -/

variable {object : O}

theorem searchSlow_none :
    ∀ {i : Nat}, s.searchSlow object items i = none →
      ∀ item ∈ items, (s.data item.data).object ≠ object := by
  induction items with
  | nil =>
    intro _ _ item hmem
    cases hmem
  | cons first items ih => ?_
  intro i h item hmem
  rw [searchSlow] at h
  split at h
  next hne =>
    rcases mem_cons.mp hmem with rfl | hmem
    · exact hne
    · exact ih h item hmem
  next => cases h

theorem searchSlow_some {place : CachePlace} {item : SyncCacheItem} :
    ∀ {i : Nat}, s.searchSlow object items i = some (place, item) →
      ∃ before after, items = before ++ item :: after ∧ place = .slow (i + before.length) ∧
        (s.data item.data).object = object := by
  induction items with
  | nil =>
    intro i h
    cases h
  | cons first items ih => ?_
  intro i h
  rw [searchSlow] at h
  split at h
  next hne =>
    obtain ⟨before, after, rfl, hplace, hobj⟩ := ih h
    refine ⟨first :: before, after, rfl, ?_, hobj⟩
    rw [hplace, length_cons]
    exact congrArg CachePlace.slow (by omega)
  next heq =>
    injection h with h
    injection h with hplace hitem
    subst hitem
    exact ⟨[], items, rfl, hplace.symm, by simpa using heq⟩

theorem removeAt_perm (before after : List SyncCacheItem) (item : SyncCacheItem) :
    (removeAt (before ++ item :: after) before.length).Perm (before ++ after) := by
  rcases eq_nil_or_concat after with rfl | ⟨middle, last, rfl⟩
  · have hlast : (before ++ [item]).getLast? = some item := getLast?_concat
    simp only [removeAt, hlast, append_nil]
    rw [set_append_right _ _ le_rfl, Nat.sub_self, set_cons_zero, dropLast_concat]
  have hlast : (before ++ item :: (middle.concat last)).getLast? = some last := by
    rw [concat_eq_append, ← cons_append, ← append_assoc, getLast?_concat]
  simp only [removeAt, hlast]
  rw [set_append_right _ _ le_rfl, Nat.sub_self, set_cons_zero,
    concat_eq_append, ← cons_append, ← append_assoc, dropLast_concat]
  refine Perm.append_left before ?_
  exact (perm_append_singleton last middle).symm

variable [DecidableEq T]

theorem cachePlace_spec {t : T} {place : CachePlace} {item : SyncCacheItem}
    (h : s.cachePlace t object = some (place, item)) :
    (s.data item.data).object = object ∧ ∃ rest, (s.entries t).Perm (item :: rest) ∧
      (∀ item', ((s.setItem t place item').entries t).Perm (item' :: rest)) ∧
      ((s.dropItem t place).entries t).Perm rest := by
  have hslow : s.searchSlow object (s.slow t) 0 = some (place, item) →
      (s.data item.data).object = object ∧ ∃ rest, (s.entries t).Perm (item :: rest) ∧
      (∀ item', ((s.setItem t place item').entries t).Perm (item' :: rest)) ∧
      ((s.dropItem t place).entries t).Perm rest := by
    intro hfound
    obtain ⟨before, after, hitems, hplace, hobj⟩ := searchSlow_some hfound
    rw [zero_add] at hplace
    subst hplace
    refine ⟨hobj, (s.fast t).toList ++ (before ++ after), ?_, fun item' => ?_, ?_⟩
    · rw [entries, hitems]
      exact (perm_middle.append_left _).trans perm_middle
    · have hset : (s.slow t).set before.length item' = before ++ item' :: after := by
        rw [hitems, set_append_right _ _ le_rfl, Nat.sub_self, set_cons_zero]
      show ((s.fast t).toList ++ update s.slow t ((s.slow t).set before.length item') t).Perm _
      rw [update_self, hset]
      exact (perm_middle.append_left _).trans perm_middle
    · show ((s.fast t).toList ++ update s.slow t (removeAt (s.slow t) before.length) t).Perm _
      rw [update_self, hitems]
      exact (removeAt_perm before after item).append_left _
  unfold cachePlace at h
  split at h
  next first hfast =>
    split at h
    next hobj =>
      injection h with h
      injection h with hplace hitem
      subst hplace hitem
      refine ⟨hobj, s.slow t, ?_, fun item' => ?_, ?_⟩
      · rw [entries, hfast]
        exact .refl _
      · show ((update s.fast t (some item') t).toList ++ s.slow t).Perm _
        rw [update_self]
        exact .refl _
      show ((update s.fast t none t).toList ++ s.slow t).Perm _
      rw [update_self]
      exact .refl _
    next => exact hslow h
  next => exact hslow h

omit [DecidableEq T] in
theorem cachePlace_none {t : T} (h : s.cachePlace t object = none) :
    ∀ item ∈ s.entries t, (s.data item.data).object ≠ object := by
  intro item hmem
  unfold cachePlace at h
  unfold entries at hmem
  split at h
  next first hfast =>
    split at h
    next => cases h
    rename_i hne
    rw [hfast] at hmem
    rcases mem_append.mp hmem with hmem | hmem
    · rw [mem_singleton.mp hmem]
      exact hne
    · exact searchSlow_none h item hmem
  next hfast =>
    rw [hfast] at hmem
    exact searchSlow_none h item hmem

/-! ## Searching a list -/

omit [DecidableEq T] in
theorem searchList_spec (s : SyncState ι O T) (object : O) (list : List Nat) :
    ∀ firstUnused : Option Nat, (∀ p, (s.searchList object list firstUnused).1 = some p →
        p ∈ list ∧ (s.data p).object = object) ∧
      ((s.searchList object list firstUnused).1 = none → (∀ p ∈ list, (s.data p).object ≠ object) ∧
        ∀ p, (s.searchList object list firstUnused).2 = some p →
          firstUnused = some p ∨ (p ∈ list ∧ (s.data p).threadCount = 0)) := by
  induction list with
  | nil =>
    intro firstUnused
    refine ⟨fun p h => ?_, fun _ => ⟨fun p hp => ?_, fun p h => .inl h⟩⟩
    · cases h
    · cases hp
  | cons first rest ih => ?_
  intro firstUnused
  rw [searchList]
  split
  next hobj =>
    refine ⟨fun p h => ?_, fun h => ?_⟩
    · cases h
      exact ⟨mem_cons_self, hobj⟩
    · cases h
  rename_i hne
  obtain ⟨hsome, hnone⟩ := ih
    (if firstUnused = none ∧ (s.data first).threadCount = 0 then some first else firstUnused)
  refine ⟨fun p h => ?_, fun h => ?_⟩
  · obtain ⟨hmem, hobj⟩ := hsome p h
    exact ⟨mem_cons_of_mem _ hmem, hobj⟩
  obtain ⟨hall, hunused⟩ := hnone h
  refine ⟨fun p hp => ?_, fun p hp => ?_⟩
  · rcases mem_cons.mp hp with rfl | hp
    · exact hne
    · exact hall p hp
  rcases hunused p hp with hfirst | ⟨hmem, hzero⟩
  · split at hfirst
    next hcond =>
      cases hfirst
      exact .inr ⟨mem_cons_self, hcond.2⟩
    next => exact .inl hfirst
  · exact .inr ⟨mem_cons_of_mem _ hmem, hzero⟩

end SyncState

end ObjcRuntime
