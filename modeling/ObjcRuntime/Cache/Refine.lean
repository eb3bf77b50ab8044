/-
THREE MODELS OF ONE CACHE.

`Cache/Model` has the single stores of the writer, `BucketCache` the calls on the
buckets, `MethodCache` the capacity and the entries. A fill whose stores are not
interrupted is a fill of the buckets (`fill_sequential`), and that is a fill of
the entries (`Represents.fill`).
-/
import ObjcRuntime.Cache.Filled
import ObjcRuntime.Class.Caches

namespace ObjcRuntime

open Lib Function List CacheTarget

/-! ## The cache with readers, when its writer is not interrupted -/

namespace CacheState

variable {R : Type} {s : CacheState R} {inserted : Finset SEL} {c c' : BucketCache} {sel : SEL}
  {imp : IMP}

def sequential (s : CacheState R) (inserted : Finset SEL) : BucketCache :=
  ⟨s.arrays, s.allocated, s.emptyBucketsList, s.buckets, s.mask, s.occupied, inserted⟩

def Completes (s s' : CacheState R) : Prop :=
  Relation.ReflTransGen (fun s s' => s.store = some s') s s' ∧ s'.writer = .idle

theorem emptyBuckets_sequential (cap : Nat) :
    (s.sequential inserted).emptyBuckets .x86_64 cap = s.emptyBuckets cap := by
  have hbytes : 16 * bucketsForCapacity cap ≤ (1024 + 1) * 16 ↔
      bucketsForCapacity cap ≤ EMPTY_BUCKETS := by
    unfold EMPTY_BUCKETS
    omega
  exact if_congr hbytes rfl rfl

theorem probe_eq_scan (k b : Nat) : ∀ fuel i d, i ≤ s.mask →
    (probe s.keys (findStops k) b fuel i d).map Prod.fst
      = scan (stopsAt 0 s.bucketArray.key k) (fun i => (i + 1) &&& s.mask) b fuel i := by
  intro fuel
  induction fuel with
  | zero => intro i d _; rfl
  | succ fuel ih => ?_
  intro i d hi
  have hstop : findStops k (some (s.bucketArray.key i)) = stopsAt 0 s.bucketArray.key k i := by
    simp only [findStops, stopsAt, Option.some.injEq]
  have hlen : s.keys.length - 1 = s.mask := by
    rw [keys, length_map, length_range, Nat.add_sub_cancel]
  rw [probe, scan, getD_keys hi, hstop, hlen]
  split
  · rfl
  · simp only
    split
    · rfl
    · exact ih _ _ Nat.and_le_right

theorem find_sequential (k : Nat) : (s.sequential inserted).find .x86_64 k
    = match s.find k with
      | none => .error .badCache
      | some i => .ok i := by
  rw [find, probe_eq_scan k _ _ _ 0 Nat.and_le_right]
  rfl

theorem getImp_sequential {cached : IMP}
    (h : (s.sequential inserted).cache_getImp .x86_64 sel = .ok cached) :
    s.getImp sel = cached := by
  rw [BucketCache.cache_getImp, find_sequential] at h
  unfold getImp
  cases hfind : s.find sel with
  | none => rw [hfind] at h; cases h
  | some i =>
    rw [hfind] at h
    simp only
    by_cases hkey : s.bucketArray.key i = sel
    · have h := (if_pos hkey).symm.trans h
      rw [if_pos hkey]
      cases himp : s.bucketArray.imp i with
      | function imp | firstBucket a =>
        rw [show (s.sequential inserted).bucketArray.imp i = _ from himp] at h
        exact Except.ok.inj h
    · rw [if_neg hkey]
      exact Except.ok.inj ((if_neg hkey).symm.trans h)

theorem insert_sequential (h : (s.sequential inserted).insert .x86_64 sel imp = .ok c') :
    ∃ s₁ s', s.insert (sel, imp) = some s₁ ∧ Completes s₁ s' ∧ s'.sequential c'.inserted = c' := by
  rw [BucketCache.insert, find_sequential] at h
  cases hfind : s.find sel with
  | none => rw [hfind] at h; cases h
  | some i => ?_
  rw [hfind] at h
  cases h
  let s₁ : CacheState R :=
    { s with
      occupied := if s.bucketArray.key i = 0 then s.occupied + 1 else s.occupied
      writer := .storeImp i (sel, imp) }
  have hinsert : s.insert (sel, imp) = some s₁ := by rw [insert, hfind]
  by_cases hkey : s.bucketArray.key i = sel
  · have hsame : update s.bucketArray.key i sel = s.bucketArray.key := by
      rw [← hkey, update_eq_self]
    refine ⟨s₁, _, hinsert, ⟨.single rfl, if_neg (not_not.mpr hkey)⟩, ?_⟩
    show BucketCache.mk (update s.arrays s.buckets ⟨_, s.bucketArray.key, _⟩) _ _ _ _ _ _
      = BucketCache.mk (update s.arrays s.buckets ⟨_, update s.bucketArray.key i sel, _⟩) _ _ _ _ _ _
    rw [hsame]
    rfl
  let s₂ : CacheState R :=
    { s₁ with
      arrays := update s.arrays s.buckets { s.bucketArray with
        imp := update s.bucketArray.imp i (.function imp) }
      writer := .storeKey i (sel, imp)
      trace := s.trace ++ [.stored (sel, imp)] }
  have hstore : s₁.store = some s₂ := by
    show some { s₁ with arrays := _, writer := if s.bucketArray.key i ≠ sel then _ else _, trace := _ } = _
    rw [if_pos hkey]
    rfl
  have harray₂ : s₂.bucketArray = { s.bucketArray with
      imp := update s.bucketArray.imp i (.function imp) } := update_self ..
  refine ⟨s₁, _, hinsert, ⟨.tail (.single hstore) rfl, rfl⟩, ?_⟩
  simp only [sequential, harray₂]
  exact congrArg (BucketCache.mk · _ _ _ _ _ _) (update_idem ..)

theorem reallocate_sequential {cap : Nat}
    (hre : (s.sequential inserted).reallocate .x86_64 cap = .ok c)
    (hinsert : c.insert .x86_64 sel imp = .ok c') :
    ∃ s', Completes (s.reallocate cap (sel, imp)) s' ∧ s'.sequential c'.inserted = c' := by
  unfold BucketCache.reallocate at hre
  split at hre
  next => cases hre
  next hcap =>
    obtain ⟨hpos, hmask⟩ := not_or.mp hcap
    have hmask : (cap + 2 ^ 32 - 1) % 2 ^ 32 = cap - 1 := by
      rw [show cap + 2 ^ 32 - 1 = cap - 1 + 2 ^ 32 by omega, Nat.add_mod_right]
      exact not_not.mp hmask
    let s₁ : CacheState R :=
      { s.allocate (allocateBuckets s.allocated cap) with
        buckets := s.allocated, mask := cap - 1, occupied := 0, writer := .storeMask (cap - 1) (some (sel, imp)) }
    cases hre
    obtain ⟨s₂, s', hs₂, ⟨hstores, hidle⟩, hs'⟩ :=
      @insert_sequential R s₁ inserted _ sel imp hinsert
    refine ⟨s', ⟨.head rfl (.head ?_ hstores), hidle⟩, hs'⟩
    rw [← hs₂, hmask]
    rfl

/-- **A fill without interruption** is the fill of the sequential cache. -/
theorem fill_sequential (hidle : s.writer = .idle)
    (h : (s.sequential inserted).cache_fill_nolock .x86_64 true sel imp = .ok c') :
    ∃ s₁ s', s.fill (sel, imp) = some s₁ ∧ Completes s₁ s' ∧ s'.sequential c'.inserted = c' := by
  simp only [BucketCache.cache_fill_nolock, Bool.not_true, Bool.false_eq_true, if_false] at h
  unfold fill
  split at h
  next => cases h
  next cached hcached =>
    rw [getImp_sequential hcached]
    split at h
    next hne =>
      cases h
      rw [if_pos hne]
      exact ⟨s, s, rfl, ⟨.refl, hidle⟩, rfl⟩
    next hmiss =>
      rw [if_neg hmiss]
      have hconst : (s.sequential inserted).isConstantEmptyCache .x86_64 ↔
          s.isConstantEmptyCache := by
        unfold BucketCache.isConstantEmptyCache
        rw [emptyBuckets_sequential]
        rfl
      split at h
      next => cases h
      next c hmake =>
        unfold BucketCache.makeRoom at hmake
        by_cases hempty : s.isConstantEmptyCache
        · rw [if_pos (hconst.mpr hempty)] at hmake
          rw [if_pos hempty]
          obtain ⟨s', hs'⟩ := reallocate_sequential hmake h
          exact ⟨_, s', rfl, hs'⟩
        rw [if_neg (mt hconst.mp hempty)] at hmake
        rw [if_neg hempty]
        by_cases hroom : s.occupied + 1 ≤ s.capacity / 4 * 3
        · cases (if_pos hroom).symm.trans hmake
          rw [if_pos hroom]
          exact insert_sequential h
        · have hre : (s.sequential inserted).reallocate .x86_64 (expandCapacity s.capacity) = .ok c :=
            (if_neg hroom).symm.trans hmake
          rw [if_neg hroom]
          obtain ⟨s', hs'⟩ := reallocate_sequential hre h
          exact ⟨_, s', rfl, hs'⟩

end CacheState

/-! ## The caches of the classes -/

namespace BucketCache

variable {T : CacheTarget} {c c' : BucketCache} {m m' : MethodCache} {sel : SEL} {imp : IMP}

structure Represents (T : CacheTarget) (m : MethodCache) (c : BucketCache) : Prop where
  inv : c.Inv T
  capacity : c.capacity T = m.capacity
  occupied : c.occupied = m.entries.length
  nonnil : ∀ e ∈ m.entries, e.2 ≠ 0
  stored : ∀ i, i < c.mask + 1 → c.bucketArray.key i ≠ 0 → ∃ imp,
    c.bucketArray.imp i = .function imp ∧ m.entries.lookup (c.bucketArray.key i) = some imp
  absent : ∀ sel, sel ≠ 0 → (∀ i, i < c.mask + 1 → c.bucketArray.key i ≠ sel) →
    m.entries.lookup sel = none

theorem Inv.represents_nil (h : c.Inv T) (hocc : c.occupied = 0) :
    Represents T ⟨c.capacity T, []⟩ c := by
  have hfree : ∀ i, i < c.mask + 1 → c.bucketArray.key i = 0 := by
    intro i hi
    by_contra hne
    have hpos : 0 < stored (c.mask + 1) 0 c.bucketArray.key :=
      Finset.card_pos.mpr ⟨i, Finset.mem_filter.mpr ⟨Finset.mem_range.mpr hi, hne⟩⟩
    rw [← h.occupied_eq, hocc] at hpos
    exact lt_irrefl 0 hpos
  exact ⟨h, rfl, hocc, nofun, fun i hi hne => absurd (hfree i hi) hne, fun _ _ _ => rfl⟩

variable (h : Represents T m c)
include h

theorem Represents.getImp (hsel : sel ≠ 0) : c.cache_getImp T sel = .ok (m.getImp sel) := by
  unfold cache_getImp MethodCache.getImp
  by_cases hin : ∃ i, i < c.mask + 1 ∧ c.bucketArray.key i = sel
  · obtain ⟨i, hi, rfl⟩ := hin
    obtain ⟨imp, himp, hlookup⟩ := h.stored i hi hsel
    rw [h.inv.find_present hi hsel, hlookup]
    simp only [if_true, himp, Option.getD_some]
  · have habsent : ∀ i, i < c.mask + 1 → c.bucketArray.key i ≠ sel :=
      fun i hi heq => hin ⟨i, hi, heq⟩
    obtain ⟨d, hd, hfind, hfree, -⟩ := h.inv.find_absent habsent
    rw [hfind, h.absent sel hsel habsent]
    simp only [hfree, if_neg hsel.symm, Option.getD_none]

theorem Represents.reallocate {j : Nat} (hj : 2 ≤ j) (hw : j < T.MASK_BITS) :
    ∃ c', c.reallocate T (2 ^ j) = .ok c' ∧ Ready T c' ∧ Represents T ⟨2 ^ j, []⟩ c' := by
  obtain ⟨c', hre, hready, hcap, -⟩ := reallocate_spec h.inv hj hw
  have hocc : c'.occupied = 0 := by
    unfold BucketCache.reallocate at hre
    split at hre
    next => cases hre
    next => cases hre; rfl
  exact ⟨c', hre, hready, hcap ▸ hready.inv.represents_nil hocc⟩

/-- The room is made in the same cases; it cannot be made at 2^31 buckets. -/
theorem Represents.makeRoom (h32 : T.MASK_BITS = 32) (hm : m.makeRoom = some m') :
    ∃ c', c.makeRoom T = .ok c' ∧ Ready T c' ∧ Represents T m' c' := by
  have hcapacity := h.capacity
  unfold BucketCache.makeRoom
  by_cases hconst : c.isConstantEmptyCache T
  · have hnil : m.entries = [] := length_eq_zero_iff.mp (h.occupied.symm.trans hconst.1)
    rw [MethodCache.makeRoom, if_pos hnil] at hm
    cases hm
    rw [if_pos hconst, hnil, ← hcapacity]
    rcases h.inv.shape with ⟨hmask, -⟩ | ⟨j, hj, hw, hpow⟩
    · rw [if_pos (show c.capacity T = 0 from if_pos hmask)]
      exact h.reallocate (le_refl 2) (by omega)
    · have hpos := Nat.two_pow_pos j
      rw [capacity_eq hj hw hpow, if_neg (by omega)]
      exact h.reallocate hj hw
  rw [if_neg hconst]
  have hown : ¬ c.Shared c.buckets := fun hsh => hconst (h.inv.shared hsh)
  obtain ⟨j, hj, hw, hpow⟩ := h.inv.shape.resolve_left fun hzero => hown (.inl hzero.2)
  have hcap := capacity_eq (T := T) hj hw hpow
  have hfour : 2 ^ 2 ≤ 2 ^ j := Nat.pow_le_pow_right (by omega) hj
  have hocc := h.occupied
  by_cases hroom : c.occupied + 1 ≤ c.capacity T / 4 * 3
  · have hsame : m' = m := by
      unfold MethodCache.makeRoom at hm
      split at hm
      next =>
        rw [if_neg (by omega)] at hm
        exact (Option.some.inj hm).symm
      next =>
        rw [if_pos (by omega)] at hm
        exact (Option.some.inj hm).symm
    rw [if_pos hroom, hsame]
    exact ⟨c, rfl, ⟨h.inv, hown, hroom⟩, h⟩
  have hne : m.entries ≠ [] := by
    intro hnil
    rw [hnil, length_nil] at hocc
    omega
  rw [MethodCache.makeRoom, if_neg hne, if_neg (by omega)] at hm
  obtain ⟨hlt, hm⟩ := Option.ite_none_right_eq_some.mp hm
  cases hm
  rw [← hcapacity, hcap, ← Nat.pow_succ] at hlt ⊢
  have hw' : j + 1 < T.MASK_BITS := h32 ▸ (Nat.pow_lt_pow_iff_right (by omega)).mp hlt
  rw [if_neg (hcap ▸ hroom), expand, hcap, expandCapacity_pow hw']
  exact h.reallocate (by omega) hw'

/-- A new selector. -/
theorem Represents.insert (hready : Ready T c) (hsel : sel ≠ 0) (himp : imp ≠ 0)
    (hmiss : m.getImp sel = 0) :
    ∃ c', c.insert T sel imp = .ok c' ∧ Represents T
      ⟨m.capacity, (sel, imp) :: m.entries.filter fun e => decide (e.1 ≠ sel)⟩ c' := by
  have hnone : m.entries.lookup sel = none := by
    cases hlookup : m.entries.lookup sel with
    | none => rfl
    | some imp' =>
      rw [MethodCache.getImp, hlookup] at hmiss
      obtain ⟨l, l', heq, -⟩ := lookup_eq_some_iff.mp hlookup
      exact absurd hmiss (h.nonnil (sel, imp') (by rw [heq]; simp))
  have hfilter : (m.entries.filter fun e => decide (e.1 ≠ sel)) = m.entries := by
    rw [filter_eq_self]
    intro e he
    have hother := lookup_eq_none_iff.mp hnone e he
    exact decide_eq_true fun heq => by simp [heq] at hother
  have habsent : ∀ i, i < c.mask + 1 → c.bucketArray.key i ≠ sel := by
    rintro i hi rfl
    obtain ⟨imp', -, hlookup⟩ := h.stored i hi hsel
    rw [hnone] at hlookup
    cases hlookup
  obtain ⟨c', hinsert, hinv, hcap⟩ := insert_spec hready hsel imp
  obtain ⟨d, hd, hfind, hfree, -⟩ := h.inv.find_absent habsent
  refine ⟨c', hinsert, ?_⟩
  rw [hfilter]
  rw [BucketCache.insert, hfind] at hinsert
  have hi := h.inv.isCycle.iterate_lt (h.inv.hash_lt sel) d
  generalize (T.cache_next · c.mask)^[d] (T.cache_hash sel c.mask) = i at hinsert hfree hi
  have hc' := (Except.ok.inj hinsert).symm
  have harray : c'.bucketArray = { c.bucketArray with
      key := update c.bucketArray.key i sel
      imp := update c.bucketArray.imp i (.function imp) } := by
    rw [hc']
    exact update_self ..
  have hmask : c'.mask = c.mask := by rw [hc']
  have hocc : c'.occupied = c.occupied + 1 := by
    rw [hc']
    exact if_pos hfree
  refine ⟨hinv, hcap.trans h.capacity, ?_, ?_, ?_, ?_⟩
  · rw [hocc, h.occupied, length_cons]
  · intro e he
    rcases mem_cons.mp he with rfl | he
    · exact himp
    · exact h.nonnil e he
  · intro i' hi' hne
    rw [harray] at hne ⊢
    rw [hmask] at hi'
    by_cases heq : i' = i
    · subst heq
      exact ⟨imp, update_self .., by simp⟩
    · simp only [update_of_ne heq] at hne ⊢
      obtain ⟨imp', himp', hlookup⟩ := h.stored i' hi' hne
      refine ⟨imp', himp', ?_⟩
      rw [lookup_cons, beq_false_of_ne (habsent i' hi')]
      exact hlookup
  · intro sel' hsel' hnone'
    rw [harray, hmask] at hnone'
    have hne : sel ≠ sel' := by simpa using hnone' i hi
    rw [lookup_cons, beq_false_of_ne hne.symm]
    refine h.absent sel' hsel' fun i' hi' => ?_
    by_cases heq : i' = i
    · rw [heq, hfree]
      exact hsel'.symm
    · simpa only [update_of_ne heq] using hnone' i' hi'

/-- **A fill of the buckets** does to the capacity and the entries what the fill of a class's cache
does. -/
theorem Represents.fill (h32 : T.MASK_BITS = 32) (hsel : sel ≠ 0) (himp : imp ≠ 0)
    (hm : m.fill sel imp = some m') :
    ∃ c', c.cache_fill_nolock T true sel imp = .ok c' ∧ Represents T m' c' := by
  simp only [cache_fill_nolock, Bool.not_true, Bool.false_eq_true, if_false, h.getImp hsel]
  unfold MethodCache.fill at hm
  split at hm
  next hhit =>
    cases hm
    exact ⟨c, if_pos hhit, h⟩
  next hmiss =>
    rw [if_neg hmiss]
    obtain ⟨room, hroom, rfl⟩ := Option.map_eq_some_iff.mp hm
    obtain ⟨c', hmake, hready, h'⟩ := h.makeRoom h32 hroom
    have hmiss' : room.getImp sel = 0 := by
      rcases (MethodCache.makeRoom_spec hroom).2.1 sel with heq | heq
      · exact heq.trans (not_not.mp hmiss)
      · exact heq
    rw [hmake]
    exact h'.insert hready hsel himp hmiss'

end BucketCache

end ObjcRuntime
