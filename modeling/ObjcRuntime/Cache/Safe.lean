/-
LOOKUPS WITHOUT LOCKS ARE SAFE, UP TO THE LARGEST CACHE.
-/
import ObjcRuntime.Cache.Inv

namespace ObjcRuntime

open Lib Function Option CacheState Finset

/-! ## Safety -/

def ReaderPC.touches : ReaderPC → Option (Nat × Nat)
  | .idle | .loadBuckets _ _ => none
  | .compare scan | .checkEnd scan | .wrap scan | .hit scan => some (scan.array, scan.index)

def ReaderPC.wraps : ReaderPC → Nat
  | .idle | .loadBuckets _ _ => 0
  | .compare scan | .checkEnd scan | .wrap scan | .hit scan => scan.wraps

def ReaderPC.scan : ReaderPC → Option Scan
  | .idle | .loadBuckets _ _ => none
  | .compare scan | .checkEnd scan | .wrap scan | .hit scan => some scan

theorem ReaderPC.touches_eq (pc : ReaderPC) :
    pc.touches = pc.scan.map fun scan => (scan.array, scan.index) := by
  cases pc <;> rfl

theorem ReaderPC.wraps_eq (pc : ReaderPC) : pc.wraps = pc.scan.elim 0 Scan.wraps := by
  cases pc <;> rfl

variable {R : Type} [DecidableEq R]

structure CacheState.Safe (s : CacheState R) : Prop where
  inside : ∀ r a i, (s.reader r).touches = some (a, i) → a < s.allocated ∧ i < (s.arrays a).size
  wraps : ∀ r, (s.reader r).wraps ≤ 1
  goes_on : ∀ r, s.reader r ≠ .idle → (s.load r).isSome = true
  justified : CacheState.Justified s.trace

/-- No fill expands a cache of `2 ^ 31` buckets. -/
def CacheState.NoOverflow (s : CacheState R) : CacheAction R → Prop
  | .fill entry => ¬ s.Overflows entry
  | _ => True

instance (s : CacheState R) : DecidablePred s.NoOverflow
  | .fill _ => inferInstanceAs (Decidable (¬ (_ ∧ _ ∧ _ ∧ _)))
  | .erase | .store | .msgSend _ _ | .load _ => inferInstanceAs (Decidable True)

namespace CacheState

variable {s s' : CacheState R} {scan : Scan}

omit [DecidableEq R] in
theorem ScanOK.inside (h : s.ScanOK scan) :
    scan.array < s.allocated ∧ scan.index < (s.arrays scan.array).size := by
  obtain ⟨_, _, ha, hroom⟩ := h
  refine ⟨ha, ?_⟩
  rcases hroom with ⟨_, hlt⟩ | ⟨cap, hmarked, hle⟩
  · exact hlt
  · rw [hmarked.size]
    exact Nat.lt_succ_of_le hle

omit [DecidableEq R] in
theorem ScanOK.wraps_le (h : s.ScanOK scan) : scan.wraps ≤ 1 := by
  rw [h.wraps]
  exact Bool.toNat_le scan.second

omit [DecidableEq R] in
theorem ReaderOK.scanOK {pc : ReaderPC} (h : s.ReaderOK pc) (hscan : pc.scan = some scan) :
    s.ScanOK scan := by
  cases pc with
  | idle | loadBuckets sel mask => cases hscan
  | compare c | checkEnd c => exact some.inj hscan ▸ h
  | wrap c | hit c => exact some.inj hscan ▸ h.1

theorem Inv.safe (h : s.Inv) : s.Safe := by
  refine ⟨fun r a i ht => ?_, fun r => ?_, fun r hbusy => ?_, h.trace⟩
  · rw [ReaderPC.touches_eq] at ht
    obtain ⟨scan, hscan, heq⟩ := map_eq_some_iff.mp ht
    obtain ⟨rfl, rfl⟩ := Prod.mk.inj heq
    exact (ReaderOK.scanOK (h.readers r) hscan).inside
  · rw [ReaderPC.wraps_eq]
    cases hscan : (s.reader r).scan with
    | none => exact Nat.zero_le 1
    | some scan => exact (ReaderOK.scanOK (h.readers r) hscan).wraps_le
  · obtain ⟨s', hload, _⟩ := h.load hbusy
    rw [hload]
    rfl

theorem Inv.act (h : s.Inv) {a : CacheAction R} (hok : s.NoOverflow a)
    (hstep : s.act a = some s') : s'.Inv := by
  cases a with
  | fill entry =>
    cases hidle : s.writer with
    | idle =>
      simp only [CacheState.act, hidle] at hstep
      split at hstep
      next hsel => exact h.fill hidle hsel hok hstep
      next => cases hstep
    | storeBuckets _ _ _ | storeMask _ _ | storeImp _ _ =>
      simp only [CacheState.act, hidle] at hstep; cases hstep
    | storeKey _ _ => simp only [CacheState.act, hidle] at hstep; cases hstep
  | erase =>
    simp only [CacheState.act] at hstep
    split at hstep
    next => exact some.inj hstep ▸ h.erase
    next => cases hstep
  | store => exact h.store hstep
  | msgSend r sel =>
    simp only [CacheState.act] at hstep
    split at hstep
    next =>
      split at hstep
      next hsel => exact some.inj hstep ▸ h.goto_silent ⟨hsel, le_refl _⟩
      next => cases hstep
    next => cases hstep
  | load r => ?_
  by_cases hbusy : s.reader r = .idle
  · simp only [CacheState.act, CacheState.load, hbusy] at hstep
    cases hstep
  · obtain ⟨s1, hload, hinv⟩ := h.load hbusy
    exact some.inj (hload.symm.trans hstep) ▸ hinv

omit [DecidableEq R] in
theorem Inv.start : (start : CacheState R).Inv := by
  refine ⟨⟨⟨Nat.one_pos, fun _ => rfl, rfl⟩, fun i a ha => ?_⟩, .inl rfl,
    ⟨Nat.one_pos, .inl ⟨fun _ => rfl, ?_⟩⟩, .inl ⟨rfl, rfl⟩, fun _ => trivial, ?_⟩
  · cases ha
  · show 0 < EMPTY_BUCKETS
    decide
  intro before after r sel imp heq
  have hnil : [] = before ++ CacheEvent.dispatched r sel imp :: after := heq
  exact absurd hnil.symm (List.append_ne_nil_of_right_ne_nil _ (List.cons_ne_nil _ _))

end CacheState

/-- **Readers without locks are safe** in every interleaving with one writer, as long as no cache of
`2 ^ 31` buckets is expanded. -/
theorem cache_readers_are_safe (as : List (CacheAction R))
    (h : (cacheSystem R).AllSteps CacheState.NoOverflow CacheState.start as) :
    (cacheSystem R).AllStates CacheState.Safe CacheState.start as := by
  have hinv : (cacheSystem R).AllStates Inv start as :=
    System.AllSteps.allStates (fun s a s' hs hok hstep => hs.act hok hstep) as
      CacheState.Inv.start h
  exact System.AllStates.mono (fun s hs => hs.safe) as hinv

def firstFillRun : List (CacheAction Unit) :=
  [.msgSend () 6, .fill (6, 7), .store, .load (), .store, .load (), .store, .load (), .store,
    .msgSend () 6, .load (), .load (), .load ()]

theorem reader_during_first_fill :
    (cacheSystem Unit).AllSteps CacheState.NoOverflow CacheState.start firstFillRun ∧
      (cacheSystem Unit).AllStates CacheState.Safe CacheState.start firstFillRun := by
  have hsteps : (cacheSystem Unit).AllSteps NoOverflow start firstFillRun := by
    decide +kernel
  exact ⟨hsteps, cache_readers_are_safe firstFillRun hsteps⟩

/-! ## Filling the largest cache -/

namespace CacheState

variable {s : CacheState R}

def used (s : CacheState R) : Finset Nat :=
  (Finset.range (s.mask + 1)).filter fun i => s.bucketArray.key i ≠ 0

/-- The writer is between two calls and no reader is in the macro; the cache has `2 ^ k` buckets of
its own, and `n` of them are in use. -/
structure Filled (k n : Nat) (s : CacheState R) : Prop where
  inv : s.Inv
  idle : s.writer = .idle
  readers : ∀ r, s.reader r = .idle
  mask : s.mask + 1 = 2 ^ k
  marked : s.bucketArray.Marked s.trace s.buckets (s.mask + 1)
  pos : 0 < n
  occupied : s.occupied = n
  used : s.used.card = n

omit [DecidableEq R] in
theorem exists_fresh (s : CacheState R) :
    ∃ sel, 1 < sel ∧ ∀ i, i ≤ s.mask → s.bucketArray.key i ≠ sel := by
  refine ⟨(range (s.mask + 1)).sup s.bucketArray.key + 2, by omega, fun i hi => ?_⟩
  have hle : s.bucketArray.key i ≤ (range (s.mask + 1)).sup s.bucketArray.key :=
    le_sup (mem_range.mpr (Nat.lt_succ_of_le hi))
  omega

omit [DecidableEq R] in
theorem getImp_of_fresh {sel : SEL} (h : ∀ i, i ≤ s.mask → s.bucketArray.key i ≠ sel) :
    s.getImp sel = 0 := by
  rw [getImp]
  cases hfind : s.find sel with
  | none => rfl
  | some i => exact if_neg (h i (find_some hfind).1)

variable {k : Nat}

omit [DecidableEq R] in
theorem find_of_free {z : Nat} (hmask : s.mask + 1 = 2 ^ k) (hz : z ≤ s.mask)
    (hfree : s.bucketArray.key z = 0) (sel : Nat) : ∃ i, s.find sel = some i := by
  have hbegin : sel &&& s.mask ≤ s.mask := Nat.and_le_right
  have hlen := s.length_keys
  -- how far the free bucket is from the bucket of the hash
  have hdist : ((sel &&& s.mask) + (z + (s.mask + 1) - (sel &&& s.mask)) % (s.mask + 1))
      % (s.mask + 1) = z := by
    rw [Nat.add_mod_mod, show (sel &&& s.mask) + (z + (s.mask + 1) - (sel &&& s.mask))
      = z + (s.mask + 1) by omega, Nat.add_mod_right, Nat.mod_eq_of_lt (by omega)]
  have hstop : findStops sel (slotAt s.keys (sel &&& s.mask)
      ((z + (s.mask + 1) - (sel &&& s.mask)) % (s.mask + 1))) = true := by
    rw [slotAt, hlen, hdist, getD_keys hz, hfree]
    exact decide_eq_true (.inl rfl)
  obtain ⟨c, _, _, _, _, hprobe⟩ := probe_spec (hlen.trans hmask)
    (by rw [hlen]; omega : sel &&& s.mask < s.keys.length) (s.mask + 1) 0
    ((z + (s.mask + 1) - (sel &&& s.mask)) % (s.mask + 1)) (by rw [hlen]) (Nat.zero_le _)
    (by rw [hlen]; exact Nat.mod_lt _ (Nat.succ_pos _)) hstop
  simp only [hlen, add_zero, Nat.mod_eq_of_lt (Nat.lt_succ_of_le hbegin)] at hprobe
  exact ⟨_, by rw [find, hprobe, map_some]⟩

variable {n : Nat}

omit [DecidableEq R] in
theorem Filled.exists_free (h : s.Filled k n) (hn : n < 2 ^ k) :
    ∃ sel i, 1 < sel ∧ s.find sel = some i ∧ i ≤ s.mask ∧ s.bucketArray.key i = 0 ∧
      s.getImp sel = 0 := by
  obtain ⟨sel, hsel, hfresh⟩ := s.exists_fresh
  -- not all buckets are in use
  obtain ⟨z, hz, hfree⟩ : ∃ z, z ≤ s.mask ∧ s.bucketArray.key z = 0 := by
    by_contra hnone
    have hall : s.used = range (s.mask + 1) := by
      refine filter_true_of_mem fun i hi hzero => hnone ⟨i, ?_, hzero⟩
      exact Nat.le_of_lt_succ (mem_range.mp hi)
    have hcard := h.used
    rw [hall, card_range, h.mask] at hcard
    omega
  obtain ⟨i, hi⟩ := find_of_free h.mask hz hfree sel
  obtain ⟨hle, hkey⟩ := find_some hi
  have hzero := hkey.resolve_right (hfresh i hle)
  exact ⟨sel, i, hsel, hi, hle, hzero, getImp_of_fresh hfresh⟩

omit [DecidableEq R] in
theorem Filled.not_constant (h : s.Filled k n) : ¬ s.isConstantEmptyCache := by
  intro hconst
  have hpos := h.pos
  have hocc := h.occupied
  rw [hconst.1] at hocc
  omega

omit [DecidableEq R] in
theorem Filled.capacity_eq (h : s.Filled k n) (hk : 2 ≤ k) : s.capacity = 2 ^ k := by
  have hpow : 2 ^ 2 ≤ 2 ^ k := Nat.pow_le_pow_right (Nat.succ_pos 1) hk
  have hmask := h.mask
  rw [h.inv.capacity_eq (by omega), hmask]

variable {entry : Entry}

omit [DecidableEq R] in
theorem store_storeImp {i : Nat} (hw : s.writer = .storeImp i entry)
    (hne : s.bucketArray.key i ≠ entry.1) :
    ∃ s', s.store = some s' ∧ s'.writer = .storeKey i entry ∧ s'.mask = s.mask ∧
      s'.occupied = s.occupied ∧ s'.reader = s.reader ∧ s'.bucketArray.key = s.bucketArray.key := by
  rw [store, hw]
  refine ⟨_, rfl, if_pos hne, rfl, rfl, rfl, ?_⟩
  show (update s.arrays s.buckets _ s.buckets).key = _
  rw [update_self]

omit [DecidableEq R] in
theorem store_storeKey {i : Nat} (hw : s.writer = .storeKey i entry) :
    ∃ s', s.store = some s' ∧ s'.writer = .idle ∧ s'.mask = s.mask ∧ s'.occupied = s.occupied ∧
      s'.reader = s.reader ∧ s'.bucketArray.key = update s.bucketArray.key i entry.1 := by
  rw [store, hw]
  refine ⟨_, rfl, rfl, rfl, rfl, rfl, ?_⟩
  show (update s.arrays s.buckets _ s.buckets).key = _
  rw [update_self]

omit [DecidableEq R] in
theorem store_storeMask {m : Nat} (hw : s.writer = .storeMask m (some entry))
    (hmask : m + 1 = 2 ^ k) (hfree : ∀ i, i ≤ m → s.bucketArray.key i = 0) :
    ∃ i s', s.store = some s' ∧ i ≤ m ∧ s'.writer = .storeImp i entry ∧ s'.mask = m ∧
      s'.occupied = 1 ∧ s'.reader = s.reader ∧ s'.bucketArray.key = s.bucketArray.key := by
  have hzero : find { s with mask := m, occupied := 0 } entry.1 ≠ none := by
    obtain ⟨i, hi⟩ := find_of_free (s := { s with mask := m, occupied := 0 }) hmask
      (Nat.zero_le m) (hfree 0 (Nat.zero_le m)) entry.1
    rw [hi]
    exact some_ne_none i
  obtain ⟨i, hi⟩ := ne_none_iff_exists'.mp hzero
  obtain ⟨hle, _⟩ := find_some hi
  rw [store, hw]
  show ∃ i s', insert { s with mask := m, occupied := 0 } entry = some s' ∧ _
  rw [insert, hi]
  refine ⟨i, _, rfl, hle, rfl, rfl, ?_, rfl, rfl⟩
  show (if s.bucketArray.key i = 0 then 0 + 1 else 0) = 1
  rw [if_pos (hfree i hle)]

omit [DecidableEq R] in
theorem store_reallocate {c : Nat} (s : CacheState R) (entry : Entry) (hcap : IsCapacity c) :
    ∃ s', (s.reallocate c entry).store = some s' ∧ s'.writer = .storeMask (c - 1) (some entry) ∧
      s'.reader = s.reader ∧ ∀ i, i ≤ c - 1 → s'.bucketArray.key i = 0 := by
  obtain ⟨hmin, hmax⟩ := hcap.bounds
  have hm : (c + 2 ^ 32 - 1) % 2 ^ 32 = c - 1 := by
    rw [show c + 2 ^ 32 - 1 = c - 1 + 2 ^ 32 by omega, Nat.add_mod_right,
      Nat.mod_eq_of_lt (by omega)]
  refine ⟨_, rfl, ?_, rfl, fun i hi => ?_⟩
  · show WriterPC.storeMask ((c + 2 ^ 32 - 1) % 2 ^ 32) (some entry) = _
    rw [hm]
  show (update s.arrays s.allocated (allocateBuckets s.allocated c) s.allocated).key i = 0
  rw [update_self]
  exact allocateBuckets_free s.allocated (by omega) (by omega)

section

variable (hr : (cacheSystem R).Reachable (fun _ => True) s)

include hr

theorem exists_filled_of_storeImp {i : Nat}
    (hinv : s.Inv) (hw : s.writer = .storeImp i entry) (hreaders : ∀ r, s.reader r = .idle)
    (hmask : s.mask + 1 = 2 ^ k) (hi : i ≤ s.mask) (hkey : s.bucketArray.key i = 0)
    (hocc : s.occupied = n + 1) (hused : s.used.card = n) :
    ∃ s', (cacheSystem R).Reachable (fun _ => True) s' ∧ s'.Filled k (n + 1) := by
  have hsel : 1 < entry.1 := by
    have hwriter := hinv.writer
    rw [hw] at hwriter
    exact hwriter.1
  obtain ⟨s1, hs1, hw1, hmask1, hocc1, hreader1, hkey1⟩ := store_storeImp hw (by
    rw [hkey]
    exact ne_of_lt (lt_trans Nat.zero_lt_one hsel))
  have hinv1 := hinv.store hs1
  obtain ⟨s2, hs2, hw2, hmask2, hocc2, hreader2, hkey2⟩ := store_storeKey hw1
  have hinv2 := hinv1.store hs2
  have hocc' : s2.occupied = n + 1 := by rw [hocc2, hocc1, hocc]
  have hset : s2.used = Insert.insert i s.used := by
    ext j
    rw [mem_insert, used, used, mem_filter, mem_filter, hmask2, hmask1, hkey2, hkey1]
    by_cases hj : j = i
    · subst hj
      rw [update_self]
      refine ⟨fun _ => .inl rfl, fun _ => ⟨mem_range.mpr (Nat.lt_succ_of_le hi), ?_⟩⟩
      exact Nat.ne_of_gt (lt_trans Nat.zero_lt_one hsel)
    · rw [update_of_ne hj]
      exact ⟨.inr, fun h => h.resolve_left hj⟩
  have hwriter := hinv2.writer
  rw [hw2] at hwriter
  have hmarked := hwriter.resolve_left fun hconst => by
    have hzero := hconst.1
    rw [hocc'] at hzero
    cases hzero
  refine ⟨s2, .step (.step (a := .store) hr hs1 trivial) (a := .store) hs2 trivial, hinv2, hw2,
    fun r => ?_, ?_, hmarked.2, Nat.succ_pos n, hocc', ?_⟩
  · rw [hreader2, hreader1]
    exact hreaders r
  · rw [hmask2, hmask1, hmask]
  rw [hset, card_insert_of_notMem, hused]
  rw [used, mem_filter]
  exact fun h => h.2 hkey

theorem Filled.fill (h : s.Filled k n) (hk : 2 ≤ k) (hroom : n + 1 ≤ 2 ^ k / 4 * 3) :
    ∃ s', (cacheSystem R).Reachable (fun _ => True) s' ∧ s'.Filled k (n + 1) := by
  obtain ⟨sel, i, hsel, hfind, hi, hkey, hmiss⟩ := h.exists_free (by omega)
  have hcap := h.capacity_eq hk
  have hins : s.fill (sel, 7) = some { s with
      occupied := s.occupied + 1, writer := .storeImp i (sel, 7) } := by
    rw [CacheState.fill, if_neg (not_not.mpr hmiss), if_neg h.not_constant, hcap, h.occupied,
      if_pos hroom, insert]
    simp only [hfind, hkey, if_true, h.occupied]
  have hstep : (cacheSystem R).step s (.fill (sel, 7)) = some { s with
      occupied := s.occupied + 1, writer := .storeImp i (sel, 7) } := by
    show s.act (.fill (sel, 7)) = _
    simp only [act, h.idle]
    rw [if_pos hsel, hins]
  have hok : ¬ s.Overflows (sel, 7) := fun hover => hover.2.2.1 (by
    rw [hcap, h.occupied]
    exact hroom)
  exact exists_filled_of_storeImp (.step hr hstep trivial) (h.inv.fill h.idle hsel hok hins) rfl
    h.readers h.mask hi hkey (by show s.occupied + 1 = _; rw [h.occupied]) h.used

theorem exists_filled_of_reallocate {sel : SEL}
    (hinv : s.Inv) (hidle : s.writer = .idle) (hreaders : ∀ r, s.reader r = .idle)
    (hsel : 1 < sel) (hcap : IsCapacity (2 ^ k)) (hle : s.mask + 1 ≤ 2 ^ k)
    (hfill : s.fill (sel, 7) = some (s.reallocate (2 ^ k) (sel, 7))) :
    ∃ s', (cacheSystem R).Reachable (fun _ => True) s' ∧ s'.Filled k 1 := by
  have hstep : (cacheSystem R).step s (.fill (sel, 7)) = some (s.reallocate (2 ^ k) (sel, 7)) := by
    show s.act (.fill (sel, 7)) = _
    simp only [act, hidle]
    rw [if_pos hsel, hfill]
  have hr1 : (cacheSystem R).Reachable (fun _ => True) (s.reallocate (2 ^ k) (sel, 7)) :=
    .step hr hstep trivial
  have hinv1 : (s.reallocate (2 ^ k) (sel, 7)).Inv := hinv.reallocate hsel hcap hle
  -- the buckets, then the mask
  obtain ⟨s2, hs2, hw2, hreader2, hfree⟩ := store_reallocate s (sel, 7) hcap
  have hinv2 := hinv1.store hs2
  have hr2 : (cacheSystem R).Reachable (fun _ => True) s2 := .step (a := .store) hr1 hs2 trivial
  obtain ⟨i, s3, hs3, hi, hw3, hmask3, hocc3, hreader3, hkey3⟩ :=
    store_storeMask (k := k) hw2 (by omega) hfree
  have hkeys : ∀ j, j ≤ 2 ^ k - 1 → s3.bucketArray.key j = 0 := by
    intro j hj
    rw [hkey3]
    exact hfree j hj
  refine exists_filled_of_storeImp (.step (a := .store) hr2 hs3 trivial) (hinv2.store hs3) hw3
    (fun r => by rw [hreader3, hreader2]; exact hreaders r) (by rw [hmask3]; omega)
    (by rw [hmask3]; exact hi)
    (hkeys i hi) hocc3 ?_
  rw [card_eq_zero, used, hmask3]
  refine filter_false_of_mem fun j hj hne => hne (hkeys j ?_)
  have := mem_range.mp hj
  omega

theorem Filled.expand (h : s.Filled k n)
    (hk : 2 ≤ k) (hk' : k < 31) (hn : n < 2 ^ k) (hfull : ¬ n + 1 ≤ 2 ^ k / 4 * 3) :
    ∃ s', (cacheSystem R).Reachable (fun _ => True) s' ∧ s'.Filled (k + 1) 1 := by
  obtain ⟨sel, _, hsel, _, _, _, hmiss⟩ := h.exists_free hn
  have hcap := h.capacity_eq hk
  have hk2 : IsCapacity (2 ^ k) := ⟨k, hk, le_of_lt hk', rfl⟩
  have hne : 2 ^ k ≠ 2 ^ 31 := fun heq =>
    ne_of_lt hk' (Nat.pow_right_injective (le_refl 2) heq)
  obtain ⟨hexpand, hcap'⟩ := hk2.expand hne
  rw [← Nat.pow_succ'] at hexpand hcap'
  refine exists_filled_of_reallocate hr h.inv h.idle h.readers hsel hcap' ?_ ?_
  · rw [h.mask]
    exact Nat.pow_le_pow_right (Nat.succ_pos 1) (Nat.le_succ k)
  · rw [CacheState.fill, if_neg (not_not.mpr hmiss), if_neg h.not_constant, hcap, h.occupied,
      if_neg hfull, hexpand]

end

theorem exists_filled_up (hk : 2 ≤ k)
    (h : ∃ s : CacheState R, (cacheSystem R).Reachable (fun _ => True) s ∧ s.Filled k 1) :
    ∀ n, 0 < n → n ≤ 2 ^ k / 4 * 3 →
      ∃ s : CacheState R, (cacheSystem R).Reachable (fun _ => True) s ∧ s.Filled k n := by
  intro n
  induction n with
  | zero => intro hpos; exact absurd hpos (lt_irrefl 0)
  | succ n ih => ?_
  intro _ hle
  by_cases hn : n = 0
  · rw [hn]
    exact h
  · obtain ⟨s, hr, hs⟩ := ih (by omega) (by omega)
    exact hs.fill hr hk hle

theorem exists_filled : ∀ k, 2 ≤ k → k ≤ 31 →
    ∃ s : CacheState R, (cacheSystem R).Reachable (fun _ => True) s ∧ s.Filled k 1 := by
  intro k hk
  induction k, hk using Nat.le_induction with
  | base =>
    intro _
    have hstart : (cacheSystem R).Reachable (fun _ => True) start := .init rfl trivial
    have hmiss : (start : CacheState R).getImp 2 = 0 :=
      getImp_of_fresh fun i _ => ne_of_lt (Nat.succ_pos 1)
    have hconst : (start : CacheState R).isConstantEmptyCache := ⟨rfl, rfl⟩
    have hfill : (start : CacheState R).fill (2, 7) = some (start.reallocate (2 ^ 2) (2, 7)) := by
      rw [fill, if_neg (not_not.mpr hmiss), if_pos hconst]
      rfl
    refine exists_filled_of_reallocate hstart Inv.start rfl (fun _ => rfl) (by decide)
      ⟨2, le_refl 2, by decide, rfl⟩ ?_ hfill
    show 0 + 1 ≤ 2 ^ 2
    decide
  | succ k hk ih => ?_
  intro hle
  have hpow : 2 ^ 2 ≤ 2 ^ k := Nat.pow_le_pow_right (Nat.succ_pos 1) hk
  obtain ⟨s, hr, hs⟩ := exists_filled_up hk (ih (by omega)) (2 ^ k / 4 * 3) (by omega) le_rfl
  exact hs.expand hr hk (by omega) (by omega) (by omega)

end CacheState

/-- **The largest cache overflows**: when it is expanded, the new array has one bucket and a reader
that has loaded the mask before reads its sixth. -/
theorem largest_cache_overflows :
    ∃ (s : CacheState Unit) (a i : Nat), (cacheSystem Unit).Reachable (fun _ => True) s ∧
      (s.reader ()).touches = some (a, i) ∧ (s.arrays a).size ≤ i := by
  obtain ⟨s, hr, hs⟩ := exists_filled_up (R := Unit) (by decide : 2 ≤ 31)
    (exists_filled 31 (by decide) (le_refl 31)) (2 ^ 31 / 4 * 3) (by decide)
    le_rfl
  obtain ⟨sel, _, hsel, _, _, _, hmiss⟩ := hs.exists_free (by decide)
  have hcap := hs.capacity_eq (by decide)
  -- the reader loads the mask
  have hs1 : (cacheSystem Unit).step s (.msgSend () 5)
      = some (s.goto () (.loadBuckets 5 s.mask)) := by
    show s.act (.msgSend () 5) = _
    simp only [act, hs.readers ()]
    rfl
  -- the writer expands the cache
  have hs2 : (cacheSystem Unit).step (s.goto () (.loadBuckets 5 s.mask)) (.fill (sel, 7))
      = some ((s.goto () (.loadBuckets 5 s.mask)).reallocate 0 (sel, 7)) := by
    show (s.goto () (.loadBuckets 5 s.mask)).act (.fill (sel, 7)) = _
    have hidle : (s.goto () (.loadBuckets 5 s.mask)).writer = .idle := hs.idle
    have hfull : ¬ s.occupied + 1 ≤ s.capacity / 4 * 3 := by
      rw [hcap, hs.occupied]
      decide
    simp only [act, hidle]
    rw [if_pos hsel]
    show (if s.getImp sel ≠ 0 then _ else if s.isConstantEmptyCache then _ else
      if s.occupied + 1 ≤ s.capacity / 4 * 3 then _ else
        some ((s.goto () (.loadBuckets 5 s.mask)).reallocate
          (expandCapacity s.capacity) (sel, 7))) = _
    rw [if_neg (not_not.mpr hmiss), if_neg hs.not_constant, if_neg hfull, hcap]
    rfl
  -- the new buckets are there, the new mask is not
  have hs3 : (cacheSystem Unit).step ((s.goto () (.loadBuckets 5 s.mask)).reallocate 0 (sel, 7))
      .store = some { (s.goto () (.loadBuckets 5 s.mask)).reallocate 0 (sel, 7) with
        buckets := s.allocated, writer := .storeMask (2 ^ 32 - 1) (some (sel, 7)) } := rfl
  have hs4 : (cacheSystem Unit).step { (s.goto () (.loadBuckets 5 s.mask)).reallocate 0 (sel, 7) with
      buckets := s.allocated, writer := .storeMask (2 ^ 32 - 1) (some (sel, 7)) } (.load ())
      = some (goto { (s.goto () (.loadBuckets 5 s.mask)).reallocate 0 (sel, 7) with
        buckets := s.allocated, writer := .storeMask (2 ^ 32 - 1) (some (sel, 7)) } ()
        (.compare ⟨5, s.allocated, 5 &&& s.mask, false, 0⟩)) := rfl
  refine ⟨_, s.allocated, 5 &&& s.mask, .step (.step (.step (.step hr hs1 trivial) hs2 trivial) hs3
    trivial) hs4 trivial, rfl, ?_⟩
  have hmask : s.mask = 2 ^ 31 - 1 := by
    have := hs.mask
    omega
  show (update s.arrays s.allocated (allocateBuckets s.allocated 0) s.allocated).size ≤ _
  rw [update_self, hmask]
  show bucketsForCapacity 0 ≤ 5 &&& 2 ^ 31 - 1
  decide

end ObjcRuntime
