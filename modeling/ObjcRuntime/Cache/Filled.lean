/-
WHAT FILLS AND ERASURES MAKE OF A CACHE.

Any sequence of fills and erasures, on any target and for any hash. The
capacity is 0 or a power of two from 4 on and never decreases; at most three
quarters of the buckets are occupied; every selector is in one bucket at most
and `find` stops. The only way out is a 32-bit mask that has to grow beyond
2^31 buckets, which takes three quarters of that many selectors.
-/
import ObjcRuntime.Cache.Inv
import ObjcRuntime.Cache.Sequential

namespace ObjcRuntime

open Lib Function List CacheTarget Finset

/-! ## Both ways of scanning are cycles -/

variable {n j i : Nat}

theorem increment_iterate (hn : n = 2 ^ j) (hi : i < n) (d : Nat) :
    (fun i => (i + 1) &&& (n - 1))^[d] i = (i + d) % n := by
  induction d with
  | zero => exact (Nat.mod_eq_of_lt hi).symm
  | succ d ih =>
    rw [iterate_succ_apply', ih]
    show ((i + d) % n + 1) &&& (n - 1) = (i + (d + 1)) % n
    rw [hn, Nat.and_two_pow_sub_one_eq_mod, Nat.mod_add_mod, add_assoc]

theorem increment_isCycle (hn : n = 2 ^ j) : IsCycle (fun i => (i + 1) &&& (n - 1)) n := by
  apply IsCycle.of_iterate
  · intro i _
    show (i + 1) &&& (n - 1) < n
    rw [hn, Nat.and_two_pow_sub_one_eq_mod]
    exact Nat.mod_lt _ (Nat.two_pow_pos j)
  · intro i hi
    rw [increment_iterate hn hi, Nat.add_mod_right, Nat.mod_eq_of_lt hi]
  intro i d hi hd hdn heq
  rw [increment_iterate hn hi] at heq
  rcases Nat.lt_or_ge (i + d) n with hlt | hge
  · rw [Nat.mod_eq_of_lt hlt] at heq
    omega
  · rw [Nat.mod_eq_sub_mod hge, Nat.mod_eq_of_lt (by omega)] at heq
    omega

theorem decrement_iterate (hn : 0 < n) (hi : i < n) (d : Nat) (hd : d ≤ n) :
    (fun i => if i ≠ 0 then i - 1 else n - 1)^[d] i = if d ≤ i then i - d else i + n - d := by
  induction d with
  | zero => rw [if_pos (Nat.zero_le i)]; rfl
  | succ d ih => ?_
  rw [iterate_succ_apply', ih (by omega)]
  show (if (if d ≤ i then i - d else i + n - d) ≠ 0
    then (if d ≤ i then i - d else i + n - d) - 1 else n - 1) = _
  split <;> split <;> split <;> omega

theorem decrement_isCycle (hn : 0 < n) : IsCycle (fun i => if i ≠ 0 then i - 1 else n - 1) n := by
  apply IsCycle.of_iterate
  · intro i hi
    show (if i ≠ 0 then i - 1 else n - 1) < n
    split <;> omega
  · intro i hi
    rw [decrement_iterate hn hi n (le_refl n), if_neg (by omega)]
    omega
  · intro i d hi hpos hd heq
    rw [decrement_iterate hn hi d (le_of_lt hd)] at heq
    split at heq <;> omega

theorem CacheTarget.cache_next_isCycle (T : CacheTarget) {mask : Nat} (hn : mask + 1 = 2 ^ j) :
    IsCycle (T.cache_next · mask) (mask + 1) := by
  unfold cache_next
  cases T.CACHE_END_MARKER with
  | true =>
    exact increment_isCycle hn
  | false =>
    exact decrement_isCycle (Nat.succ_pos mask)

theorem CacheTarget.width_le (T : CacheTarget) : 16 ≤ T.MASK_BITS ∧ T.MASK_BITS ≤ 32 := by
  rcases T.widths with h | h <;> omega

theorem CacheTarget.bytes_zero_le (T : CacheTarget) : T.bytesForCapacity 0 ≤ T.EMPTY_BYTES := by
  have hroom := T.empty_room
  unfold bytesForCapacity
  split
  · show T.BUCKET_BYTES * 1 ≤ T.EMPTY_BYTES
    omega
  · exact Nat.zero_le _

/-! ## The invariant -/

namespace BucketCache

variable {T : CacheTarget} {c : BucketCache}

def Shared (c : BucketCache) (a : Nat) : Prop := a = 0 ∨ a ∈ c.emptyBucketsList

structure Inv (T : CacheTarget) (c : BucketCache) : Prop where
  shape : (c.mask = 0 ∧ c.buckets = 0) ∨ ∃ j, 2 ≤ j ∧ j < T.MASK_BITS ∧ c.mask + 1 = 2 ^ j
  live : ∀ a, a = c.buckets ∨ c.Shared a → a < c.allocated
  zero : ∀ a, c.Shared a → (c.arrays a).Zeroed
  /-- Shared buckets are recognised, so that they are not written to. -/
  shared : c.Shared c.buckets → c.isConstantEmptyCache T
  probed : Probed (T.cache_next · c.mask) (c.mask + 1) (T.cache_hash · c.mask) 0 c.bucketArray.key
  occupied_eq : c.occupied = stored (c.mask + 1) 0 c.bucketArray.key
  load : c.occupied ≤ c.capacity T / 4 * 3
  /-- What is in the buckets was inserted since the last erasure. -/
  kept : ∀ i, i < c.mask + 1 → c.bucketArray.key i ≠ 0 → c.bucketArray.key i ∈ c.inserted

theorem Inv.of_free
    (hshape : (c.mask = 0 ∧ c.buckets = 0) ∨ ∃ j, 2 ≤ j ∧ j < T.MASK_BITS ∧ c.mask + 1 = 2 ^ j)
    (hlive : ∀ a, a = c.buckets ∨ c.Shared a → a < c.allocated)
    (hzero : ∀ a, c.Shared a → (c.arrays a).Zeroed)
    (hshared : c.Shared c.buckets → c.isConstantEmptyCache T) (hocc : c.occupied = 0)
    (hfree : ∀ i, i < c.mask + 1 → c.bucketArray.key i = 0) : c.Inv T where
  shape := hshape
  live := hlive
  zero := hzero
  shared := hshared
  probed := .of_free hfree
  occupied_eq := by rw [hocc, stored_of_free hfree]
  load := by
    rw [hocc]
    exact Nat.zero_le _
  kept := fun i hi hne => absurd (hfree i hi) hne

theorem initializeToEmpty_inv (T : CacheTarget) : (initializeToEmpty T).Inv T := by
  refine .of_free (.inl ⟨rfl, rfl⟩) ?_ (fun _ _ _ => rfl) ?_ rfl fun _ _ => rfl
  · rintro a (rfl | rfl | hmem)
    · exact Nat.one_pos
    · exact Nat.one_pos
    · exact absurd hmem not_mem_nil
  intro _
  refine ⟨rfl, ?_⟩
  unfold emptyBuckets
  rw [if_pos]
  · rfl
  · exact T.bytes_zero_le

theorem Inv.isCycle (h : c.Inv T) : IsCycle (T.cache_next · c.mask) (c.mask + 1) := by
  rcases h.shape with ⟨hmask, -⟩ | ⟨j, -, -, hj⟩
  · exact T.cache_next_isCycle (j := 0) (by rw [hmask]; rfl)
  · exact T.cache_next_isCycle hj

theorem Inv.hash_lt (_ : c.Inv T) (k : Nat) : T.cache_hash k c.mask < c.mask + 1 :=
  Nat.lt_succ_of_le (T.cache_hash_le k c.mask)

theorem capacity_eq (hj : 2 ≤ j) (hw : j < T.MASK_BITS) (hmask : c.mask + 1 = 2 ^ j) :
    c.capacity T = 2 ^ j := by
  have hfour : 2 ^ 2 ≤ 2 ^ j := Nat.pow_le_pow_right (by omega) hj
  have hlt : 2 ^ j < 2 ^ T.MASK_BITS := Nat.pow_lt_pow_right (by omega) hw
  unfold capacity
  rw [if_neg (by omega), hmask, Nat.mod_eq_of_lt hlt]

variable (h : c.Inv T)
include h

theorem Inv.stored_lt : stored (c.mask + 1) 0 c.bucketArray.key < c.mask + 1 := by
  have hload := h.load
  rw [← h.occupied_eq]
  rcases h.shape with ⟨hmask, -⟩ | ⟨j, hj, hw, hpow⟩
  · have hcap : c.capacity T = 0 := if_pos hmask
    omega
  · rw [capacity_eq hj hw hpow] at hload
    omega

theorem Inv.find_present (hi : i < c.mask + 1) (hne : c.bucketArray.key i ≠ 0) :
    c.find T (c.bucketArray.key i) = .ok i := by
  unfold find
  rw [h.probed.scan_present h.isCycle hi hne (h.hash_lt _)]

theorem Inv.find_absent {k : Nat}
    (habsent : ∀ i, i < c.mask + 1 → c.bucketArray.key i ≠ k) :
    ∃ d, d < c.mask + 1 ∧ c.find T k = .ok ((T.cache_next · c.mask)^[d] (T.cache_hash k c.mask))
      ∧ c.bucketArray.key ((T.cache_next · c.mask)^[d] (T.cache_hash k c.mask)) = 0
      ∧ ∀ j, j < d →
          c.bucketArray.key ((T.cache_next · c.mask)^[j] (T.cache_hash k c.mask)) ≠ 0 := by
  obtain ⟨d, hd, hscan, hfree, hway⟩ := scan_absent (T.cache_hash · c.mask) h.isCycle
    (h.hash_lt k) habsent (exists_free h.stored_lt)
  refine ⟨d, hd, ?_, hfree, hway⟩
  unfold find
  rw [hscan]

theorem Inv.find_stops {k : Nat} (hk : k ≠ 0) :
    ∃ i, i < c.mask + 1 ∧ c.find T k = .ok i
      ∧ (c.bucketArray.key i = 0 ∨ c.bucketArray.key i = k) := by
  by_cases hin : ∃ i, i < c.mask + 1 ∧ c.bucketArray.key i = k
  · obtain ⟨i, hi, rfl⟩ := hin
    exact ⟨i, hi, h.find_present hi hk, .inr rfl⟩
  · obtain ⟨d, hd, hfind, hfree, -⟩ := h.find_absent fun i hi heq => hin ⟨i, hi, heq⟩
    exact ⟨_, h.isCycle.iterate_lt (h.hash_lt k) d, hfind, .inl hfree⟩

theorem Inv.occupied_le : c.occupied ≤ c.inserted.card := by
  rw [h.occupied_eq]
  apply card_le_card_of_injOn c.bucketArray.key
  · intro i hi
    obtain ⟨hlt, hne⟩ := Finset.mem_filter.mp hi
    exact h.kept i (Finset.mem_range.mp hlt) hne
  intro i hi j hj heq
  obtain ⟨hi, hne⟩ := Finset.mem_filter.mp hi
  obtain ⟨hj, -⟩ := Finset.mem_filter.mp hj
  exact h.probed.unique h.isCycle (Finset.mem_range.mp hi) (Finset.mem_range.mp hj) hne
    (h.hash_lt _) heq.symm

omit h

/-! ## New buckets -/

theorem allocateBuckets_key (T : CacheTarget) (id : Nat) (hw : j < T.MASK_BITS) (hi : i < 2 ^ j) :
    (T.allocateBuckets id (2 ^ j)).key i = 0 := by
  have hle : 2 ^ j ≤ 2 ^ 31 := Nat.pow_le_pow_right (by omega) (by have := T.width_le; omega)
  unfold CacheTarget.allocateBuckets
  split
  · exact allocateBuckets_free id (by omega) hi
  · rfl

structure Ready (T : CacheTarget) (c : BucketCache) : Prop where
  inv : c.Inv T
  own : ¬ c.Shared c.buckets
  room : c.occupied + 1 ≤ c.capacity T / 4 * 3

theorem reallocate_spec (h : c.Inv T) (hj : 2 ≤ j) (hw : j < T.MASK_BITS) :
    ∃ c', c.reallocate T (2 ^ j) = .ok c' ∧ Ready T c' ∧ c'.capacity T = 2 ^ j
      ∧ c'.inserted = c.inserted := by
  have hfour : 2 ^ 2 ≤ 2 ^ j := Nat.pow_le_pow_right (by omega) hj
  have hlt : 2 ^ j < 2 ^ T.MASK_BITS := Nat.pow_lt_pow_right (by omega) hw
  refine ⟨(c.allocate (T.allocateBuckets c.allocated (2 ^ j))).setBucketsAndMask c.allocated
    (2 ^ j - 1), ?_, ?_⟩
  · unfold reallocate
    rw [if_neg]
    rintro (hzero | hover)
    · omega
    · exact hover (Nat.mod_eq_of_lt (by omega))
  -- the new array is not one of the shared ones
  have hown : ¬ c.Shared c.allocated := fun hsh =>
    lt_irrefl _ (h.live c.allocated (.inr hsh))
  have hmask : 2 ^ j - 1 + 1 = 2 ^ j := by omega
  have hcap : ((c.allocate (T.allocateBuckets c.allocated (2 ^ j))).setBucketsAndMask c.allocated
      (2 ^ j - 1)).capacity T = 2 ^ j := capacity_eq hj hw hmask
  refine ⟨⟨.of_free (.inr ⟨j, hj, hw, hmask⟩) ?_ ?_ (fun hsh => absurd hsh hown) rfl ?_, hown, ?_⟩,
    hcap, rfl⟩
  · rintro a (rfl | ha)
    · exact Nat.lt_succ_self _
    · exact Nat.lt_succ_of_lt (h.live a (.inr ha))
  · intro a ha
    have hne : a ≠ c.allocated := by
      rintro rfl
      exact hown ha
    show (update c.arrays c.allocated _ a).Zeroed
    rw [update_of_ne hne]
    exact h.zero a ha
  · intro i hi
    show (update c.arrays c.allocated _ c.allocated).key i = 0
    rw [update_self]
    exact allocateBuckets_key T _ hw (hmask ▸ hi)
  · show 0 + 1 ≤ _
    omega

theorem expandCapacity_pow (hw : j + 1 < T.MASK_BITS) : expandCapacity T (2 ^ j) = 2 ^ (j + 1) := by
  have hpos := Nat.two_pow_pos j
  have h32 : 2 ^ (j + 1) < 2 ^ 32 :=
    Nat.pow_lt_pow_right (by omega) (by have := T.width_le; omega)
  have hmask : 2 ^ (j + 1) < 2 ^ T.MASK_BITS := Nat.pow_lt_pow_right (by omega) hw
  unfold expandCapacity
  simp only [if_neg (show ¬ 2 ^ j = 0 by omega), ← Nat.pow_succ, Nat.mod_eq_of_lt h32,
    Nat.mod_eq_of_lt hmask]
  exact if_neg (not_not.mpr rfl)

theorem expandCapacity_top (h16 : T.MASK_BITS = 16) : expandCapacity T (2 ^ 15) = 2 ^ 15 := by
  unfold expandCapacity
  rw [h16]
  decide

/-- **Room for one more entry.** The capacity does not shrink. With a 32-bit mask the selectors
inserted since the last erasure must be fewer than 2^30. -/
theorem makeRoom_spec (h : c.Inv T) (hfew : T.MASK_BITS = 32 → c.inserted.card < 2 ^ 30) :
    ∃ c', c.makeRoom T = .ok c' ∧ Ready T c' ∧ c.capacity T ≤ c'.capacity T
      ∧ c'.inserted = c.inserted := by
  unfold makeRoom
  by_cases hconst : c.isConstantEmptyCache T
  · rw [if_pos hconst]
    rcases h.shape with ⟨hmask, -⟩ | ⟨j, hj, hw, hpow⟩
    · have hcap : c.capacity T = 0 := if_pos hmask
      obtain ⟨c', hre, hready, hcap', hins⟩ :=
        reallocate_spec h (le_refl 2) (by have := T.width_le; omega)
      rw [if_pos hcap, hcap]
      exact ⟨c', hre, hready, Nat.zero_le _, hins⟩
    have hcap := capacity_eq hj hw hpow
    obtain ⟨c', hre, hready, hcap', hins⟩ := reallocate_spec h hj hw
    rw [hcap, if_neg (by omega)]
    exact ⟨c', hre, hready, le_of_eq hcap'.symm, hins⟩
  rw [if_neg hconst]
  have hown : ¬ c.Shared c.buckets := fun hsh => hconst (h.shared hsh)
  by_cases hroom : c.occupied + 1 ≤ c.capacity T / 4 * 3
  · rw [if_pos hroom]
    exact ⟨c, rfl, ⟨h, hown, hroom⟩, le_refl _, rfl⟩
  rw [if_neg hroom]
  unfold expand
  rcases h.shape with ⟨-, hbuckets⟩ | ⟨j, hj, hw, hpow⟩
  · exact absurd (.inl hbuckets) hown
  have hcap := capacity_eq hj hw hpow
  rw [hcap] at hroom ⊢
  by_cases htop : j + 1 < T.MASK_BITS
  · obtain ⟨c', hre, hready, hcap', hins⟩ := reallocate_spec h (by omega : 2 ≤ j + 1) htop
    rw [expandCapacity_pow htop]
    refine ⟨c', hre, hready, ?_, hins⟩
    rw [hcap']
    exact Nat.pow_le_pow_right (by omega) (Nat.le_succ j)
  rcases T.widths with h16 | h32
  · -- the mask cannot grow: the same size again
    obtain rfl : j = 15 := by omega
    obtain ⟨c', hre, hready, hcap', hins⟩ := reallocate_spec h hj hw
    rw [expandCapacity_top h16]
    exact ⟨c', hre, hready, le_of_eq hcap'.symm, hins⟩
  -- too few selectors for three quarters of 2^31 buckets
  obtain rfl : j = 31 := by omega
  have hocc := h.occupied_le
  omega

/-! ## Filling -/

theorem insert_spec (h : Ready T c) {k : Nat} (hk : k ≠ 0) (imp : IMP) :
    ∃ c', c.insert T k imp = .ok c' ∧ c'.Inv T ∧ c'.capacity T = c.capacity T := by
  obtain ⟨hinv, hown, hroom⟩ := h
  obtain ⟨i, hi, hfind, hkey⟩ := hinv.find_stops hk
  unfold insert
  rw [hfind]
  have hprobed : Probed (T.cache_next · c.mask) (c.mask + 1) (T.cache_hash · c.mask) 0
      (update c.bucketArray.key i k)
      ∧ (if c.bucketArray.key i = 0 then c.occupied + 1 else c.occupied)
          = stored (c.mask + 1) 0 (update c.bucketArray.key i k) := by
    rcases hkey with hfree | hhit
    · -- a new selector at the first free bucket on its way
      have habsent : ∀ i', i' < c.mask + 1 → c.bucketArray.key i' ≠ k := by
        intro i' hi' heq
        have hthere := hinv.find_present hi' (by rw [heq]; exact hk)
        rw [heq] at hthere
        obtain rfl := Except.ok.inj (hthere.symm.trans hfind)
        exact hk (heq.symm.trans hfree)
      obtain ⟨d, hd, hfind', hfree', hway⟩ := hinv.find_absent habsent
      obtain rfl := Except.ok.inj (hfind'.symm.trans hfind)
      refine ⟨hinv.probed.insert hinv.isCycle hd (hinv.hash_lt k) habsent hfree' hway, ?_⟩
      rw [if_pos hfree', stored_insert hi hfree' hk, hinv.occupied_eq]
    have hsame : update c.bucketArray.key i k = c.bucketArray.key := by
      rw [← hhit]
      exact update_eq_self i _
    rw [hsame, if_neg (by rw [hhit]; exact hk)]
    exact ⟨hinv.probed, hinv.occupied_eq⟩
  refine ⟨_, rfl, ⟨hinv.shape, hinv.live, ?_, fun hsh => absurd hsh hown, ?_, ?_, ?_, ?_⟩, rfl⟩
  · intro a ha
    have hne : a ≠ c.buckets := by
      rintro rfl
      exact hown ha
    show (update c.arrays c.buckets _ a).Zeroed
    rw [update_of_ne hne]
    exact hinv.zero a ha
  · show Probed _ _ _ 0 (update c.arrays c.buckets _ c.buckets).key
    rw [update_self]
    exact hprobed.1
  · show _ = stored _ 0 (update c.arrays c.buckets _ c.buckets).key
    rw [update_self]
    exact hprobed.2
  · show (if c.bucketArray.key i = 0 then c.occupied + 1 else c.occupied) ≤ c.capacity T / 4 * 3
    split <;> omega
  intro i' hi' hne
  change (update c.arrays c.buckets _ c.buckets).key i' ≠ 0 at hne
  show (update c.arrays c.buckets _ c.buckets).key i' ∈ _
  rw [update_self] at hne ⊢
  by_cases heq : i' = i
  · subst heq
    show update c.bucketArray.key i' k i' ∈ _
    rw [update_self]
    exact mem_insert_self _ _
  change update c.bucketArray.key i k i' ≠ 0 at hne
  show update c.bucketArray.key i k i' ∈ _
  rw [update_of_ne heq] at hne ⊢
  exact mem_insert_of_mem (hinv.kept i' hi' hne)

theorem cache_fill_spec (h : c.Inv T) (hfew : T.MASK_BITS = 32 → c.inserted.card < 2 ^ 30)
    (isInitialized : Bool) (sel : Selector) (imp : IMP) :
    ∃ c', c.cache_fill_nolock T isInitialized sel imp = .ok c' ∧ c'.Inv T
      ∧ c.capacity T ≤ c'.capacity T := by
  unfold cache_fill_nolock
  cases isInitialized with
  | false => exact ⟨c, rfl, h, le_refl _⟩
  | true => ?_
  obtain ⟨i, hi, hfind, -⟩ := h.find_stops sel.2
  obtain ⟨cached, hcached⟩ : ∃ cached, c.cache_getImp T sel = .ok cached := by
    unfold cache_getImp
    rw [hfind]
    simp only
    split
    · split <;> exact ⟨_, rfl⟩
    · exact ⟨_, rfl⟩
  rw [hcached]
  simp only [Bool.not_true, Bool.false_eq_true, if_false]
  by_cases hhit : cached ≠ 0
  · rw [if_pos hhit]
    exact ⟨c, rfl, h, le_refl _⟩
  rw [if_neg hhit]
  obtain ⟨c1, hroom, hready, hle, -⟩ := makeRoom_spec h hfew
  obtain ⟨c2, hins, hinv, hcap⟩ := insert_spec hready sel.2 imp
  rw [hroom]
  exact ⟨c2, hins, hinv, le_trans hle (le_of_eq hcap.symm)⟩

/-! ## Erasing -/

/-- `c'` is `c` with perhaps one more zeroed array shared. -/
structure Shares (c c' : BucketCache) : Prop where
  buckets : c'.buckets = c.buckets
  mask : c'.mask = c.mask
  occupied : c'.occupied = c.occupied
  inserted : c'.inserted = c.inserted
  allocated : c.allocated ≤ c'.allocated
  arrays : ∀ a, a < c.allocated → c'.arrays a = c.arrays a
  listed : c.emptyBucketsList <+: c'.emptyBucketsList
  /-- What is new in the list is a new zeroed array. -/
  new : ∀ a ∈ c'.emptyBucketsList, a ∈ c.emptyBucketsList
    ∨ c.allocated ≤ a ∧ a < c'.allocated ∧ (c'.arrays a).Zeroed

theorem Shares.refl (c : BucketCache) : Shares c c :=
  ⟨rfl, rfl, rfl, rfl, le_refl _, fun _ _ => rfl, prefix_refl _, fun _ ha => .inl ha⟩

variable {c' : BucketCache}

theorem Shares.emptyBuckets (h : Shares c c') {cap a : Nat} (ha : c.emptyBuckets T cap = some a) :
    c'.emptyBuckets T cap = some a := by
  unfold BucketCache.emptyBuckets at ha ⊢
  split at ha
  next hsmall => rw [if_pos hsmall]; exact ha
  rename_i hbig
  rw [if_neg hbig]
  obtain ⟨more, hmore⟩ := h.listed
  obtain ⟨hlt, -⟩ := List.getElem?_eq_some_iff.mp ha
  rw [← hmore, getElem?_append_left hlt]
  exact ha

theorem Shares.shared (h : Shares c c') {a : Nat} (hlt : a < c.allocated) (ha : c'.Shared a) :
    c.Shared a := by
  rcases ha with rfl | ha
  · exact .inl rfl
  rcases h.new a ha with hold | ⟨hge, -⟩
  · exact .inr hold
  · omega

theorem Shares.inv (hs : Shares c c') (h : c.Inv T) : c'.Inv T := by
  have hlt : c.buckets < c.allocated := h.live _ (.inl rfl)
  have harray : c'.bucketArray = c.bucketArray := by
    unfold bucketArray
    rw [hs.buckets, hs.arrays _ hlt]
  have hcap : c'.capacity T = c.capacity T := by
    unfold capacity
    rw [hs.mask]
  have hnew : ∀ a, c'.Shared a → c.Shared a
      ∨ c.allocated ≤ a ∧ a < c'.allocated ∧ (c'.arrays a).Zeroed := by
    rintro a (rfl | ha)
    · exact .inl (.inl rfl)
    rcases hs.new a ha with hold | hnew
    · exact .inl (.inr hold)
    · exact .inr hnew
  refine ⟨?_, ?_, ?_, ?_, ?_, ?_, ?_, ?_⟩
  · rw [hs.mask, hs.buckets]
    exact h.shape
  · intro a ha
    have hle := hs.allocated
    rcases ha with rfl | ha
    · rw [hs.buckets]
      omega
    rcases hnew a ha with hold | ⟨-, hlt', -⟩
    · have hlt' := h.live a (.inr hold)
      omega
    · exact hlt'
  · intro a ha
    rcases hnew a ha with hold | ⟨-, -, hzero⟩
    · rw [hs.arrays a (h.live a (.inr hold))]
      exact h.zero a hold
    · exact hzero
  · intro hsh
    rw [hs.buckets] at hsh
    obtain ⟨hocc, hempty⟩ := h.shared (hs.shared hlt hsh)
    refine ⟨by rw [hs.occupied, hocc], ?_⟩
    rw [hcap, hs.buckets]
    exact hs.emptyBuckets hempty
  · rw [hs.mask, harray]
    exact h.probed
  · rw [hs.occupied, hs.mask, harray]
    exact h.occupied_eq
  · rw [hs.occupied, hcap]
    exact h.load
  intro i hi hne
  rw [hs.mask] at hi
  rw [harray] at hne ⊢
  rw [hs.inserted]
  exact h.kept i hi hne

theorem emptyBucketsForCapacity_spec (T : CacheTarget) (c : BucketCache) (cap : Nat) :
    Shares c (c.emptyBucketsForCapacity T cap).2
      ∧ (c.emptyBucketsForCapacity T cap).2.emptyBuckets T cap
          = some (c.emptyBucketsForCapacity T cap).1 := by
  unfold emptyBucketsForCapacity
  cases hempty : c.emptyBuckets T cap with
  | some a => exact ⟨Shares.refl c, hempty⟩
  | none => ?_
  have hbig : ¬ T.bytesForCapacity cap ≤ T.EMPTY_BYTES := by
    intro hsmall
    unfold emptyBuckets at hempty
    rw [if_pos hsmall] at hempty
    cases hempty
  have hlen : c.emptyBucketsList.length ≤ Nat.log2 cap := by
    unfold emptyBuckets at hempty
    rw [if_neg hbig] at hempty
    exact getElem?_eq_none_iff.mp hempty
  constructor
  · refine ⟨rfl, rfl, rfl, rfl, Nat.le_succ _, ?_, prefix_append _ _, ?_⟩
    · intro a ha
      exact update_of_ne (ne_of_lt ha) _ _
    intro a ha
    rcases mem_append.mp ha with ha | ha
    · exact .inl ha
    obtain ⟨-, rfl⟩ := mem_replicate.mp ha
    refine .inr ⟨le_refl _, Nat.lt_succ_self _, ?_⟩
    show BucketArray.Zeroed (update c.arrays c.allocated _ c.allocated)
    rw [update_self]
    exact fun _ => rfl
  · show (if T.bytesForCapacity cap ≤ T.EMPTY_BYTES then some 0
      else (c.emptyBucketsList ++ replicate
        (Nat.log2 cap + 1 - c.emptyBucketsList.length) c.allocated)[Nat.log2 cap]?) = _
    rw [if_neg hbig, getElem?_append_right hlen, getElem?_replicate, if_pos (by omega)]

include h

theorem cache_erase_spec :
    (c.cache_erase_nolock T).Inv T ∧ (c.cache_erase_nolock T).capacity T = c.capacity T := by
  unfold cache_erase_nolock
  by_cases hsome : 0 < c.capacity T ∧ 0 < c.occupied
  · rw [if_pos hsome]
    obtain ⟨hshares, hempty⟩ := emptyBucketsForCapacity_spec T c (c.capacity T)
    have hinv := hshares.inv h
    generalize (c.emptyBucketsForCapacity T (c.capacity T)).2 = c1 at hshares hempty hinv ⊢
    generalize (c.emptyBucketsForCapacity T (c.capacity T)).1 = a at hempty ⊢
    have hmask : c.capacity T - 1 = c.mask := by
      rcases h.shape with ⟨hmask, -⟩ | ⟨j, hj, hw, hpow⟩
      · have hcap : c.capacity T = 0 := if_pos hmask
        omega
      · rw [capacity_eq hj hw hpow]
        omega
    have hsh : c1.Shared a := by
      unfold emptyBuckets at hempty
      split at hempty
      · exact .inl (Option.some.inj hempty).symm
      · exact .inr (mem_of_getElem? hempty)
    rw [hmask]
    refine ⟨.of_free ?_ ?_ hinv.zero (fun _ => ⟨rfl, hempty⟩) rfl fun i _ => hinv.zero a hsh i, rfl⟩
    · rcases h.shape with ⟨hzero, -⟩ | hpow
      · have hcap0 : c.capacity T = 0 := if_pos hzero
        omega
      · exact .inr hpow
    · rintro b (rfl | hb)
      · exact hinv.live _ (.inr hsh)
      · exact hinv.live b (.inr hb)
  rw [if_neg hsome]
  -- nothing is occupied, so nothing had to be inserted
  have hocc : c.occupied = 0 := by
    by_contra hne
    have hload := h.load
    omega
  have hnone : ∀ i, i < c.mask + 1 → c.bucketArray.key i = 0 := by
    intro i hi
    by_contra hne
    have hcount := h.occupied_eq
    rw [hocc] at hcount
    have hempty := card_eq_zero.mp hcount.symm
    have hmem : i ∈ (Finset.range (c.mask + 1)).filter fun i => c.bucketArray.key i ≠ 0 :=
      Finset.mem_filter.mpr ⟨Finset.mem_range.mpr hi, hne⟩
    rw [hempty] at hmem
    exact absurd hmem (notMem_empty i)
  exact ⟨{ h with kept := fun i hi hne => absurd (hnone i hi) hne }, rfl⟩

/-! ## Runs -/

theorem step_spec (hfew : T.MASK_BITS = 32 → c.inserted.card < 2 ^ 30)
    (call : CacheCall) :
    ∃ c', c.step T call = .ok c' ∧ c'.Inv T ∧ c.capacity T ≤ c'.capacity T := by
  cases call with
  | fill isInitialized sel imp => exact cache_fill_spec h hfew isInitialized sel imp
  | erase =>
    obtain ⟨hinv, hcap⟩ := cache_erase_spec h
    exact ⟨_, rfl, hinv, le_of_eq hcap.symm⟩
  | eraseOther capacity => ?_
  obtain ⟨hshares, -⟩ := emptyBucketsForCapacity_spec T c capacity
  refine ⟨_, rfl, hshares.inv h, le_of_eq ?_⟩
  unfold BucketCache.capacity
  rw [hshares.mask]

omit h

/-- With a 32-bit mask, fewer than 2^30 selectors are inserted between two erasures: this holds in
every state of the run. -/
def FewInserted (T : CacheTarget) (c : BucketCache) (calls : List CacheCall) : Prop :=
  T.MASK_BITS = 32 → ∀ before c', before <+: calls → run T c before = .ok c' →
    c'.inserted.card < 2 ^ 30

theorem FewInserted.step {calls : List CacheCall} {call : CacheCall}
    (h : FewInserted T c (call :: calls)) (hstep : c.step T call = .ok c') :
    FewInserted T c' calls := by
  intro h32 before c'' hpre hrun
  refine h h32 (call :: before) c'' (cons_prefix_cons.mpr ⟨rfl, hpre⟩) ?_
  rw [run, hstep]
  exact hrun

theorem reallocate_inserted {cap : Nat} (h : c.reallocate T cap = .ok c') :
    c'.inserted = c.inserted := by
  unfold reallocate at h
  split at h
  · cases h
  · cases h
    rfl

theorem makeRoom_inserted (h : c.makeRoom T = .ok c') : c'.inserted = c.inserted := by
  unfold makeRoom at h
  split at h
  · exact reallocate_inserted h
  split at h
  · cases h
    rfl
  · exact reallocate_inserted h

theorem step_inserted {call : CacheCall} (h : c.step T call = .ok c') :
    c'.inserted.card ≤ c.inserted.card + 1 := by
  cases call with
  | fill isInitialized sel imp =>
    change c.cache_fill_nolock T isInitialized sel imp = .ok c' at h
    unfold cache_fill_nolock at h
    split at h
    · cases h
      exact Nat.le_succ _
    split at h
    · cases h
    split at h
    · cases h
      exact Nat.le_succ _
    split at h
    · cases h
    next c1 hroom =>
      unfold insert at h
      split at h
      · cases h
      cases h
      rw [← makeRoom_inserted hroom]
      exact card_insert_le _ _
  | erase =>
    cases h
    unfold cache_erase_nolock
    split <;> exact Nat.zero_le _
  | eraseOther capacity =>
    cases h
    rw [(emptyBucketsForCapacity_spec T c capacity).1.inserted]
    exact Nat.le_succ _

theorem run_inserted (calls : List CacheCall) : ∀ {c c' : BucketCache}, run T c calls = .ok c' →
    c'.inserted.card ≤ c.inserted.card + calls.length := by
  induction calls with
  | nil =>
    intro c c' h
    cases h
    exact le_refl _
  | cons call calls ih => ?_
  intro c c' h
  rw [run] at h
  cases hstep : c.step T call with
  | error e => rw [hstep] at h; cases h
  | ok c1 => ?_
  rw [hstep] at h
  have hone := step_inserted hstep
  have hrest := ih h
  rw [length_cons]
  omega

theorem FewInserted.of_length {calls : List CacheCall} (hlen : calls.length < 2 ^ 30) :
    FewInserted T (initializeToEmpty T) calls := by
  intro _ before c' hpre hrun
  have hcard : c'.inserted.card ≤ 0 + before.length := run_inserted before hrun
  have hle := hpre.length_le
  omega

theorem run_spec (calls : List CacheCall) : ∀ {c : BucketCache}, c.Inv T → FewInserted T c calls →
    ∃ c', run T c calls = .ok c' ∧ c'.Inv T ∧ c.capacity T ≤ c'.capacity T := by
  induction calls with
  | nil => intro c h _; exact ⟨c, rfl, h, le_refl _⟩
  | cons call calls ih => ?_
  intro c h hfew
  have hnow : T.MASK_BITS = 32 → c.inserted.card < 2 ^ 30 := fun h32 =>
    hfew h32 [] c nil_prefix rfl
  obtain ⟨c1, hstep, hinv, hle⟩ := step_spec h hnow call
  obtain ⟨c2, hrun, hinv2, hle2⟩ := ih hinv (hfew.step hstep)
  refine ⟨c2, ?_, hinv2, le_trans hle hle2⟩
  rw [run, hstep]
  exact hrun

theorem run_append (calls calls' : List CacheCall) : ∀ c : BucketCache, run T c (calls ++ calls')
      = (match run T c calls with
          | .error e => .error e
          | .ok c' => run T c' calls') := by
  induction calls with
  | nil => intro c; rfl
  | cons call calls ih => ?_
  intro c
  rw [cons_append, run, run]
  cases c.step T call with
  | error e => rfl
  | ok c' => exact ih c'

/-- The shape of the cache, its counters, and what `find` returns. -/
structure Sound (T : CacheTarget) (c : BucketCache) : Prop where
  capacity_shape : c.capacity T = 0 ∨ ∃ j, 2 ≤ j ∧ c.capacity T = 2 ^ j
  capacity_top : T.MASK_BITS = 16 → c.capacity T ≤ 2 ^ 15
  occupied_eq : c.occupied
    = ((Finset.range (c.capacity T)).filter fun i => c.bucketArray.key i ≠ 0).card
  load : 4 * c.occupied ≤ 3 * c.capacity T
  one_bucket : ∀ i j, i < c.capacity T → j < c.capacity T → c.bucketArray.key i ≠ 0 →
    c.bucketArray.key j = c.bucketArray.key i → i = j
  found : ∀ i, i < c.capacity T → c.bucketArray.key i ≠ 0 →
    c.find T (c.bucketArray.key i) = .ok i
  stops : ∀ k, k ≠ 0 → ∃ i, i ≤ c.mask ∧ c.find T k = .ok i
    ∧ (c.bucketArray.key i = 0 ∨ c.bucketArray.key i = k)

theorem Inv.sound (h : c.Inv T) : c.Sound T := by
  have hbuckets : c.capacity T = 0 ∧ c.occupied = 0 ∨ c.capacity T = c.mask + 1 := by
    rcases h.shape with ⟨hmask, -⟩ | ⟨j, hj, hw, hpow⟩
    · have hcap : c.capacity T = 0 := if_pos hmask
      have hload := h.load
      exact .inl ⟨hcap, by omega⟩
    · exact .inr ((capacity_eq hj hw hpow).trans hpow.symm)
  have hlt : ∀ {i}, i < c.capacity T → i < c.mask + 1 := by
    intro i hi
    rcases hbuckets with ⟨hcap, -⟩ | hcap <;> omega
  refine ⟨?_, ?_, ?_, ?_, ?_, ?_, ?_⟩
  · rcases h.shape with ⟨hmask, -⟩ | ⟨j, hj, hw, hpow⟩
    · exact .inl (if_pos hmask)
    · exact .inr ⟨j, hj, capacity_eq hj hw hpow⟩
  · intro h16
    rcases h.shape with ⟨hmask, -⟩ | ⟨j, hj, hw, hpow⟩
    · omega
    · rw [capacity_eq hj hw hpow]
      exact Nat.pow_le_pow_right (by omega) (by omega)
  · rcases hbuckets with ⟨hcap, hocc⟩ | hcap
    · rw [hocc, hcap]
      rfl
    · rw [hcap]
      exact h.occupied_eq
  · have hload := h.load
    omega
  · intro i j hi hj hne heq
    exact h.probed.unique h.isCycle (hlt hi) (hlt hj) hne (h.hash_lt _) heq
  · intro i hi hne
    exact h.find_present (hlt hi) hne
  intro k hk
  obtain ⟨i, hi, hfind, hkey⟩ := h.find_stops hk
  exact ⟨i, Nat.le_of_lt_succ hi, hfind, hkey⟩

end BucketCache

open BucketCache

/-- **THE METHOD CACHE IS SOUND.**  After any sequence of fills and erasures (of this cache, and of
others that share empty buckets with it), on any target and for any hash, with fewer than 2^30
selectors inserted between erasures if the mask has 32 bits: the calls return, so `bad_cache` is
not reached; the cache is sound; and its capacity is not less than after any part of the
sequence. -/
theorem method_cache_is_sound (T : CacheTarget) (calls : List CacheCall)
    (hfew : FewInserted T (initializeToEmpty T) calls) :
    ∃ c, run T (initializeToEmpty T) calls = .ok c ∧ c.Sound T
      ∧ ∀ before c₀, before <+: calls → run T (initializeToEmpty T) before = .ok c₀ →
          c₀.Sound T ∧ c₀.capacity T ≤ c.capacity T := by
  have hstart := initializeToEmpty_inv T
  obtain ⟨c, hrun, hinv, -⟩ := run_spec calls hstart hfew
  refine ⟨c, hrun, hinv.sound, ?_⟩
  rintro before c₀ ⟨rest, rfl⟩ hrun0
  have hpart : FewInserted T (initializeToEmpty T) before := fun h32 b c' hpre =>
    hfew h32 b c' (hpre.trans (prefix_append before rest))
  obtain ⟨c1, hrun1, hinv1, -⟩ := run_spec before hstart hpart
  obtain rfl := Except.ok.inj (hrun1.symm.trans hrun0)
  -- the rest of the run starts where this part ends
  have hrest : FewInserted T c1 rest := by
    intro h32 b c' hpre hrunb
    refine hfew h32 (before ++ b) c' ((prefix_append_right_inj before).mpr hpre) ?_
    rw [run_append, hrun1]
    exact hrunb
  obtain ⟨c2, hrun2, -, hle⟩ := run_spec rest hinv1 hrest
  rw [run_append, hrun1] at hrun
  obtain rfl := Except.ok.inj (hrun2.symm.trans hrun)
  exact ⟨hinv1.sound, hle⟩

/-- x86_64: a 32-bit mask, an end marker, buckets of 16 bytes, and the key as its own hash. -/
def CacheTarget.x86_64 : CacheTarget where
  MASK_BITS := 32
  widths := .inr rfl
  CACHE_END_MARKER := true
  BUCKET_BYTES := 16
  EMPTY_BYTES := (1024 + 1) * 16
  empty_room := by decide
  cache_hash key mask := key &&& mask
  cache_hash_le := fun _ _ => Nat.and_le_right

/-- Five fills, which expand the cache once, and an erasure; before it the last selector is found. -/
def fiveFills : List CacheCall :=
  (List.range 5).map (fun i => .fill true ⟨16 * i + 16, Nat.succ_ne_zero _⟩ 7) ++ [.erase]

theorem five_fills_are_sound :
    (∃ c, run .x86_64 (initializeToEmpty .x86_64) fiveFills = .ok c ∧ c.Sound .x86_64
      ∧ ∀ before c₀, before <+: fiveFills →
          run .x86_64 (initializeToEmpty .x86_64) before = .ok c₀ →
          c₀.Sound .x86_64 ∧ c₀.capacity .x86_64 ≤ c.capacity .x86_64)
      ∧ ((run .x86_64 (initializeToEmpty .x86_64) (fiveFills.take 5)).bind
          fun c => c.cache_getImp .x86_64 80) = .ok 7 :=
  ⟨method_cache_is_sound .x86_64 fiveFills (.of_length (by decide)), rfl⟩

end ObjcRuntime
