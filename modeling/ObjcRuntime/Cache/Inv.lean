/-
WHAT READERS WITHOUT LOCKS CAN RELY ON.

Keys are written once, arrays keep their size and their end marker, masks only
grow, and the mask never reaches past the buckets (`CacheEvolves`,
`CacheState.Inv.room`). A reader that has loaded the mask first stays inside
whatever array it loads then.

* `CacheEvolves.reader`: a reader is right in every later state,
* `CacheState.Inv.fill`, `.erase`, `.store`, `.load`: each step keeps the
  invariant, but for a fill that expands a cache of `2 ^ 31` buckets.
-/
import ObjcRuntime.Cache.Model

namespace ObjcRuntime

open Lib Function List Option CacheState BucketArray CacheEvent

variable {R : Type}

/-! ## Arrays and their contents -/

def BucketArray.Zeroed (b : BucketArray) : Prop := ∀ i, b.key i = 0

/-- An array of `cap` buckets and an end marker. What has a key has an implementation that was
stored for it. -/
structure BucketArray.Marked (trace : List (CacheEvent R)) (a : Nat) (b : BucketArray)
    (cap : Nat) : Prop where
  size : b.size = cap + 1
  end_key : b.key cap = 1
  end_imp : b.imp cap = .firstBucket a
  entry : ∀ i, i < cap → b.key i = 0 ∨ 1 < b.key i ∧
    ∃ imp, b.imp i = .function imp ∧ CacheEvent.stored (b.key i, imp) ∈ trace

variable {trace : List (CacheEvent R)} {a cap : Nat} {b : BucketArray}

theorem BucketArray.Marked.mono {trace' : List (CacheEvent R)} (h : b.Marked trace a cap)
    (hsub : ∀ e ∈ trace, e ∈ trace') :
    b.Marked trace' a cap := by
  refine ⟨h.size, h.end_key, h.end_imp, fun i hi => ?_⟩
  rcases h.entry i hi with hzero | ⟨hkey, imp, himp, hmem⟩
  · exact .inl hzero
  · exact .inr ⟨hkey, imp, himp, hsub _ hmem⟩

variable {i : Nat}

theorem BucketArray.Marked.eq_end (h : b.Marked trace a cap) (hi : i ≤ cap) (hkey : b.key i = 1) :
    i = cap := by
  by_contra hne
  rcases h.entry i (Nat.lt_of_le_of_ne hi hne) with hzero | ⟨hlt, _⟩ <;> omega

theorem BucketArray.Marked.not_zeroed (h : b.Marked trace a cap) : ¬ b.Zeroed := by
  intro hzero
  have hend := h.end_key
  rw [hzero cap] at hend
  cases hend

theorem allocateBuckets_free (id : Nat) (hcap : cap + 1 < 2 ^ 32) (hi : i < cap) :
    (allocateBuckets id cap).key i = 0 := by
  have hsize : bucketsForCapacity cap = cap + 1 := Nat.mod_eq_of_lt hcap
  show (update (fun _ => 0) (bucketsForCapacity cap - 1) 1 : Nat → Nat) i = 0
  rw [hsize, Nat.add_sub_cancel, update_of_ne (ne_of_lt hi)]

theorem allocateBuckets_marked (trace : List (CacheEvent R)) (id : Nat) (hcap : cap + 1 < 2 ^ 32) :
    (allocateBuckets id cap).Marked trace id cap := by
  have hsize : bucketsForCapacity cap = cap + 1 := Nat.mod_eq_of_lt hcap
  refine ⟨hsize, ?_, ?_, fun i hi => .inl (allocateBuckets_free id hcap hi)⟩
  · show (update (fun _ => 0) (bucketsForCapacity cap - 1) 1 : Nat → Nat) cap = 1
    rw [hsize, Nat.add_sub_cancel, update_self]
  show (update (fun _ => .function 0) (bucketsForCapacity cap - 1) (.firstBucket id) :
    Nat → BucketImp) cap = _
  rw [hsize, Nat.add_sub_cancel, update_self]

/-- The capacities that a cache has: powers of 2 from `INIT_CACHE_SIZE` on. -/
def IsCapacity (c : Nat) : Prop := ∃ k, 2 ≤ k ∧ k ≤ 31 ∧ c = 2 ^ k

variable {c : Nat}

theorem IsCapacity.bounds (h : IsCapacity c) : 4 ≤ c ∧ c ≤ 2 ^ 31 := by
  obtain ⟨k, hk, hk', rfl⟩ := h
  have hpos : 0 < 2 := Nat.succ_pos 1
  exact ⟨Nat.pow_le_pow_right hpos hk, Nat.pow_le_pow_right hpos hk'⟩

theorem IsCapacity.pow_log2 (h : IsCapacity c) : 2 ^ Nat.log2 c = c := by
  obtain ⟨k, _, _, rfl⟩ := h
  rw [Nat.log2_two_pow]

theorem IsCapacity.expand (h : IsCapacity c) (hne : c ≠ 2 ^ 31) :
    CacheState.expandCapacity c = 2 * c ∧ IsCapacity (2 * c) := by
  obtain ⟨h1, h2⟩ := h.bounds
  obtain ⟨k, hk, hk', rfl⟩ := h
  have hlt : k ≠ 31 := by
    rintro rfl
    exact hne rfl
  have hcap : IsCapacity (2 * 2 ^ k) :=
    ⟨k + 1, by omega, by omega, by rw [Nat.pow_succ, mul_comm]⟩
  refine ⟨?_, hcap⟩
  have hmod : 2 ^ k * 2 % 2 ^ 32 = 2 * 2 ^ k := by
    rw [Nat.mod_eq_of_lt (by omega), mul_comm]
  have hmod' : 2 * 2 ^ k % 2 ^ 32 = 2 * 2 ^ k := Nat.mod_eq_of_lt (by omega)
  rw [expandCapacity]
  simp only [hmod, hmod', if_neg (show ¬ 2 ^ k = 0 by omega)]
  exact if_neg (not_not.mpr rfl)

/-! ## The invariant -/

namespace CacheState

/-- An index up to `m` is a bucket of the array, and the scan from it ends there. -/
def Room (s : CacheState R) (a m : Nat) : Prop :=
  a < s.allocated ∧ ((s.arrays a).Zeroed ∧ m < (s.arrays a).size ∨
    ∃ cap, (s.arrays a).Marked s.trace a cap ∧ m ≤ cap)

structure ScanOK (s : CacheState R) (scan : Scan) : Prop where
  sel : 1 < scan.sel
  wraps : scan.wraps = scan.second.toNat
  room : s.Room scan.array scan.index

def ReaderOK (s : CacheState R) : ReaderPC → Prop
  | .idle => True
  | .loadBuckets sel mask => 1 < sel ∧ mask ≤ s.mask
  | .compare scan => s.ScanOK scan
  | .checkEnd scan => s.ScanOK scan
  | .wrap scan => s.ScanOK scan ∧ scan.second = false ∧ (s.arrays scan.array).key scan.index = 1
  | .hit scan => s.ScanOK scan ∧ (s.arrays scan.array).key scan.index = scan.sel

def Ready (s : CacheState R) (a m : Nat) : Option Entry → Prop
  | none => s.emptyBuckets (m + 1) = some a
  | some entry => 1 < entry.1 ∧ (s.arrays a).Marked s.trace a (m + 1)

def WriterOK (s : CacheState R) : WriterPC → Prop
  | .idle => s.isConstantEmptyCache ∨
      IsCapacity (s.mask + 1) ∧ s.bucketArray.Marked s.trace s.buckets (s.mask + 1)
  | .storeBuckets a m entry => s.mask ≤ m ∧ IsCapacity (m + 1) ∧ s.Room a m ∧ s.Ready a m entry
  | .storeMask m entry =>
    s.mask ≤ m ∧ IsCapacity (m + 1) ∧ s.Room s.buckets m ∧ s.Ready s.buckets m entry
  | .storeImp i entry => 1 < entry.1 ∧ i ≤ s.mask ∧ IsCapacity (s.mask + 1) ∧
      s.bucketArray.Marked s.trace s.buckets (s.mask + 1) ∧
      (s.bucketArray.key i = 0 ∨ s.bucketArray.key i = entry.1)
  | .storeKey i entry => 1 < entry.1 ∧ i ≤ s.mask ∧ IsCapacity (s.mask + 1) ∧
      s.bucketArray.Marked s.trace s.buckets (s.mask + 1) ∧ s.bucketArray.key i = 0 ∧
      s.bucketArray.imp i = .function entry.2 ∧ CacheEvent.stored entry ∈ s.trace

def Justified (trace : List (CacheEvent R)) : Prop :=
  ∀ before after r sel imp, trace = before ++ .dispatched r sel imp :: after →
    CacheEvent.stored (sel, imp) ∈ before

structure ArraysOK (s : CacheState R) : Prop where
  empty : 0 < s.allocated ∧ (s.arrays 0).Zeroed ∧ (s.arrays 0).size = EMPTY_BUCKETS
  list : ∀ i a, s.emptyBucketsList[i]? = some a →
    a < s.allocated ∧ (s.arrays a).Zeroed ∧ 2 ^ i < (s.arrays a).size

/-- **The invariant.** -/
structure Inv (s : CacheState R) : Prop where
  arrays : s.ArraysOK
  mask : s.mask = 0 ∨ IsCapacity (s.mask + 1)
  room : s.Room s.buckets s.mask
  writer : s.WriterOK s.writer
  readers : ∀ r, s.ReaderOK (s.reader r)
  trace : Justified s.trace

end CacheState

/-! ## What every step leaves to the readers -/

structure CacheEvolves (s s' : CacheState R) : Prop where
  allocated : s.allocated ≤ s'.allocated
  mask : s.mask ≤ s'.mask
  size : ∀ a, a < s.allocated → (s'.arrays a).size = (s.arrays a).size
  zeroed : ∀ a, a < s.allocated → (s.arrays a).Zeroed → (s'.arrays a).Zeroed
  marked : ∀ a, a < s.allocated → ∀ cap, (s.arrays a).Marked s.trace a cap →
    (s'.arrays a).Marked s'.trace a cap
  key : ∀ a, a < s.allocated → ∀ i, (s.arrays a).key i ≠ 0 → (s'.arrays a).key i = (s.arrays a).key i

namespace CacheEvolves

variable {s s' : CacheState R}

theorem of_arrays (s s' : CacheState R) (harrays : ∀ a, a < s.allocated → s'.arrays a = s.arrays a)
    (hallocated : s.allocated ≤ s'.allocated) (hmask : s.mask ≤ s'.mask)
    (htrace : ∀ e ∈ s.trace, e ∈ s'.trace) : CacheEvolves s s' where
  allocated := hallocated
  mask := hmask
  size := fun a ha => by rw [harrays a ha]
  zeroed := fun a ha h => by rw [harrays a ha]; exact h
  marked := fun a ha cap h => by rw [harrays a ha]; exact h.mono htrace
  key := fun a ha i _ => by rw [harrays a ha]

variable (h : CacheEvolves s s')
include h

theorem withWriter (pc : WriterPC) :
    CacheEvolves s { s' with writer := pc } :=
  { h with }

theorem room {m : Nat} (hroom : s.Room a m) : s'.Room a m := by
  obtain ⟨ha, hroom⟩ := hroom
  refine ⟨lt_of_lt_of_le ha h.allocated, ?_⟩
  rcases hroom with ⟨hzero, hlt⟩ | ⟨cap, hmarked, hle⟩
  · exact .inl ⟨h.zeroed a ha hzero, by rw [h.size a ha]; exact hlt⟩
  · exact .inr ⟨cap, h.marked a ha cap hmarked, hle⟩

theorem scan {scan : Scan} (hscan : s.ScanOK scan) : s'.ScanOK scan :=
  ⟨hscan.sel, hscan.wraps, h.room hscan.room⟩

variable {pc : ReaderPC}

theorem reader (hpc : s.ReaderOK pc) : s'.ReaderOK pc := by
  cases pc with
  | idle => trivial
  | loadBuckets sel mask => exact ⟨hpc.1, le_trans hpc.2 h.mask⟩
  | compare scan | checkEnd scan => exact h.scan hpc
  | wrap scan =>
    obtain ⟨hscan, hsecond, hkey⟩ := hpc
    refine ⟨h.scan hscan, hsecond, ?_⟩
    rw [h.key _ hscan.room.1 _ (by rw [hkey]; decide), hkey]
  | hit scan => ?_
  obtain ⟨hscan, hkey⟩ := hpc
  have hne : (s.arrays scan.array).key scan.index ≠ 0 := by
    rw [hkey]
    exact Nat.ne_of_gt (lt_trans Nat.zero_lt_one hscan.sel)
  refine ⟨h.scan hscan, ?_⟩
  rw [h.key _ hscan.room.1 _ hne, hkey]

theorem arraysOK (hs : s.ArraysOK)
    (hlist : s'.emptyBucketsList = s.emptyBucketsList) : s'.ArraysOK := by
  obtain ⟨⟨hpos, hzero, hsize⟩, hentries⟩ := hs
  refine ⟨⟨lt_of_lt_of_le hpos h.allocated, h.zeroed 0 hpos hzero,
    by rw [h.size 0 hpos, hsize]⟩, fun i a ha => ?_⟩
  rw [hlist] at ha
  obtain ⟨hlt, hz, hs⟩ := hentries i a ha
  exact ⟨lt_of_lt_of_le hlt h.allocated, h.zeroed a hlt hz, by rw [h.size a hlt]; exact hs⟩

end CacheEvolves

namespace CacheState

variable {s s' : CacheState R}

theorem Justified.append (h : Justified trace) {e : CacheEvent R}
    (he : ∀ r sel imp, e = .dispatched r sel imp → CacheEvent.stored (sel, imp) ∈ trace) :
    Justified (trace ++ [e]) := by
  intro before after r sel imp heq
  rcases eq_nil_or_concat after with rfl | ⟨after', last, rfl⟩
  · -- the last event
    obtain ⟨hbefore, hlast⟩ := append_inj' heq rfl
    rw [← hbefore]
    exact he r sel imp (cons.inj hlast).1
  have heq' : trace ++ [e] = (before ++ .dispatched r sel imp :: after') ++ [last] := by
    rw [heq]
    simp
  exact h before after' r sel imp (append_inj' heq' rfl).1

theorem length_keys (s : CacheState R) : s.keys.length = s.mask + 1 := by
  rw [keys, length_map, length_range]

theorem getD_keys (hi : i ≤ s.mask) : s.keys.getD i none = some (s.bucketArray.key i) := by
  rw [keys, getD_eq_getElem?_getD, getElem?_map, getElem?_range (Nat.lt_succ_of_le hi)]
  rfl

theorem find_some {k : Nat} (h : s.find k = some i) :
    i ≤ s.mask ∧ (s.bucketArray.key i = 0 ∨ s.bucketArray.key i = k) := by
  obtain ⟨⟨j, d⟩, hprobe, rfl⟩ := map_eq_some_iff.mp h
  have hbegin : k &&& s.mask ≤ s.mask := Nat.and_le_right
  obtain ⟨hlt, hstop⟩ := probe_some hprobe (by rw [length_keys]; omega)
  rw [length_keys] at hlt
  have hle := Nat.le_of_lt_succ hlt
  refine ⟨hle, ?_⟩
  rw [getD_keys hle, findStops, decide_eq_true_eq, some_inj, some_inj] at hstop
  exact hstop

variable (h : s.Inv)
include h

theorem Inv.capacity_eq (hne : s.mask ≠ 0) : s.capacity = s.mask + 1 := by
  have hcap := (h.mask.resolve_left hne).bounds
  rw [capacity, if_neg hne, Nat.mod_eq_of_lt (by omega)]

/-! ## The writer's steps -/

theorem Inv.advance (hev : CacheEvolves s s') (hreader : s'.reader = s.reader)
    (harrays : s'.ArraysOK) (hmask : s'.mask = 0 ∨ IsCapacity (s'.mask + 1))
    (hroom : s'.Room s'.buckets s'.mask) (hwriter : s'.WriterOK s'.writer)
    (htrace : Justified s'.trace) : s'.Inv :=
  ⟨harrays, hmask, hroom, hwriter, fun r => by rw [hreader]; exact hev.reader (h.readers r), htrace⟩

variable {entry : Entry}

theorem Inv.insert (hsel : 1 < entry.1) (hcap : IsCapacity (s.mask + 1))
    (hmarked : s.bucketArray.Marked s.trace s.buckets (s.mask + 1))
    (hstep : s.insert entry = some s') : s'.Inv := by
  rw [CacheState.insert] at hstep
  cases hfind : s.find entry.1 with
  | none => rw [hfind] at hstep; cases hstep
  | some i => ?_
  rw [hfind] at hstep
  obtain ⟨hi, hkey⟩ := find_some hfind
  cases hstep
  have hev := CacheEvolves.of_arrays s { s with
    occupied := if s.bucketArray.key i = 0 then s.occupied + 1 else s.occupied
    writer := .storeImp i entry } (fun _ _ => rfl) (le_refl _) (le_refl _) fun _ => id
  exact h.advance hev rfl (hev.arraysOK h.arrays rfl) h.mask (hev.room h.room)
    ⟨hsel, hi, hcap, hmarked, hkey⟩ h.trace

theorem Inv.reallocate {newCapacity : Nat} (hsel : 1 < entry.1)
    (hcap : IsCapacity newCapacity) (hle : s.mask + 1 ≤ newCapacity) :
    (s.reallocate newCapacity entry).Inv := by
  obtain ⟨hmin, hmax⟩ := hcap.bounds
  have hmask : (newCapacity + 2 ^ 32 - 1) % 2 ^ 32 + 1 = newCapacity := by
    omega
  have hmarked : ((s.reallocate newCapacity entry).arrays s.allocated).Marked s.trace s.allocated
      newCapacity := by
    show (update s.arrays s.allocated _ s.allocated).Marked _ _ _
    rw [update_self]
    exact allocateBuckets_marked s.trace s.allocated (by omega)
  have hev : CacheEvolves s (s.reallocate newCapacity entry) :=
    .of_arrays _ _ (fun a ha => update_of_ne (ne_of_lt ha) _ _) (Nat.le_succ _)
      (le_refl _) fun _ => id
  refine h.advance hev rfl (hev.arraysOK h.arrays rfl) h.mask (hev.room h.room) ⟨?_, ?_, ?_, ?_⟩
    h.trace
  · show s.mask ≤ (newCapacity + 2 ^ 32 - 1) % 2 ^ 32
    omega
  · rw [hmask]
    exact hcap
  · exact ⟨Nat.lt_succ_self _, .inr ⟨newCapacity, hmarked, by omega⟩⟩
  refine ⟨hsel, ?_⟩
  rw [hmask]
  exact hmarked

def Overflows (s : CacheState R) (entry : Entry) : Prop :=
  s.getImp entry.1 = 0 ∧ ¬ s.isConstantEmptyCache ∧ ¬ s.occupied + 1 ≤ s.capacity / 4 * 3 ∧
    s.capacity = 2 ^ 31

theorem Inv.fill (hidle : s.writer = .idle) (hsel : 1 < entry.1)
    (hok : ¬ s.Overflows entry) (hstep : s.fill entry = some s') : s'.Inv := by
  have hsettled := h.writer
  rw [hidle] at hsettled
  rw [CacheState.fill] at hstep
  split at hstep
  next => exact some.inj hstep ▸ h
  rename_i hmiss
  split at hstep
  next =>
    rw [← some.inj hstep]
    by_cases hzero : s.mask = 0
    · rw [capacity, if_pos hzero, if_pos rfl]
      exact h.reallocate hsel ⟨2, le_refl 2, by decide, rfl⟩ (by rw [hzero]; decide)
    have hcap := h.mask.resolve_left hzero
    rw [h.capacity_eq hzero, if_neg (Nat.succ_ne_zero _)]
    exact h.reallocate hsel hcap (le_refl _)
  rename_i hconst
  obtain ⟨hcap, hmarked⟩ := hsettled.resolve_left hconst
  split at hstep
  next => exact h.insert hsel hcap hmarked hstep
  rename_i hfull
  rw [← some.inj hstep]
  have hmin := hcap.bounds.1
  have heq := h.capacity_eq (by omega)
  have hne : s.mask + 1 ≠ 2 ^ 31 := fun hmax =>
    hok ⟨not_not.mp hmiss, hconst, hfull, heq.trans hmax⟩
  obtain ⟨hexpand, hcap'⟩ := hcap.expand hne
  rw [heq, hexpand]
  exact h.reallocate hsel hcap' (by omega)

omit h

theorem ArraysOK.emptyBuckets_room (h : s.ArraysOK) (hcap : IsCapacity c)
    (ha : s.emptyBuckets c = some a) : s.Room a (c - 1) := by
  obtain ⟨hmin, hmax⟩ := hcap.bounds
  have hsize : bucketsForCapacity c = c + 1 := Nat.mod_eq_of_lt (by omega)
  rw [emptyBuckets, hsize] at ha
  obtain ⟨⟨hpos, hzero, hempty⟩, hlist⟩ := h
  split at ha
  next hsmall =>
    cases ha
    exact ⟨hpos, .inl ⟨hzero, by rw [hempty]; omega⟩⟩
  obtain ⟨hlt, hz, hs⟩ := hlist _ a ha
  rw [hcap.pow_log2] at hs
  exact ⟨hlt, .inl ⟨hz, by omega⟩⟩

theorem ArraysOK.newEmptyBuckets (h : s.ArraysOK) (hcap : IsCapacity c)
    (hnone : s.emptyBuckets c = none) {s' : CacheState R}
    (hs' : s' = (s.emptyBucketsForCapacity c).2) :
    CacheEvolves s s' ∧ s'.ArraysOK ∧ s'.emptyBuckets c = some s.allocated := by
  obtain ⟨hmin, hmax⟩ := hcap.bounds
  have hsize : bucketsForCapacity c = c + 1 := Nat.mod_eq_of_lt (by omega)
  have hlarge : ¬ bucketsForCapacity c ≤ EMPTY_BUCKETS := by
    intro hle
    rw [emptyBuckets, if_pos hle] at hnone
    cases hnone
  have hlen : s.emptyBucketsList.length ≤ Nat.log2 c := by
    rw [emptyBuckets, if_neg hlarge] at hnone
    exact getElem?_eq_none_iff.mp hnone
  rw [emptyBucketsForCapacity, hnone] at hs'
  subst hs'
  have hnew : ∀ a, a < s.allocated → update s.arrays s.allocated (zeroed (bucketsForCapacity c)) a
        = s.arrays a := fun a ha => update_of_ne (ne_of_lt ha) _ _
  have hev : CacheEvolves s { s.allocate (zeroed (bucketsForCapacity c)) with
      emptyBucketsList := s.emptyBucketsList
        ++ replicate (Nat.log2 c + 1 - s.emptyBucketsList.length) s.allocated } :=
    .of_arrays _ _ hnew (Nat.le_succ _) (le_refl _) fun _ => id
  obtain ⟨⟨hpos, hzero, hempty⟩, hlist⟩ := h
  refine ⟨hev, ⟨⟨Nat.succ_pos _, hev.zeroed 0 hpos hzero, by rw [hev.size 0 hpos, hempty]⟩,
    fun i a ha => ?_⟩, ?_⟩
  · have ha' : (s.emptyBucketsList
        ++ replicate (Nat.log2 c + 1 - s.emptyBucketsList.length) s.allocated)[i]? = some a := ha
    by_cases hi : i < s.emptyBucketsList.length
    · rw [getElem?_append_left hi] at ha'
      obtain ⟨hlt, hz, hs⟩ := hlist i a ha'
      exact ⟨Nat.lt_succ_of_lt hlt, hev.zeroed a hlt hz, by rw [hev.size a hlt]; exact hs⟩
    rw [getElem?_append_right (by omega), getElem?_replicate] at ha'
    split at ha'
    next hlt =>
      cases ha'
      refine ⟨Nat.lt_succ_self _, ?_, ?_⟩
      · show (update s.arrays s.allocated _ s.allocated).Zeroed
        rw [update_self]
        exact fun _ => rfl
      show 2 ^ i < (update s.arrays s.allocated _ s.allocated).size
      rw [update_self]
      have hpow : 2 ^ i ≤ 2 ^ Nat.log2 c := Nat.pow_le_pow_right (Nat.succ_pos 1) (by omega)
      rw [hcap.pow_log2] at hpow
      show 2 ^ i < bucketsForCapacity c
      omega
    next => cases ha'
  · show (if bucketsForCapacity c ≤ EMPTY_BUCKETS then some 0 else (s.emptyBucketsList
      ++ replicate (Nat.log2 c + 1 - s.emptyBucketsList.length) s.allocated)[Nat.log2 c]?) = _
    rw [if_neg hlarge, getElem?_append_right hlen, getElem?_replicate, if_pos (by omega)]

theorem Inv.erase (h : s.Inv) : s.erase.Inv := by
  rw [CacheState.erase]
  split
  next hne =>
    have hmask : s.mask ≠ 0 := by
      intro hzero
      rw [capacity, if_pos hzero] at hne
      exact lt_irrefl 0 hne.1
    have hcap := h.mask.resolve_left hmask
    rw [h.capacity_eq hmask, Nat.add_sub_cancel]
    cases hempty : s.emptyBuckets (s.mask + 1) with
    | some a =>
      have hroom := h.arrays.emptyBuckets_room hcap hempty
      have hsame : s.emptyBucketsForCapacity (s.mask + 1) = (a, s) := by
        rw [emptyBucketsForCapacity, hempty]
      rw [hsame]
      have hev := CacheEvolves.of_arrays s { s with
        writer := .storeBuckets a s.mask none } (fun _ _ => rfl) (le_refl _)
        (le_refl _) fun _ => id
      exact h.advance hev rfl (hev.arraysOK h.arrays rfl) h.mask (hev.room h.room)
        ⟨le_refl _, hcap, hroom, hempty⟩ h.trace
    | none => ?_
    obtain ⟨hev, harrays, hnew⟩ := h.arrays.newEmptyBuckets hcap hempty rfl
    have hroom := harrays.emptyBuckets_room hcap hnew
    rw [emptyBucketsForCapacity, hempty] at hev harrays hnew hroom ⊢
    exact h.advance (hev.withWriter _) rfl ⟨harrays.empty, harrays.list⟩ h.mask
      (hev.room h.room) ⟨le_refl _, hcap, hroom, hnew⟩ h.trace
  next => exact h

theorem Room.mono {m m' : Nat} (h : s.Room a m) (hle : m' ≤ m) : s.Room a m' := by
  obtain ⟨ha, h⟩ := h
  refine ⟨ha, ?_⟩
  rcases h with ⟨hzero, hlt⟩ | ⟨cap, hmarked, hm⟩
  · exact .inl ⟨hzero, lt_of_le_of_lt hle hlt⟩
  · exact .inr ⟨cap, hmarked, le_trans hle hm⟩

theorem CacheEvolves.of_update (s : CacheState R) (b : BucketArray) (pc : WriterPC)
    (trace : List (CacheEvent R)) (hsize : b.size = s.bucketArray.size)
    (hzeroed : s.bucketArray.Zeroed → b.Zeroed)
    (hmarked : ∀ cap, s.bucketArray.Marked s.trace s.buckets cap → b.Marked trace s.buckets cap)
    (hkey : ∀ i, s.bucketArray.key i ≠ 0 → b.key i = s.bucketArray.key i)
    (htrace : ∀ e ∈ s.trace, e ∈ trace) :
    CacheEvolves s { s with
      arrays := update s.arrays s.buckets b, writer := pc, trace := trace } := by
  have hcase : ∀ {P : BucketArray → Prop} (a : Nat), (a = s.buckets → P b) →
      (a ≠ s.buckets → P (s.arrays a)) → P (update s.arrays s.buckets b a) := by
    intro P a hself hother
    by_cases ha : a = s.buckets
    · rw [ha, update_self]
      exact hself ha
    · rw [update_of_ne ha]
      exact hother ha
  refine ⟨le_refl _, le_refl _, fun a _ => ?_, fun a _ hz => ?_, fun a _ cap hm => ?_,
    fun a _ i hne => ?_⟩
  · exact hcase (P := fun x => x.size = (s.arrays a).size) a (fun ha => by rw [ha]; exact hsize)
      fun _ => rfl
  · exact hcase (P := Zeroed) a (fun ha => hzeroed (by rw [ha] at hz; exact hz)) fun _ => hz
  · exact hcase (P := fun x => x.Marked trace a cap) a
      (fun ha => by rw [ha] at hm ⊢; exact hmarked cap hm) fun _ => hm.mono htrace
  · exact hcase (P := fun x => x.key i = (s.arrays a).key i) a
      (fun ha => by rw [ha] at hne ⊢; exact hkey i hne) fun _ => rfl

include h

theorem Inv.storeImp (hsel : 1 < entry.1) (hi : i ≤ s.mask)
    (hcap : IsCapacity (s.mask + 1))
    (hmarked : s.bucketArray.Marked s.trace s.buckets (s.mask + 1))
    (hkey : s.bucketArray.key i = 0 ∨ s.bucketArray.key i = entry.1) :
    Inv { s with
      arrays := update s.arrays s.buckets { s.bucketArray with
        imp := update s.bucketArray.imp i (.function entry.2) }
      writer := if s.bucketArray.key i ≠ entry.1 then .storeKey i entry else .idle
      trace := s.trace ++ [.stored entry] } := by
  have hsub : ∀ e ∈ s.trace, e ∈ s.trace ++ [stored entry] :=
    fun e he => mem_append_left _ he
  have hlast : stored entry ∈ s.trace ++ [stored entry] :=
    mem_append_right _ mem_cons_self
  have hsize := hmarked.size
  have hnew : ∀ cap, s.bucketArray.Marked s.trace s.buckets cap →
      Marked (s.trace ++ [.stored entry]) s.buckets { s.bucketArray with
        imp := update s.bucketArray.imp i (.function entry.2) } cap := by
    intro cap hm
    have hcap' : cap = s.mask + 1 := by
      have := hm.size
      omega
    refine ⟨hm.size, hm.end_key, ?_, fun j hj => ?_⟩
    · show update s.bucketArray.imp i _ cap = _
      rw [update_of_ne (by omega)]
      exact hm.end_imp
    by_cases hij : j = i
    · subst hij
      rcases hkey with hzero | hsame
      · exact .inl hzero
      refine .inr ⟨Nat.lt_of_lt_of_eq hsel hsame.symm, entry.2, ?_, ?_⟩
      · exact update_self j _ _
      show stored (s.bucketArray.key j, entry.2) ∈ _
      rw [hsame]
      exact hlast
    rcases (hm.mono hsub).entry j hj with hzero | ⟨hlt, imp, himp, hmem⟩
    · exact .inl hzero
    refine .inr ⟨hlt, imp, ?_, hmem⟩
    show update s.bucketArray.imp i _ j = _
    rw [update_of_ne hij]
    exact himp
  have hev := CacheEvolves.of_update s { s.bucketArray with
      imp := update s.bucketArray.imp i (.function entry.2) }
    (if s.bucketArray.key i ≠ entry.1 then .storeKey i entry else .idle)
    (s.trace ++ [.stored entry]) rfl id hnew (fun _ _ => rfl) hsub
  have hself : update s.arrays s.buckets { s.bucketArray with
      imp := update s.bucketArray.imp i (.function entry.2) } s.buckets = _ :=
    update_self _ _ _
  refine h.advance hev rfl (hev.arraysOK h.arrays rfl) h.mask (hev.room h.room) ?_
    (h.trace.append fun r sel imp heq => by cases heq)
  have hm : (update s.arrays s.buckets { s.bucketArray with
      imp := update s.bucketArray.imp i (.function entry.2) } s.buckets).Marked
      (s.trace ++ [.stored entry]) s.buckets (s.mask + 1) := by
    rw [hself]
    exact hnew _ hmarked
  show WriterOK _ (if s.bucketArray.key i ≠ entry.1 then _ else _)
  split
  next hne =>
    refine ⟨hsel, hi, hcap, hm, ?_, ?_, hlast⟩
    · show (update s.arrays s.buckets _ s.buckets).key i = 0
      rw [hself]
      exact hkey.resolve_right hne
    show (update s.arrays s.buckets _ s.buckets).imp i = _
    rw [hself]
    exact update_self i _ _
  next => exact .inr ⟨hcap, hm⟩

theorem Inv.storeKey (hsel : 1 < entry.1) (hi : i ≤ s.mask)
    (hcap : IsCapacity (s.mask + 1))
    (hmarked : s.bucketArray.Marked s.trace s.buckets (s.mask + 1))
    (hkey : s.bucketArray.key i = 0) (himp : s.bucketArray.imp i = .function entry.2)
    (hmem : CacheEvent.stored entry ∈ s.trace) :
    Inv { s with
      arrays := update s.arrays s.buckets { s.bucketArray with
        key := update s.bucketArray.key i entry.1 }
      writer := .idle } := by
  have hsize := hmarked.size
  have hother : ∀ j, j ≠ i → update s.bucketArray.key i entry.1 j = s.bucketArray.key j :=
    fun j hj => update_of_ne hj _ _
  have hnew : ∀ cap, s.bucketArray.Marked s.trace s.buckets cap →
      Marked s.trace s.buckets { s.bucketArray with
        key := update s.bucketArray.key i entry.1 } cap := by
    intro cap hm
    have hcap' : cap = s.mask + 1 := by
      have := hm.size
      omega
    refine ⟨hm.size, ?_, hm.end_imp, fun j hj => ?_⟩
    · show update s.bucketArray.key i entry.1 cap = 1
      rw [hother cap (by omega)]
      exact hm.end_key
    show update s.bucketArray.key i entry.1 j = 0 ∨
      1 < update s.bucketArray.key i entry.1 j ∧ ∃ imp, s.bucketArray.imp j = _ ∧
        stored (update s.bucketArray.key i entry.1 j, imp) ∈ _
    by_cases hij : j = i
    · subst hij
      rw [update_self]
      exact .inr ⟨hsel, entry.2, himp, hmem⟩
    · rw [hother j hij]
      exact hm.entry j hj
  have hev := CacheEvolves.of_update s { s.bucketArray with
      key := update s.bucketArray.key i entry.1 } .idle s.trace rfl
    (fun hz => absurd hz hmarked.not_zeroed) hnew
    (fun j hne => hother j fun heq => hne (heq ▸ hkey)) fun _ => id
  refine h.advance hev rfl (hev.arraysOK h.arrays rfl) h.mask (hev.room h.room)
    (.inr ⟨hcap, ?_⟩) h.trace
  show (update s.arrays s.buckets _ s.buckets).Marked s.trace s.buckets (s.mask + 1)
  rw [update_self]
  exact hnew _ hmarked

theorem Inv.store (hstep : s.store = some s') : s'.Inv := by
  have hw := h.writer
  rw [CacheState.store] at hstep
  cases hpc : s.writer with
  | idle => rw [hpc] at hstep; cases hstep
  | storeBuckets a m entry =>
    rw [hpc] at hstep hw
    obtain ⟨hle, hcap, hroom, hready⟩ := hw
    cases hstep
    have hev := CacheEvolves.of_arrays s { s with
      buckets := a, writer := .storeMask m entry } (fun _ _ => rfl) (le_refl _)
      (le_refl _) fun _ => id
    refine h.advance hev rfl (hev.arraysOK h.arrays rfl) h.mask ?_ ⟨hle, hcap, hroom, ?_⟩ h.trace
    · exact hroom.mono hle
    cases entry with
    | none | some entry => exact hready
  | storeMask m entry =>
    rw [hpc] at hstep hw
    obtain ⟨hle, hcap, hroom, hready⟩ := hw
    obtain ⟨hmin, hmax⟩ := hcap.bounds
    -- the new mask with the buckets that are there already
    have hev := CacheEvolves.of_arrays s { s with
      mask := m, occupied := 0, writer := .idle } (fun _ _ => rfl) (le_refl _) hle
      fun _ => id
    have hinv : ∀ hsettled, Inv { s with mask := m, occupied := 0, writer := .idle } :=
      fun hsettled => h.advance hev rfl (hev.arraysOK h.arrays rfl) (.inr hcap) hroom hsettled
        h.trace
    cases entry with
    | none =>
      cases hstep
      refine hinv (.inl ⟨rfl, ?_⟩)
      have hc : CacheState.capacity { s with mask := m, occupied := 0, writer := .idle } = m + 1 := by
        show (if m = 0 then 0 else (m + 1) % 2 ^ 32) = m + 1
        rw [if_neg (by omega), Nat.mod_eq_of_lt (by omega)]
      rw [hc]
      exact hready
    | some entry => exact (hinv (.inr ⟨hcap, hready.2⟩)).insert hready.1 hcap hready.2 hstep
  | storeImp i entry =>
    rw [hpc] at hstep hw
    obtain ⟨hsel, hi, hcap, hmarked, hkey⟩ := hw
    cases hstep
    exact h.storeImp hsel hi hcap hmarked hkey
  | storeKey i entry => ?_
  rw [hpc] at hstep hw
  obtain ⟨hsel, hi, hcap, hmarked, hkey, himp, hmem⟩ := hw
  cases hstep
  exact h.storeKey hsel hi hcap hmarked hkey himp hmem

omit h

/-! ## The readers' steps -/

include h

theorem Inv.goto [DecidableEq R] {r : R} (hsub : ∀ e ∈ s.trace, e ∈ trace)
    (htrace : Justified trace) (hpc : s.ReaderOK pc) :
    Inv { s.goto r pc with trace := trace } := by
  have hev := CacheEvolves.of_arrays s { s.goto r pc with trace := trace }
    (fun _ _ => rfl) (le_refl _) (le_refl _) hsub
  have hmono : ∀ {a cap}, (s.arrays a).Marked s.trace a cap → (s.arrays a).Marked trace a cap :=
    fun hm => hm.mono hsub
  refine ⟨hev.arraysOK h.arrays rfl, h.mask, hev.room h.room, ?_, fun r' => ?_, htrace⟩
  · have hw := h.writer
    show WriterOK _ s.writer
    cases hwriter : s.writer with
    | idle =>
      rw [hwriter] at hw
      exact hw.imp_right fun hm => ⟨hm.1, hmono hm.2⟩
    | storeBuckets a m entry | storeMask m entry =>
      rw [hwriter] at hw
      obtain ⟨hle, hcap, hroom, hready⟩ := hw
      refine ⟨hle, hcap, hev.room hroom, ?_⟩
      cases entry with
      | none => exact hready
      | some entry => exact ⟨hready.1, hmono hready.2⟩
    | storeImp i entry =>
      rw [hwriter] at hw
      obtain ⟨hsel, hi, hcap, hm, hkey⟩ := hw
      exact ⟨hsel, hi, hcap, hmono hm, hkey⟩
    | storeKey i entry =>
      rw [hwriter] at hw
      obtain ⟨hsel, hi, hcap, hm, hkey, himp, hmem⟩ := hw
      exact ⟨hsel, hi, hcap, hmono hm, hkey, himp, hsub _ hmem⟩
  · show ReaderOK _ (update s.reader r pc r')
    by_cases hr : r' = r
    · rw [hr, update_self]
      exact hev.reader hpc
    · rw [update_of_ne hr]
      exact hev.reader (h.readers r')

theorem Inv.goto_silent [DecidableEq R] {r : R} (hpc : s.ReaderOK pc) :
    (s.goto r pc).Inv := h.goto (fun _ => id) h.trace hpc

omit h

variable {scan : Scan}

theorem ScanOK.next (h : s.ScanOK scan) (hkey : 1 < (s.arrays scan.array).key scan.index) :
    s.ScanOK { scan with index := scan.index + 1 } := by
  obtain ⟨hsel, hwraps, ha, hroom⟩ := h
  refine ⟨hsel, hwraps, ha, ?_⟩
  rcases hroom with ⟨hzero, _⟩ | ⟨cap, hmarked, hle⟩
  · rw [hzero scan.index] at hkey
    exact absurd hkey (by decide)
  refine .inr ⟨cap, hmarked, Nat.lt_of_le_of_ne hle fun heq => ?_⟩
  rw [heq, hmarked.end_key] at hkey
  exact lt_irrefl 1 hkey

theorem ScanOK.wraps_to (h : s.ScanOK scan) (hkey : (s.arrays scan.array).key scan.index = 1) :
    (s.arrays scan.array).imp scan.index = .firstBucket scan.array ∧ s.Room scan.array 0 := by
  obtain ⟨_, _, ha, hroom⟩ := h
  rcases hroom with ⟨hzero, _⟩ | ⟨cap, hmarked, hle⟩
  · rw [hzero scan.index] at hkey
    cases hkey
  · rw [hmarked.eq_end hle hkey]
    exact ⟨hmarked.end_imp, ha, .inr ⟨cap, hmarked, Nat.zero_le _⟩⟩

theorem ScanOK.hits (h : s.ScanOK scan) (hkey : (s.arrays scan.array).key scan.index = scan.sel) :
    ∃ imp, (s.arrays scan.array).imp scan.index = .function imp ∧
      CacheEvent.stored (scan.sel, imp) ∈ s.trace := by
  obtain ⟨hsel, _, _, hroom⟩ := h
  rcases hroom with ⟨hzero, _⟩ | ⟨cap, hmarked, hle⟩
  · rw [hzero scan.index] at hkey
    rw [← hkey] at hsel
    exact absurd hsel (by decide)
  have hne : scan.index ≠ cap := by
    intro heq
    rw [heq, hmarked.end_key] at hkey
    rw [← hkey] at hsel
    exact lt_irrefl 1 hsel
  rcases hmarked.entry _ (Nat.lt_of_le_of_ne hle hne) with hzero | ⟨_, imp, himp, hmem⟩
  · rw [hkey] at hzero
    rw [hzero] at hsel
    exact absurd hsel (by decide)
  · rw [hkey] at hmem
    exact ⟨imp, himp, hmem⟩

theorem Inv.load [DecidableEq R] (h : s.Inv) {r : R} (hbusy : s.reader r ≠ .idle) :
    ∃ s', s.load r = some s' ∧ s'.Inv := by
  have hr := h.readers r
  rw [CacheState.load]
  cases hpc : s.reader r with
  | idle => exact absurd hpc hbusy
  | loadBuckets sel mask =>
    rw [hpc] at hr
    have hand : sel &&& mask ≤ mask := Nat.and_le_right
    exact ⟨_, rfl, h.goto_silent ⟨hr.1, rfl, h.room.mono (le_trans hand hr.2)⟩⟩
  | compare scan =>
    rw [hpc] at hr
    by_cases hkey : (s.arrays scan.array).key scan.index = scan.sel
    · exact ⟨_, if_pos hkey, h.goto_silent ⟨hr, hkey⟩⟩
    · exact ⟨_, if_neg hkey, h.goto_silent hr⟩
  | checkEnd scan =>
    rw [hpc] at hr
    by_cases hkey : 1 < (s.arrays scan.array).key scan.index
    · exact ⟨_, if_pos hkey, h.goto_silent (hr.next hkey)⟩
    by_cases hmiss : (s.arrays scan.array).key scan.index < 1 ∨ scan.second = true
    · exact ⟨_, (if_neg hkey).trans (if_pos hmiss), h.goto_silent trivial⟩
    refine ⟨_, (if_neg hkey).trans (if_neg hmiss), h.goto_silent ⟨hr, ?_, ?_⟩⟩
    · exact Bool.eq_false_iff.mpr fun hs => hmiss (.inr hs)
    · omega
  | wrap scan =>
    rw [hpc] at hr
    obtain ⟨hscan, hsecond, hkey⟩ := hr
    obtain ⟨himp, hroom⟩ := hscan.wraps_to hkey
    simp only [himp]
    refine ⟨_, rfl, h.goto_silent ⟨hscan.sel, ?_, hroom⟩⟩
    show scan.wraps + 1 = 1
    rw [hscan.wraps, hsecond]
    rfl
  | hit scan => ?_
  rw [hpc] at hr
  obtain ⟨imp, himp, hmem⟩ := hr.1.hits hr.2
  simp only [himp]
  refine ⟨_, rfl, h.goto (fun e he => mem_append_left _ he) (h.trace.append ?_) trivial⟩
  intro r' sel imp' heq
  obtain ⟨_, rfl, rfl⟩ := CacheEvent.dispatched.inj heq
  exact hmem

end CacheState

end ObjcRuntime
