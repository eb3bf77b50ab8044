/-
LAYOUT BITMAPS AND LAYOUT STRINGS.

objc-layout.mm: `compress_layout` writes a bitmap as bytes of a skip count and a
scan count, and `layout_bitmap_create` reads it back. A bitmap is the list of
its `bitCount` bits.
-/
import Mathlib.Data.List.Basic
import Mathlib.Data.List.TakeWhile
import Mathlib.Tactic.Ring

namespace ObjcRuntime

open List

/-! ## The functions -/

/-- The loop over `scan`; `l` is what is in the byte already. -/
def writeScan (l scan : Nat) : List Nat :=
  if 0xf < scan then (l ||| 0x0f) :: writeScan 0 (scan - 0xf) else [l ||| scan]
termination_by scan

def writeRange (skip scan : Nat) : List Nat :=
  if 0xf < skip then 0xf0 :: writeRange (skip - 0xf) scan
  else if 0 < skip ∨ 0 < scan then writeScan (skip <<< 4) scan
  else []
termination_by skip

theorem range_length_lt {bits : List Bool} (h : bits ≠ []) :
    ((bits.dropWhile (!·)).dropWhile id).length < bits.length := by
  cases bits with
  | nil => exact absurd rfl h
  | cons b l => ?_
  cases b with
  | true =>
    have := (dropWhile_sublist (l := l) id).length_le
    simpa [dropWhile_cons] using Nat.lt_succ_of_le this
  | false => ?_
  have h1 := (dropWhile_sublist (l := l.dropWhile (!·)) id).length_le
  have h2 := (dropWhile_sublist (l := l) (!·)).length_le
  simpa [dropWhile_cons] using Nat.lt_succ_of_le (h1.trans h2)

/-- The loop of `compress_layout` from one place on: the bytes, `all_set` and `none_set`. -/
def compressLoop (bits : List Bool) : List Nat × Bool × Bool :=
  if bits = [] then ([], true, true)
  else
    let skip := (bits.takeWhile (!·)).length
    let scan := ((bits.dropWhile (!·)).takeWhile id).length
    let r := compressLoop ((bits.dropWhile (!·)).dropWhile id)
    (writeRange skip scan ++ r.1, skip == 0 && r.2.1, scan == 0 && r.2.2)
termination_by bits.length
decreasing_by exact range_length_lt ‹_›

/-- `compress_layout`: the string up to its terminator, or NULL. -/
def compress_layout (bits : List Bool) (weak : Bool) : Option (List Nat) :=
  let r := compressLoop bits
  if r.2.2 && weak then none
  else if r.2.1 && !weak then none
  else some (r.1.takeWhile (· != 0))

/-- `set_bits`; `none` is the fatal error "layout bitmap too short". -/
def set_bits (bits : List Bool) (which : Nat) : Nat → Option (List Bool)
  | 0 => some bits
  | count + 1 =>
    if which < bits.length then set_bits (bits.set which true) (which + 1) count
    else if which = bits.length then none else some bits

def decompress_layout : List Nat → List Bool → Nat → Option (List Bool)
  | [], bits, _ => some bits
  | c :: layout_string, bits, bit =>
    if c = 0 then some bits
    else
      let skip := (c &&& 0xf0) >>> 4
      let scan := c &&& 0x0f
      (set_bits bits (bit + skip) scan).bind fun bits =>
        decompress_layout layout_string bits (bit + skip + scan)

/-- `sizeof(id)`. -/
def sizeofId : Nat := 8

def layout_bitmap_create (layout_string : Option (List Nat)) (layoutStringInstanceSize : Nat)
    (instanceSize : Nat) (weak : Bool) : Option (List Bool) :=
  let bits := replicate (instanceSize / sizeofId) false
  match layout_string with
  | none => if weak then some bits else set_bits bits 0 (layoutStringInstanceSize / sizeofId)
  | some layout_string => decompress_layout layout_string bits 0

/-! ## What bytes stand for -/

structure Spells (bytes : List Nat) (bits : List Bool) : Prop where
  nonzero : ∀ c ∈ bytes, c ≠ 0
  length_le : bytes.length ≤ bits.length
  read : ∀ (done : List Bool) (todo : Nat) (rest : List Nat),
    decompress_layout (bytes ++ rest) (done ++ replicate (bits.length + todo) false) done.length
      = decompress_layout rest (done ++ bits ++ replicate todo false) (done ++ bits).length

theorem Spells.append {bytes bytes' : List Nat} {bits bits' : List Bool} (h : Spells bytes bits)
    (h' : Spells bytes' bits') : Spells (bytes ++ bytes') (bits ++ bits') := by
  refine ⟨fun c hc => (mem_append.mp hc).elim (h.nonzero c) (h'.nonzero c), ?_, ?_⟩
  · simp only [length_append]
    exact Nat.add_le_add h.length_le h'.length_le
  intro done todo rest
  rw [append_assoc, length_append, add_assoc, h.read, h'.read]
  simp only [append_assoc]

theorem set_bits_replicate (todo count : Nat) : ∀ done : List Bool,
    set_bits (done ++ replicate (count + todo) false) done.length count
      = some (done ++ replicate count true ++ replicate todo false) := by
  induction count with
  | zero =>
    intro done
    simp [set_bits]
  | succ count ih => ?_
  intro done
  have hset : (done ++ replicate (count + 1 + todo) false).set done.length true
      = done ++ [true] ++ replicate (count + todo) false := by
    rw [add_right_comm, replicate_succ]
    simp
  have hnext := ih (done ++ [true])
  rw [set_bits, if_pos (by simp), hset]
  rw [length_append, length_singleton] at hnext
  rw [hnext, replicate_succ]
  simp

theorem nibbles : ∀ skip < 16, ∀ scan < 16, (skip <<< 4 ||| scan) &&& 0xf0 = skip <<< 4 ∧
    (skip <<< 4) >>> 4 = skip ∧ (skip <<< 4 ||| scan) &&& 0x0f = scan := by
  decide

theorem spells_byte (skip scan : Nat) (hskip : skip < 16) (hscan : scan < 16)
    (hpos : 0 < skip + scan) :
    Spells [skip <<< 4 ||| scan] (replicate skip false ++ replicate scan true) := by
  obtain ⟨h1, h2, h3⟩ := nibbles skip hskip scan hscan
  have hne : skip <<< 4 ||| scan ≠ 0 := by
    intro hzero
    rw [hzero] at h1 h3
    rw [← h1] at h2
    simp only [Nat.zero_and, Nat.zero_shiftRight] at h2 h3
    omega
  refine ⟨fun c hc => mem_singleton.mp hc ▸ hne, by simp; omega, fun done todo rest => ?_⟩
  have hset := set_bits_replicate todo scan (done ++ replicate skip false)
  rw [singleton_append, decompress_layout, if_neg hne, h1, h2, h3]
  simp only [length_append, length_replicate, append_assoc] at hset ⊢
  rw [add_assoc, replicate_add, hset, Option.bind_some, add_assoc]

theorem replicate_split (b : Bool) {n : Nat} (h : 15 < n) :
    replicate n b = replicate 15 b ++ replicate (n - 15) b := by
  rw [← replicate_add, Nat.add_sub_cancel' h.le]

theorem writeScan_spells (skip scan : Nat) (hskip : skip < 16) (hpos : 0 < skip + scan) :
    Spells (writeScan (skip <<< 4) scan) (replicate skip false ++ replicate scan true) := by
  induction scan using Nat.strong_induction_on generalizing skip with
  | _ scan ih => ?_
  rw [writeScan]
  split
  next hlong =>
    have hrest := ih (scan - 15) (by omega) 0 (by decide) (by omega)
    rw [replicate_split true hlong, ← append_assoc]
    exact (spells_byte skip 15 hskip (by decide) (by omega)).append hrest
  next hshort => exact spells_byte skip scan hskip (by omega) hpos

theorem writeRange_spells (skip : Nat) {scan : Nat} (hpos : 0 < skip + scan) :
    Spells (writeRange skip scan) (replicate skip false ++ replicate scan true) := by
  induction skip using Nat.strong_induction_on with
  | _ skip ih => ?_
  rw [writeRange]
  split
  next hlong =>
    have hrest := ih (skip - 15) (by omega) (by omega)
    rw [replicate_split false hlong, append_assoc]
    exact (spells_byte 15 0 (by decide) (by decide) (by decide)).append hrest
  next hshort =>
    rw [if_pos (by omega)]
    exact writeScan_spells skip scan (by omega) hpos

theorem range_append (bits : List Bool) : replicate (bits.takeWhile (!·)).length false
    ++ replicate ((bits.dropWhile (!·)).takeWhile id).length true
    ++ (bits.dropWhile (!·)).dropWhile id = bits := by
  have hskip : bits.takeWhile (!·) = replicate (bits.takeWhile (!·)).length false :=
    eq_replicate_iff.mpr ⟨rfl, fun b hb => by simpa using mem_takeWhile_imp hb⟩
  have hscan : (bits.dropWhile (!·)).takeWhile id
      = replicate ((bits.dropWhile (!·)).takeWhile id).length true :=
    eq_replicate_iff.mpr ⟨rfl, fun b hb => by simpa using mem_takeWhile_imp hb⟩
  rw [← hskip, ← hscan, append_assoc, takeWhile_append_dropWhile, takeWhile_append_dropWhile]

theorem compressLoop_spells (bits : List Bool) : Spells (compressLoop bits).1 bits ∧
    ((compressLoop bits).2.1 = true → bits = replicate bits.length true) ∧
    ((compressLoop bits).2.2 = true → bits = replicate bits.length false) := by
  induction bits using compressLoop.induct with
  | case1 =>
    rw [compressLoop, if_pos rfl]
    exact ⟨⟨by simp, le_rfl, fun _ _ _ => by simp⟩, fun _ => rfl, fun _ => rfl⟩
  | case2 bits hne ih => ?_
  rw [compressLoop, if_neg hne]
  have hlt := range_length_lt hne
  have hbits := range_append bits
  generalize (bits.takeWhile (!·)).length = skip at hbits ⊢
  generalize ((bits.dropWhile (!·)).takeWhile id).length = scan at hbits ⊢
  generalize (bits.dropWhile (!·)).dropWhile id = rest at hbits hlt ih ⊢
  subst hbits
  simp only [length_append, length_replicate] at hlt
  obtain ⟨hrest, hall, hnone⟩ := ih
  refine ⟨(writeRange_spells skip (by omega)).append hrest, fun h => ?_, fun h => ?_⟩
  all_goals obtain ⟨hzero, h⟩ := (Bool.and_eq_true _ _).mp h
  · obtain ⟨n, rfl⟩ : ∃ n, rest = replicate n true := ⟨_, hall h⟩
    simp [beq_iff_eq.mp hzero]
  · obtain ⟨n, rfl⟩ : ∃ n, rest = replicate n false := ⟨_, hnone h⟩
    simp [beq_iff_eq.mp hzero]

/-- **A layout string stands for its bitmap**: it is read back as the bitmap, no byte before the
terminator is zero, and the bytes with the terminator fit in `bitmap_bits + 1`. -/
theorem layout_string_spells_bitmap (bits : List Bool) (weak : Bool) :
    layout_bitmap_create (compress_layout bits weak) (bits.length * sizeofId)
        (bits.length * sizeofId) weak = some bits ∧
      (∀ c ∈ (compressLoop bits).1, c ≠ 0) ∧
      ((compressLoop bits).1 ++ [0]).length ≤ bits.length + 1 := by
  obtain ⟨hspells, hall, hnone⟩ := compressLoop_spells bits
  have hwords : bits.length * sizeofId / sizeofId = bits.length := Nat.mul_div_cancel _ (by decide)
  refine ⟨?_, hspells.nonzero, by simpa using hspells.length_le⟩
  unfold compress_layout layout_bitmap_create
  rw [hwords]
  simp only
  by_cases h : ((compressLoop bits).2.2 && weak) = true
  · rw [if_pos h]
    obtain ⟨hset, rfl⟩ := (Bool.and_eq_true _ _).mp h
    exact congrArg some (hnone hset).symm
  rw [if_neg h]
  by_cases h : ((compressLoop bits).2.1 && !weak) = true
  · rw [if_pos h]
    obtain ⟨hset, hweak⟩ := (Bool.and_eq_true _ _).mp h
    obtain rfl := (Bool.not_eq_true' _).mp hweak
    have hread := set_bits_replicate 0 bits.length []
    simp only [nil_append, add_zero, length_nil, replicate_zero, append_nil] at hread
    rw [← hall hset] at hread
    exact hread
  rw [if_neg h]
  have hstring : (compressLoop bits).1.takeWhile (· != 0) = (compressLoop bits).1 :=
    takeWhile_eq_self_iff.mpr fun c hc => by simpa using hspells.nonzero c hc
  have hread := hspells.read [] 0 []
  simp only [nil_append, append_nil, add_zero, length_nil, replicate_zero] at hread
  rw [hstring]
  exact hread

end ObjcRuntime
