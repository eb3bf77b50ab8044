/-
PROBING ALONG ANY CYCLE.

A table of `n` slots and a function `next` that goes through all of them in one
cycle, upwards, downwards or otherwise. A key is stored in the first free slot
on the way from its home; nothing is ever removed.

* `scan`: the loop `do … while ((i = next(i)) != begin)`,
* `Probed`: the way from the home of a stored key to its slot has no free
  slot; `Probed.scan_present`, `Probed.scan_absent`, `Probed.insert`.
-/
import Mathlib.Dynamics.PeriodicPts.Defs
import Mathlib.Data.Fintype.EquivFin
import Mathlib.Data.Finset.Card

namespace ObjcRuntime.Lib

open Function Finset

/-! ## Cycles -/

/-- `next` goes through `0 … n - 1` in one cycle. -/
structure IsCycle (next : Nat → Nat) (n : Nat) : Prop where
  lt : ∀ i, i < n → next i < n
  period : ∀ i, i < n → minimalPeriod next i = n

section Cycle

variable {next : Nat → Nat} {n i : Nat}

theorem IsCycle.of_iterate (hlt : ∀ i, i < n → next i < n) (hback : ∀ i, i < n → next^[n] i = i)
    (hnot : ∀ i d, i < n → 0 < d → d < n → next^[d] i ≠ i) : IsCycle next n where
  lt := hlt
  period := by
    intro i hi
    have hper : IsPeriodicPt next n i := hback i hi
    have hpos := hper.minimalPeriod_pos (Nat.zero_lt_of_lt hi)
    have hle := hper.minimalPeriod_le (Nat.zero_lt_of_lt hi)
    by_contra hne
    exact hnot i _ hi hpos (Nat.lt_of_le_of_ne hle hne) (isPeriodicPt_minimalPeriod next i)

section

variable (h : IsCycle next n)

include h

theorem IsCycle.iterate_lt (hi : i < n) (d : Nat) : next^[d] i < n := by
  induction d with
  | zero => exact hi
  | succ d ih =>
    rw [iterate_succ_apply']
    exact h.lt _ ih

theorem IsCycle.iterate_ne (hi : i < n) {d : Nat} (hpos : d ≠ 0)
    (hd : d < n) : next^[d] i ≠ i :=
  not_isPeriodicPt_of_pos_of_lt_minimalPeriod hpos (by rw [h.period i hi]; exact hd)

theorem IsCycle.injOn (hi : i < n) {a b : Nat} (ha : a < n) (hb : b < n)
    (heq : next^[a] i = next^[b] i) : a = b :=
  iterate_injOn_Iio_minimalPeriod (f := next) (x := i)
    (by rw [h.period i hi]; exact ha) (by rw [h.period i hi]; exact hb) heq

theorem IsCycle.reaches (hi : i < n) {j : Nat} (hj : j < n) : ∃ d, d < n ∧ next^[d] i = j := by
  have hinj : Injective fun d : Fin n => (⟨next^[d] i, h.iterate_lt hi d⟩ : Fin n) := by
    intro a b heq
    exact Fin.ext (h.injOn hi a.isLt b.isLt (Fin.mk.inj heq))
  obtain ⟨d, hd⟩ := Finite.injective_iff_surjective.mp hinj ⟨j, hj⟩
  exact ⟨d, d.isLt, Fin.mk.inj hd⟩

end

end Cycle

/-! ## The loop -/

/-- `do { if (stop(i)) return i; } while ((i = next(i)) != begin)`; `none` after the loop. -/
def scan (stop : Nat → Bool) (next : Nat → Nat) (begin_ : Nat) : Nat → Nat → Option Nat
  | 0, _ => none
  | fuel + 1, i =>
    if stop i then some i
    else if next i = begin_ then none
    else scan stop next begin_ fuel (next i)

section Scan

variable {next : Nat → Nat} {n begin_ : Nat} {stop : Nat → Bool}

theorem scan_from (h : IsCycle next n) (hb : begin_ < n) {c : Nat} (hc : c < n)
    (hstop : stop (next^[c] begin_) = true)
    (hfirst : ∀ j, j < c → stop (next^[j] begin_) = false) (fuel : Nat) :
    ∀ d, fuel + d = n → d ≤ c →
      scan stop next begin_ fuel (next^[d] begin_) = some (next^[c] begin_) := by
  induction fuel with
  | zero =>
    intro d hfuel hd
    omega
  | succ fuel ih => ?_
  intro d hfuel hd
  rw [scan]
  rcases Nat.lt_or_ge d c with hlt | hge
  · have hstep : next (next^[d] begin_) = next^[d + 1] begin_ :=
      (iterate_succ_apply' next d begin_).symm
    rw [if_neg (by rw [hfirst d hlt]; exact Bool.false_ne_true), hstep,
      if_neg (h.iterate_ne hb (Nat.succ_ne_zero d) (by omega))]
    exact ih (d + 1) (by omega) hlt
  · obtain rfl : d = c := le_antisymm hd hge
    rw [if_pos hstop]

theorem scan_first (h : IsCycle next n) (hb : begin_ < n) {c : Nat} (hc : c < n)
    (hstop : stop (next^[c] begin_) = true)
    (hfirst : ∀ j, j < c → stop (next^[j] begin_) = false) :
    scan stop next begin_ n begin_ = some (next^[c] begin_) :=
  scan_from h hb hc hstop hfirst n 0 (add_zero n) (Nat.zero_le c)

end Scan

/-! ## Tables -/

variable {κ : Type*} [DecidableEq κ]

/-- Where a search for `k` stops: at a free slot, or at its own. -/
def stopsAt (nil : κ) (key : Nat → κ) (k : κ) (i : Nat) : Bool := decide (key i = nil ∨ key i = k)

def Probed (next : Nat → Nat) (n : Nat) (home : κ → Nat) (nil : κ) (key : Nat → κ) : Prop :=
  ∀ i, i < n → key i ≠ nil → ∃ d, d < n ∧ next^[d] (home (key i)) = i
    ∧ ∀ j, j < d → key (next^[j] (home (key i))) ≠ nil ∧ key (next^[j] (home (key i))) ≠ key i

def stored (n : Nat) (nil : κ) (key : Nat → κ) : Nat :=
  ((Finset.range n).filter fun i => key i ≠ nil).card

section Tables

variable {next : Nat → Nat} {n : Nat} {home : κ → Nat} {nil : κ} {key : Nat → κ}

omit [DecidableEq κ] in
theorem Probed.of_free (h : ∀ i, i < n → key i = nil) : Probed next n home nil key :=
  fun i hi hne => absurd (h i hi) hne

theorem stored_of_free (h : ∀ i, i < n → key i = nil) : stored n nil key = 0 := by
  unfold stored
  rw [card_eq_zero, filter_eq_empty_iff]
  intro i hi hne
  exact hne (h i (mem_range.mp hi))

theorem exists_free (h : stored n nil key < n) : ∃ i, i < n ∧ key i = nil := by
  by_contra hno
  have hall : (range n).filter (fun i => key i ≠ nil) = range n := by
    rw [filter_eq_self]
    intro i hi heq
    exact hno ⟨i, mem_range.mp hi, heq⟩
  unfold stored at h
  rw [hall, card_range] at h
  exact lt_irrefl n h

theorem Probed.scan_present (h : Probed next n home nil key) (hcyc : IsCycle next n) {i : Nat}
    (hi : i < n) (hne : key i ≠ nil) (hhome : home (key i) < n) :
    scan (stopsAt nil key (key i)) next (home (key i)) n (home (key i)) = some i := by
  obtain ⟨d, hd, hpos, hway⟩ := h i hi hne
  have hstop : stopsAt nil key (key i) (next^[d] (home (key i))) = true := by
    rw [hpos]
    exact decide_eq_true (.inr rfl)
  have hfirst : ∀ j, j < d → stopsAt nil key (key i) (next^[j] (home (key i))) = false := by
    intro j hj
    obtain ⟨hnil, hother⟩ := hway j hj
    exact decide_eq_false fun hor => hor.elim hnil hother
  rw [scan_first hcyc hhome hd hstop hfirst, hpos]

theorem Probed.unique (h : Probed next n home nil key) (hcyc : IsCycle next n) {i j : Nat}
    (hi : i < n) (hj : j < n) (hne : key i ≠ nil) (hhome : home (key i) < n)
    (heq : key j = key i) : i = j := by
  have hfi := h.scan_present hcyc hi hne hhome
  have hfj := h.scan_present hcyc hj (heq ▸ hne) (heq ▸ hhome)
  rw [heq] at hfj
  exact Option.some.inj (hfi.symm.trans hfj)

theorem scan_absent (home : κ → Nat) (hcyc : IsCycle next n) {k : κ} (hhome : home k < n)
    (habsent : ∀ i, i < n → key i ≠ k) (hfree : ∃ i, i < n ∧ key i = nil) :
    ∃ d, d < n ∧ scan (stopsAt nil key k) next (home k) n (home k) = some (next^[d] (home k))
      ∧ key (next^[d] (home k)) = nil ∧ ∀ j, j < d → key (next^[j] (home k)) ≠ nil := by
  obtain ⟨i, hi, hnil⟩ := hfree
  obtain ⟨e, he, rfl⟩ := hcyc.reaches hhome hi
  -- the least number of steps to a free slot
  have hex : ∃ d, key (next^[d] (home k)) = nil := ⟨e, hnil⟩
  have hd : Nat.find hex < n := lt_of_le_of_lt (Nat.find_min' hex hnil) he
  have hfirst : ∀ j, j < Nat.find hex → key (next^[j] (home k)) ≠ nil := fun j hj =>
    Nat.find_min hex hj
  refine ⟨Nat.find hex, hd, ?_, Nat.find_spec hex, hfirst⟩
  apply scan_first hcyc hhome hd
  · exact decide_eq_true (.inl (Nat.find_spec hex))
  intro j hj
  have hother := habsent _ (hcyc.iterate_lt hhome j)
  exact decide_eq_false fun hor => hor.elim (hfirst j hj) hother

omit [DecidableEq κ] in
theorem Probed.insert (h : Probed next n home nil key) (hcyc : IsCycle next n) {k : κ} {d : Nat}
    (hd : d < n) (hhome : home k < n) (habsent : ∀ i, i < n → key i ≠ k)
    (hfree : key (next^[d] (home k)) = nil)
    (hway : ∀ j, j < d → key (next^[j] (home k)) ≠ nil) :
    Probed next n home nil (update key (next^[d] (home k)) k) := by
  intro i hi hne
  by_cases heq : i = next^[d] (home k)
  · subst heq
    rw [update_self] at hne ⊢
    refine ⟨d, hd, rfl, ?_⟩
    intro j hj
    have hother : next^[j] (home k) ≠ next^[d] (home k) := fun hback =>
      ne_of_lt hj (hcyc.injOn hhome (lt_trans hj hd) hd hback)
    rw [update_of_ne hother]
    exact ⟨hway j hj, habsent _ (hcyc.iterate_lt hhome j)⟩
  rw [update_of_ne heq] at hne ⊢
  obtain ⟨e, he, hpos, hold⟩ := h i hi hne
  refine ⟨e, he, hpos, ?_⟩
  intro j hj
  obtain ⟨hnil, hother⟩ := hold j hj
  -- the filled slot was free, so it is not on the way of another key
  have hoff : next^[j] (home (key i)) ≠ next^[d] (home k) := fun hon =>
    hnil (by rw [hon]; exact hfree)
  rw [update_of_ne hoff]
  exact ⟨hnil, hother⟩

theorem stored_insert {i : Nat} (hi : i < n) (hfree : key i = nil) {k : κ} (hk : k ≠ nil) :
    stored n nil (update key i k) = stored n nil key + 1 := by
  have hset : (range n).filter (fun j => update key i k j ≠ nil)
      = insert i ((range n).filter fun j => key j ≠ nil) := by
    ext j
    rw [mem_insert, mem_filter, mem_filter, mem_range]
    by_cases heq : j = i
    · subst heq
      rw [update_self]
      exact ⟨fun _ => .inl rfl, fun _ => ⟨hi, hk⟩⟩
    · rw [update_of_ne heq]
      exact ⟨.inr, fun hor => hor.resolve_left heq⟩
  unfold stored
  rw [hset, card_insert_of_notMem]
  rw [mem_filter]
  exact fun hand => hand.2 hfree

end Tables

end ObjcRuntime.Lib
