/-
OPEN ADDRESSING WITH A MAXIMUM DISPLACEMENT.

A table of `2 ^ k` slots. An item goes to the first free slot at or after
its home slot, cyclically; the table remembers the largest displacement of
any insertion, and a search gives up after that many steps. Removing an item
just empties its slot.

* `resize_spec`: inserting all items into an empty table with room keeps them,
* `Keyed`: one item per key, kept by adding, replacing and removing.

Both loops are written as the C idiom writes them, with `(i + 1) & mask` and a
fatal outcome (`none`) when the probe comes back to where it began.
-/
import Mathlib.Data.Nat.Bitwise
import Mathlib.Data.List.Rotate
import Mathlib.Data.List.ReduceOption
import Mathlib.Tactic.Ring

namespace ObjcRuntime.Lib

open List Option Nat

/-! ## Probing -/

variable {α κ : Type*}

/-- Walk from `index` to the first slot that `stop` accepts. The result is the
slot and the displacement. -/
def probe (slots : List (Option α)) (stop : Option α → Bool) (begin_ : Nat) :
    Nat → Nat → Nat → Option (Nat × Nat)
  | 0, _, _ => none
  | fuel + 1, index, disp =>
    if stop (slots.getD index none) then some (index, disp)
    else
      let index' := (index + 1) &&& (slots.length - 1)
      if index' = begin_ then none else probe slots stop begin_ fuel index' (disp + 1)

/-- The same walk, giving up after `maxDisp` steps. `some none`: not there. -/
def search (slots : List (Option α)) (stop : Option α → Bool) (begin_ maxDisp : Nat) :
    Nat → Nat → Nat → Option (Option Nat)
  | 0, _, _ => none
  | fuel + 1, index, disp =>
    if stop (slots.getD index none) then some (some index)
    else
      let index' := (index + 1) &&& (slots.length - 1)
      if index' = begin_ then none
      else if maxDisp < disp + 1 then some none
      else search slots stop begin_ maxDisp fuel index' (disp + 1)

/-- The slot `disp` steps after `begin_`. -/
def slotAt (slots : List (Option α)) (begin_ disp : Nat) : Option α :=
  slots.getD ((begin_ + disp) % slots.length) none

variable {a : α}

theorem slotAt_eq_some {slots : List (Option α)} {begin_ disp : Nat} :
    slotAt slots begin_ disp = some a ↔ slots[(begin_ + disp) % slots.length]? = some (some a) := by
  unfold slotAt
  rw [getD_eq_getElem?_getD]
  cases slots[(begin_ + disp) % slots.length]? <;> simp

theorem probe_some {slots : List (Option α)} {stop : Option α → Bool} {begin_ : Nat} :
    ∀ {fuel index disp i d : Nat}, probe slots stop begin_ fuel index disp = some (i, d) →
      index < slots.length → i < slots.length ∧ stop (slots.getD i none) = true := by
  intro fuel
  induction fuel with
  | zero => intro index disp i d h; cases h
  | succ fuel ih => ?_
  intro index disp i d h hindex
  rw [probe] at h
  by_cases hstop : stop (slots.getD index none) = true
  · rw [if_pos hstop] at h
    obtain ⟨rfl, _⟩ := Prod.mk.inj (some.inj h)
    exact ⟨hindex, hstop⟩
  rw [if_neg hstop] at h
  have hnext : (index + 1) &&& (slots.length - 1) < slots.length := by
    have := and_le_right (n := index + 1) (m := slots.length - 1)
    omega
  by_cases hback : (index + 1) &&& (slots.length - 1) = begin_
  · simp only [hback, if_true] at h
    cases h
  · simp only [if_neg hback] at h
    exact ih h hnext

section Walk

variable {slots : List (Option α)} {stop : Option α → Bool} {k begin_ : Nat}

variable (hlen : slots.length = 2 ^ k)
include hlen

theorem and_mask (x : Nat) :
    x &&& (slots.length - 1) = x % slots.length := by
  rw [hlen, and_two_pow_sub_one_eq_mod]

theorem walk_step (hb : begin_ < slots.length) {d : Nat}
    (hd : d < slots.length) :
    ((begin_ + d) % slots.length + 1) &&& (slots.length - 1) = (begin_ + (d + 1)) % slots.length
      ∧ ((begin_ + (d + 1)) % slots.length = begin_ ↔ d + 1 = slots.length) := by
  refine ⟨?_, ?_, ?_⟩
  · rw [and_mask hlen, mod_add_mod, add_assoc]
  · intro hback
    by_contra hne
    by_cases hwrap : begin_ + (d + 1) < slots.length
    · rw [mod_eq_of_lt hwrap] at hback
      omega
    · rw [mod_eq_sub_mod (by omega), mod_eq_of_lt (by omega)] at hback
      omega
  · intro hd1
    rw [hd1, add_mod_right, mod_eq_of_lt hb]

theorem probe_spec (hb : begin_ < slots.length) (fuel : Nat) :
    ∀ d e, fuel + d = slots.length → d ≤ e → e < slots.length →
      stop (slotAt slots begin_ e) = true →
      ∃ c, d ≤ c ∧ c ≤ e ∧ stop (slotAt slots begin_ c) = true
        ∧ (∀ j, d ≤ j → j < c → stop (slotAt slots begin_ j) = false)
        ∧ probe slots stop begin_ fuel ((begin_ + d) % slots.length) d
            = some ((begin_ + c) % slots.length, c) := by
  induction fuel with
  | zero =>
    intro d e hfuel hde he _
    omega
  | succ fuel ih => ?_
  intro d e hfuel hde he hstop
  unfold probe
  by_cases hhere : stop (slotAt slots begin_ d) = true
  · refine ⟨d, le_refl d, hde, hhere, fun j hj hjd => by omega, ?_⟩
    rw [if_pos (show stop (slots.getD ((begin_ + d) % slots.length) none) = true from hhere)]
  -- not here, so the accepted slot lies further on and the walk is not back yet
  have hlt : d < e := by
    rcases lt_or_ge d e with h | h
    · exact h
    have : d = e := by omega
    subst this
    exact absurd hstop hhere
  obtain ⟨hnext, hback⟩ := walk_step hlen hb (d := d) (by omega)
  obtain ⟨c, hdc, hce, hc, hbefore, hrun⟩ := ih (d + 1) e (by omega) (by omega) he hstop
  refine ⟨c, by omega, hce, hc, ?_, ?_⟩
  · intro j hj hjc
    rcases lt_or_ge d j with h | h
    · exact hbefore j h hjc
    have : j = d := by omega
    subst this
    simpa using hhere
  rw [if_neg (show ¬ stop (slots.getD ((begin_ + d) % slots.length) none) = true from hhere)]
  simp only [hnext]
  rw [if_neg (by rw [hback]; omega)]
  exact hrun

omit hlen

theorem search_found (stop : Option α → Bool) (hlen : slots.length = 2 ^ k)
    (hb : begin_ < slots.length) {maxDisp : Nat}
    (fuel : Nat) :
    ∀ d e, fuel + d = slots.length → d ≤ e → e < slots.length → e ≤ maxDisp →
      stop (slotAt slots begin_ e) = true →
      ∃ c, c ≤ e ∧ stop (slotAt slots begin_ c) = true
        ∧ search slots stop begin_ maxDisp fuel ((begin_ + d) % slots.length) d
            = some (some ((begin_ + c) % slots.length)) := by
  induction fuel with
  | zero =>
    intro d e hfuel hde he _ _
    omega
  | succ fuel ih => ?_
  intro d e hfuel hde he hmax hstop
  unfold search
  by_cases hhere : stop (slotAt slots begin_ d) = true
  · refine ⟨d, hde, hhere, ?_⟩
    rw [if_pos (show stop (slots.getD ((begin_ + d) % slots.length) none) = true from hhere)]
  have hlt : d < e := by
    rcases lt_or_ge d e with h | h
    · exact h
    have : d = e := by omega
    subst this
    exact absurd hstop hhere
  obtain ⟨hnext, hback⟩ := walk_step hlen hb (d := d) (by omega)
  obtain ⟨c, hce, hc, hrun⟩ := ih (d + 1) e (by omega) (by omega) he hmax hstop
  refine ⟨c, hce, hc, ?_⟩
  rw [if_neg (show ¬ stop (slots.getD ((begin_ + d) % slots.length) none) = true from hhere)]
  simp only [hnext]
  rw [if_neg (by rw [hback]; omega), if_neg (by omega)]
  exact hrun

theorem search_missing (stop : Option α → Bool) (hlen : slots.length = 2 ^ k)
    (hb : begin_ < slots.length)
    {maxDisp : Nat} (hroom : maxDisp + 1 < slots.length)
    (hnone : ∀ d, d ≤ maxDisp → stop (slotAt slots begin_ d) = false) (fuel : Nat) :
    ∀ d, fuel + d = slots.length → d ≤ maxDisp →
      search slots stop begin_ maxDisp fuel ((begin_ + d) % slots.length) d = some none := by
  induction fuel with
  | zero =>
    intro d hfuel hd
    omega
  | succ fuel ih => ?_
  intro d hfuel hd
  have hhere : ¬ stop (slots.getD ((begin_ + d) % slots.length) none) = true := by
    have := hnone d hd
    simpa [slotAt] using this
  obtain ⟨hnext, hback⟩ := walk_step hlen hb (d := d) (by omega)
  unfold search
  rw [if_neg hhere]
  simp only [hnext]
  rw [if_neg (by rw [hback]; omega)]
  by_cases hlast : maxDisp < d + 1
  · rw [if_pos hlast]
  · rw [if_neg hlast]
    exact ih (d + 1) (by omega) (by omega)

theorem passed_le_occupied (begin_ : Nat) {c : Nat} (hc : c < slots.length)
    (hall : ∀ j, j < c → (slotAt slots begin_ j).isSome = true) :
    c ≤ slots.countP isSome := by
  have hperm : (slots.rotate begin_).countP isSome = slots.countP isSome :=
    (rotate_perm slots begin_).countP_eq _
  have htake : ((slots.rotate begin_).take c).countP isSome = c := by
    have hlen : ((slots.rotate begin_).take c).length = c := by
      rw [length_take, length_rotate]
      omega
    rw [countP_eq_length.mpr, hlen]
    intro x hx
    obtain ⟨j, hj, rfl⟩ := getElem_of_mem hx
    have hjc : j < c := by omega
    have := hall j hjc
    unfold slotAt at this
    rw [getD_eq_getElem _ _ (mod_lt _ (by omega)), add_comm] at this
    simpa using this
  have hsub : ((slots.rotate begin_).take c).countP isSome
      ≤ (slots.rotate begin_).countP isSome :=
    (take_sublist c _).countP_le
  omega

end Walk

/-! ## Tables -/

structure Slots (α : Type*) where
  slots : List (Option α)
  num : Nat
  maxDisp : Nat
  deriving DecidableEq

namespace Slots

def empty (n : Nat) : Slots α := ⟨replicate n none, 0, 0⟩

def mask (t : Slots α) : Nat := t.slots.length - 1

def items (t : Slots α) : List α := t.slots.reduceOption

/-- Put `a` in the first free slot from its home on. -/
def insert (t : Slots α) (hash : Nat) (a : α) : Option (Slots α) :=
  (probe t.slots isNone (hash &&& t.mask) t.slots.length (hash &&& t.mask) 0).map
    fun (index, disp) =>
      { slots := t.slots.set index (some a), num := t.num + 1,
        maxDisp := if t.maxDisp < disp then disp else t.maxDisp }

/-- The slot of an item that `is` accepts, searched from the home slot on. -/
def find (t : Slots α) (hash : Nat) (is : α → Bool) : Option (Option Nat) :=
  search t.slots (fun o => o.any is) (hash &&& t.mask) t.maxDisp t.slots.length
    (hash &&& t.mask) 0

def removeAt (t : Slots α) (index : Nat) : Slots α :=
  { t with slots := t.slots.set index none, num := t.num - 1 }

def replaceAt (t : Slots α) (index : Nat) (a : α) : Slots α :=
  { t with slots := t.slots.set index (some a) }

/-- Every item lies within the maximum displacement of its home, and a search for
nothing gives up in time. -/
structure WF (home : α → Nat) (t : Slots α) : Prop where
  pow : ∃ k, t.slots.length = 2 ^ k
  num_eq : t.num = t.slots.countP isSome
  room : t.maxDisp + 1 < t.slots.length
  near : ∀ i a, t.slots[i]? = some (some a) →
    ∃ d, d ≤ t.maxDisp ∧ i = (home a + d) % t.slots.length

/-! ## Slots and items -/

theorem mem_items {t : Slots α} : a ∈ t.items ↔ ∃ i : Nat, t.slots[i]? = some (some a) := by
  unfold items
  rw [reduceOption_mem_iff, mem_iff_getElem?]

theorem num_eq_length {home : α → Nat} {t : Slots α} (h : t.WF home) : t.num = t.items.length := by
  rw [h.num_eq]
  unfold items
  induction t.slots with
  | nil => rfl
  | cons o l ih =>
    cases o with
    | none => simp [reduceOption_cons_of_none, ih]
    | some a => simp [reduceOption_cons_of_some, ih]

theorem reduceOption_set_none (a : α) (l : List (Option α)) :
    ∀ i, l[i]? = some none → ((l.set i (some a)).reduceOption).Perm (a :: l.reduceOption) := by
  induction l with
  | nil =>
    intro i h
    simp at h
  | cons o l ih => ?_
  intro i h
  cases i with
  | zero =>
    have ho : o = none := by simpa using h
    subst ho
    simp [reduceOption_cons_of_some, reduceOption_cons_of_none]
  | succ i => ?_
  have hrest := ih i (by simpa using h)
  cases o with
  | none => simpa [reduceOption_cons_of_none] using hrest
  | some b =>
    exact (hrest.cons b).trans (Perm.swap a b _)

theorem reduceOption_set_some (b : α) (l : List (Option α)) :
    ∀ i, l[i]? = some (some b) → (l.reduceOption).Perm (b :: (l.set i none).reduceOption) := by
  induction l with
  | nil =>
    intro i h
    simp at h
  | cons o l ih => ?_
  intro i h
  cases i with
  | zero =>
    have ho : o = some b := by simpa using h
    subst ho
    simp [reduceOption_cons_of_some, reduceOption_cons_of_none]
  | succ i => ?_
  have hrest := ih i (by simpa using h)
  cases o with
  | none => simpa [reduceOption_cons_of_none] using hrest
  | some c =>
    exact (hrest.cons c).trans (Perm.swap b c _)

variable {l : List (Option α)} {i : Nat}

theorem countP_set_some (h : l[i]? = some none) (a : α) :
    (l.set i (some a)).countP isSome = l.countP isSome + 1 := by
  obtain ⟨hi, hv⟩ := List.getElem?_eq_some_iff.mp h
  rw [countP_set hi, hv]
  simp

variable {b : α}

theorem countP_set_none (h : l[i]? = some (some b)) :
    (l.set i none).countP isSome = l.countP isSome - 1 := by
  obtain ⟨hi, hv⟩ := List.getElem?_eq_some_iff.mp h
  rw [countP_set hi, hv]
  simp

theorem countP_replace (h : l[i]? = some (some b)) (a : α) :
    (l.set i (some a)).countP isSome = l.countP isSome := by
  obtain ⟨hi, hv⟩ := List.getElem?_eq_some_iff.mp h
  have hpos : 0 < l.countP isSome :=
    countP_pos_iff.mpr ⟨some b, hv ▸ getElem_mem hi, rfl⟩
  rw [countP_set hi, hv]
  simp only [isSome_some, if_true]
  omega

/-! ## The operations keep the table -/

variable {home : α → Nat} {t : Slots α}

theorem empty_wf {k : Nat} (hk : 0 < k) : (empty (2 ^ k) : Slots α).WF home := by
  have htwo : 1 < 2 ^ k := Nat.one_lt_two_pow (by omega)
  refine ⟨⟨k, by simp [empty]⟩, ?_, by simpa [empty] using htwo, ?_⟩
  · simp [empty, countP_replicate]
  · intro i a h
    simp [empty, getElem?_replicate] at h

theorem empty_items (n : Nat) : (empty n : Slots α).items = [] := by
  unfold items empty
  induction n with
  | zero => rfl
  | succ n ih => simp [replicate_succ, reduceOption_cons_of_none]

section

variable (h : t.WF home)

include h

theorem WF.length_pos : 0 < t.slots.length := by
  have := h.room
  omega

theorem WF.and_mask (x : Nat) : x &&& t.mask = x % t.slots.length := by
  obtain ⟨k, hk⟩ := h.pow
  exact Lib.and_mask hk x

theorem insert_spec (hspare : t.num + 1 < t.slots.length) (a : α) :
    ∃ t', t.insert (home a) a = some t' ∧ t'.WF home ∧ t'.num = t.num + 1
      ∧ t'.slots.length = t.slots.length ∧ t'.items.Perm (a :: t.items) := by
  obtain ⟨k, hk⟩ := h.pow
  have hpos := h.length_pos
  have hb : home a % t.slots.length < t.slots.length := mod_lt _ hpos
  have hcyc : ∀ d, (home a % t.slots.length + d) % t.slots.length
      = (home a + d) % t.slots.length := fun d => mod_add_mod _ _ _
  -- some slot is free, so the walk meets one
  obtain ⟨e, he, hfree⟩ : ∃ e, e < t.slots.length
      ∧ isNone (slotAt t.slots (home a % t.slots.length) e) = true := by
    by_contra hno
    push Not at hno
    have hall := passed_le_occupied (home a % t.slots.length)
      (show t.slots.length - 1 < t.slots.length by omega)
      (fun j hj => by
        have hne := hno j (by omega)
        simpa [isSome_iff_ne_none] using hne)
    rw [← h.num_eq] at hall
    omega
  obtain ⟨c, -, hce, hc, hbefore, hrun⟩ :=
    probe_spec hk hb t.slots.length 0 e (by omega) (by omega) he hfree
  rw [add_zero, mod_eq_of_lt hb] at hrun
  have hdisp : c ≤ t.num := by
    rw [h.num_eq]
    refine passed_le_occupied (home a % t.slots.length) (by omega) fun j hj => ?_
    have := hbefore j (by omega) hj
    simpa using this
  have hslot : t.slots[(home a + c) % t.slots.length]? = some none := by
    have hlt : (home a + c) % t.slots.length < t.slots.length := mod_lt _ hpos
    unfold slotAt at hc
    rw [hcyc, getD_eq_getElem _ _ hlt] at hc
    rw [getElem?_eq_getElem hlt]
    simpa using hc
  rw [hcyc] at hrun
  refine ⟨{ slots := t.slots.set ((home a + c) % t.slots.length) (some a), num := t.num + 1,
            maxDisp := if t.maxDisp < c then c else t.maxDisp },
    ?_, ?_, rfl, ?_, reduceOption_set_none a _ _ hslot⟩
  · unfold insert
    rw [h.and_mask, hrun]
    rfl
  · refine ⟨⟨k, by simpa using hk⟩, ?_, ?_, ?_⟩
    · show t.num + 1 = _
      rw [countP_set_some hslot, h.num_eq]
    · have hroom := h.room
      simp only [length_set]
      split <;> omega
    intro i b hib
    simp only [length_set]
    rw [getElem?_set] at hib
    split at hib
    next heq =>
      have hab : a = b := by
        split at hib
        · simpa using hib
        · simp at hib
      subst hab
      refine ⟨c, ?_, heq.symm⟩
      show c ≤ if t.maxDisp < c then c else t.maxDisp
      split <;> omega
    obtain ⟨d, hd, hi⟩ := h.near i b hib
    refine ⟨d, ?_, hi⟩
    show d ≤ if t.maxDisp < c then c else t.maxDisp
    split <;> omega
  · simp

theorem find_spec (hash : Nat) (is : α → Bool) (hhome : ∀ b, is b = true → home b = hash) :
    (∃ i b, t.find hash is = some (some i) ∧ t.slots[i]? = some (some b) ∧ is b = true)
      ∨ (t.find hash is = some none ∧ ∀ b ∈ t.items, is b = false) := by
  obtain ⟨k, hk⟩ := h.pow
  have hpos := h.length_pos
  have hroom := h.room
  have hb : hash % t.slots.length < t.slots.length := mod_lt _ hpos
  have hcyc : ∀ d, (hash % t.slots.length + d) % t.slots.length
      = (hash + d) % t.slots.length := fun d => mod_add_mod _ _ _
  unfold find
  rw [h.and_mask]
  by_cases hex : ∃ b ∈ t.items, is b = true
  · -- the item is within the maximum displacement of its home
    obtain ⟨b, hmem, hisb⟩ := hex
    obtain ⟨i, hi⟩ := mem_items.mp hmem
    obtain ⟨d, hd, rfl⟩ := h.near i b hi
    have hhit : Option.any is (slotAt t.slots (hash % t.slots.length) d) = true := by
      rw [slotAt_eq_some.mpr (by rw [hcyc, ← hhome b hisb]; exact hi)]
      exact hisb
    obtain ⟨c, -, hc, hrun⟩ := search_found (fun o => Option.any is o) hk hb
      t.slots.length 0 d (by omega) (by omega) (by omega) hd hhit
    rw [add_zero, mod_eq_of_lt hb] at hrun
    cases hval : slotAt t.slots (hash % t.slots.length) c with
    | none =>
      rw [hval] at hc
      cases hc
    | some b' =>
      rw [hval] at hc
      exact .inl ⟨_, b', hrun, slotAt_eq_some.mp hval, hc⟩
  push Not at hex
  have hnone : ∀ b ∈ t.items, is b = false := fun b hb => by simpa using hex b hb
  refine .inr ⟨?_, hnone⟩
  have hmiss := search_missing (fun o => Option.any is o) hk hb hroom (fun d _ => by
      cases hval : slotAt t.slots (hash % t.slots.length) d with
      | none => rfl
      | some b => exact hnone b (mem_items.mpr ⟨_, slotAt_eq_some.mp hval⟩))
    t.slots.length 0 (by omega) (by omega)
  rw [add_zero, mod_eq_of_lt hb] at hmiss
  exact hmiss

theorem removeAt_wf (hi : t.slots[i]? = some (some b)) :
    (t.removeAt i).WF home ∧ t.items.Perm (b :: (t.removeAt i).items) := by
  refine ⟨⟨?_, ?_, ?_, ?_⟩, reduceOption_set_some b _ _ hi⟩
  · simpa [removeAt] using h.pow
  · show t.num - 1 = _
    rw [h.num_eq]
    exact (countP_set_none hi).symm
  · simpa [removeAt] using h.room
  intro j a hj
  simp only [removeAt, length_set]
  refine h.near j a ?_
  simp only [removeAt, getElem?_set] at hj
  split at hj
  next => split at hj <;> simp at hj
  next => exact hj

theorem replaceAt_wf (hi : t.slots[i]? = some (some b)) (hhome : home a = home b) :
    (t.replaceAt i a).WF home ∧ (b :: (t.replaceAt i a).items).Perm (a :: t.items) := by
  have hset : (t.slots.set i none)[i]? = some none := by
    obtain ⟨hlt, -⟩ := List.getElem?_eq_some_iff.mp hi
    simp [hlt]
  refine ⟨⟨?_, ?_, ?_, ?_⟩, ?_⟩
  · simpa [replaceAt] using h.pow
  · show t.num = _
    rw [h.num_eq]
    exact (countP_replace hi a).symm
  · simpa [replaceAt] using h.room
  · intro j c hj
    simp only [replaceAt, length_set]
    simp only [replaceAt, getElem?_set] at hj
    split at hj
    next heq =>
      have hac : a = c := by
        split at hj
        · simpa using hj
        · simp at hj
      subst hac
      subst heq
      rw [hhome]
      exact h.near _ b hi
    next => exact h.near j c hj
  -- empty the slot, then fill it again
  have h1 := reduceOption_set_some b _ _ hi
  have h2 := reduceOption_set_none a _ _ hset
  rw [set_set] at h2
  have h3 : (b :: (t.replaceAt i a).items).Perm (b :: a :: (t.slots.set i none).reduceOption) :=
    h2.cons b
  exact (h3.trans (Perm.swap a b _)).trans (h1.symm.cons a)

end

def insertAll (home : α → Nat) : Slots α → List α → Option (Slots α)
  | t, [] => some t
  | t, a :: l => (t.insert (home a) a).bind fun t' => insertAll home t' l

theorem insertAll_spec (l : List α) : ∀ {t : Slots α}, t.WF home →
    t.num + l.length < t.slots.length →
    ∃ t', insertAll home t l = some t' ∧ t'.WF home ∧ t'.num = t.num + l.length
      ∧ t'.slots.length = t.slots.length ∧ t'.items.Perm (l ++ t.items) := by
  induction l with
  | nil =>
    intro t h _
    exact ⟨t, rfl, h, rfl, rfl, Perm.refl _⟩
  | cons a l ih => ?_
  intro t h hroom
  simp only [length_cons] at hroom
  obtain ⟨t1, hins, hwf1, hnum1, hlen1, hperm1⟩ := insert_spec h (by omega) a
  obtain ⟨t2, hall, hwf2, hnum2, hlen2, hperm2⟩ := ih hwf1 (by omega)
  refine ⟨t2, ?_, hwf2, ?_, hlen2.trans hlen1, ?_⟩
  · simp [insertAll, hins, hall]
  · simp only [length_cons]
    omega
  · exact hperm2.trans ((hperm1.append_left l).trans perm_middle)

/-! ## Growing and shrinking -/

theorem resize_spec (home : α → Nat) (t : Slots α) {k : Nat} (hk : 0 < k)
    (hroom : t.items.length < 2 ^ k) :
    ∃ t', insertAll home (empty (2 ^ k)) t.items = some t' ∧ t'.WF home
      ∧ t'.slots.length = 2 ^ k ∧ t'.num = t.items.length ∧ t'.items.Perm t.items := by
  have hlen : (empty (2 ^ k) : Slots α).slots.length = 2 ^ k := length_replicate
  have hnum : (empty (2 ^ k) : Slots α).num = 0 := rfl
  obtain ⟨t', hall, hwf, hnum', hlen', hperm⟩ :=
    insertAll_spec t.items (empty_wf hk) (by rw [hlen, hnum]; omega)
  rw [empty_items, append_nil] at hperm
  exact ⟨t', hall, hwf, hlen'.trans hlen, by omega, hperm⟩

theorem double_spec (h : t.WF home) (hload : t.num ≤ t.slots.length * 3 / 4) :
    ∃ t', insertAll home (empty (t.slots.length * 2)) t.items = some t' ∧ t'.WF home
      ∧ t'.slots.length = t.slots.length * 2 ∧ t'.num = t.num ∧ t'.items.Perm t.items := by
  have hcount := num_eq_length h
  have hpos := h.length_pos
  obtain ⟨k, hk⟩ := h.pow
  have hdouble : t.slots.length * 2 = 2 ^ (k + 1) := by rw [hk, pow_succ]
  rw [hdouble, hcount]
  exact resize_spec home t k.succ_pos (by omega)

theorem eighth_spec (h : t.WF home) (hsize : 1024 ≤ t.slots.length)
    (hsparse : t.num ≤ t.slots.length / 16) :
    ∃ t', insertAll home (empty (t.slots.length / 8)) t.items = some t' ∧ t'.WF home
      ∧ t'.slots.length = t.slots.length / 8 ∧ t'.num = t.num ∧ t'.items.Perm t.items := by
  have hcount := num_eq_length h
  obtain ⟨k, hk⟩ := h.pow
  have hk10 : 10 ≤ k := by
    by_contra hlt
    have hle : 2 ^ k ≤ 2 ^ 9 := Nat.pow_le_pow_right (by omega) (by omega)
    omega
  have heighth : t.slots.length / 8 = 2 ^ (k - 3) := by
    rw [hk, show k = k - 3 + 3 by omega, pow_add]
    simp
  rw [heighth, hcount]
  exact resize_spec home t (by omega) (by omega)

def grow (home : α → Nat) (t : Slots α) : Option (Slots α) :=
  if t.slots.length * 3 / 4 ≤ t.num then
    insertAll home (empty (if t.slots.length = 0 then 64 else t.slots.length * 2)) t.items
  else some t

def shrink (home : α → Nat) (t : Slots α) : Option (Slots α) :=
  if 1024 ≤ t.slots.length ∧ t.num ≤ t.slots.length / 16 then
    insertAll home (empty (t.slots.length / 8)) t.items
  else some t

def Loaded (home : α → Nat) (t : Slots α) : Prop :=
  t.WF home ∧ 64 ≤ t.slots.length ∧ t.num ≤ t.slots.length * 3 / 4

theorem Loaded.shrink (h : t.Loaded home) :
    ∃ t', t.shrink home = some t' ∧ t'.Loaded home ∧ t'.items.Perm t.items := by
  obtain ⟨hwf, hsize, hload⟩ := h
  unfold Slots.shrink
  by_cases hsparse : 1024 ≤ t.slots.length ∧ t.num ≤ t.slots.length / 16
  · obtain ⟨t', hall, hwf', hlen', hnum', hperm⟩ := eighth_spec hwf hsparse.1 hsparse.2
    rw [if_pos hsparse]
    exact ⟨t', hall, ⟨hwf', by omega, by omega⟩, hperm⟩
  · rw [if_neg hsparse]
    exact ⟨t, rfl, ⟨hwf, hsize, hload⟩, Perm.refl _⟩

/-! ## One item per key -/

structure Keyed (home : α → Nat) (key : α → κ) (good : α → Prop) (t : Slots α) : Prop where
  shape : t = ⟨[], 0, 0⟩ ∨ t.Loaded home
  entries : ∀ a ∈ t.items, good a
  nodup : (t.items.map key).Nodup

variable {key : α → κ} {good : α → Prop}

section

variable (h : t.Keyed home key good)

include h

variable (hi : t.slots[i]? = some (some b))

theorem Keyed.loaded (hi : t.slots[i]? = some (some b)) : t.Loaded home := by
  rcases h.shape with rfl | hload
  · simp at hi
  · exact hload

theorem Keyed.grow :
    ∃ t', t.grow home = some t' ∧ t'.WF home ∧ 64 ≤ t'.slots.length
      ∧ t'.num < t'.slots.length * 3 / 4 ∧ t'.items.Perm t.items := by
  unfold Slots.grow
  rcases h.shape with rfl | ⟨hwf, hsize, hload⟩
  · obtain ⟨t', hall, hwf', hlen', hnum', hperm⟩ :=
      resize_spec home ⟨[], 0, 0⟩ (k := 6) (by decide) (Nat.two_pow_pos 6)
    have hnum0 : t'.num = 0 := hnum'
    simp only [length_nil, zero_mul, if_true]
    exact ⟨t', hall, hwf', by omega, by omega, hperm⟩
  by_cases hfull : t.slots.length * 3 / 4 ≤ t.num
  · obtain ⟨t', hall, hwf', hlen', hnum', hperm⟩ := double_spec hwf hload
    rw [if_pos hfull, if_neg (by omega)]
    exact ⟨t', hall, hwf', by omega, by omega, hperm⟩
  · rw [if_neg hfull]
    exact ⟨t, rfl, hwf, hsize, by omega, Perm.refl _⟩

theorem Keyed.add (ha : good a) (hnew : ∀ b ∈ t.items, key b ≠ key a) :
    ∃ t1 t2, t.grow home = some t1 ∧ t1.insert (home a) a = some t2
      ∧ t2.Keyed home key good ∧ t2.items.Perm (a :: t.items) := by
  obtain ⟨t1, hgrow, hwf1, hsize1, hload1, hperm1⟩ := h.grow
  obtain ⟨t2, hins, hwf2, hnum2, hlen2, hperm2⟩ := insert_spec hwf1 (by omega) a
  have hperm : t2.items.Perm (a :: t.items) := hperm2.trans (hperm1.cons a)
  refine ⟨t1, t2, hgrow, hins, ⟨.inr ⟨hwf2, by omega, by omega⟩, fun b hb => ?_, ?_⟩, hperm⟩
  · rcases mem_cons.mp (hperm.mem_iff.mp hb) with rfl | hb
    · exact ha
    · exact h.entries b hb
  refine (hperm.map key).nodup_iff.mpr (nodup_cons.mpr ⟨fun hmem => ?_, h.nodup⟩)
  obtain ⟨b, hb, hkey⟩ := mem_map.mp hmem
  exact hnew b hb hkey

include hi

theorem Keyed.replace
    (ha : good a) (hkey : key a = key b) (hhome : home a = home b) :
    (t.replaceAt i a).Keyed home key good ∧ (b :: (t.replaceAt i a).items).Perm (a :: t.items)
      ∧ ((t.replaceAt i a).items.map key).Perm (t.items.map key)
      ∧ (t.replaceAt i a).slots[i]? = some (some a) := by
  obtain ⟨hwf, hsize, hload⟩ := h.loaded hi
  obtain ⟨hlt, -⟩ := List.getElem?_eq_some_iff.mp hi
  obtain ⟨hwf', hperm⟩ := replaceAt_wf hwf hi hhome
  have hlen : (t.replaceAt i a).slots.length = t.slots.length := length_set
  have hkeys : ((t.replaceAt i a).items.map key).Perm (t.items.map key) := by
    have hmap := hperm.map key
    rw [map_cons, map_cons, hkey] at hmap
    exact hmap.cons_inv
  refine ⟨⟨.inr ⟨hwf', by omega, ?_⟩, fun c hc => ?_, hkeys.nodup_iff.mpr h.nodup⟩, hperm, hkeys,
    ?_⟩
  · rw [hlen]
    exact hload
  · rcases mem_cons.mp (hperm.mem_iff.mp (mem_cons_of_mem b hc)) with rfl | hc
    · exact ha
    · exact h.entries c hc
  · show (t.slots.set i (some a))[i]? = _
    rw [getElem?_set_self hlt]

theorem Keyed.remove :
    ∃ t', (t.removeAt i).shrink home = some t' ∧ t'.Keyed home key good
      ∧ t.items.Perm (b :: t'.items) ∧ ∀ a ∈ t'.items, key a ≠ key b := by
  obtain ⟨hwf, hsize, hload⟩ := h.loaded hi
  obtain ⟨hwf1, hperm1⟩ := removeAt_wf hwf hi
  have hlen1 : (t.removeAt i).slots.length = t.slots.length := length_set
  have hload1 : (t.removeAt i).num ≤ (t.removeAt i).slots.length * 3 / 4 := by
    show t.num - 1 ≤ (t.removeAt i).slots.length * 3 / 4
    omega
  obtain ⟨t', hres, hload', hperm'⟩ := Loaded.shrink ⟨hwf1, by omega, hload1⟩
  have hperm : t.items.Perm (b :: t'.items) := hperm1.trans (hperm'.symm.cons b)
  have hnodup : (key b :: t'.items.map key).Nodup := (hperm.map key).nodup_iff.mp h.nodup
  refine ⟨t', hres, ⟨.inr hload', fun a ha => ?_, hnodup.of_cons⟩, hperm, fun a ha hkey => ?_⟩
  · exact h.entries a (hperm.mem_iff.mpr (mem_cons_of_mem b ha))
  · exact (nodup_cons.mp hnodup).1 (mem_map.mpr ⟨a, ha, hkey⟩)

omit hi

theorem Keyed.find {k : κ} (hash : Nat) {is : α → Bool}
    (his : ∀ a, is a = true ↔ key a = k) (hhome : ∀ a, key a = k → home a = hash) :
    (∃ i a, t.slots ≠ [] ∧ t.find hash is = some (some i) ∧ t.slots[i]? = some (some a)
        ∧ key a = k ∧ t.slots.getD i none = some a)
      ∨ ((t.slots = [] ∨ t.find hash is = some none) ∧ ∀ a ∈ t.items, key a ≠ k) := by
  rcases h.shape with rfl | ⟨hwf, hsize, -⟩
  · exact .inr ⟨.inl rfl, nofun⟩
  have hne : t.slots ≠ [] := by
    intro hnil
    rw [hnil] at hsize
    simp at hsize
  rcases find_spec hwf hash is (fun a ha => hhome a ((his a).mp ha)) with
    ⟨i, a, hfind, hi, ha⟩ | ⟨hfind, hnone⟩
  · refine .inl ⟨i, a, hne, hfind, hi, (his a).mp ha, ?_⟩
    rw [getD_eq_getElem?_getD, hi]
    rfl
  · refine .inr ⟨.inr hfind, fun a ha hkey => ?_⟩
    cases ((his a).mpr hkey).symm.trans (hnone a ha)

end

theorem exists_key_of_perm_cons {t' : Slots α} (h : t'.items.Perm (a :: t.items)) (k : κ) :
    (∃ b ∈ t'.items, key b = k) ↔ key a = k ∨ ∃ b ∈ t.items, key b = k := by
  simp only [h.mem_iff, mem_cons]
  constructor
  · rintro ⟨b, rfl | hb, hk⟩
    · exact .inl hk
    · exact .inr ⟨b, hb, hk⟩
  rintro (hk | ⟨b, hb, hk⟩)
  · exact ⟨a, .inl rfl, hk⟩
  · exact ⟨b, .inr hb, hk⟩

end Slots

end ObjcRuntime.Lib
