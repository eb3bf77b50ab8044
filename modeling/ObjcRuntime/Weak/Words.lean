/-
A WEAK ENTRY AS THE FOUR WORDS IT IS.

The union of `weak_entry_t` is four machine words. Read one way they are
`inline_referrers[0 .. 3]`, read the other way

word 0   referrers, the address of an array
word 1   out_of_line_ness (two bits), num_refs
word 2   mask
word 3   max_hash_displacement

The code decides which reading applies by the two low bits of word 1. This
module models the functions on the words, for an arbitrary pointer hash; the
record also has a field for the array that was allocated for the entry, which
the functions reach only through the first reading.

* `append_referrer_spec`, `remove_referrer_spec`: one referrer more, one less,
* `Entry.WF.found`: the bounded search of `remove_referrer` is exact.
-/
import ObjcRuntime.Weak.Table

namespace ObjcRuntime.WeakWords

open Lib List Slots Nat

/-! ## Words -/

/-- `DisguisedPtr::disguise`: the negated address. -/
def disguise (W p : Nat) : Nat := (2 ^ W - p) % 2 ^ W

def undisguise (W val : Nat) : Nat := (2 ^ W - val) % 2 ^ W

/-- A stored `DisguisedPtr`: nil, or a word that is not zero. -/
def toSlot (w : Nat) : Option Nat := if w = 0 then none else some w

structure Referrer (W : Nat) where
  addr : Nat
  ne_nil : addr ≠ 0
  lt_word : addr < 2 ^ W
  aligned : 4 ∣ addr

variable {W : Nat} (r : Referrer W)

theorem undisguise_disguise : undisguise W (disguise W r.addr) = r.addr := by
  have hne := r.ne_nil
  have hlt := r.lt_word
  unfold undisguise disguise
  rw [mod_eq_of_lt (a := 2 ^ W - r.addr) (by omega),
    show 2 ^ W - (2 ^ W - r.addr) = r.addr by omega, mod_eq_of_lt hlt]

theorem disguise_ne_zero : disguise W r.addr ≠ 0 := by
  have hne := r.ne_nil
  have hlt := r.lt_word
  unfold disguise
  rw [mod_eq_of_lt (by omega)]
  omega

theorem four_dvd_disguise : 4 ∣ disguise W r.addr := by
  have hne := r.ne_nil
  have hlt := r.lt_word
  obtain ⟨k, hk⟩ := r.aligned
  have hword : 4 ∣ 2 ^ W := by
    have hbig : 2 ^ 2 < 2 ^ W := by omega
    have hW : 2 < W := (Nat.pow_lt_pow_iff_right (by omega)).mp hbig
    exact Nat.pow_dvd_pow 2 (by omega : 2 ≤ W)
  unfold disguise
  rw [Nat.mod_eq_of_lt (by omega)]
  exact Nat.dvd_sub hword r.aligned

/-! ## The entry and its fields -/

/-- Where a process stops: `bad_weak_table`, the fatal error of `weak_register_no_lock`, and the
assertion on the referent. `outOfFuel` marks a recursion deeper than the model allows for. -/
inductive Halt where
  | badWeakTable
  | cannotFormWeakReference (referent : ObjPtr)
  | assertReferent
  | outOfFuel
  deriving DecidableEq

/-- `weak_entry_t`: the referent, the four words of the union, and the array allocated for the
entry, if there is one. -/
structure Entry where
  referent : ObjPtr
  words : List Nat
  array : Option (List (Option Nat))
  deriving DecidableEq

namespace Entry

def word (e : Entry) (i : Nat) : Nat := e.words.getD i 0

def out_of_line_ness (e : Entry) : Nat := e.word 1 % 4

def num_refs (e : Entry) : Nat := e.word 1 / 4

def mask (e : Entry) : Nat := e.word 2

def max_hash_displacement (e : Entry) : Nat := e.word 3

end Entry

def REFERRERS_OUT_OF_LINE : Nat := 2

def Entry.out_of_line (e : Entry) : Bool := e.out_of_line_ness == REFERRERS_OUT_OF_LINE

/-- `TABLE_SIZE(entry)`. -/
def Entry.TABLE_SIZE (e : Entry) : Nat := if e.mask = 0 then 0 else e.mask + 1

/-- `entry->referrers[0 .. TABLE_SIZE-1]` with its counters. -/
def Entry.table (e : Entry) : Slots Nat :=
  ⟨(e.array.getD []).take e.TABLE_SIZE, e.num_refs, e.max_hash_displacement⟩

/-- Write the array and the fields `num_refs` and `max_hash_displacement`. -/
def Entry.store (e : Entry) (t : Slots Nat) : Entry :=
  { e with
    words := (e.words.set 1 (4 * t.num + e.out_of_line_ness)).set 3 t.maxDisp
    array := some t.slots }

def Entry.slots (e : Entry) : List (Option Nat) :=
  if e.out_of_line then e.table.slots else e.words.map toSlot

def Entry.referrers (W : Nat) (e : Entry) : List Nat := e.slots.reduceOption.map (undisguise W)

/-- The addresses that `calloc` returns, by size; none of them is nil. -/
structure Calloc where
  address : Nat → Nat
  ne_nil : ∀ n, address n ≠ 0

/-! ## The functions of objc-weak.mm -/

/-- The constructor of `weak_entry_t`. -/
def Entry.new (newReferent : ObjPtr) (newReferrer : Referrer W) : Entry :=
  ⟨newReferent, [disguise W newReferrer.addr, 0, 0, 0], none⟩

/-- The copying loop of `grow_refs_and_insert`. -/
def growLoop (append : Entry → Nat → Except Halt Entry) :
    List (Option Nat) → Nat → Entry → Except Halt Entry
  | [], _, entry => .ok entry
  | old_ref :: old_refs, num_refs, entry =>
    if num_refs = 0 then .ok entry
    else
      match old_ref with
      | none => growLoop append old_refs num_refs entry
      | some w =>
        match append entry w with
        | .error e => .error e
        | .ok entry' => growLoop append old_refs (num_refs - 1) entry'

/-- `grow_refs_and_insert`. A referrer is handed over as the word that is stored for it. -/
def grow_refs_and_insert (calloc : Calloc) (append : Entry → Nat → Except Halt Entry)
    (entry : Entry) (new_referrer : Nat) : Except Halt Entry :=
  let old_size := entry.TABLE_SIZE
  let new_size := if old_size = 0 then 8 else old_size * 2
  let entry₀ : Entry :=
    { entry with
      words := [calloc.address new_size, 4 * 0 + entry.out_of_line_ness, new_size - 1, 0]
      array := some (replicate new_size none) }
  match growLoop append entry.table.slots entry.num_refs entry₀ with
  | .error e => .error e
  | .ok entry' => append entry' new_referrer

/-- The second half of `append_referrer`. -/
def appendOutOfLine (W : Nat) (ptr_hash : Nat → Nat) (calloc : Calloc)
    (append : Entry → Nat → Except Halt Entry) (entry : Entry) (new_referrer : Nat) :
    Except Halt Entry :=
  if entry.TABLE_SIZE * 3 / 4 ≤ entry.num_refs then
    grow_refs_and_insert calloc append entry new_referrer
  else
    match entry.table.insert (ptr_hash (undisguise W new_referrer)) new_referrer with
    | none => .error .badWeakTable
    | some t => .ok (entry.store t)

def Entry.allocateOutOfLine (calloc : Calloc) (entry : Entry) : Entry :=
  { entry with
    words := [calloc.address WEAK_INLINE_COUNT, 4 * WEAK_INLINE_COUNT + REFERRERS_OUT_OF_LINE,
      WEAK_INLINE_COUNT - 1, 0]
    array := some (entry.words.map toSlot) }

/-- `append_referrer`, which `grow_refs_and_insert` calls back. -/
def appendFuel (W : Nat) (ptr_hash : Nat → Nat) (calloc : Calloc) :
    Nat → Entry → Nat → Except Halt Entry
  | 0, _, _ => .error .outOfFuel
  | fuel + 1, entry, new_referrer =>
    if entry.out_of_line then
      appendOutOfLine W ptr_hash calloc (appendFuel W ptr_hash calloc fuel) entry new_referrer
    else
      match entry.words.findIdx? (· == 0) with
      | some i => .ok { entry with words := entry.words.set i new_referrer }
      | none =>
        appendOutOfLine W ptr_hash calloc (appendFuel W ptr_hash calloc fuel)
          (entry.allocateOutOfLine calloc) new_referrer

/-- `append_referrer`: a growth calls back once, on a table with room. -/
def append_referrer (W : Nat) (ptr_hash : Nat → Nat) (calloc : Calloc) (entry : Entry)
    (new_referrer : Nat) : Except Halt Entry :=
  appendFuel W ptr_hash calloc 2 entry new_referrer

/-- The search of `remove_referrer` in either form. -/
def Entry.indexOf (W : Nat) (ptr_hash : Nat → Nat) (entry : Entry) (old_referrer : Nat) :
    Except Halt (Option Nat) :=
  if entry.out_of_line then
    match entry.table.find (ptr_hash old_referrer) (fun w => undisguise W w == old_referrer) with
    | none => .error .badWeakTable
    | some i => .ok i
  else .ok ((entry.words.map toSlot).findIdx? (fun s => s.any (undisguise W · == old_referrer)))

/-- `remove_referrer`. An unknown referrer is reported and nothing changes. -/
def remove_referrer (W : Nat) (ptr_hash : Nat → Nat) (entry : Entry) (old_referrer : Nat) :
    Except Halt Entry :=
  match entry.indexOf W ptr_hash old_referrer with
  | .error e => .error e
  | .ok none => .ok entry
  | .ok (some i) =>
    if entry.out_of_line then .ok (entry.store (entry.table.removeAt i))
    else .ok { entry with words := entry.words.set i 0 }

/-- The test for emptiness in `weak_unregister_no_lock`. -/
def Entry.isEmpty (entry : Entry) : Bool :=
  if entry.out_of_line && entry.num_refs != 0 then false else entry.words.all (· == 0)

/-! ## The two kinds of entries -/

def inlineEntry (referent : ObjPtr) (ws : List Nat) : Entry := ⟨referent, ws, none⟩

def tableEntry (referent : ObjPtr) (address : Nat) (t : Slots Nat) : Entry :=
  ⟨referent, [address, 4 * t.num + 2, t.slots.length - 1, t.maxDisp], some t.slots⟩

def homeOf (W : Nat) (ptr_hash : Nat → Nat) (w : Nat) : Nat := ptr_hash (undisguise W w)

structure TableOK (W : Nat) (ptr_hash : Nat → Nat) (t : Slots Nat) : Prop where
  hashed : t.WF (homeOf W ptr_hash)
  size : 8 ≤ t.slots.length
  load : t.num ≤ t.slots.length * 3 / 4

inductive Entry.WF (W : Nat) (ptr_hash : Nat → Nat) : Entry → Prop
  | inline {referent : ObjPtr} {ws : List Nat} : ws.length = WEAK_INLINE_COUNT →
      (∀ w ∈ ws, 4 ∣ w) → Entry.WF W ptr_hash (inlineEntry referent ws)
  | table {referent : ObjPtr} {address : Nat} {t : Slots Nat} : address ≠ 0 →
      TableOK W ptr_hash t → Entry.WF W ptr_hash (tableEntry referent address t)

section Views

variable (referent : ObjPtr) (address : Nat)

theorem tableEntry_out_of_line (t : Slots Nat) :
    (tableEntry referent address t).out_of_line = true := by
  have htag : (4 * t.num + 2) % 4 = 2 := by omega
  show ((4 * t.num + 2) % 4 == 2) = true
  rw [htag]
  rfl

theorem tableEntry_num_refs (t : Slots Nat) : (tableEntry referent address t).num_refs = t.num := by
  show (4 * t.num + 2) / 4 = t.num
  omega

variable {t : Slots Nat}

theorem tableEntry_TABLE_SIZE (h : 2 ≤ t.slots.length) :
    (tableEntry referent address t).TABLE_SIZE = t.slots.length := by
  show (if t.slots.length - 1 = 0 then 0 else t.slots.length - 1 + 1) = _
  rw [if_neg (by omega)]
  omega

theorem tableEntry_table (h : 2 ≤ t.slots.length) : (tableEntry referent address t).table = t := by
  unfold Entry.table
  rw [tableEntry_TABLE_SIZE referent address h, tableEntry_num_refs]
  show (⟨t.slots.take t.slots.length, t.num, t.maxDisp⟩ : Slots Nat) = t
  rw [take_length]

theorem tableEntry_store {t' : Slots Nat} (hlen : t'.slots.length = t.slots.length) :
    (tableEntry referent address t).store t' = tableEntry referent address t' := by
  have htag : (tableEntry referent address t).out_of_line_ness = 2 := by
    show (4 * t.num + 2) % 4 = 2
    omega
  unfold Entry.store
  rw [htag]
  show (⟨referent, [address, 4 * t'.num + 2, t.slots.length - 1, t'.maxDisp], some t'.slots⟩ : Entry)
    = _
  rw [← hlen]
  rfl

theorem tableEntry_slots (h : 2 ≤ t.slots.length) :
    (tableEntry referent address t).slots = t.slots := by
  unfold Entry.slots
  rw [if_pos (tableEntry_out_of_line referent address t), tableEntry_table referent address h]

theorem inlineEntry_out_of_line {ws : List Nat} (h : ∀ w ∈ ws, 4 ∣ w) :
    (inlineEntry referent ws).out_of_line = false := by
  have hword : (inlineEntry referent ws).out_of_line_ness = 0 := by
    show ws.getD 1 0 % 4 = 0
    rw [getD_eq_getElem?_getD]
    cases hget : ws[1]? with
    | none => rfl
    | some w => exact mod_eq_zero_of_dvd (h w (mem_of_getElem? hget))
  unfold Entry.out_of_line
  rw [hword]
  rfl

theorem inlineEntry_slots {ws : List Nat} (h : ∀ w ∈ ws, 4 ∣ w) :
    (inlineEntry referent ws).slots = ws.map toSlot := by
  unfold Entry.slots
  rw [if_neg (by rw [inlineEntry_out_of_line referent h]; exact Bool.false_ne_true)]
  rfl

end Views

section Entries

variable {ptr_hash : Nat → Nat}

theorem new_words_aligned (r : Referrer W) : ∀ w ∈ [disguise W r.addr, 0, 0, 0], 4 ∣ w := by
  intro w hw
  rcases mem_cons.mp hw with rfl | hw
  · exact four_dvd_disguise r
  have hz : w = 0 := by simpa using hw
  rw [hz]
  exact dvd_zero 4

theorem Entry.new_wf (o : ObjPtr) (r : Referrer W) : (Entry.new o r).WF W ptr_hash :=
  Entry.WF.inline rfl (new_words_aligned r)

theorem Entry.new_referrers (o : ObjPtr) (r : Referrer W) : (Entry.new o r).referrers W = [r.addr] := by
  have hslots : (Entry.new o r).slots = [disguise W r.addr, 0, 0, 0].map toSlot :=
    inlineEntry_slots o (new_words_aligned r)
  unfold Entry.referrers
  rw [hslots]
  simp [toSlot, disguise_ne_zero r, reduceOption, undisguise_disguise r]

variable {e : Entry} (h : e.WF W ptr_hash)
include h

theorem Entry.WF.tag : e.out_of_line = e.array.isSome := by
  cases h with
  | inline _ hws => exact inlineEntry_out_of_line _ hws
  | table _ _ => exact tableEntry_out_of_line _ _ _

theorem Entry.WF.num_refs_eq (hout : e.out_of_line = true) :
    e.num_refs = (e.referrers W).length := by
  cases h with
  | inline _ hws => cases (inlineEntry_out_of_line _ hws).symm.trans hout
  | table _ ht => ?_
  have hsize := ht.size
  unfold Entry.referrers
  rw [tableEntry_num_refs, tableEntry_slots _ _ (by omega), length_map]
  exact num_eq_length ht.hashed

omit h

theorem findIdx?_any_eq {l : List (Option Nat)} {p : Nat → Bool} {i : Nat}
    (h : l.findIdx? (fun s => s.any p) = some i) : ∃ w, l[i]? = some (some w) ∧ p w = true := by
  obtain ⟨hi, hp, -⟩ := findIdx?_eq_some_iff_getElem.mp h
  cases hs : l[i] with
  | none => rw [hs] at hp; cases hp
  | some w =>
    rw [hs] at hp
    exact ⟨w, by rw [getElem?_eq_getElem hi, hs], hp⟩

theorem Entry.WF.found (h : e.WF W ptr_hash) (r : Nat) :
    (∃ i w, e.indexOf W ptr_hash r = .ok (some i) ∧ e.slots[i]? = some (some w)
        ∧ undisguise W w = r)
      ∨ (e.indexOf W ptr_hash r = .ok none ∧ r ∉ e.referrers W) := by
  cases h with
  | @inline referent ws _ hws =>
    have hform := inlineEntry_out_of_line referent hws
    have hslots := inlineEntry_slots referent hws
    unfold Entry.indexOf Entry.referrers
    rw [hform, hslots]
    cases hfind : ((inlineEntry referent ws).words.map toSlot).findIdx?
        (fun s => s.any (undisguise W · == r)) with
    | some i =>
      obtain ⟨w, hi, hw⟩ := findIdx?_any_eq hfind
      exact .inl ⟨i, w, rfl, hi, eq_of_beq hw⟩
    | none =>
      refine .inr ⟨rfl, ?_⟩
      intro hmem
      obtain ⟨w, hw, hwr⟩ := mem_map.mp hmem
      have hno := findIdx?_eq_none_iff.mp hfind (some w) (reduceOption_mem_iff.mp hw)
      simp [hwr] at hno
  | @table referent address t _ ht => ?_
  have hsize := ht.size
  unfold Entry.indexOf Entry.referrers
  rw [tableEntry_out_of_line, tableEntry_table _ _ (by omega), tableEntry_slots _ _ (by omega)]
  simp only [if_true]
  rcases find_spec ht.hashed (ptr_hash r) (fun w => undisguise W w == r)
      (fun w hw => by rw [homeOf, eq_of_beq hw]) with ⟨i, w, hfind, hi, hw⟩ | ⟨hfind, hnone⟩
  · exact .inl ⟨i, w, by rw [hfind], hi, eq_of_beq hw⟩
  refine .inr ⟨by rw [hfind], ?_⟩
  intro hmem
  obtain ⟨w, hw, hwr⟩ := mem_map.mp hmem
  have hno := hnone w hw
  simp [hwr] at hno

/-! ## Appending -/

variable (calloc : Calloc) (referent : ObjPtr) (address : Nat) {t : Slots Nat}

theorem append_with_room (h : TableOK W ptr_hash t)
    (hroom : t.num < t.slots.length * 3 / 4) (fuel w : Nat) :
    ∃ t', appendFuel W ptr_hash calloc (fuel + 1) (tableEntry referent address t) w
        = .ok (tableEntry referent address t')
      ∧ TableOK W ptr_hash t' ∧ t'.num = t.num + 1
      ∧ t'.slots.length = t.slots.length ∧ t'.items.Perm (w :: t.items) := by
  have hsize := h.size
  obtain ⟨t', hins, hwf', hnum, hlen, hperm⟩ := insert_spec h.hashed (by omega) w
  refine ⟨t', ?_, ⟨hwf', by omega, by omega⟩, hnum, hlen, hperm⟩
  rw [appendFuel, if_pos (tableEntry_out_of_line referent address t)]
  unfold appendOutOfLine
  rw [tableEntry_TABLE_SIZE _ _ (by omega), tableEntry_num_refs, if_neg (by omega),
    tableEntry_table _ _ (by omega)]
  have hins' : t.insert (ptr_hash (undisguise W w)) w = some t' := hins
  rw [hins']
  show Except.ok ((tableEntry referent address t).store t') = _
  rw [tableEntry_store _ _ hlen]

theorem growLoop_spec (fuel : Nat) (old_refs : List (Option Nat)) :
    ∀ t : Slots Nat, TableOK W ptr_hash t →
      t.num + old_refs.reduceOption.length ≤ t.slots.length * 3 / 4 →
      ∃ t', growLoop (appendFuel W ptr_hash calloc (fuel + 1)) old_refs
          old_refs.reduceOption.length (tableEntry referent address t)
            = .ok (tableEntry referent address t')
        ∧ TableOK W ptr_hash t' ∧ t'.num = t.num + old_refs.reduceOption.length
        ∧ t'.slots.length = t.slots.length
        ∧ t'.items.Perm (old_refs.reduceOption ++ t.items) := by
  induction old_refs with
  | nil =>
    intro t h _
    exact ⟨t, rfl, h, rfl, rfl, Perm.refl _⟩
  | cons old_ref old_refs ih => ?_
  intro t h hroom
  cases old_ref with
  | none =>
    rw [reduceOption_cons_of_none] at hroom ⊢
    obtain ⟨t', hloop, hrest⟩ := ih t h hroom
    refine ⟨t', ?_, hrest⟩
    unfold growLoop
    split
    next hz =>
      -- nothing left to copy
      rw [hz] at hloop
      have hstop : growLoop (appendFuel W ptr_hash calloc (fuel + 1)) old_refs 0
          (tableEntry referent address t) = .ok (tableEntry referent address t) := by
        cases old_refs <;> rfl
      exact hstop.symm.trans hloop
    next => exact hloop
  | some w => ?_
  rw [reduceOption_cons_of_some] at hroom ⊢
  simp only [length_cons] at hroom ⊢
  obtain ⟨t1, happ, hok1, hnum1, hlen1, hperm1⟩ :=
    append_with_room calloc referent address h (by omega) fuel w
  obtain ⟨t2, hloop, hok2, hnum2, hlen2, hperm2⟩ := ih t1 hok1 (by omega)
  refine ⟨t2, ?_, hok2, by omega, by omega, ?_⟩
  · unfold growLoop
    simp only [happ]
    exact hloop
  · exact hperm2.trans ((hperm1.append_left _).trans perm_middle)

theorem grow_refs_and_insert_spec {k : Nat} (hlen : t.slots.length = 2 ^ k)
    (hsize : 4 ≤ t.slots.length) (hnum : t.num = t.items.length)
    (hle : t.num < t.slots.length * 2 * 3 / 4) (fuel w : Nat) :
    ∃ t', grow_refs_and_insert calloc (appendFuel W ptr_hash calloc (fuel + 1))
        (tableEntry referent address t) w
          = .ok (tableEntry referent (calloc.address (t.slots.length * 2)) t')
      ∧ TableOK W ptr_hash t' ∧ t'.items.Perm (w :: t.items) := by
  have hpow : t.slots.length * 2 = 2 ^ (k + 1) := by rw [hlen, pow_succ]
  have hlen0 : (empty (t.slots.length * 2) : Slots Nat).slots.length = t.slots.length * 2 :=
    length_replicate
  have hnum0 : (empty (t.slots.length * 2) : Slots Nat).num = 0 := rfl
  have hstart : TableOK W ptr_hash (empty (t.slots.length * 2)) := by
    refine ⟨?_, by rw [hlen0]; omega, by rw [hnum0]; exact zero_le _⟩
    rw [hpow]
    exact empty_wf (by omega)
  have hitems : t.slots.reduceOption.length = t.num := hnum.symm
  obtain ⟨t1, hloop, hok1, hnum1, hlen1, hperm1⟩ :=
    growLoop_spec calloc referent (calloc.address (t.slots.length * 2)) fuel t.slots _ hstart
      (by rw [hitems, hlen0, hnum0]; omega)
  obtain ⟨t2, happ, hok2, -, -, hperm2⟩ := append_with_room calloc referent
    (calloc.address (t.slots.length * 2)) hok1 (by omega) fuel w
  refine ⟨t2, ?_, hok2, ?_⟩
  · have hne : ¬ t.slots.length = 0 := by omega
    have htag : (tableEntry referent address t).out_of_line_ness = 2 := by
      show (4 * t.num + 2) % 4 = 2
      omega
    -- the entry with the new array is the empty table at the new address
    have hempty : (⟨(tableEntry referent address t).referent,
        [calloc.address (t.slots.length * 2), 4 * 0 + 2,
          t.slots.length * 2 - 1, 0], some (replicate (t.slots.length * 2) none)⟩ : Entry)
        = tableEntry referent (calloc.address (t.slots.length * 2))
            (empty (t.slots.length * 2)) := by
      unfold tableEntry
      rw [hlen0]
      rfl
    rw [hitems] at hloop
    unfold grow_refs_and_insert
    rw [tableEntry_TABLE_SIZE _ _ (by omega), tableEntry_table _ _ (by omega),
      tableEntry_num_refs, htag]
    simp only [hne, if_false, hempty, hloop]
    exact happ
  · rw [empty_items, append_nil] at hperm1
    exact hperm2.trans (hperm1.cons w)

theorem referrers_tableEntry (h : 2 ≤ t.slots.length) :
    (tableEntry referent address t).referrers W = t.items.map (undisguise W) := by
  unfold Entry.referrers
  rw [tableEntry_slots _ _ h]
  rfl

variable {ws : List Nat}

theorem referrers_inlineEntry (h : ∀ w ∈ ws, 4 ∣ w) :
    (inlineEntry referent ws).referrers W = (ws.map toSlot).reduceOption.map (undisguise W) := by
  unfold Entry.referrers
  rw [inlineEntry_slots _ h]

theorem reduceOption_full (h : ∀ w ∈ ws, w ≠ 0) : (ws.map toSlot).reduceOption = ws := by
  induction ws with
  | nil => rfl
  | cons w ws ih =>
    have hw : toSlot w = some w := if_neg (h w mem_cons_self)
    rw [map_cons, hw, reduceOption_cons_of_some, ih fun w' hw' => h w' (mem_cons_of_mem _ hw')]

theorem allocateOutOfLine_eq (hlen : ws.length = WEAK_INLINE_COUNT) :
    (inlineEntry referent ws).allocateOutOfLine calloc
      = tableEntry referent (calloc.address WEAK_INLINE_COUNT)
          ⟨ws.map toSlot, WEAK_INLINE_COUNT, 0⟩ := by
  have hlen4 : (ws.map toSlot).length = WEAK_INLINE_COUNT := by rw [length_map, hlen]
  unfold tableEntry
  simp only [hlen4]
  rfl

theorem append_referrer_spec (h : e.WF W ptr_hash) (r : Referrer W) :
    ∃ e', append_referrer W ptr_hash calloc e (disguise W r.addr) = .ok e' ∧ e'.WF W ptr_hash
      ∧ e'.referent = e.referent ∧ (e'.referrers W).Perm (r.addr :: e.referrers W) := by
  have hback := undisguise_disguise r
  have happended : ∀ {t : Slots Nat} {items : List Nat} {referent address : Nat},
      8 ≤ t.slots.length → t.items.Perm (disguise W r.addr :: items) →
      ((tableEntry referent address t).referrers W).Perm (r.addr :: items.map (undisguise W)) := by
    intro t items referent address hsize hperm
    rw [referrers_tableEntry _ _ (by omega)]
    have hmap := hperm.map (undisguise W)
    rwa [map_cons, hback] at hmap
  unfold append_referrer
  cases h with
  | @inline referent ws hlen hws =>
    rw [appendFuel, if_neg (by
      rw [inlineEntry_out_of_line referent hws]
      exact Bool.false_ne_true)]
    rw [referrers_inlineEntry referent hws]
    cases hfind : (inlineEntry referent ws).words.findIdx? (· == 0) with
    | some i =>
      obtain ⟨hi, hz, -⟩ := findIdx?_eq_some_iff_getElem.mp hfind
      have hi' : i < ws.length := hi
      have hslot : (ws.map toSlot)[i]? = some none := by
        have hzero : ws[i] = 0 := eq_of_beq hz
        rw [getElem?_map, getElem?_eq_getElem hi', hzero]
        rfl
      have hws' : ∀ w ∈ ws.set i (disguise W r.addr), 4 ∣ w := by
        intro w hw
        rcases mem_or_eq_of_mem_set hw with hw | rfl
        · exact hws w hw
        · exact four_dvd_disguise r
      refine ⟨inlineEntry referent (ws.set i (disguise W r.addr)), rfl,
        .inline (by rw [length_set, hlen]) hws', rfl, ?_⟩
      rw [referrers_inlineEntry referent hws', map_set,
        show toSlot (disguise W r.addr) = some (disguise W r.addr) from
          if_neg (disguise_ne_zero r)]
      have hperm := (reduceOption_set_none (disguise W r.addr) _ i hslot).map (undisguise W)
      rw [map_cons, hback] at hperm
      exact hperm
    | none => ?_
    -- all four words are taken: build the table
    have hfull : ∀ w ∈ ws, w ≠ 0 := by
      intro w hw hz
      have hno := findIdx?_eq_none_iff.mp hfind w hw
      simp [hz] at hno
    have hlen4 : (ws.map toSlot).length = 4 := by rw [length_map, hlen]; rfl
    have hitems := reduceOption_full hfull
    obtain ⟨t', hgrow, hok, hperm⟩ := grow_refs_and_insert_spec (W := W) calloc referent
      (calloc.address WEAK_INLINE_COUNT) (t := ⟨ws.map toSlot, WEAK_INLINE_COUNT, 0⟩)
      (k := 2) hlen4 (le_of_eq hlen4.symm)
      (by
        show WEAK_INLINE_COUNT = (ws.map toSlot).reduceOption.length
        rw [hitems, hlen])
      (by
        show 4 < (ws.map toSlot).length * 2 * 3 / 4
        rw [hlen4]
        decide) 0 (disguise W r.addr)
    refine ⟨tableEntry referent (calloc.address ((ws.map toSlot).length * 2)) t', ?_,
      .table (calloc.ne_nil _) hok, rfl, ?_⟩
    · show appendOutOfLine W ptr_hash calloc (appendFuel W ptr_hash calloc 1)
        ((inlineEntry referent ws).allocateOutOfLine calloc) (disguise W r.addr) = _
      rw [allocateOutOfLine_eq calloc referent hlen]
      unfold appendOutOfLine
      rw [tableEntry_TABLE_SIZE _ _ (by simp only [hlen4]; omega), tableEntry_num_refs,
        if_pos (by simp only [hlen4]; decide)]
      exact hgrow
    exact happended hok.size hperm
  | @table referent address t hne ht => ?_
  have hsize := ht.size
  rw [referrers_tableEntry referent address (by omega)]
  by_cases hroom : t.num < t.slots.length * 3 / 4
  · obtain ⟨t', happ, hok, -, -, hperm⟩ :=
      append_with_room calloc referent address ht hroom 1 (disguise W r.addr)
    exact ⟨_, happ, .table hne hok, rfl, happended hok.size hperm⟩
  obtain ⟨k, hk⟩ := ht.hashed.pow
  have hload := ht.load
  obtain ⟨t', hgrow, hok, hperm⟩ := grow_refs_and_insert_spec (W := W) calloc referent address
    hk (by omega) (num_eq_length ht.hashed) (by omega) 0 (disguise W r.addr)
  refine ⟨tableEntry referent (calloc.address (t.slots.length * 2)) t', ?_,
    .table (calloc.ne_nil _) hok, rfl, ?_⟩
  · rw [appendFuel, if_pos (tableEntry_out_of_line referent address t)]
    unfold appendOutOfLine
    rw [tableEntry_TABLE_SIZE _ _ (by omega), tableEntry_num_refs, if_pos (by omega)]
    exact hgrow
  · exact happended hok.size hperm

/-! ## Removing -/

theorem store_removeAt (ht : TableOK W ptr_hash t) {i w : Nat} (hi : t.slots[i]? = some (some w)) :
    (tableEntry referent address t).store (t.removeAt i)
        = tableEntry referent address (t.removeAt i)
      ∧ TableOK W ptr_hash (t.removeAt i) ∧ t.items.Perm (w :: (t.removeAt i).items) := by
  have hsize := ht.size
  have hload := ht.load
  have hlen : (t.removeAt i).slots.length = t.slots.length := length_set
  obtain ⟨hwf, hperm⟩ := removeAt_wf ht.hashed hi
  refine ⟨tableEntry_store _ _ hlen, ⟨hwf, by omega, ?_⟩, hperm⟩
  show t.num - 1 ≤ (t.removeAt i).slots.length * 3 / 4
  omega

include h

theorem remove_referrer_spec (r : Nat) :
    ∃ e', remove_referrer W ptr_hash e r = .ok e' ∧ e'.WF W ptr_hash
      ∧ e'.referent = e.referent ∧ (e'.referrers W).Perm ((e.referrers W).erase r)
      ∧ e'.out_of_line = e.out_of_line := by
  unfold remove_referrer
  rcases h.found r with ⟨i, w, hindex, hi, rfl⟩ | ⟨hindex, hmiss⟩
  · rw [hindex]
    cases h with
    | @inline referent ws hlen hws =>
      have hform := inlineEntry_out_of_line referent hws
      rw [inlineEntry_slots referent hws] at hi
      have hws' : ∀ w' ∈ ws.set i 0, 4 ∣ w' := by
        intro w' hw'
        rcases mem_or_eq_of_mem_set hw' with hw' | rfl
        · exact hws w' hw'
        · exact dvd_zero 4
      have hform' := inlineEntry_out_of_line referent hws'
      simp only [hform, Bool.false_eq_true, if_false]
      refine ⟨inlineEntry referent (ws.set i 0), rfl, .inline (by rw [length_set, hlen]) hws',
        rfl, ?_, hform'⟩
      rw [referrers_inlineEntry referent hws', referrers_inlineEntry referent hws, map_set,
        show toSlot 0 = none from rfl]
      have hperm := ((reduceOption_set_some w _ i hi).map (undisguise W)).erase (undisguise W w)
      rw [map_cons, erase_cons_head] at hperm
      exact hperm.symm
    | @table referent address t hne ht => ?_
    have hsize := ht.size
    have hform := tableEntry_out_of_line referent address t
    rw [tableEntry_slots referent address (by omega)] at hi
    obtain ⟨hstore, hok, hperm⟩ := store_removeAt referent address ht hi
    simp only [hform, if_true]
    rw [tableEntry_table _ _ (by omega), hstore]
    refine ⟨_, rfl, .table hne hok, rfl, ?_, tableEntry_out_of_line _ _ _⟩
    rw [referrers_tableEntry _ _ (by have := hok.size; omega),
      referrers_tableEntry _ _ (by omega)]
    have hmap := (hperm.map (undisguise W)).erase (undisguise W w)
    rw [map_cons, erase_cons_head] at hmap
    exact hmap.symm
  · rw [hindex]
    refine ⟨e, rfl, h, rfl, ?_, rfl⟩
    rw [erase_of_not_mem hmiss]

/-- **What the emptiness test sees.** An inline entry is empty if it has no referrers. An
out-of-line entry is never empty: with `num_refs` zero the test looks at the inline referrers, and
the first of them is the address of the array. -/
theorem Entry.WF.isEmpty_iff :
    e.isEmpty = true ↔ e.out_of_line = false ∧ e.referrers W = [] := by
  cases h with
  | @inline referent ws hlen hws =>
    have hform := inlineEntry_out_of_line referent hws
    unfold Entry.isEmpty
    rw [hform, referrers_inlineEntry referent hws]
    simp only [Bool.false_and, Bool.false_eq_true, if_false, true_and, map_eq_nil_iff]
    rw [all_eq_true, reduceOption, filterMap_eq_nil_iff]
    constructor
    · intro hall s hs
      obtain ⟨w, hw, rfl⟩ := mem_map.mp hs
      have hz : w = 0 := eq_of_beq (hall w hw)
      rw [hz]
      rfl
    intro hall w hw
    have hnone : toSlot w = none := hall (toSlot w) (mem_map_of_mem hw)
    rw [beq_iff_eq]
    by_contra hne
    rw [toSlot, if_neg hne] at hnone
    cases hnone
  | @table referent address t hne ht => ?_
  have hform := tableEntry_out_of_line referent address t
  rw [hform]
  constructor
  · intro hempty
    unfold Entry.isEmpty at hempty
    split at hempty
    · cases hempty
    · have hall := all_eq_true.mp hempty address mem_cons_self
      exact absurd (eq_of_beq hall) hne
  · rintro ⟨hno, -⟩
    cases hno

end Entries

end ObjcRuntime.WeakWords
