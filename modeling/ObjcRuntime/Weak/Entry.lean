/-
ONE OBJECT'S WEAK REFERRERS.

`weak_entry_t` holds the addresses of the weak variables that refer to one
object: up to four inline, more than that in an open-addressing table. The
two forms are a union in the source, told apart by `out_of_line_ness`, two
bits that no pointer-aligned address can produce; here they are two
constructors.

The content of an entry is the list `items`; `append_referrer` adds one
address to it and `remove_referrer` takes one away, through every growth of
the table (`append_referrer_spec`, `remove_referrer_spec`).
-/
import ObjcRuntime.Lib.OpenAddressing

namespace ObjcRuntime

open Lib List Option Slots

/-! ## Pointers and their hash -/

abbrev ObjPtr := Nat

abbrev Location := Nat

/-- `__builtin_bswap64`. -/
def bswap64 (x : Nat) : Nat :=
  (range 8).foldl (fun acc i => acc ||| ((x >>> (8 * i) &&& 0xff) <<< (8 * (7 - i)))) 0

/-- `ptr_hash` of objc-private.h for 64-bit targets. -/
def ptr_hash (key : Nat) : Nat :=
  let key := key ^^^ (key >>> 4)
  let key := key * 0x8a970be7488fda55 % 2 ^ 64
  let key := key ^^^ bswap64 key
  key % 2 ^ 32

def hash_pointer (key : ObjPtr) : Nat := ptr_hash key

def w_hash_pointer (key : Location) : Nat := ptr_hash key

/-- Where the runtime halts the process. `outOfFuel` is not one of its messages:
it marks a recursion deeper than the model allows for, and never happens. -/
inductive Fatal where
  | badWeakTable
  | cannotFormWeakReference (referent : ObjPtr)
  | outOfFuel
  deriving DecidableEq

/-! ## The entry -/

def WEAK_INLINE_COUNT : Nat := 4

/-- The union inside `weak_entry_t`. -/
inductive Referrers where
  | inline (inline_referrers : List (Option Location))
  | outOfLine (table : Slots Location)
  deriving DecidableEq

/-- `weak_entry_t`. -/
structure WeakEntry where
  referent : ObjPtr
  referrers : Referrers
  deriving DecidableEq

/-- The constructor of `weak_entry_t`. -/
def WeakEntry.new (newReferent : ObjPtr) (newReferrer : Location) : WeakEntry :=
  ⟨newReferent, .inline [some newReferrer, none, none, none]⟩

/-- The copying loop of `grow_refs_and_insert`: stops early once `num_refs`
referrers are copied. -/
def growLoop (append : Referrers → Location → Except Fatal Referrers) :
    List (Option Location) → Nat → Referrers → Except Fatal Referrers
  | [], _, entry => .ok entry
  | old_ref :: old_refs, num_refs, entry =>
    if num_refs = 0 then .ok entry
    else
      match old_ref with
      | none => growLoop append old_refs num_refs entry
      | some r =>
        match append entry r with
        | .error e => .error e
        | .ok entry' => growLoop append old_refs (num_refs - 1) entry'

def grow_refs_and_insert (append : Referrers → Location → Except Fatal Referrers)
    (entry : Slots Location) (new_referrer : Location) : Except Fatal Referrers :=
  let old_size := entry.slots.length
  let new_size := if old_size = 0 then 8 else old_size * 2
  match growLoop append entry.slots entry.num (.outOfLine (Slots.empty new_size)) with
  | .error e => .error e
  | .ok entry' => append entry' new_referrer

/-- The second half of `append_referrer`, for an out-of-line entry. -/
def appendOutOfLine (append : Referrers → Location → Except Fatal Referrers)
    (entry : Slots Location) (new_referrer : Location) : Except Fatal Referrers :=
  if entry.slots.length * 3 / 4 ≤ entry.num then grow_refs_and_insert append entry new_referrer
  else
    match entry.insert (w_hash_pointer new_referrer) new_referrer with
    | none => .error .badWeakTable
    | some entry' => .ok (.outOfLine entry')

/-- `append_referrer`, which `grow_refs_and_insert` calls back. -/
def appendFuel : Nat → Referrers → Location → Except Fatal Referrers
  | 0, _, _ => .error .outOfFuel
  | fuel + 1, .inline l, new_referrer =>
    match l.findIdx? isNone with
    | some i => .ok (.inline (l.set i (some new_referrer)))
    | none =>
      -- a table that is not hashed yet; growing it rehashes
      appendOutOfLine (appendFuel fuel) ⟨l, WEAK_INLINE_COUNT, 0⟩ new_referrer
  | fuel + 1, .outOfLine table, new_referrer =>
    appendOutOfLine (appendFuel fuel) table new_referrer

/-- `append_referrer`: a growth calls back once, on a table with room. -/
def append_referrer (entry : Referrers) (new_referrer : Location) : Except Fatal Referrers :=
  appendFuel 2 entry new_referrer

/-- `remove_referrer`. An unknown referrer is reported and nothing changes. -/
def remove_referrer (entry : Referrers) (old_referrer : Location) : Except Fatal Referrers :=
  match entry with
  | .inline l =>
    match l.findIdx? (· == some old_referrer) with
    | some i => .ok (.inline (l.set i none))
    | none => .ok (.inline l)
  | .outOfLine table =>
    match table.find (w_hash_pointer old_referrer) (· == old_referrer) with
    | none => .error .badWeakTable
    | some none => .ok (.outOfLine table)
    | some (some i) => .ok (.outOfLine (table.removeAt i))

/-- The test for emptiness in `weak_unregister_no_lock`. An out-of-line entry with
no referrers left is not seen as empty: the loop over `inline_referrers` reads
the `referrers` pointer, which shares its storage with `inline_referrers[0]`. -/
def Referrers.isEmpty : Referrers → Bool
  | .inline l => l.all isNone
  | .outOfLine _ => false

/-! ## The content of an entry -/

def Referrers.items : Referrers → List Location
  | .inline l => l.reduceOption
  | .outOfLine table => table.items

def Referrers.WF : Referrers → Prop
  | .inline l => l.length = WEAK_INLINE_COUNT
  | .outOfLine table =>
    table.WF w_hash_pointer ∧ 8 ≤ table.slots.length
      ∧ table.num ≤ table.slots.length * 3 / 4

theorem WeakEntry.new_wf (o : ObjPtr) (l : Location) : (WeakEntry.new o l).referrers.WF := rfl

theorem WeakEntry.new_items (o : ObjPtr) (l : Location) :
    (WeakEntry.new o l).referrers.items = [l] := rfl

theorem Referrers.items_of_isEmpty {r : Referrers} (h : r.isEmpty = true) : r.items = [] := by
  cases r with
  | outOfLine table => cases h
  | inline l => ?_
  show l.reduceOption = []
  have hall : ∀ x ∈ l, isNone x = true := all_eq_true.mp h
  rw [reduceOption, filterMap_eq_nil_iff]
  intro x hx
  simpa using hall x hx

/-! ## Appending -/

theorem append_with_room {table : Slots Location} (h : (Referrers.outOfLine table).WF)
    (hroom : table.num < table.slots.length * 3 / 4) (fuel : Nat) (r : Location) :
    ∃ table', appendFuel (fuel + 1) (.outOfLine table) r = .ok (.outOfLine table')
      ∧ (Referrers.outOfLine table').WF ∧ table'.num = table.num + 1
      ∧ table'.slots.length = table.slots.length ∧ table'.items.Perm (r :: table.items) := by
  obtain ⟨hwf, hsize, -⟩ := h
  obtain ⟨table', hins, hwf', hnum, hlen, hperm⟩ := insert_spec hwf (by omega) r
  refine ⟨table', ?_, ⟨hwf', by omega, by omega⟩, hnum, hlen, hperm⟩
  show appendOutOfLine (appendFuel fuel) table r = _
  unfold appendOutOfLine
  rw [if_neg (by omega), hins]

theorem growLoop_spec (fuel : Nat) (old_refs : List (Option Location)) :
    ∀ table : Slots Location, (Referrers.outOfLine table).WF →
      table.num + old_refs.reduceOption.length ≤ table.slots.length * 3 / 4 →
      ∃ table', growLoop (appendFuel (fuel + 1)) old_refs old_refs.reduceOption.length
          (.outOfLine table) = .ok (.outOfLine table')
        ∧ (Referrers.outOfLine table').WF
        ∧ table'.num = table.num + old_refs.reduceOption.length
        ∧ table'.slots.length = table.slots.length
        ∧ table'.items.Perm (old_refs.reduceOption ++ table.items) := by
  induction old_refs with
  | nil =>
    intro table h _
    exact ⟨table, rfl, h, rfl, rfl, Perm.refl _⟩
  | cons old_ref old_refs ih => ?_
  intro table h hroom
  cases old_ref with
  | none =>
    rw [reduceOption_cons_of_none] at hroom ⊢
    obtain ⟨table', hloop, hrest⟩ := ih table h hroom
    refine ⟨table', ?_, hrest⟩
    unfold growLoop
    split
    next hz =>
      -- nothing left to copy
      rw [hz] at hloop
      have hstop : growLoop (appendFuel (fuel + 1)) old_refs 0 (.outOfLine table)
          = .ok (.outOfLine table) := by cases old_refs <;> rfl
      exact hstop.symm.trans hloop
    next => exact hloop
  | some r => ?_
  rw [reduceOption_cons_of_some] at hroom ⊢
  simp only [length_cons] at hroom ⊢
  obtain ⟨t1, happ, hwf1, hnum1, hlen1, hperm1⟩ :=
    append_with_room h (by omega) fuel r
  obtain ⟨t2, hloop, hwf2, hnum2, hlen2, hperm2⟩ := ih t1 hwf1 (by omega)
  refine ⟨t2, ?_, hwf2, by omega, by omega, ?_⟩
  · unfold growLoop
    simp only [happ]
    exact hloop
  · exact hperm2.trans ((hperm1.append_left _).trans perm_middle)

theorem grow_refs_and_insert_spec (table : Slots Location) {k : Nat}
    (hlen : table.slots.length = 2 ^ k) (hsize : 4 ≤ table.slots.length)
    (hnum : table.num = table.items.length) (hle : table.num < table.slots.length * 2 * 3 / 4)
    (fuel : Nat) (r : Location) :
    ∃ e, grow_refs_and_insert (appendFuel (fuel + 1)) table r = .ok e ∧ e.WF
      ∧ e.items.Perm (r :: table.items) := by
  have hpow : table.slots.length * 2 = 2 ^ (k + 1) := by rw [hlen, Nat.pow_succ]
  have hstart : (Referrers.outOfLine (empty (table.slots.length * 2))).WF := by
    refine ⟨?_, ?_, ?_⟩
    · rw [hpow]
      exact empty_wf (by omega)
    · simp [empty]
      omega
    · simp [empty]
  have hlen0 : (empty (table.slots.length * 2) : Slots Location).slots.length
      = table.slots.length * 2 := by simp [empty]
  have hnum0 : (empty (table.slots.length * 2) : Slots Location).num = 0 := rfl
  have hitems : table.slots.reduceOption.length = table.num := hnum.symm
  obtain ⟨t1, hloop, hwf1, hnum1, hlen1, hperm1⟩ :=
    growLoop_spec fuel table.slots _ hstart (by rw [hitems, hlen0, hnum0]; omega)
  obtain ⟨t2, happ, hwf2, -, -, hperm2⟩ := append_with_room hwf1 (by omega) fuel r
  refine ⟨.outOfLine t2, ?_, hwf2, ?_⟩
  · unfold grow_refs_and_insert
    have hne : ¬ table.slots.length = 0 := by omega
    rw [hitems] at hloop
    simp only [hne, if_false, hloop]
    exact happ
  · rw [empty_items, append_nil] at hperm1
    exact hperm2.trans (hperm1.cons r)

theorem append_referrer_spec {e : Referrers} (h : e.WF) (r : Location) :
    ∃ e', append_referrer e r = .ok e' ∧ e'.WF ∧ e'.items.Perm (r :: e.items) := by
  unfold append_referrer
  cases e with
  | inline l =>
    have hlen : l.length = 4 := h
    cases hfind : l.findIdx? isNone with
    | some i =>
      obtain ⟨hi, hfree, -⟩ := findIdx?_eq_some_iff_getElem.mp hfind
      have hslot : l[i]? = some none := by
        rw [getElem?_eq_getElem hi]
        simpa using hfree
      refine ⟨.inline (l.set i (some r)), ?_, ?_, reduceOption_set_none r l i hslot⟩
      · unfold appendFuel
        rw [hfind]
      show (l.set i (some r)).length = _
      rw [length_set]
      exact h
    | none => ?_
    -- all four are taken: build the table
    have hfull : ∀ x ∈ l, isNone x = false := findIdx?_eq_none_iff.mp hfind
    have hitems : l.reduceOption.length = 4 := by
      rw [← hlen, reduceOption_length_eq_iff]
      intro x hx
      have := hfull x hx
      cases x with
      | none => cases this
      | some a => rfl
    obtain ⟨e', hgrow, hwf, hperm⟩ := grow_refs_and_insert_spec
      ⟨l, WEAK_INLINE_COUNT, 0⟩ (k := 2) hlen (by simp [hlen])
      (by exact hitems.symm) (by simp [hlen, WEAK_INLINE_COUNT]) 0 r
    refine ⟨e', ?_, hwf, hperm⟩
    unfold appendFuel
    rw [hfind]
    show appendOutOfLine (appendFuel 1) ⟨l, WEAK_INLINE_COUNT, 0⟩ r = _
    unfold appendOutOfLine
    rw [if_pos (by simp [hlen, WEAK_INLINE_COUNT])]
    exact hgrow
  | outOfLine table => ?_
  by_cases hroom : table.num < table.slots.length * 3 / 4
  · obtain ⟨table', happ, hwf, -, -, hperm⟩ := append_with_room h hroom 1 r
    exact ⟨.outOfLine table', happ, hwf, hperm⟩
  obtain ⟨hwf, hsize, hle⟩ := h
  obtain ⟨k, hk⟩ := hwf.pow
  obtain ⟨e', hgrow, hwf', hperm⟩ := grow_refs_and_insert_spec table hk (by omega)
    (num_eq_length hwf) (by omega) 0 r
  refine ⟨e', ?_, hwf', hperm⟩
  show appendOutOfLine (appendFuel 1) table r = _
  unfold appendOutOfLine
  rw [if_pos (by omega)]
  exact hgrow

/-! ## Removing -/

theorem remove_referrer_spec {e : Referrers} (h : e.WF) (r : Location) :
    ∃ e', remove_referrer e r = .ok e' ∧ e'.WF ∧ e'.items.Perm (e.items.erase r) := by
  cases e with
  | inline l =>
    unfold remove_referrer
    cases hfind : l.findIdx? (· == some r) with
    | some i =>
      obtain ⟨hi, hhit, -⟩ := findIdx?_eq_some_iff_getElem.mp hfind
      have hslot : l[i]? = some (some r) := by
        rw [getElem?_eq_getElem hi]
        simpa using hhit
      refine ⟨.inline (l.set i none), by simp only [hfind], ?_, ?_⟩
      · show (l.set i none).length = _
        rw [length_set]
        exact h
      have hperm := (reduceOption_set_some r l i hslot).erase r
      rw [erase_cons_head] at hperm
      exact hperm.symm
    | none => ?_
    refine ⟨.inline l, by simp only [hfind], h, ?_⟩
    have hmiss : r ∉ l.reduceOption := by
      intro hmem
      have hmem' := reduceOption_mem_iff.mp hmem
      have := findIdx?_eq_none_iff.mp hfind (some r) hmem'
      simp at this
    show l.reduceOption.Perm (l.reduceOption.erase r)
    rw [erase_of_not_mem hmiss]
  | outOfLine table => ?_
  obtain ⟨hwf, hsize, hle⟩ := h
  unfold remove_referrer
  rcases find_spec hwf (w_hash_pointer r) (· == r)
      (fun b hb => by rw [eq_of_beq hb]) with ⟨i, b, hfind, hi, hb⟩ | ⟨hfind, hnone⟩
  · have hbr : b = r := eq_of_beq hb
    subst hbr
    obtain ⟨hwf', hperm⟩ := removeAt_wf hwf hi
    refine ⟨.outOfLine (table.removeAt i), by simp only [hfind], ⟨hwf', ?_, ?_⟩, ?_⟩
    · simpa [removeAt] using hsize
    · show table.num - 1 ≤ (table.slots.set i none).length * 3 / 4
      rw [length_set]
      omega
    have := hperm.erase b
    rw [erase_cons_head] at this
    exact this.symm
  refine ⟨.outOfLine table, by simp only [hfind], ⟨hwf, hsize, hle⟩, ?_⟩
  have hmiss : r ∉ table.items := by
    intro hmem
    have := hnone r hmem
    simp at this
  show table.items.Perm (table.items.erase r)
  rw [erase_of_not_mem hmiss]

end ObjcRuntime
