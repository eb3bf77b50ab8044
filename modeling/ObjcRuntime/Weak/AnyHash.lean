/-
THE WEAK TABLE UNDER ANY HASH.

`weak_table_t` over entries of four words, with the pointer hash left open.
Any sequence of `weak_register_no_lock`, `weak_unregister_no_lock` and
`weak_clear_no_lock` calls; on the entries of `Weak/Entry` the same calls leave
the same registrations (`Table.Refines.run`).
-/
import ObjcRuntime.Weak.Words

namespace ObjcRuntime.WeakWords

open Lib List Slots Entry Nat

/-! ## The functions of objc-weak.mm -/

/-- `weak_table_t`. -/
abbrev Table := Slots Entry

/-- A zeroed table: `weak_entries` is nil. -/
def Table.new : Table := ⟨[], 0, 0⟩

def Entry.home (ptr_hash : Nat → Nat) (e : Entry) : Nat := ptr_hash e.referent

section Functions

variable (W : Nat) (ptr_hash : Nat → Nat)

/-- `weak_entry_for_referent`: the index of the object's entry. -/
def weak_entry_for_referent (weak_table : Table) (referent : ObjPtr) : Except Halt (Option Nat) :=
  -- assert(referent)
  if referent = 0 then .error .assertReferent
  else if weak_table.slots = [] then .ok none
  else
    match weak_table.find (ptr_hash referent) (fun e => e.referent == referent) with
    | none => .error .badWeakTable
    | some index => .ok index

def weak_entry_insert (weak_table : Table) (new_entry : Entry) : Except Halt Table :=
  match weak_table.insert (new_entry.home ptr_hash) new_entry with
  | none => .error .badWeakTable
  | some weak_table' => .ok weak_table'

/-- `weak_resize`: insert every entry into a zeroed table of the new size. -/
def weak_resize (weak_table : Table) (new_size : Nat) : Except Halt Table :=
  match Slots.insertAll (Entry.home ptr_hash) (Slots.empty new_size) weak_table.items with
  | none => .error .badWeakTable
  | some weak_table' => .ok weak_table'

def weak_grow_maybe (weak_table : Table) : Except Halt Table :=
  let old_size := weak_table.slots.length
  if old_size * 3 / 4 ≤ weak_table.num then
    weak_resize ptr_hash weak_table (if old_size = 0 then 64 else old_size * 2)
  else .ok weak_table

def weak_compact_maybe (weak_table : Table) : Except Halt Table :=
  let old_size := weak_table.slots.length
  if 1024 ≤ old_size ∧ weak_table.num ≤ old_size / 16 then
    weak_resize ptr_hash weak_table (old_size / 8)
  else .ok weak_table

def weak_entry_remove (weak_table : Table) (index : Nat) : Except Halt Table :=
  weak_compact_maybe ptr_hash (weak_table.removeAt index)

def weak_unregister_no_lock (weak_table : Table) (referent : ObjPtr) (referrer : Referrer W) :
    Except Halt Table :=
  if referent = 0 then .ok weak_table
  else
    match weak_entry_for_referent ptr_hash weak_table referent with
    | .error e => .error e
    | .ok none => .ok weak_table
    | .ok (some index) =>
      match weak_table.slots.getD index none with
      | none => .ok weak_table
      | some entry =>
        match remove_referrer W ptr_hash entry referrer.addr with
        | .error e => .error e
        | .ok entry' =>
          if entry'.isEmpty then
            weak_entry_remove ptr_hash (weak_table.replaceAt index entry') index
          else .ok (weak_table.replaceAt index entry')

/-- The second half of `weak_register_no_lock`: "now remember it and where it is being stored". -/
def weak_register_entry (calloc : Calloc) (weak_table : Table) (referent : ObjPtr)
    (referrer : Referrer W) : Except Halt Table :=
  match weak_entry_for_referent ptr_hash weak_table referent with
  | .error e => .error e
  | .ok (some index) =>
    match weak_table.slots.getD index none with
    | none => .ok weak_table
    | some entry =>
      match append_referrer W ptr_hash calloc entry (disguise W referrer.addr) with
      | .error e => .error e
      | .ok entry' => .ok (weak_table.replaceAt index entry')
  | .ok none =>
    match weak_grow_maybe ptr_hash weak_table with
    | .error e => .error e
    | .ok weak_table' => weak_entry_insert ptr_hash weak_table' (Entry.new referent referrer)

/-- What the first half of `weak_register_no_lock` finds out about the object. -/
inductive Viability where
  | tagged
  /-- `allowsWeakReference` is not implemented. -/
  | notImplemented
  | deallocating
  | viable
  deriving DecidableEq

/-- `weak_register_no_lock`, with the table and the returned object. -/
def weak_register_no_lock (calloc : Calloc) (weak_table : Table) (referent : ObjPtr)
    (referrer : Referrer W) (found : Viability) (crashIfDeallocating : Bool) :
    Except Halt (Table × ObjPtr) :=
  if referent = 0 then .ok (weak_table, referent)
  else
    match found with
    | .tagged => .ok (weak_table, referent)
    | .notImplemented => .ok (weak_table, 0)
    | .deallocating =>
      if crashIfDeallocating then .error (.cannotFormWeakReference referent)
      else .ok (weak_table, 0)
    | .viable =>
      match weak_register_entry W ptr_hash calloc weak_table referent referrer with
      | .error e => .error e
      | .ok weak_table' => .ok (weak_table', referent)

def weak_clear_no_lock (weak_table : Table) (referent : ObjPtr) (mem : Location → ObjPtr) :
    Except Halt (Table × (Location → ObjPtr)) :=
  match weak_entry_for_referent ptr_hash weak_table referent with
  | .error e => .error e
  | .ok none => .ok (weak_table, mem)
  | .ok (some index) =>
    match weak_table.slots.getD index none with
    | none => .ok (weak_table, mem)
    | some entry =>
      match weak_entry_remove ptr_hash weak_table index with
      | .error e => .error e
      | .ok weak_table' =>
        .ok (weak_table', clearReferrers referent (entry.referrers W) mem)

end Functions

/-! ## Readings -/

variable {W : Nat} {ptr_hash : Nat → Nat}

/-- How often `l` is registered for `o` in a list of entries. -/
def regsIn (W : Nat) (o : ObjPtr) (l : Location) (es : List Entry) : Nat :=
  ((es.filter fun e => e.referent == o).map fun e => (e.referrers W).count l).sum

theorem regsIn_cons (o : ObjPtr) (l : Location) (e : Entry) (es : List Entry) :
    regsIn W o l (e :: es)
      = (if e.referent = o then (e.referrers W).count l else 0) + regsIn W o l es := by
  unfold regsIn
  rw [filter_cons]
  by_cases ho : e.referent = o
  · rw [if_pos (by rw [ho, beq_self_eq_true]), if_pos ho, map_cons, sum_cons]
  · rw [if_neg (by rw [beq_iff_eq]; exact ho), if_neg ho, zero_add]

theorem regsIn_perm {es es' : List Entry} (h : es.Perm es') (o : ObjPtr) (l : Location) :
    regsIn W o l es = regsIn W o l es' :=
  ((h.filter _).map _).sum_nat

/-- How often `l` is registered for `o`. -/
def Table.regs (W : Nat) (t : Table) (o : ObjPtr) (l : Location) : Nat := regsIn W o l t.items

/-- The table has an entry for `o`. -/
def Table.HasEntry (t : Table) (o : ObjPtr) : Prop := ∃ e ∈ t.items, e.referent = o

/-- A table as the functions above keep it: not yet allocated, or hashed and at most three
quarters full, with one well-formed entry per object. -/
structure Table.WF (W : Nat) (ptr_hash : Nat → Nat) (t : Table) : Prop where
  shape : t = Table.new ∨ (Slots.WF (Entry.home ptr_hash) t ∧ 64 ≤ t.slots.length
    ∧ t.num ≤ t.slots.length * 3 / 4)
  entries : ∀ e ∈ t.items, e.WF W ptr_hash
  nodup : (t.items.map Entry.referent).Nodup
  nonnil : ∀ e ∈ t.items, e.referent ≠ 0

theorem Table.new_wf : Table.new.WF W ptr_hash :=
  ⟨.inl rfl, nofun, nodup_nil, nofun⟩

theorem Table.WF.num_entries {t : Table} (h : t.WF W ptr_hash) : t.num = t.items.length := by
  rcases h.shape with rfl | ⟨hwf, -, -⟩
  · rfl
  · exact num_eq_length hwf

section Readings

variable {t t' : Table} {e : Entry}

theorem Table.regs_of_perm_cons (h : t'.items.Perm (e :: t.items)) (o : ObjPtr) (l : Location) :
    t'.regs W o l = (if e.referent = o then (e.referrers W).count l else 0) + t.regs W o l :=
  (regsIn_perm h o l).trans (regsIn_cons o l e t.items)

variable {o : ObjPtr}

theorem Table.regs_eq_zero (h : ¬ t.HasEntry o) (l : Location) : t.regs W o l = 0 := by
  unfold Table.regs regsIn
  rw [filter_eq_nil_iff.mpr]
  · rfl
  · intro e he ho
    exact h ⟨e, he, eq_of_beq ho⟩

theorem Table.hasEntry_of_perm_cons (h : t'.items.Perm (e :: t.items)) (o : ObjPtr) :
    t'.HasEntry o ↔ e.referent = o ∨ t.HasEntry o :=
  exists_key_of_perm_cons h o

end Readings

/-! ## The keyed table -/

variable {t t' : Table} (h : t.WF W ptr_hash)

theorem Table.WF.keyed (h : t.WF W ptr_hash) :
    t.Keyed (home ptr_hash) referent fun e => e.WF W ptr_hash ∧ e.referent ≠ 0 :=
  ⟨h.shape, fun e he => ⟨h.entries e he, h.nonnil e he⟩, h.nodup⟩

theorem Table.wf_of_keyed
    (h : t.Keyed (home ptr_hash) referent fun e => e.WF W ptr_hash ∧ e.referent ≠ 0) :
    t.WF W ptr_hash :=
  ⟨h.shape, fun e he => (h.entries e he).1, h.nodup, fun e he => (h.entries e he).2⟩

theorem weak_grow_maybe_eq (h : t.grow (home ptr_hash) = some t') :
    weak_grow_maybe ptr_hash t = .ok t' := by
  unfold grow at h
  unfold weak_grow_maybe weak_resize
  split at h
  next hfull => simp only [hfull, if_true, h]
  next hfull =>
    cases h
    simp only [hfull, if_false]

theorem weak_compact_maybe_eq (h : t.shrink (home ptr_hash) = some t') :
    weak_compact_maybe ptr_hash t = .ok t' := by
  unfold shrink at h
  unfold weak_compact_maybe weak_resize
  split at h
  next hsparse => simp only [hsparse, and_self, if_true, h]
  next hsparse =>
    cases h
    simp only [hsparse, if_false]

/-! ## Looking up -/

theorem weak_entry_for_referent_spec (h : t.WF W ptr_hash) (ho : o ≠ 0) :
    (∃ i e, weak_entry_for_referent ptr_hash t o = .ok (some i) ∧ t.slots[i]? = some (some e)
        ∧ e.referent = o ∧ t.slots.getD i none = some e)
      ∨ (weak_entry_for_referent ptr_hash t o = .ok none ∧ ¬ t.HasEntry o) := by
  unfold weak_entry_for_referent
  rw [if_neg ho]
  rcases h.keyed.find (ptr_hash o) (fun _ => beq_iff_eq) (fun e he => by
      rw [home, he]) with ⟨i, e, hne, hfind, hi, he, hget⟩ | ⟨hnot, hnone⟩
  · exact .inl ⟨i, e, by rw [if_neg hne, hfind], hi, he, hget⟩
  refine .inr ⟨?_, fun ⟨e, hmem, he⟩ => hnone e hmem he⟩
  rcases hnot with hnil | hfind
  · rw [if_pos hnil]
  · rw [hfind, ite_self]

variable {i : Nat} {e : Entry}

/-! ## Changing one entry -/

include h

variable (hi : t.slots[i]? = some (some e))
include hi

theorem replace_entry_spec {e' : Entry}
    (he' : e'.WF W ptr_hash) (href : e'.referent = e.referent) :
    Table.WF W ptr_hash (t.replaceAt i e')
      ∧ (∀ o l, (if e.referent = o then (e.referrers W).count l else 0)
            + Table.regs W (t.replaceAt i e') o l
          = (if e.referent = o then (e'.referrers W).count l else 0) + t.regs W o l)
      ∧ (∀ o, Table.HasEntry (t.replaceAt i e') o ↔ t.HasEntry o)
      ∧ (t.replaceAt i e').slots[i]? = some (some e') := by
  have hnonnil := h.nonnil e (mem_items.mpr ⟨i, hi⟩)
  obtain ⟨hkeyed, hperm, hkeys, hget⟩ :=
    h.keyed.replace hi ⟨he', href ▸ hnonnil⟩ href (by rw [home, href, home])
  refine ⟨Table.wf_of_keyed hkeyed, fun o l => ?_, fun o => ?_, hget⟩
  · have hsame := regsIn_perm (W := W) hperm o l
    rw [regsIn_cons, regsIn_cons, href] at hsame
    exact hsame
  · have hiff := hkeys.mem_iff (a := o)
    simpa [Table.HasEntry, mem_map] using hiff

theorem weak_entry_remove_spec :
    ∃ t', weak_entry_remove ptr_hash t i = .ok t' ∧ t'.WF W ptr_hash
      ∧ t.items.Perm (e :: t'.items) ∧ ¬ t'.HasEntry e.referent := by
  obtain ⟨t', hres, hkeyed, hperm, hgone⟩ := h.keyed.remove hi
  exact ⟨t', weak_compact_maybe_eq hres, Table.wf_of_keyed hkeyed, hperm,
    fun ⟨x, hx, hxe⟩ => hgone x hx hxe⟩

theorem regs_eq_count (l : Location) :
    t.regs W e.referent l = (e.referrers W).count l := by
  obtain ⟨t', -, -, hperm, hgone⟩ := weak_entry_remove_spec h hi
  rw [Table.regs_of_perm_cons hperm, if_pos rfl, Table.regs_eq_zero hgone, add_zero]

omit hi h

/-! ## Register, unregister, clear -/

/-- The table has an out-of-line entry for `o`. -/
def Table.OutOfLine (t : Table) (o : ObjPtr) : Prop :=
  ∃ e ∈ t.items, e.referent = o ∧ e.out_of_line = true

variable {referent : ObjPtr}

include h

theorem weak_register_entry_spec (hnil : referent ≠ 0)
    (referrer : Referrer W) (calloc : Calloc) :
    ∃ t', weak_register_entry W ptr_hash calloc t referent referrer = .ok t' ∧ t'.WF W ptr_hash
      ∧ (∀ o l, t'.regs W o l = t.regs W o l + hit referent referrer.addr o l)
      ∧ (∀ o, t'.HasEntry o ↔ referent = o ∨ t.HasEntry o) := by
  unfold weak_register_entry
  rcases weak_entry_for_referent_spec h hnil with ⟨i, e, hfind, hi, rfl, hget⟩ | ⟨hfind, hnone⟩
  · -- the object has an entry: append to it
    have hmem : e ∈ t.items := mem_items.mpr ⟨i, hi⟩
    obtain ⟨e', happ, he', href, hrefs⟩ :=
      append_referrer_spec calloc (h.entries e hmem) referrer
    obtain ⟨hwf, hregs, hhas, -⟩ := replace_entry_spec h hi he' href
    refine ⟨t.replaceAt i e', ?_, hwf, ?_, ?_⟩
    · simp only [hfind, hget, happ]
    · intro o l
      have hnew := hregs o l
      rw [hrefs.count_eq l, count_cons] at hnew
      unfold hit
      by_cases ho : e.referent = o <;> by_cases hl : referrer.addr = l <;>
        simp [ho, hl] at hnew ⊢ <;> omega
    intro o
    rw [hhas o]
    constructor
    · exact .inr
    rintro (rfl | ho)
    · exact ⟨e, hmem, rfl⟩
    · exact ho
  -- no entry yet: make room, then insert one
  obtain ⟨t1, t2, hgrow, hins, hkeyed, hperm⟩ :=
    h.keyed.add (a := new referent referrer) ⟨new_wf _ _, hnil⟩
      fun x hx hxe => hnone ⟨x, hx, hxe⟩
  refine ⟨t2, ?_, Table.wf_of_keyed hkeyed, ?_, ?_⟩
  · simp only [hfind, weak_grow_maybe_eq hgrow, weak_entry_insert, hins]
  · intro o l
    rw [Table.regs_of_perm_cons hperm o l, new_referrers]
    show (if referent = o then count l [referrer.addr] else 0) + _ = _
    unfold hit
    by_cases ho : referent = o <;> by_cases hl : referrer.addr = l <;>
      simp [ho, hl, add_comm]
  · intro o
    exact Table.hasEntry_of_perm_cons hperm o

/-- **Unregistering takes away at most one registration.** The object keeps its entry if a
referrer is left, and also if the entry is out of line. -/
theorem weak_unregister_spec (hnil : referent ≠ 0) (referrer : Referrer W) :
    ∃ t', weak_unregister_no_lock W ptr_hash t referent referrer = .ok t' ∧ t'.WF W ptr_hash
      ∧ (∀ o l, t'.regs W o l = t.regs W o l - hit referent referrer.addr o l)
      ∧ (∀ o, o ≠ referent → (t'.HasEntry o ↔ t.HasEntry o))
      ∧ (t'.HasEntry referent ↔ (∃ l, 0 < t'.regs W referent l) ∨ t.OutOfLine referent) := by
  unfold weak_unregister_no_lock
  rw [if_neg hnil]
  rcases weak_entry_for_referent_spec h hnil with ⟨i, e, hfind, hi, rfl, hget⟩ | ⟨hfind, hnone⟩
  · have hmem : e ∈ t.items := mem_items.mpr ⟨i, hi⟩
    obtain ⟨e', hrem, he', href, hrefs, hform⟩ :=
      remove_referrer_spec (h.entries e hmem) referrer.addr
    obtain ⟨hwf, hregs, hhas, hi'⟩ := replace_entry_spec h hi he' href
    -- the counts after the removal, whether or not the entry stays
    have hcount : ∀ o l, Table.regs W (t.replaceAt i e') o l
        = t.regs W o l - hit e.referent referrer.addr o l := by
      intro o l
      have hnew := hregs o l
      rw [hrefs.count_eq l, count_erase] at hnew
      unfold hit
      by_cases ho : e.referent = o
      · -- the object has one entry only
        have hone := regs_eq_count h hi l
        rw [ho] at hone
        by_cases hl : referrer.addr = l
        · simp only [ho, hl, if_true, beq_self_eq_true, and_self] at hnew ⊢
          omega
        · simp only [ho, hl, if_true, beq_iff_eq, if_false, and_false] at hnew ⊢
          omega
      · simp only [ho, if_false, false_and] at hnew ⊢
        omega
    have hout : t.OutOfLine e.referent ↔ e'.out_of_line = true := by
      rw [hform]
      constructor
      · rintro ⟨x, hx, hxe, hxo⟩
        -- one entry per object
        obtain rfl : x = e := inj_on_of_nodup_map h.nodup hx hmem hxe
        exact hxo
      · intro ho
        exact ⟨e, hmem, rfl, ho⟩
    simp only [hfind, hget, hrem]
    by_cases hempty : e'.isEmpty = true
    · obtain ⟨hin, hnil'⟩ := he'.isEmpty_iff.mp hempty
      obtain ⟨t', hdel, hwf', hsplit, hgone⟩ := weak_entry_remove_spec hwf hi'
      rw [href] at hgone
      refine ⟨t', by rw [if_pos hempty]; exact hdel, hwf', ?_, ?_, ?_⟩
      · intro o l
        rw [← hcount o l, Table.regs_of_perm_cons hsplit, hnil']
        simp
      · intro o ho
        rw [← hhas o, Table.hasEntry_of_perm_cons hsplit o, href]
        exact ⟨.inr, fun hor => hor.resolve_left ho.symm⟩
      rw [hout, hin]
      constructor
      · intro hhas'
        exact absurd hhas' hgone
      rintro (⟨l, hl⟩ | hno)
      · rw [Table.regs_eq_zero hgone] at hl
        exact absurd hl (lt_irrefl 0)
      · cases hno
    refine ⟨t.replaceAt i e', by rw [if_neg hempty], hwf, hcount, fun o _ => hhas o, ?_⟩
    have hstays : Table.HasEntry (t.replaceAt i e') e.referent := (hhas _).mpr ⟨e, hmem, rfl⟩
    refine ⟨fun _ => ?_, fun _ => hstays⟩
    rw [he'.isEmpty_iff, not_and_or] at hempty
    rcases hempty with hout' | hsome
    · exact .inr (hout.mpr (by simpa using hout'))
    obtain ⟨l, hl⟩ := exists_mem_of_ne_nil _ hsome
    refine .inl ⟨l, ?_⟩
    have hone := regs_eq_count hwf hi' l
    rw [href] at hone
    rw [hone]
    exact count_pos_iff.mpr hl
  · refine ⟨t, by simp only [hfind], h, ?_, fun _ _ => .rfl, ?_⟩
    · intro o l
      unfold hit
      by_cases ho : referent = o ∧ referrer.addr = l
      · rw [if_pos ho, ← ho.1, Table.regs_eq_zero hnone]
      · rw [if_neg ho, Nat.sub_zero]
    constructor
    · intro hhas
      exact absurd hhas hnone
    rintro (⟨l, hl⟩ | ⟨x, hx, hxe, -⟩)
    · rw [Table.regs_eq_zero hnone] at hl
      exact absurd hl (lt_irrefl 0)
    · exact absurd ⟨x, hx, hxe⟩ hnone

theorem weak_clear_spec (hnil : referent ≠ 0) (mem : Location → ObjPtr) :
    ∃ t' mem', weak_clear_no_lock W ptr_hash t referent mem = .ok (t', mem') ∧ t'.WF W ptr_hash
      ∧ (∀ o l, t'.regs W o l = if o = referent then 0 else t.regs W o l)
      ∧ (∀ o, t'.HasEntry o ↔ o ≠ referent ∧ t.HasEntry o) := by
  unfold weak_clear_no_lock
  rcases weak_entry_for_referent_spec h hnil with ⟨i, e, hfind, hi, rfl, hget⟩ | ⟨hfind, hnone⟩
  · obtain ⟨t', hdel, hwf', hperm, hgone⟩ := weak_entry_remove_spec h hi
    refine ⟨t', clearReferrers e.referent (e.referrers W) mem, by simp only [hfind, hget, hdel],
      hwf', ?_, ?_⟩
    · intro o l
      by_cases ho : o = e.referent
      · rw [if_pos ho, ho, Table.regs_eq_zero hgone]
      · rw [if_neg ho, Table.regs_of_perm_cons hperm, if_neg (Ne.symm ho), zero_add]
    intro o
    rw [Table.hasEntry_of_perm_cons hperm o]
    constructor
    · intro hhas
      refine ⟨?_, .inr hhas⟩
      rintro rfl
      exact hgone hhas
    · rintro ⟨hne, hor⟩
      exact hor.resolve_left hne.symm
  refine ⟨t, mem, by simp only [hfind], h, ?_, ?_⟩
  · intro o l
    by_cases ho : o = referent
    · rw [if_pos ho, ho, Table.regs_eq_zero hnone]
    · rw [if_neg ho]
  intro o
  constructor
  · intro hhas
    refine ⟨?_, hhas⟩
    rintro rfl
    exact hnone hhas
  · exact fun hand => hand.2

omit h

/-! ## What a table is to the code -/

/-- Everything stored is found and nothing else, the counters are right, the two forms of an entry
are told apart, and growing and shrinking keep the content. -/
structure Table.Sound (W : Nat) (ptr_hash : Nat → Nat) (t : Table) : Prop where
  num_entries : t.num = t.items.length
  one_entry : (t.items.map Entry.referent).Nodup
  /-- The bounded probe for an object finds its entry, or there is none. -/
  entry_found : ∀ o, o ≠ 0 →
    (∃ i e, weak_entry_for_referent ptr_hash t o = .ok (some i) ∧ t.slots[i]? = some (some e)
        ∧ e.referent = o)
      ∨ (weak_entry_for_referent ptr_hash t o = .ok none ∧ ¬ t.HasEntry o)
  /-- The mark is read if and only if there is an array. -/
  told_apart : ∀ e ∈ t.items, e.out_of_line = e.array.isSome
  num_refs : ∀ e ∈ t.items, e.out_of_line = true → e.num_refs = (e.referrers W).length
  /-- The bounded probe for a referrer finds it, or it is not there. -/
  referrer_found : ∀ e ∈ t.items, ∀ r,
    (∃ i w, e.indexOf W ptr_hash r = .ok (some i) ∧ e.slots[i]? = some (some w)
        ∧ undisguise W w = r)
      ∨ (e.indexOf W ptr_hash r = .ok none ∧ r ∉ e.referrers W)
  grow_keeps : ∃ t', weak_grow_maybe ptr_hash t = .ok t' ∧ t'.items.Perm t.items
  compact_keeps : ∃ t', weak_compact_maybe ptr_hash t = .ok t' ∧ t'.items.Perm t.items
  /-- The switch to an out-of-line array keeps every slot. -/
  switch_keeps : ∀ e ∈ t.items, e.out_of_line = false → ∀ calloc,
    (e.allocateOutOfLine calloc).out_of_line = true
      ∧ (e.allocateOutOfLine calloc).slots = e.slots
  /-- Appending keeps every referrer, through every growth of the entry's table. -/
  append_keeps : ∀ e ∈ t.items, ∀ (r : Referrer W) (calloc : Calloc),
    ∃ e', append_referrer W ptr_hash calloc e (disguise W r.addr) = .ok e'
      ∧ (e'.referrers W).Perm (r.addr :: e.referrers W)

theorem Entry.WF.switch {e : Entry} (h : e.WF W ptr_hash) (hin : e.out_of_line = false)
    (calloc : Calloc) :
    (e.allocateOutOfLine calloc).out_of_line = true
      ∧ (e.allocateOutOfLine calloc).slots = e.slots := by
  cases h with
  | @inline referent ws hlen hws =>
    have hlen4 : (ws.map toSlot).length = 4 := by rw [length_map, hlen]; rfl
    rw [allocateOutOfLine_eq calloc referent hlen, inlineEntry_slots referent hws]
    refine ⟨tableEntry_out_of_line _ _ _, tableEntry_slots _ _ ?_⟩
    show 2 ≤ (ws.map toSlot).length
    omega
  | table _ _ => cases (tableEntry_out_of_line _ _ _).symm.trans hin

theorem Table.WF.sound (h : t.WF W ptr_hash) : t.Sound W ptr_hash where
  num_entries := h.num_entries
  one_entry := h.nodup
  entry_found := by
    intro o ho
    rcases weak_entry_for_referent_spec h ho with ⟨i, e, hfind, hi, he, -⟩ | hnone
    · exact .inl ⟨i, e, hfind, hi, he⟩
    · exact .inr hnone
  told_apart := fun e he => (h.entries e he).tag
  num_refs := fun e he hout => (h.entries e he).num_refs_eq hout
  referrer_found := fun e he r => (h.entries e he).found r
  grow_keeps := by
    obtain ⟨t', hgrow, -, -, -, hperm⟩ := h.keyed.grow
    exact ⟨t', weak_grow_maybe_eq hgrow, hperm⟩
  compact_keeps := by
    rcases h.shape with rfl | hload
    · exact ⟨Table.new, rfl, Perm.refl _⟩
    · obtain ⟨t', hres, -, hperm⟩ := Loaded.shrink hload
      exact ⟨t', weak_compact_maybe_eq hres, hperm⟩
  switch_keeps := fun e he hin calloc => (h.entries e he).switch hin calloc
  append_keeps := by
    intro e he r calloc
    obtain ⟨e', happ, -, -, hperm⟩ := append_referrer_spec calloc (h.entries e he) r
    exact ⟨e', happ, hperm⟩

/-! ## Runs -/

/-- One call on the table. A registration comes with what is found out about the object and with
the addresses that `calloc` would return. -/
inductive Call (W : Nat) where
  | register (referent : ObjPtr) (referrer : Referrer W) (found : Viability)
      (crashIfDeallocating : Bool) (calloc : Calloc)
  | unregister (referent : ObjPtr) (referrer : Referrer W)
  | clear (referent : ObjPtr)

structure State where
  table : Table
  mem : Location → ObjPtr

def step (W : Nat) (ptr_hash : Nat → Nat) (s : State) : Call W → Except Halt State
  | .register referent referrer found crashIfDeallocating calloc =>
    match weak_register_no_lock W ptr_hash calloc s.table referent referrer found
        crashIfDeallocating with
    | .error e => .error e
    | .ok (t, _) => .ok { s with table := t }
  | .unregister referent referrer =>
    match weak_unregister_no_lock W ptr_hash s.table referent referrer with
    | .error e => .error e
    | .ok t => .ok { s with table := t }
  | .clear referent =>
    match weak_clear_no_lock W ptr_hash s.table referent s.mem with
    | .error e => .error e
    | .ok (t, mem) => .ok ⟨t, mem⟩

def run (W : Nat) (ptr_hash : Nat → Nat) : State → List (Call W) → Except Halt State
  | s, [] => .ok s
  | s, c :: calls =>
    match step W ptr_hash s c with
    | .error e => .error e
    | .ok s' => run W ptr_hash s' calls

/-- What a call does to the registrations: how often each location is registered for each object. -/
def Call.effect : Call W → (ObjPtr → Location → Nat) → ObjPtr → Location → Nat
  | .register referent referrer found _ _, regs, o, l =>
    if referent ≠ 0 ∧ found = .viable then regs o l + hit referent referrer.addr o l
    else regs o l
  | .unregister referent referrer, regs, o, l => regs o l - hit referent referrer.addr o l
  | .clear referent, regs, o, l => if o = referent then 0 else regs o l

def registrations (calls : List (Call W)) : ObjPtr → Location → Nat :=
  calls.foldl (fun regs c => c.effect regs) fun _ _ => 0

/-- The calls that stop the process: `_objc_fatal` and the assertion on the referent. -/
inductive Call.Stops : Call W → Halt → Prop
  | fatal {referent : ObjPtr} {referrer : Referrer W} {calloc : Calloc} :
      Call.Stops (.register referent referrer .deallocating true calloc)
        (.cannotFormWeakReference referent)
  | assert : Call.Stops (.clear 0) .assertReferent

variable {s : State}

theorem step_spec (h : s.table.WF W ptr_hash) (hzero : ∀ l, s.table.regs W 0 l = 0) (c : Call W) :
    (∃ s', step W ptr_hash s c = .ok s' ∧ s'.table.WF W ptr_hash
        ∧ ∀ o l, s'.table.regs W o l = c.effect (s.table.regs W) o l)
      ∨ ∃ halt, step W ptr_hash s c = .error halt ∧ c.Stops halt := by
  cases c with
  | register referent referrer found crash calloc =>
    unfold step weak_register_no_lock
    by_cases hnil : referent = 0
    · refine .inl ⟨s, by simp only [if_pos hnil], h, fun o l => ?_⟩
      rw [Call.effect, if_neg fun hand => hand.1 hnil]
    simp only [if_neg hnil]
    cases found with
    | tagged | notImplemented => exact .inl ⟨s, rfl, h, fun o l => by simp [Call.effect]⟩
    | deallocating =>
      cases crash with
      | true => exact .inr ⟨_, rfl, .fatal⟩
      | false => exact .inl ⟨s, rfl, h, fun o l => by simp [Call.effect]⟩
    | viable =>
      obtain ⟨t', hreg, hwf, hregs, -⟩ := weak_register_entry_spec h hnil referrer calloc
      refine .inl ⟨{ s with table := t' }, by simp only [hreg], hwf, fun o l => ?_⟩
      rw [hregs, Call.effect, if_pos ⟨hnil, rfl⟩]
  | unregister referent referrer =>
    unfold step
    by_cases hnil : referent = 0
    · refine .inl ⟨s, ?_, h, fun o l => ?_⟩
      · unfold weak_unregister_no_lock
        simp only [if_pos hnil]
      show s.table.regs W o l = s.table.regs W o l - hit referent referrer.addr o l
      unfold hit
      by_cases ho : referent = o ∧ referrer.addr = l
      · rw [← ho.1, hnil, hzero, Nat.zero_sub]
      · rw [if_neg ho, Nat.sub_zero]
    · obtain ⟨t', hun, hwf, hregs, -⟩ := weak_unregister_spec h hnil referrer
      exact .inl ⟨{ s with table := t' }, by simp only [hun], hwf, hregs⟩
  | clear referent => ?_
  unfold step
  by_cases hnil : referent = 0
  · refine .inr ⟨.assertReferent, ?_, hnil ▸ .assert⟩
    unfold weak_clear_no_lock weak_entry_for_referent
    simp only [if_pos hnil]
  · obtain ⟨t', mem', hclear, hwf, hregs, -⟩ := weak_clear_spec h hnil s.mem
    exact .inl ⟨⟨t', mem'⟩, by simp only [hclear], hwf, hregs⟩

theorem Table.WF.regs_nil (h : t.WF W ptr_hash) (l : Location) : t.regs W 0 l = 0 :=
  Table.regs_eq_zero (fun ⟨e, he, hnil⟩ => h.nonnil e he hnil) l

theorem run_spec (calls : List (Call W)) : ∀ {s : State}, s.table.WF W ptr_hash →
    (∃ s', run W ptr_hash s calls = .ok s' ∧ s'.table.WF W ptr_hash ∧ ∀ o l, s'.table.regs W o l
          = calls.foldl (fun regs c => c.effect regs) (s.table.regs W) o l)
      ∨ ∃ halt, run W ptr_hash s calls = .error halt ∧ ∃ c ∈ calls, c.Stops halt := by
  induction calls with
  | nil => intro s h; exact .inl ⟨s, rfl, h, fun _ _ => rfl⟩
  | cons c calls ih => ?_
  intro s h
  rcases step_spec h h.regs_nil c with ⟨s', hstep, hwf, hregs⟩ | ⟨halt, hstep, hstop⟩
  · have hfun : s'.table.regs W = c.effect (s.table.regs W) :=
      funext fun o => funext fun l => hregs o l
    rcases ih hwf with ⟨s'', hrun, hwf'', hregs''⟩ | ⟨halt, hrun, c', hc', hstop⟩
    · refine .inl ⟨s'', ?_, hwf'', ?_⟩
      · rw [run]
        simp only [hstep]
        exact hrun
      · intro o l
        rw [hregs'', hfun, foldl_cons]
    refine .inr ⟨halt, ?_, c', mem_cons_of_mem _ hc', hstop⟩
    rw [run]
    simp only [hstep]
    exact hrun
  · refine .inr ⟨halt, ?_, c, mem_cons_self, hstop⟩
    rw [run]
    simp only [hstep]

/-- **THE WEAK TABLE IS SOUND UNDER ANY HASH.**  After any sequence of calls on any word size: the
table is sound and holds exactly the registrations that the calls make; or the sequence has a call
that stops the process by itself (a fatal registration, a clear of nil), and the process stopped
for that reason.  In particular `bad_weak_table` is not reached. -/
theorem weak_table_is_sound (W : Nat) (ptr_hash : Nat → Nat) (calls : List (Call W))
    (mem : Location → ObjPtr) :
    (∃ s, run W ptr_hash ⟨Table.new, mem⟩ calls = .ok s ∧ s.table.Sound W ptr_hash
        ∧ ∀ o l, s.table.regs W o l = registrations calls o l)
      ∨ ∃ halt, run W ptr_hash ⟨Table.new, mem⟩ calls = .error halt
          ∧ ∃ c ∈ calls, c.Stops halt := by
  have hwf : Table.WF W ptr_hash (State.table ⟨Table.new, mem⟩) := Table.new_wf
  rcases run_spec calls hwf with ⟨s, hrun, hwf', hregs⟩ | hstop
  · exact .inl ⟨s, hrun, hwf'.sound, hregs⟩
  · exact .inr hstop

/-! ## Entries without referrers -/

/-! ## The entries of `Weak/Entry` -/

def Call.onEntries (t : WeakTable) : Call W → Except Fatal WeakTable
  | .register referent referrer found _ _ =>
    if referent ≠ 0 ∧ found = .viable then
      ObjcRuntime.weak_register_entry t referent referrer.addr
    else .ok t
  | .unregister referent referrer =>
    ObjcRuntime.weak_unregister_no_lock t referent referrer.addr
  | .clear referent => weak_clear_remove t referent

structure Table.Refines (W : Nat) (ptr_hash : Nat → Nat) (t : Table) (t' : WeakTable) : Prop where
  words : t.WF W ptr_hash
  entries : t'.WF
  regs : ∀ o l, t'.regs o l = t.regs W o l

theorem Table.Refines.step {t : WeakTable} (h : s.table.Refines W ptr_hash t) {c : Call W}
    {s' : State} (hstep : step W ptr_hash s c = .ok s') :
    ∃ t', c.onEntries t = .ok t' ∧ s'.table.Refines W ptr_hash t' := by
  obtain ⟨hwf, hregs⟩ : s'.table.WF W ptr_hash ∧
      ∀ o l, s'.table.regs W o l = c.effect (s.table.regs W) o l := by
    rcases step_spec h.words h.words.regs_nil c with ⟨s1, hstep1, hspec⟩ | ⟨halt, hstep1, -⟩
    · cases hstep1.symm.trans hstep
      exact hspec
    · cases hstep1.symm.trans hstep
  suffices hentries : ∃ t', c.onEntries t = .ok t' ∧ t'.WF ∧
      ∀ o l, t'.regs o l = c.effect t.regs o l by
    obtain ⟨t', ht', hwf', hregs'⟩ := hentries
    have heq : t.regs = s.table.regs W := funext fun o => funext (h.regs o)
    exact ⟨t', ht', hwf, hwf', fun o l => by rw [hregs', hregs, heq]⟩
  cases c with
  | register referent referrer found crash calloc =>
    unfold Call.onEntries Call.effect
    by_cases hviable : referent ≠ 0 ∧ found = .viable
    · simp only [if_pos hviable]
      obtain ⟨t', hrun, hwf', hregs', -⟩ := weak_register_spec h.entries referent referrer.addr
      exact ⟨t', hrun, hwf', hregs'⟩
    · simp only [if_neg hviable]
      exact ⟨t, rfl, h.entries, fun _ _ => rfl⟩
  | unregister referent referrer =>
    by_cases hnil : referent = 0
    · refine ⟨t, if_pos hnil, h.entries, fun o l => ?_⟩
      have hzero : t.regs 0 l = 0 := (h.regs 0 l).trans (h.words.regs_nil l)
      show t.regs o l = t.regs o l - hit referent referrer.addr o l
      unfold hit
      split
      next hand => rw [← hand.1, hnil, hzero]
      next => rfl
    · obtain ⟨t', hrun, hwf', hregs', -⟩ :=
        ObjcRuntime.weak_unregister_spec h.entries referent hnil referrer.addr
      exact ⟨t', hrun, hwf', hregs'⟩
  | clear referent =>
    obtain ⟨t', hrun, hwf', -, hregs', -⟩ := weak_clear_remove_spec h.entries referent
    exact ⟨t', hrun, hwf', hregs'⟩

/-- **The words refine the entries**: on both tables the calls leave the same registrations. -/
theorem Table.Refines.run (calls : List (Call W)) : ∀ {s s' : State} {t : WeakTable},
    s.table.Refines W ptr_hash t → run W ptr_hash s calls = .ok s' →
    ∃ t', calls.foldlM Call.onEntries t = .ok t' ∧ s'.table.Refines W ptr_hash t' := by
  induction calls with
  | nil => intro s s' t h hrun; cases hrun; exact ⟨t, rfl, h⟩
  | cons c calls ih => ?_
  intro s s' t h hrun
  rw [WeakWords.run] at hrun
  split at hrun
  next => cases hrun
  next s1 hstep =>
    obtain ⟨t1, ht1, h1⟩ := h.step hstep
    obtain ⟨t', ht', h'⟩ := ih h1 hrun
    refine ⟨t', ?_, h'⟩
    rw [foldlM_cons, ht1]
    exact ht'

theorem Table.refines_new : Table.new.Refines W ptr_hash WeakTable.new :=
  ⟨new_wf, WeakTable.new_wf, fun _ _ => rfl⟩

/-! ## Entries without referrers -/

theorem run_append (calls calls' : List (Call W)) : ∀ s : State, run W ptr_hash s (calls ++ calls')
      = (match run W ptr_hash s calls with
          | .error e => .error e
          | .ok s' => run W ptr_hash s' calls') := by
  induction calls with
  | nil => intro s; rfl
  | cons c calls ih => ?_
  intro s
  rw [cons_append, run, run]
  cases step W ptr_hash s c with
  | error e => rfl
  | ok s' => exact ih s'

theorem run_concat {calls : List (Call W)} {c : Call W} {s'' : State}
    (h : run W ptr_hash s (calls ++ [c]) = .ok s'') :
    ∃ s', run W ptr_hash s calls = .ok s' ∧ step W ptr_hash s' c = .ok s'' := by
  rw [run_append] at h
  cases hrun : run W ptr_hash s calls with
  | error e => rw [hrun] at h; cases h
  | ok s' => ?_
  rw [hrun] at h
  refine ⟨s', rfl, ?_⟩
  have hone : run W ptr_hash s' [c] = .ok s'' := h
  rw [run] at hone
  cases hstep : step W ptr_hash s' c with
  | error e => rw [hstep] at hone; cases hone
  | ok s1 =>
    rw [hstep] at hone
    exact hone

def Table.EntriesRegistered (W : Nat) (t : Table) : Prop :=
  ∀ o, t.HasEntry o ↔ ∃ l, 0 < t.regs W o l

theorem Table.hasEntry_of_regs {t : Table} {l : Location} (h : 0 < t.regs W o l) :
    t.HasEntry o := by
  by_contra hno
  rw [Table.regs_eq_zero hno] at h
  exact lt_irrefl 0 h

theorem step_entriesRegistered {s' : State} (h : s.table.WF W ptr_hash)
    (hlaw : s.table.EntriesRegistered W) {c : Call W} (hstep : step W ptr_hash s c = .ok s')
    (hlast : ∀ o r, c = .unregister o r → s.table.OutOfLine o → ∃ l, 0 < s'.table.regs W o l) :
    s'.table.EntriesRegistered W := by
  intro o
  refine ⟨fun hhas => ?_, fun ⟨l, hl⟩ => Table.hasEntry_of_regs hl⟩
  cases c with
  | register referent referrer found crash calloc =>
    unfold step weak_register_no_lock at hstep
    by_cases hnil : referent = 0
    · simp only [if_pos hnil] at hstep
      cases hstep
      exact (hlaw o).mp hhas
    simp only [if_neg hnil] at hstep
    cases found with
    | tagged | notImplemented => cases hstep; exact (hlaw o).mp hhas
    | deallocating =>
      cases crash with
      | true => cases hstep
      | false => cases hstep; exact (hlaw o).mp hhas
    | viable => ?_
    obtain ⟨t', hreg, -, hregs, hentry⟩ := weak_register_entry_spec h hnil referrer calloc
    simp only [hreg] at hstep
    cases hstep
    rcases (hentry o).mp hhas with rfl | hold
    · refine ⟨referrer.addr, ?_⟩
      rw [hregs, hit, if_pos ⟨rfl, rfl⟩]
      omega
    obtain ⟨l, hl⟩ := (hlaw o).mp hold
    refine ⟨l, ?_⟩
    rw [hregs]
    omega
  | unregister referent referrer =>
    unfold step at hstep
    by_cases hnil : referent = 0
    · unfold weak_unregister_no_lock at hstep
      simp only [if_pos hnil] at hstep
      cases hstep
      exact (hlaw o).mp hhas
    obtain ⟨t', hun, -, hregs, hothers, hentry⟩ := weak_unregister_spec h hnil referrer
    simp only [hun] at hstep
    cases hstep
    by_cases ho : o = referent
    · subst ho
      rcases hentry.mp hhas with hsome | hout
      · exact hsome
      · exact hlast o referrer rfl hout
    obtain ⟨l, hl⟩ := (hlaw o).mp ((hothers o ho).mp hhas)
    refine ⟨l, ?_⟩
    rw [hregs, hit, if_neg fun hand => ho hand.1.symm]
    exact hl
  | clear referent => ?_
  unfold step at hstep
  by_cases hnil : referent = 0
  · unfold weak_clear_no_lock weak_entry_for_referent at hstep
    simp only [if_pos hnil] at hstep
    cases hstep
  obtain ⟨t', mem', hclear, -, hregs, hentry⟩ := weak_clear_spec h hnil s.mem
  simp only [hclear] at hstep
  cases hstep
  obtain ⟨hne, hold⟩ := (hentry o).mp hhas
  obtain ⟨l, hl⟩ := (hlaw o).mp hold
  refine ⟨l, ?_⟩
  rw [hregs, if_neg hne]
  exact hl

theorem run_wf {calls : List (Call W)} {s' : State} (h : s.table.WF W ptr_hash)
    (hrun : run W ptr_hash s calls = .ok s') : s'.table.WF W ptr_hash := by
  rcases run_spec calls h with ⟨s1, hrun1, hwf, -⟩ | ⟨halt, hrun1, -⟩
  · cases hrun1.symm.trans hrun
    exact hwf
  · cases hrun1.symm.trans hrun

theorem step_unregister_outOfLine (h : s.table.WF W ptr_hash) {o : ObjPtr}
    (hout : s.table.OutOfLine o) (r : Referrer W) :
    ∃ s', step W ptr_hash s (.unregister o r) = .ok s' ∧
      (∀ l, s'.table.regs W o l = s.table.regs W o l - if r.addr = l then 1 else 0) ∧
      s'.table.HasEntry o := by
  have hnil : o ≠ 0 := by
    obtain ⟨e, he, rfl, -⟩ := hout
    exact h.nonnil e he
  obtain ⟨t', hun, -, hregs, -, hentry⟩ := weak_unregister_spec h hnil r
  refine ⟨⟨t', s.mem⟩, ?_, fun l => ?_, hentry.mpr (.inr hout)⟩
  · simp only [step, hun]
  · rw [hregs, hit]
    simp only [true_and]

/-- **WHEN ENTRIES AND REGISTRATIONS AGREE.**  Along a run the table has an entry for exactly the
objects with a registered referrer, if and only if every call of the run that unregisters a referrer
of an out-of-line entry finds another registration there. -/
theorem entry_iff_registered_iff (W : Nat) (ptr_hash : Nat → Nat) (calls : List (Call W))
    (mem : Location → ObjPtr) :
    (∀ before s, before <+: calls → run W ptr_hash ⟨Table.new, mem⟩ before = .ok s →
        s.table.EntriesRegistered W)
      ↔ ∀ before o r s, before ++ [.unregister o r] <+: calls →
          run W ptr_hash ⟨Table.new, mem⟩ before = .ok s → s.table.OutOfLine o →
          ∃ l, (if r.addr = l then 1 else 0) < s.table.regs W o l := by
  have hnew : Table.WF W ptr_hash (State.table ⟨Table.new, mem⟩) := Table.new_wf
  constructor
  · intro hlaw before o r s hpre hrun hout
    obtain ⟨s', hstep, hregs, hentry⟩ := step_unregister_outOfLine (run_wf hnew hrun) hout r
    have hrun' : run W ptr_hash ⟨Table.new, mem⟩ (before ++ [.unregister o r]) = .ok s' := by
      rw [run_append, hrun]
      simp only [run, hstep]
    obtain ⟨l, hl⟩ := (hlaw _ s' hpre hrun' o).mp hentry
    rw [hregs] at hl
    exact ⟨l, Nat.lt_of_sub_pos hl⟩
  intro hlast before
  induction before using reverseRecOn with
  | nil =>
    intro s _ hrun o
    cases hrun
    constructor
    · rintro ⟨e, he, -⟩
      exact absurd he not_mem_nil
    · rintro ⟨l, hl⟩
      exact Table.hasEntry_of_regs hl
  | append_singleton before c ih => ?_
  intro s hpre hrun
  obtain ⟨s', hrun', hstep⟩ := run_concat hrun
  have hlaw := ih s' ((prefix_append before [c]).trans hpre) hrun'
  refine step_entriesRegistered (run_wf hnew hrun') hlaw hstep ?_
  rintro o r rfl hout
  obtain ⟨l, hl⟩ := hlast before o r s' hpre hrun' hout
  obtain ⟨s1, hstep1, hregs, -⟩ := step_unregister_outOfLine (run_wf hnew hrun') hout r
  cases hstep1.symm.trans hstep
  refine ⟨l, ?_⟩
  rw [hregs]
  exact Nat.sub_pos_of_lt hl

/-- The `i`-th of five aligned addresses. -/
def Referrer.nth (i : Fin 5) : Referrer 64 where
  addr := 8 * (i.val + 1)
  ne_nil := Nat.mul_ne_zero (Nat.succ_ne_zero 7) i.val.succ_ne_zero
  lt_word := lt_of_le_of_lt (Nat.mul_le_mul_left 8 i.isLt) (by decide)
  aligned := ⟨2 * (i.val + 1), by omega⟩

theorem page_ne_nil (_ : Nat) : 4096 ≠ 0 := succ_ne_zero 4095

def fiveAndBack : List (Call 64) :=
  let refs := (finRange 5).map Referrer.nth
  refs.map (fun r => .register 16 r .viable false ⟨fun _ => 4096, page_ne_nil⟩)
    ++ refs.map (.unregister 16)

/-- **AN ENTRY WITHOUT REFERRERS.**  Five weak variables are registered for one object and all of
them unregistered: the entry went out of line with the fifth, and it is still in the table. -/
theorem emptied_entry_stays :
    ¬ ∀ (W : Nat) (ptr_hash : Nat → Nat) (calls : List (Call W)) (mem : Location → ObjPtr) (s : State),
      run W ptr_hash ⟨Table.new, mem⟩ calls = .ok s → s.table.EntriesRegistered W := by
  intro h
  have hrun : (run 64 ObjcRuntime.ptr_hash ⟨Table.new, fun _ => 0⟩ fiveAndBack).toOption.map
      (fun s => decide ((∃ e ∈ s.table.items, e.referent = 16) ∧ ∀ e ∈ s.table.items,
        e.referrers 64 = [])) = some true := by
    decide +kernel
  obtain ⟨s, hs, hobs⟩ := Option.map_eq_some_iff.mp hrun
  obtain ⟨⟨e, he, href⟩, hnone⟩ := of_decide_eq_true hobs
  have hok : run 64 ObjcRuntime.ptr_hash ⟨Table.new, fun _ => 0⟩ fiveAndBack = .ok s := by
    cases hres : run 64 ObjcRuntime.ptr_hash ⟨Table.new, fun _ => 0⟩ fiveAndBack with
    | error halt => rw [hres] at hs; cases hs
    | ok s' => rw [hres] at hs; cases hs; rfl
  obtain ⟨l, hl⟩ := (h 64 ObjcRuntime.ptr_hash fiveAndBack _ s hok 16).mp ⟨e, he, href⟩
  have hzero : s.table.regs 64 16 l = 0 := by
    unfold Table.regs regsIn
    rw [List.sum_eq_zero_iff_forall_eq_nat]
    intro n hn
    obtain ⟨x, hx, rfl⟩ := mem_map.mp hn
    rw [hnone x (mem_of_mem_filter hx)]
    rfl
  omega

end ObjcRuntime.WeakWords
