/-
THE WEAK TABLE OF A SIDE TABLE.

`weak_table_t`: an open-addressing table of weak entries, keyed by the object,
that grows at three quarters and shrinks when mostly empty.

What the table says is read off two functions, `regs` (how often a location is
registered for an object) and `HasEntry`. Registering, unregistering and
clearing move these readings and nothing else:

* `weak_unregister_spec`: one registration less,
* `weak_clear_spec`: the entry gone, its locations nil.
-/
import ObjcRuntime.Weak.Entry

namespace ObjcRuntime

open Lib List Slots WeakEntry

/-! ## The functions of objc-weak.mm -/

/-- `weak_table_t`. -/
abbrev WeakTable := Slots WeakEntry

/-- A zeroed table: `weak_entries` is nil. -/
def WeakTable.new : WeakTable := ⟨[], 0, 0⟩

def WeakEntry.home (e : WeakEntry) : Nat := hash_pointer e.referent

/-- `weak_entry_for_referent`: the index of the object's entry. -/
def weak_entry_for_referent (weak_table : WeakTable) (referent : ObjPtr) :
    Except Fatal (Option Nat) :=
  if weak_table.slots = [] then .ok none
  else
    match weak_table.find (hash_pointer referent) (fun e => e.referent == referent) with
    | none => .error .badWeakTable
    | some index => .ok index

def weak_entry_insert (weak_table : WeakTable) (new_entry : WeakEntry) : Except Fatal WeakTable :=
  match weak_table.insert new_entry.home new_entry with
  | none => .error .badWeakTable
  | some weak_table' => .ok weak_table'

/-- `weak_resize`: insert every entry into a zeroed table of the new size. -/
def weak_resize (weak_table : WeakTable) (new_size : Nat) : Except Fatal WeakTable :=
  match Slots.insertAll WeakEntry.home (Slots.empty new_size) weak_table.items with
  | none => .error .badWeakTable
  | some weak_table' => .ok weak_table'

def weak_grow_maybe (weak_table : WeakTable) : Except Fatal WeakTable :=
  let old_size := weak_table.slots.length
  if old_size * 3 / 4 ≤ weak_table.num then
    weak_resize weak_table (if old_size = 0 then 64 else old_size * 2)
  else .ok weak_table

def weak_compact_maybe (weak_table : WeakTable) : Except Fatal WeakTable :=
  let old_size := weak_table.slots.length
  if 1024 ≤ old_size ∧ weak_table.num ≤ old_size / 16 then weak_resize weak_table (old_size / 8)
  else .ok weak_table

def weak_entry_remove (weak_table : WeakTable) (index : Nat) : Except Fatal WeakTable :=
  weak_compact_maybe (weak_table.removeAt index)

def weak_unregister_no_lock (weak_table : WeakTable) (referent : ObjPtr) (referrer : Location) :
    Except Fatal WeakTable :=
  if referent = 0 then .ok weak_table
  else do
    match ← weak_entry_for_referent weak_table referent with
    | none => .ok weak_table
    | some index =>
      match weak_table.slots.getD index none with
      | none => .ok weak_table
      | some entry =>
        let referrers ← remove_referrer entry.referrers referrer
        let weak_table' := weak_table.replaceAt index { entry with referrers := referrers }
        if referrers.isEmpty then weak_entry_remove weak_table' index else .ok weak_table'

/-- The second half of `weak_register_no_lock`, once the object is known to be viable. -/
def weak_register_entry (weak_table : WeakTable) (referent : ObjPtr) (referrer : Location) :
    Except Fatal WeakTable := do
  match ← weak_entry_for_referent weak_table referent with
  | some index =>
    match weak_table.slots.getD index none with
    | none => .ok weak_table
    | some entry =>
      let referrers ← append_referrer entry.referrers referrer
      .ok (weak_table.replaceAt index { entry with referrers := referrers })
  | none =>
    let weak_table' ← weak_grow_maybe weak_table
    weak_entry_insert weak_table' (WeakEntry.new referent referrer)

/-- The loop of `weak_clear_no_lock`: a location that still holds the object becomes
nil; one that holds something else is reported and left alone. -/
def clearReferrers (referent : ObjPtr) :
    List Location → (Location → ObjPtr) → Location → ObjPtr
  | [], mem => mem
  | referrer :: referrers, mem =>
    clearReferrers referent referrers
      (if mem referrer = referent then Function.update mem referrer 0 else mem)

def weak_clear_no_lock (weak_table : WeakTable) (referent : ObjPtr) (mem : Location → ObjPtr) :
    Except Fatal (WeakTable × (Location → ObjPtr)) := do
  match ← weak_entry_for_referent weak_table referent with
  | none => .ok (weak_table, mem)
  | some index =>
    match weak_table.slots.getD index none with
    | none => .ok (weak_table, mem)
    | some entry =>
      let weak_table' ← weak_entry_remove weak_table index
      .ok (weak_table', clearReferrers referent entry.referrers.items mem)

/-- The locations `weak_clear_no_lock` goes through; `none` if there is no entry. -/
def weak_clear_referrers (weak_table : WeakTable) (referent : ObjPtr) :
    Except Fatal (Option (List Location)) :=
  match weak_entry_for_referent weak_table referent with
  | .error e => .error e
  | .ok none => .ok none
  | .ok (some index) =>
    match weak_table.slots.getD index none with
    | none => .ok none
    | some entry => .ok (some entry.referrers.items)

/-- The end of `weak_clear_no_lock`: the entry is removed. -/
def weak_clear_remove (weak_table : WeakTable) (referent : ObjPtr) : Except Fatal WeakTable :=
  match weak_entry_for_referent weak_table referent with
  | .error e => .error e
  | .ok none => .ok weak_table
  | .ok (some index) => weak_entry_remove weak_table index

/-! ## Readings -/

/-- How often `l` is registered for `o` in a list of entries. -/
def regsIn (o : ObjPtr) (l : Location) : List WeakEntry → Nat
  | [] => 0
  | e :: es => (if e.referent = o then e.referrers.items.count l else 0) + regsIn o l es

theorem regsIn_perm {o : ObjPtr} {l : Location} {es es' : List WeakEntry} (h : es.Perm es') :
    regsIn o l es = regsIn o l es' := by
  induction h with
  | nil => rfl
  | cons e _ ih => simp only [regsIn, ih]
  | swap e e' es => simp only [regsIn]; omega
  | trans _ _ ih1 ih2 => exact ih1.trans ih2

theorem regsIn_eq_zero {o : ObjPtr} {l : Location} {es : List WeakEntry}
    (h : ∀ e ∈ es, e.referent ≠ o) : regsIn o l es = 0 := by
  induction es with
  | nil => rfl
  | cons e es ih =>
    have he : e.referent ≠ o := h e mem_cons_self
    have hes := ih fun e' he' => h e' (mem_cons_of_mem _ he')
    simp only [regsIn, if_neg he, hes]

/-- How often `l` is registered for `o`. -/
def WeakTable.regs (t : WeakTable) (o : ObjPtr) (l : Location) : Nat := regsIn o l t.items

/-- The table has an entry for `o`. -/
def WeakTable.HasEntry (t : WeakTable) (o : ObjPtr) : Prop := ∃ e ∈ t.items, e.referent = o

/-- A table as the functions above keep it: not yet allocated, or hashed and at most
three quarters full, with one well-formed entry per object. -/
structure WeakTable.WF (t : WeakTable) : Prop where
  shape : t = WeakTable.new
    ∨ (Slots.WF WeakEntry.home t ∧ 64 ≤ t.slots.length ∧ t.num ≤ t.slots.length * 3 / 4)
  entries : ∀ e ∈ t.items, e.referrers.WF
  nodup : (t.items.map WeakEntry.referent).Nodup

theorem WeakTable.new_wf : WeakTable.new.WF :=
  ⟨.inl rfl, nofun, nodup_nil⟩

section Readings

variable {t t' : WeakTable} {e e' : WeakEntry}

theorem WeakTable.regs_of_perm_cons (h : t'.items.Perm (e :: t.items)) (o : ObjPtr) (l : Location) :
    t'.regs o l = (if e.referent = o then e.referrers.items.count l else 0) + t.regs o l :=
  regsIn_perm h

theorem WeakTable.hasEntry_of_perm_cons (h : t'.items.Perm (e :: t.items)) (o : ObjPtr) :
    t'.HasEntry o ↔ e.referent = o ∨ t.HasEntry o :=
  exists_key_of_perm_cons h o

end Readings

/-! ## The keyed table -/

variable {t t' : WeakTable}

theorem WeakTable.WF.keyed (h : t.WF) :
    t.Keyed home referent fun e => e.referrers.WF :=
  { h with }

theorem weak_grow_maybe_eq (h : t.grow home = some t') : weak_grow_maybe t = .ok t' := by
  unfold grow at h
  unfold weak_grow_maybe weak_resize
  split at h
  next hfull => simp only [hfull, if_true, h]
  next hfull =>
    cases h
    simp only [hfull, if_false]

theorem weak_compact_maybe_eq (h : t.shrink home = some t') :
    weak_compact_maybe t = .ok t' := by
  unfold shrink at h
  unfold weak_compact_maybe weak_resize
  split at h
  next hsparse => simp only [hsparse, and_self, if_true, h]
  next hsparse =>
    cases h
    simp only [hsparse, if_false]

/-! ## Looking up -/

theorem weak_entry_for_referent_spec (h : t.WF) (o : ObjPtr) :
    (∃ i e, weak_entry_for_referent t o = .ok (some i) ∧ t.slots[i]? = some (some e)
        ∧ e.referent = o ∧ t.slots.getD i none = some e)
      ∨ (weak_entry_for_referent t o = .ok none ∧ ∀ e ∈ t.items, e.referent ≠ o) := by
  unfold weak_entry_for_referent
  rcases h.keyed.find (hash_pointer o) (fun _ => beq_iff_eq) (fun e he => by
      rw [home, he]) with ⟨i, e, hne, hfind, hi, he, hget⟩ | ⟨hnot, hnone⟩
  · exact .inl ⟨i, e, by rw [if_neg hne, hfind], hi, he, hget⟩
  refine .inr ⟨?_, hnone⟩
  rcases hnot with hnil | hfind
  · rw [if_pos hnil]
  · rw [hfind, ite_self]

variable {i : Nat} {e : WeakEntry}

/-! ## Changing one entry -/

variable (h : t.WF)
include h

variable (hi : t.slots[i]? = some (some e))
include hi

theorem replace_entry_spec {r : Referrers}
    (hr : r.WF) (ht' : t' = t.replaceAt i { e with referrers := r }) :
    t'.WF ∧ (∀ o l, (if e.referent = o then e.referrers.items.count l else 0) + t'.regs o l
          = (if e.referent = o then r.items.count l else 0) + t.regs o l)
      ∧ (∀ o, t'.HasEntry o ↔ t.HasEntry o)
      ∧ t'.slots[i]? = some (some { e with referrers := r }) := by
  obtain ⟨hkeyed, hperm, hkeys, hget⟩ :=
    h.keyed.replace (a := { e with referrers := r }) hi hr rfl (by simp only [home])
  subst ht'
  refine ⟨{ hkeyed with }, fun o l => ?_, fun o => ?_, hget⟩
  · exact regsIn_perm (o := o) (l := l) hperm
  · have hmem := hkeys.mem_iff (a := o)
    simpa [WeakTable.HasEntry, mem_map] using hmem

theorem weak_entry_remove_spec :
    ∃ t', weak_entry_remove t i = .ok t' ∧ t'.WF ∧ ¬ t'.HasEntry e.referent ∧ (∀ o l, t.regs o l
          = (if e.referent = o then e.referrers.items.count l else 0) + t'.regs o l)
      ∧ (∀ o, o ≠ e.referent → (t'.HasEntry o ↔ t.HasEntry o)) := by
  obtain ⟨t', hres, hkeyed, hperm, hgone⟩ := h.keyed.remove hi
  refine ⟨t', weak_compact_maybe_eq hres, { hkeyed with },
    fun ⟨x, hx, hxe⟩ => hgone x hx hxe, ?_, ?_⟩
  · intro o l
    exact WeakTable.regs_of_perm_cons hperm o l
  intro o hne
  rw [WeakTable.hasEntry_of_perm_cons hperm o]
  exact ⟨.inr, fun hor => hor.resolve_left hne.symm⟩

theorem regs_eq_count (l : Location) :
    t.regs e.referent l = e.referrers.items.count l := by
  obtain ⟨t', -, -, hgone, hsplit, -⟩ := weak_entry_remove_spec h hi
  have hzero : t'.regs e.referent l = 0 :=
    regsIn_eq_zero fun x hx hxe => hgone ⟨x, hx, hxe⟩
  rw [hsplit, if_pos rfl, hzero, add_zero]

omit hi

/-! ## Register, unregister, clear -/

def hit (referent : ObjPtr) (referrer : Location) (o : ObjPtr) (l : Location) : Nat :=
  if referent = o ∧ referrer = l then 1 else 0

variable (referent : ObjPtr)

theorem weak_register_spec (referrer : Location) :
    ∃ t', weak_register_entry t referent referrer = .ok t' ∧ t'.WF
      ∧ (∀ o l, t'.regs o l = t.regs o l + hit referent referrer o l)
      ∧ (∀ o, o ≠ referent → (t'.HasEntry o ↔ t.HasEntry o)) ∧ t'.HasEntry referent := by
  unfold weak_register_entry
  rcases weak_entry_for_referent_spec h referent with ⟨i, e, hfind, hi, rfl, hget⟩ | ⟨hfind, hnone⟩
  · -- the object has an entry: append to it
    have hmem : e ∈ t.items := mem_items.mpr ⟨i, hi⟩
    obtain ⟨r, happ, hr, hperm⟩ := append_referrer_spec (h.entries e hmem) referrer
    obtain ⟨hwf, hregs, hhas, -⟩ := replace_entry_spec h hi hr rfl
    refine ⟨t.replaceAt i { e with referrers := r }, ?_, hwf, ?_, fun o _ => hhas o,
      (hhas _).mpr ⟨e, hmem, rfl⟩⟩
    · simp only [hfind, bind, Except.bind, hget, happ]
    intro o l
    have := hregs o l
    rw [hperm.count_eq l, count_cons] at this
    unfold hit
    by_cases ho : e.referent = o <;> by_cases hl : referrer = l <;>
      simp [ho, hl] at this ⊢ <;> omega
  -- no entry yet: make room, then insert one
  obtain ⟨t1, t2, hgrow, hins, hkeyed, hperm⟩ :=
    h.keyed.add (a := new referent referrer) (new_wf _ _) hnone
  have hhas := WeakTable.hasEntry_of_perm_cons hperm
  refine ⟨t2, ?_, { hkeyed with }, ?_, ?_, (hhas _).mpr (.inl rfl)⟩
  · simp only [hfind, bind, Except.bind, weak_grow_maybe_eq hgrow, weak_entry_insert, hins]
  · intro o l
    rw [WeakTable.regs_of_perm_cons hperm o l, new_items]
    show (if referent = o then count l [referrer] else 0) + _ = _
    unfold hit
    by_cases ho : referent = o <;> by_cases hl : referrer = l <;>
      simp [ho, hl, add_comm]
  · intro o hne
    rw [hhas o]
    exact ⟨fun hor => hor.resolve_left hne.symm, .inr⟩

theorem weak_unregister_spec
    (hnil : referent ≠ 0) (referrer : Location) :
    ∃ t', weak_unregister_no_lock t referent referrer = .ok t' ∧ t'.WF
      ∧ (∀ o l, t'.regs o l = t.regs o l - hit referent referrer o l)
      ∧ (∀ o, o ≠ referent → (t'.HasEntry o ↔ t.HasEntry o))
      ∧ (t'.HasEntry referent → t.HasEntry referent) := by
  unfold weak_unregister_no_lock
  rw [if_neg hnil]
  rcases weak_entry_for_referent_spec h referent with ⟨i, e, hfind, hi, rfl, hget⟩ | ⟨hfind, hnone⟩
  · have hmem : e ∈ t.items := mem_items.mpr ⟨i, hi⟩
    obtain ⟨r, hrem, hr, hperm⟩ := remove_referrer_spec (h.entries e hmem) referrer
    obtain ⟨hwf, hregs, hhas, hi'⟩ := replace_entry_spec h hi hr rfl
    -- the counts after the removal, whether or not the entry stays
    have hcount : ∀ o l, WeakTable.regs (t.replaceAt i { e with referrers := r }) o l
        = t.regs o l - hit e.referent referrer o l := by
      intro o l
      have := hregs o l
      rw [hperm.count_eq l, count_erase] at this
      unfold hit
      by_cases ho : e.referent = o
      · -- the object has one entry only
        have hone := regs_eq_count h hi l
        rw [ho] at hone
        by_cases hl : referrer = l
        · simp only [ho, hl, if_true, beq_self_eq_true, and_self] at this ⊢
          omega
        · simp only [ho, hl, if_true, beq_iff_eq, if_false, and_false] at this ⊢
          omega
      · simp only [ho, if_false, false_and] at this ⊢
        omega
    simp only [hfind, bind, Except.bind, hget, hrem]
    by_cases hempty : r.isEmpty = true
    · obtain ⟨t', hdel, hwf', -, hsplit, hothers⟩ := weak_entry_remove_spec hwf hi'
      refine ⟨t', by rw [if_pos hempty]; exact hdel, hwf', ?_,
        fun o ho => (hothers o ho).trans (hhas o), fun _ => ⟨e, hmem, rfl⟩⟩
      · intro o l
        have := hsplit o l
        rw [← hcount o l, this, Referrers.items_of_isEmpty hempty]
        simp
    · exact ⟨_, by rw [if_neg hempty], hwf, hcount, fun o _ => hhas o, (hhas _).mp⟩
  · refine ⟨t, ?_, h, ?_, fun _ _ => .rfl, id⟩
    · simp only [hfind, bind, Except.bind]
    intro o l
    unfold hit
    by_cases ho : referent = o ∧ referrer = l
    · rw [if_pos ho, ← ho.1]
      have hz : t.regs referent l = 0 := regsIn_eq_zero hnone
      rw [hz]
    · rw [if_neg ho, Nat.sub_zero]

omit h

theorem clearReferrers_spec (refs : List Location) :
    ∀ (mem : Location → ObjPtr) (l : Location), clearReferrers referent refs mem l
      = if l ∈ refs ∧ mem l = referent then 0 else mem l := by
  induction refs with
  | nil => intro mem l; simp [clearReferrers]
  | cons r refs ih => ?_
  intro mem l
  unfold clearReferrers
  rw [ih]
  by_cases hl : l = r
  · subst hl
    by_cases hm : mem l = referent <;> simp [hm]
  · by_cases hm : mem r = referent <;> simp [hm, hl]

theorem weak_clear_parts (t : WeakTable) (referent : ObjPtr) (mem : Location → ObjPtr) :
    weak_clear_no_lock t referent mem =
      match weak_clear_referrers t referent with
      | .error e => .error e
      | .ok none => .ok (t, mem)
      | .ok (some refs) =>
        match weak_clear_remove t referent with
        | .error e => .error e
        | .ok t' => .ok (t', clearReferrers referent refs mem) := by
  unfold weak_clear_no_lock weak_clear_referrers weak_clear_remove
  cases hfind : weak_entry_for_referent t referent with
  | error e => rfl
  | ok found => ?_
  cases found with
  | none => rfl
  | some index => ?_
  simp only [bind, Except.bind]
  cases t.slots.getD index none with
  | none => rfl
  | some entry =>
    cases weak_entry_remove t index with
    | error e | ok t' => rfl

include h

theorem weak_clear_referrers_spec :
    ∃ refs, weak_clear_referrers t referent = .ok refs
      ∧ (∀ l, (refs.getD []).count l = t.regs referent l)
      ∧ (refs = none → ¬ t.HasEntry referent) := by
  unfold weak_clear_referrers
  rcases weak_entry_for_referent_spec h referent with ⟨i, e, hfind, hi, rfl, hget⟩ | ⟨hfind, hnone⟩
  · refine ⟨some e.referrers.items, by simp only [hfind, hget], fun l => ?_, nofun⟩
    exact (regs_eq_count h hi l).symm
  · refine ⟨none, by simp only [hfind], fun l => ?_, fun _ ⟨x, hx, hxe⟩ => hnone x hx hxe⟩
    exact (regsIn_eq_zero hnone).symm

theorem weak_clear_remove_spec :
    ∃ t', weak_clear_remove t referent = .ok t' ∧ t'.WF ∧ ¬ t'.HasEntry referent
      ∧ (∀ o l, t'.regs o l = if o = referent then 0 else t.regs o l)
      ∧ (∀ o, o ≠ referent → (t'.HasEntry o ↔ t.HasEntry o)) := by
  unfold weak_clear_remove
  rcases weak_entry_for_referent_spec h referent with ⟨i, e, hfind, hi, rfl, hget⟩ | ⟨hfind, hnone⟩
  · obtain ⟨t', hdel, hwf, hgone, hsplit, hothers⟩ := weak_entry_remove_spec h hi
    refine ⟨t', by simp only [hfind, hdel], hwf, hgone, fun o l => ?_, hothers⟩
    by_cases ho : o = e.referent
    · rw [if_pos ho, ho]
      exact regsIn_eq_zero fun x hx hxe => hgone ⟨x, hx, hxe⟩
    rw [if_neg ho]
    have hreg := hsplit o l
    rw [if_neg (Ne.symm ho), zero_add] at hreg
    exact hreg.symm
  refine ⟨t, by simp only [hfind], h, fun ⟨x, hx, hxe⟩ => hnone x hx hxe, fun o l => ?_,
    fun _ _ => .rfl⟩
  by_cases ho : o = referent
  · rw [if_pos ho, ho]
    exact regsIn_eq_zero hnone
  · rw [if_neg ho]

theorem weak_clear_spec (mem : Location → ObjPtr) :
    ∃ t' mem', weak_clear_no_lock t referent mem = .ok (t', mem') ∧ t'.WF ∧ ¬ t'.HasEntry referent
      ∧ (∀ o l, t'.regs o l = if o = referent then 0 else t.regs o l)
      ∧ (∀ o, o ≠ referent → (t'.HasEntry o ↔ t.HasEntry o))
      ∧ (∀ l, mem' l = if 0 < t.regs referent l ∧ mem l = referent then 0 else mem l) := by
  obtain ⟨refs, hrefs, hcount, hno⟩ := weak_clear_referrers_spec h referent
  rw [weak_clear_parts, hrefs]
  cases refs with
  | none =>
    have hgone := hno rfl
    have hzero : ∀ l, t.regs referent l = 0 := fun l =>
      regsIn_eq_zero fun x hx hxe => hgone ⟨x, hx, hxe⟩
    refine ⟨t, mem, rfl, h, hgone, fun o l => ?_, fun _ _ => .rfl, fun l => ?_⟩
    · by_cases ho : o = referent
      · rw [if_pos ho, ho, hzero]
      · rw [if_neg ho]
    · rw [hzero, if_neg fun hand => lt_irrefl 0 hand.1]
  | some refs => ?_
  obtain ⟨t', hdel, hwf, hgone, hregs, hothers⟩ := weak_clear_remove_spec h referent
  refine ⟨t', clearReferrers referent refs mem, by simp only [hdel], hwf, hgone, hregs, hothers,
    fun l => ?_⟩
  rw [clearReferrers_spec, ← hcount l, Option.getD_some]
  simp only [count_pos_iff]

end ObjcRuntime
