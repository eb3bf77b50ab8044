/-
THE WEAK TABLES OF ALL SIDE TABLES.

`SideTables()` is a `StripedMap`: an object's weak entry lives in the side table
that its address selects. The readings `regs` and `HasEntry` of one table
become readings of the whole map, and the specs of objc-weak.mm carry over:
an operation on one object moves that object's readings only.
-/
import Mathlib.Algebra.BigOperators.Group.Finset.Basic
import ObjcRuntime.Weak.Table

namespace ObjcRuntime

/-! ## Stripes -/

def StripeCount : Nat := 64

def indexForPointer (addr : ObjPtr) : Nat := ((addr >>> 4) ^^^ (addr >>> 9)) % StripeCount

theorem indexForPointer_lt (o : ObjPtr) : indexForPointer o < StripeCount :=
  Nat.mod_lt _ (by decide)

/-- The `weak_table` of each side table. -/
structure WeakTables where
  table : Nat → WeakTable

namespace WeakTables

def new : WeakTables := ⟨fun _ => WeakTable.new⟩

/-- Put `t` in the place of `o`'s table. -/
def set (w : WeakTables) (o : ObjPtr) (t : WeakTable) : WeakTables :=
  ⟨Function.update w.table (indexForPointer o) t⟩

/-- `weak_unregister_no_lock` on the table of `o`. -/
def unregister (w : WeakTables) (o : ObjPtr) (l : Location) : Except Fatal WeakTables :=
  match weak_unregister_no_lock (w.table (indexForPointer o)) o l with
  | .error e => .error e
  | .ok t => .ok (w.set o t)

/-- The table part of `weak_register_no_lock` on the table of `o`. -/
def register (w : WeakTables) (o : ObjPtr) (l : Location) : Except Fatal WeakTables :=
  match weak_register_entry (w.table (indexForPointer o)) o l with
  | .error e => .error e
  | .ok t => .ok (w.set o t)

/-- `weak_clear_no_lock` on the table of `o`. -/
def clear (w : WeakTables) (o : ObjPtr) (mem : Location → ObjPtr) :
    Except Fatal (WeakTables × (Location → ObjPtr)) :=
  match weak_clear_no_lock (w.table (indexForPointer o)) o mem with
  | .error e => .error e
  | .ok (t, mem') => .ok (w.set o t, mem')

/-- `weak_clear_referrers` on the table of `o`. -/
def referrers (w : WeakTables) (o : ObjPtr) : Except Fatal (Option (List Location)) :=
  weak_clear_referrers (w.table (indexForPointer o)) o

/-- `weak_clear_remove` on the table of `o`. -/
def remove (w : WeakTables) (o : ObjPtr) : Except Fatal WeakTables :=
  match weak_clear_remove (w.table (indexForPointer o)) o with
  | .error e => .error e
  | .ok t => .ok (w.set o t)

/-! ## Readings of the whole map -/

/-- How often `l` is registered for `o`, over all tables. -/
def registrations (w : WeakTables) (o : ObjPtr) (l : Location) : Nat :=
  ∑ i ∈ Finset.range StripeCount, (w.table i).regs o l

/-- Some table has an entry for `o`. -/
def HasEntry (w : WeakTables) (o : ObjPtr) : Prop :=
  ∃ i, i < StripeCount ∧ (w.table i).HasEntry o

structure WF (w : WeakTables) : Prop where
  tables : ∀ i, (w.table i).WF
  striped : ∀ i o, (w.table i).HasEntry o → i = indexForPointer o ∧ o ≠ 0

theorem new_wf : new.WF :=
  ⟨fun _ => WeakTable.new_wf, fun _ _ ⟨_, hmem, _⟩ => absurd hmem List.not_mem_nil⟩

variable {w : WeakTables} {o : ObjPtr} (h : w.WF)
include h

theorem WF.regs_zero {i : Nat} (hne : i ≠ indexForPointer o) (l : Location) :
    (w.table i).regs o l = 0 :=
  regsIn_eq_zero fun e he heo => hne (h.striped i o ⟨e, he, heo⟩).1

theorem WF.registrations_eq (o : ObjPtr) (l : Location) :
    w.registrations o l = (w.table (indexForPointer o)).regs o l := by
  refine Finset.sum_eq_single (indexForPointer o) (fun i _ hne => h.regs_zero hne l) fun hno => ?_
  exact absurd (Finset.mem_range.mpr (indexForPointer_lt o)) hno

theorem WF.hasEntry_iff (o : ObjPtr) :
    w.HasEntry o ↔ (w.table (indexForPointer o)).HasEntry o := by
  constructor
  · rintro ⟨i, -, hi⟩
    rw [← (h.striped i o hi).1]
    exact hi
  · exact fun hi => ⟨_, indexForPointer_lt o, hi⟩

theorem WF.nil_regs (l : Location) : w.registrations 0 l = 0 := by
  rw [h.registrations_eq]
  exact regsIn_eq_zero fun e he heo => (h.striped _ 0 ⟨e, he, heo⟩).2 rfl

/-! ## Replacing one table -/

theorem WF.set_spec (ho : o ≠ 0) {t : WeakTable} (ht : t.WF)
    {f : Nat → ObjPtr → Location → Nat}
    (hregs : ∀ o' l, t.regs o' l = f ((w.table (indexForPointer o)).regs o' l) o' l)
    (hother : ∀ n o' l, o' ≠ o → f n o' l = n)
    (hhas : ∀ o', o' ≠ o → (t.HasEntry o' ↔ (w.table (indexForPointer o)).HasEntry o')) :
    (w.set o t).WF ∧ (∀ o' l, (w.set o t).registrations o' l = f (w.registrations o' l) o' l)
      ∧ (∀ o', o' ≠ o → ((w.set o t).HasEntry o' ↔ w.HasEntry o'))
      ∧ ((w.set o t).HasEntry o ↔ t.HasEntry o) := by
  have hself : (w.set o t).table (indexForPointer o) = t := Function.update_self ..
  have hne : ∀ i, i ≠ indexForPointer o → (w.set o t).table i = w.table i := fun i hi =>
    Function.update_of_ne hi ..
  have hwf : (w.set o t).WF := by
    refine ⟨fun i => ?_, fun i o' hi => ?_⟩
    · by_cases hi : i = indexForPointer o
      · rw [hi, hself]
        exact ht
      · rw [hne i hi]
        exact h.tables i
    by_cases hio : i = indexForPointer o
    · subst hio
      rw [hself] at hi
      by_cases ho' : o' = o
      · rw [ho']
        exact ⟨rfl, ho⟩
      · exact h.striped _ o' ((hhas o' ho').mp hi)
    · rw [hne i hio] at hi
      exact h.striped i o' hi
  refine ⟨hwf, ?_, ?_, ?_⟩
  · intro o' l
    rw [hwf.registrations_eq, h.registrations_eq]
    by_cases hi : indexForPointer o' = indexForPointer o
    · rw [hi, hself]
      exact hregs o' l
    · rw [hne _ hi, hother _ o' l (fun heq => hi (heq ▸ rfl))]
  · intro o' ho'
    rw [hwf.hasEntry_iff, h.hasEntry_iff]
    by_cases hi : indexForPointer o' = indexForPointer o
    · rw [hi, hself]
      exact hhas o' ho'
    · rw [hne _ hi]
  · rw [hwf.hasEntry_iff, hself]

omit h

/-! ## The three operations -/

theorem hit_of_ne {o' : ObjPtr} (h : o' ≠ o) (l l' : Location) : hit o l o' l' = 0 :=
  if_neg fun hand => h hand.1.symm

include h

theorem unregister_spec (ho : o ≠ 0) (l : Location) :
    ∃ w', w.unregister o l = .ok w' ∧ w'.WF
      ∧ (∀ o' l', w'.registrations o' l' = w.registrations o' l' - hit o l o' l')
      ∧ (∀ o', w'.HasEntry o' → w.HasEntry o') := by
  obtain ⟨t, hrun, ht, hregs, hhas, hself⟩ :=
    weak_unregister_spec (h.tables (indexForPointer o)) o ho l
  obtain ⟨hwf, hreg', hhas', hself'⟩ := h.set_spec ho ht
    (f := fun n o' l' => n - hit o l o' l') hregs
    (fun n o' l' hne => by simp only [hit_of_ne hne, Nat.sub_zero]) hhas
  refine ⟨w.set o t, by simp only [unregister, hrun], hwf, hreg', fun o' hent => ?_⟩
  by_cases heq : o' = o
  · subst heq
    exact (h.hasEntry_iff o').mpr (hself (hself'.mp hent))
  · exact (hhas' o' heq).mp hent

theorem register_spec (ho : o ≠ 0) (l : Location) :
    ∃ w', w.register o l = .ok w' ∧ w'.WF
      ∧ (∀ o' l', w'.registrations o' l' = w.registrations o' l' + hit o l o' l')
      ∧ (∀ o', o' ≠ o → (w'.HasEntry o' ↔ w.HasEntry o')) := by
  obtain ⟨t, hrun, ht, hregs, hhas, -⟩ :=
    weak_register_spec (h.tables (indexForPointer o)) o l
  obtain ⟨hwf, hreg', hhas', -⟩ := h.set_spec ho ht
    (f := fun n o' l' => n + hit o l o' l') hregs
    (fun n o' l' hne => by simp only [hit_of_ne hne, Nat.add_zero]) hhas
  exact ⟨w.set o t, by simp only [register, hrun], hwf, hreg', hhas'⟩

theorem clear_spec (ho : o ≠ 0) (mem : Location → ObjPtr) :
    ∃ w' mem', w.clear o mem = .ok (w', mem') ∧ w'.WF ∧ ¬ w'.HasEntry o
      ∧ (∀ o' l, w'.registrations o' l = if o' = o then 0 else w.registrations o' l)
      ∧ (∀ o', o' ≠ o → (w'.HasEntry o' ↔ w.HasEntry o'))
      ∧ (∀ l, mem' l = if 0 < w.registrations o l ∧ mem l = o then 0 else mem l) := by
  obtain ⟨t, mem', hrun, ht, hgone, hregs, hhas, hmem⟩ :=
    weak_clear_spec (h.tables (indexForPointer o)) o mem
  obtain ⟨hwf, hreg', hhas', hself'⟩ := h.set_spec ho ht
    (f := fun n o' _ => if o' = o then 0 else n) hregs (fun _ _ _ hne => if_neg hne) hhas
  refine ⟨w.set o t, mem', by simp only [clear, hrun], hwf, fun hent => hgone (hself'.mp hent),
    hreg', hhas', fun l => ?_⟩
  rw [hmem l, h.registrations_eq]

theorem referrers_spec (o : ObjPtr) :
    ∃ refs, w.referrers o = .ok refs ∧ ∀ l, (refs.getD []).count l = w.registrations o l := by
  obtain ⟨refs, hrefs, hcount, -⟩ :=
    weak_clear_referrers_spec (h.tables (indexForPointer o)) o
  exact ⟨refs, hrefs, fun l => (hcount l).trans (h.registrations_eq o l).symm⟩

theorem remove_spec (ho : o ≠ 0) :
    ∃ w', w.remove o = .ok w' ∧ w'.WF
      ∧ ∀ o' l, w'.registrations o' l = if o' = o then 0 else w.registrations o' l := by
  obtain ⟨t, hrun, ht, hgone, hregs, hhas⟩ :=
    weak_clear_remove_spec (h.tables (indexForPointer o)) o
  obtain ⟨hwf, hreg', -, -⟩ := h.set_spec ho ht
    (f := fun n o' _ => if o' = o then 0 else n) hregs (fun _ _ _ hne => if_neg hne) hhas
  exact ⟨w.set o t, by simp only [remove, hrun], hwf, hreg'⟩

end WeakTables

end ObjcRuntime
