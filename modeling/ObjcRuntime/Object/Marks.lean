/-
THE MARKS AN OBJECT NEVER LOSES.

Deallocation decides what to clean up by looking at three marks: the
weakly-referenced mark and `has_assoc`, in the isa or (for a raw isa) in the
side table or assumed, and `has_sidetable_rc` for the side-table word.

No retain-count operation and no `changeIsa` drops a mark, for any counts,
pinned or over-released words included (`Obj.step_keeps`).
-/
import ObjcRuntime.Object.Counter

namespace ObjcRuntime

open Option Nat Obj Bool

variable {L : Layout}

/-! ## Association mark and flags -/

def Obj.hasAssociatedObjects (o : Obj L) : Bool :=
  match o.isa with
  | .raw _ => true
  | .nonpointer b => b.has_assoc

def Obj.setHasAssociatedObjects (o : Obj L) : Obj L :=
  match o.isa with
  | .raw _ => o
  | .nonpointer b => { o with isa := .nonpointer { b with has_assoc := true } }

def Obj.Flagged (o : Obj L) : Prop :=
  match o.isa with
  | .raw c => c ≠ none
  | .nonpointer b => b.has_sidetable_rc = false → o.refcnt = none

/-- `o'` has every mark that `o` has. -/
structure Obj.Keeps (o o' : Obj L) : Prop where
  flagged : o'.Flagged
  weak : o.isWeaklyReferenced = true → o'.isWeaklyReferenced = true
  assoc : o.hasAssociatedObjects = true → o'.hasAssociatedObjects = true

variable {o : Obj L}

theorem Obj.Keeps.refl (h : o.Flagged) : o.Keeps o := ⟨h, id, id⟩

theorem Obj.Keeps.trans {o' o'' : Obj L} (h : o.Keeps o') (h' : o'.Keeps o'') : o.Keeps o'' :=
  ⟨h'.flagged, fun hm => h'.weak (h.weak hm), fun hm => h'.assoc (h.assoc hm)⟩

/-! ## The weak bit of the side-table word -/

theorem two_dvd_word : 2 ∣ 2 ^ L.WORD_BITS :=
  dvd_pow_self 2 (by have := L.fits; omega)

variable {r : SideWord}

theorem weakOf_congr {w : Nat} (h : w % 2 = r.getD 0 % 2) : weakOf (some w) = weakOf r := by
  rw [weakOf_eq, weakOf_eq]
  simp only [getD_some, h]

theorem sidetable_retain_weak (r : SideWord) : weakOf (sidetable_retain L r) = weakOf r := by
  unfold sidetable_retain SIDE_TABLE_RC_ONE
  simp only
  split
  · exact weakOf_congr rfl
  refine weakOf_congr ?_
  rw [mod_mod_of_dvd _ two_dvd_word]
  omega

theorem sidetable_tryRetain_weak (r : SideWord) :
    weakOf (sidetable_tryRetain L r).1 = weakOf r := by
  unfold sidetable_tryRetain
  cases r with
  | none =>
    show weakOf (some 4) = weakOf none
    decide
  | some w => ?_
  simp only
  split
  · rfl
  split
  · rfl
  refine weakOf_congr ?_
  rw [mod_mod_of_dvd _ two_dvd_word]
  simp only [SIDE_TABLE_RC_ONE, getD_some]
  omega

theorem sidetable_release_weak (r : SideWord) : weakOf (sidetable_release L r).1 = weakOf r := by
  unfold sidetable_release
  cases r with
  | none =>
    show weakOf (some 2) = weakOf none
    decide
  | some w => ?_
  simp only
  split
  · refine weakOf_congr ?_
    rw [or_deallocating]
    simp only [getD_some]
    omega
  split
  · rfl
  refine weakOf_congr ?_
  have hword := word_eq L
  have hpos : 0 < pinLimit L := Nat.two_pow_pos _
  rw [mod_mod_of_dvd _ two_dvd_word]
  simp only [SIDE_TABLE_RC_ONE, getD_some]
  omega

theorem sidetable_moveExtraRC_weak (r : SideWord) (n : Nat) (d : Bool) :
    weakOf (sidetable_moveExtraRC_nolock L r n d true) = true := by
  unfold sidetable_moveExtraRC_nolock
  simp only [if_true]
  rw [weakOf_eq, or_weakly_referenced]
  simp only [getD_some, decide_eq_true_eq]
  omega

/-! ## Every operation keeps the marks -/

theorem Obj.initIsa_flagged (cls : Class) (nonpointer hasCxxDtor : Bool) :
    (mk (initIsa cls nonpointer hasCxxDtor : Isa L) none).Flagged := by
  cases nonpointer with
  | true => exact fun _ => rfl
  | false => exact some_ne_none cls

theorem Obj.keeps_bits {b b' : IsaBits L} (h : (mk (.nonpointer b) r).Flagged)
    (hs : b'.has_sidetable_rc = b.has_sidetable_rc)
    (hw : b'.weakly_referenced = b.weakly_referenced) (ha : b'.has_assoc = b.has_assoc) :
    (mk (.nonpointer b) r).Keeps ⟨.nonpointer b', r⟩ :=
  ⟨fun hno => h (hs ▸ hno), fun h' => hw.trans h', fun h' => ha.trans h'⟩

theorem Obj.keeps_word {r' : SideWord} {c : Option Class}
    (h : (mk (.raw c : Isa L) r).Flagged) (hw : weakOf r' = weakOf r) :
    (mk (.raw c : Isa L) r).Keeps ⟨.raw c, r'⟩ :=
  ⟨h, fun h' => hw.trans h', fun _ => rfl⟩

theorem Obj.rootRetain_keeps (h : o.Flagged) (tryRetain : Bool) :
    o.Keeps (o.rootRetain tryRetain).1 := by
  obtain ⟨isa, r⟩ := o
  cases isa with
  | raw c =>
    cases tryRetain with
    | true => exact keeps_word h (sidetable_tryRetain_weak r)
    | false => exact keeps_word h (sidetable_retain_weak r)
  | nonpointer b => ?_
  unfold rootRetain rootRetainWith
  simp only
  split
  · exact keeps_bits h rfl rfl rfl
  split
  next hcarry =>
    unfold rootRetain_overflow rootRetainWith
    rename_i hdead
    simp only [hdead, hcarry, false_eq_true, if_false, if_true]
    exact ⟨fun hno => absurd hno (by simp [IsaBits.leaveHalf]), id, id⟩
  next => exact keeps_bits h rfl rfl rfl

theorem Obj.reallyDeallocate_keeps {b : IsaBits L} (h : (mk (.nonpointer b) r).Flagged) :
    (mk (.nonpointer b) r).Keeps ((mk (.nonpointer b) r).reallyDeallocate b).1 := by
  unfold reallyDeallocate
  split <;> exact keeps_bits h rfl rfl rfl

section

variable (h : o.Flagged)

include h

theorem Obj.rootRelease_keeps : o.Keeps o.rootRelease.1 := by
  obtain ⟨isa, r⟩ := o
  cases isa with
  | raw c => exact keeps_word h (sidetable_release_weak r)
  | nonpointer b => ?_
  unfold rootRelease rootReleaseWith
  simp only
  split
  next hsub =>
    split
    next hside =>
      -- the borrow: the flag that sent us here stays set
      unfold rootRelease_underflow rootReleaseWith
      simp only [hsub, hside, if_true]
      split
      · exact ⟨fun hno => absurd (hside.symm.trans hno) (by decide), id, id⟩
      · exact reallyDeallocate_keeps h
    next => exact reallyDeallocate_keeps h
  next => exact keeps_bits h rfl rfl rfl

theorem Obj.setWeaklyReferenced_keeps :
    o.Keeps o.setWeaklyReferenced_nolock ∧ o.setWeaklyReferenced_nolock.isWeaklyReferenced = true := by
  obtain ⟨isa, r⟩ := o
  cases isa with
  | raw c =>
    have hmark := (sidetable_setWeaklyReferenced_spec r).2.2
    exact ⟨⟨h, fun _ => hmark, fun _ => rfl⟩, hmark⟩
  | nonpointer b => exact ⟨⟨h, fun _ => rfl, id⟩, rfl⟩

theorem Obj.changeIsa_keeps (newCls : Class) (f : ClassFlags) : o.Keeps (o.changeIsa newCls f) := by
  obtain ⟨isa, r⟩ := o
  cases isa with
  | raw c =>
    cases c with
    | none => exact absurd rfl h
    | some c => exact ⟨some_ne_none _, id, fun _ => rfl⟩
  | nonpointer b => ?_
  unfold changeIsa changeIsaTo
  cases hf : !f.isFuture && f.canAllocNonpointer with
  | true =>
    exact keeps_bits h rfl rfl rfl
  | false => ?_
  refine ⟨some_ne_none _, fun hw => ?_, fun _ => rfl⟩
  have hb : b.weakly_referenced = true := hw
  show weakOf (sidetable_moveExtraRC_nolock L r b.extra_rc b.deallocating
    b.weakly_referenced) = true
  rw [hb]
  exact sidetable_moveExtraRC_weak r _ _

theorem Obj.step_keeps (op : RcOp) : o.Keeps (o.step op).1 := by
  cases op with
  | retain => exact rootRetain_keeps h false
  | release => exact rootRelease_keeps h
  | tryRetain => exact rootRetain_keeps h true
  | setWeaklyReferenced => exact (setWeaklyReferenced_keeps h).1
  | changeIsa newCls f => exact changeIsa_keeps h newCls f

theorem Obj.setHasAssociatedObjects_keeps :
    o.Keeps o.setHasAssociatedObjects ∧ o.setHasAssociatedObjects.hasAssociatedObjects = true := by
  obtain ⟨isa, r⟩ := o
  cases isa with
  | raw c => exact ⟨⟨h, id, id⟩, rfl⟩
  | nonpointer b => exact ⟨⟨h, id, fun _ => rfl⟩, rfl⟩

end

end ObjcRuntime
