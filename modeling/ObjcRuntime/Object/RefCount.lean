/-
RETAIN COUNTS OF ONE OBJECT, ONE THREAD.

The retain-count functions of objc-object.h on the pair (isa, side-table
word). One thread runs alone here, so each `StoreExclusive` succeeds and the
retry loops run once; the interleaved version of the same code is
`ObjcRuntime.Object.Threads`.

`rootRetain` and `rootRelease` exist twice in the source, selected by
`handleOverflow` / `handleUnderflow`. Both copies are one definition here,
parametric in what the copy does when the inline field runs over.

Main results: what each operation does to `extraCount`, `rootIsDeallocating`
and `isWeaklyReferenced` (`Obj.Shows`), under the invariant `Obj.WF`.
-/
import ObjcRuntime.Object.SideTable

namespace ObjcRuntime

open IsaBits Nat Bool

/-! ## The object and its operations -/

structure Obj (L : Layout) where
  isa : Isa L
  refcnt : SideWord
  deriving DecidableEq

variable {L : Layout}

/-- The body of `rootRetain(tryRetain, handleOverflow)`. -/
def Obj.rootRetainWith (overflow : IsaBits L → Obj L × Bool) (tryRetain : Bool) (o : Obj L) :
    Obj L × Bool :=
  match o.isa with
  | .raw _ =>
    if tryRetain then
      ({ o with refcnt := (sidetable_tryRetain L o.refcnt).1 }, (sidetable_tryRetain L o.refcnt).2)
    else ({ o with refcnt := sidetable_retain L o.refcnt }, true)
  | .nonpointer oldisa =>
    if tryRetain && oldisa.deallocating then (o, false)
    else if (oldisa.addRC 1).2 then overflow (oldisa.addRC 1).1
    else ({ o with isa := .nonpointer (oldisa.addRC 1).1 }, true)

def IsaBits.leaveHalf (newisa : IsaBits L) : IsaBits L :=
  { newisa.setExtraRc (RC_HALF L) with has_sidetable_rc := true }

/-- `rootRetain_overflow`: `rootRetain` with `handleOverflow`. -/
def Obj.rootRetain_overflow (tryRetain : Bool) (o : Obj L) : Obj L × Bool :=
  o.rootRetainWith
    (fun newisa =>
      ({ isa := .nonpointer newisa.leaveHalf,
         refcnt := (sidetable_addExtraRC_nolock L o.refcnt (RC_HALF L)).1 }, true))
    tryRetain

/-- `rootRetain(tryRetain, false)`. The answer is whether the result is non-nil. -/
def Obj.rootRetain (tryRetain : Bool) (o : Obj L) : Obj L × Bool :=
  o.rootRetainWith (fun _ => o.rootRetain_overflow tryRetain) tryRetain

def Obj.rootTryRetain (o : Obj L) : Obj L × Bool := o.rootRetain true

/-- The end of `rootRelease`: mark the object deallocating, or report an
over-release (`overrelease_error` returns false). -/
def Obj.reallyDeallocate (o : Obj L) (newisa : IsaBits L) : Obj L × Bool :=
  if newisa.deallocating then (o, false)
  else ({ o with isa := .nonpointer { newisa with deallocating := true } }, true)

/-- The body of `rootRelease(performDealloc, handleUnderflow)`; `borrow` is what
the copy does with an empty inline field and `has_sidetable_rc` set. -/
def Obj.rootReleaseWith (borrow : IsaBits L → Obj L × Bool) (o : Obj L) : Obj L × Bool :=
  match o.isa with
  | .raw _ =>
    ({ o with refcnt := (sidetable_release L o.refcnt).1 }, (sidetable_release L o.refcnt).2)
  | .nonpointer oldisa =>
    if oldisa.subRC.2 then
      if oldisa.has_sidetable_rc then borrow oldisa else o.reallyDeallocate oldisa
    else ({ o with isa := .nonpointer oldisa.subRC.1 }, false)

/-- `rootRelease_underflow`: `rootRelease` with `handleUnderflow`. -/
def Obj.rootRelease_underflow (o : Obj L) : Obj L × Bool :=
  o.rootReleaseWith (fun oldisa =>
    let borrowed := (sidetable_subExtraRC_nolock L o.refcnt (RC_HALF L)).2
    if 0 < borrowed then
      -- redo the original decrement too
      ({ isa := .nonpointer (oldisa.setExtraRc (borrowed - 1)),
         refcnt := (sidetable_subExtraRC_nolock L o.refcnt (RC_HALF L)).1 }, false)
    else o.reallyDeallocate oldisa)

/-- `rootRelease(false, false)`. The answer is whether to deallocate. -/
def Obj.rootRelease (o : Obj L) : Obj L × Bool :=
  o.rootReleaseWith (fun _ => o.rootRelease_underflow)

def Obj.setWeaklyReferenced_nolock (o : Obj L) : Obj L :=
  match o.isa with
  | .raw _ => { o with refcnt := sidetable_setWeaklyReferenced_nolock o.refcnt }
  | .nonpointer b => { o with isa := .nonpointer { b with weakly_referenced := true } }

/-- The fresh bit-field `changeIsa` makes from an all-zero isa. -/
def IsaBits.fresh (newCls : Class) (hasCxxDtor : Bool) : IsaBits L :=
  { has_assoc := false, has_cxx_dtor := hasCxxDtor, cls := newCls, weakly_referenced := false,
    deallocating := false, has_sidetable_rc := false, extra_rc := ⟨0, RC_RANGE_pos L⟩ }

def initIsa (cls : Class) (nonpointer hasCxxDtor : Bool) : Isa L :=
  if nonpointer then .nonpointer (IsaBits.fresh cls hasCxxDtor) else .raw (some cls)

/-- What `changeIsa` stores, and whether the old counts go to the side table. -/
def changeIsaTo (oldisa : Isa L) (newCls : Class) (f : ClassFlags) : Isa L × Bool :=
  match oldisa with
  | .raw none =>
    if !f.isFuture && f.canAllocNonpointer then
      (.nonpointer (IsaBits.fresh newCls f.hasCxxDtor), false)
    else (.raw (some newCls), false)
  | .raw (some _) => (.raw (some newCls), false)
  | .nonpointer b =>
    if !f.isFuture && f.canAllocNonpointer then
      (.nonpointer { b with has_cxx_dtor := f.hasCxxDtor, cls := newCls }, false)
    else (.raw (some newCls), true)

def Obj.changeIsa (newCls : Class) (f : ClassFlags) (o : Obj L) : Obj L :=
  match o.isa with
  | .nonpointer b =>
    if (changeIsaTo o.isa newCls f).2 then
      { isa := (changeIsaTo o.isa newCls f).1,
        refcnt := sidetable_moveExtraRC_nolock L o.refcnt b.extra_rc b.deallocating
          b.weakly_referenced }
    else { o with isa := (changeIsaTo o.isa newCls f).1 }
  | .raw _ => { o with isa := (changeIsaTo o.isa newCls f).1 }

def Obj.rootIsDeallocating (o : Obj L) : Bool :=
  match o.isa with
  | .raw _ => deallocatingOf o.refcnt
  | .nonpointer b => b.deallocating

def Obj.isWeaklyReferenced (o : Obj L) : Bool :=
  match o.isa with
  | .raw _ => weakOf o.refcnt
  | .nonpointer b => b.weakly_referenced

def Obj.rootRetainCount (o : Obj L) : Nat :=
  match o.isa with
  | .raw _ => sidetable_retainCount o.refcnt
  | .nonpointer b =>
    1 + b.extra_rc + if b.has_sidetable_rc then rcOf o.refcnt else 0

/-! ## The representation invariant -/

/-- While the isa is a bit-field the side table holds counts only, in whole
halves, and `has_sidetable_rc` announces them. A raw isa names a class. -/
def Obj.WF (o : Obj L) : Prop :=
  match o.isa with
  | .raw c => c ≠ none
  | .nonpointer b =>
    deallocatingOf o.refcnt = false ∧ weakOf o.refcnt = false
      ∧ RC_HALF L ∣ rcOf o.refcnt ∧ (b.has_sidetable_rc = false → o.refcnt = none)

def Obj.extraCount (o : Obj L) : Nat := o.isa.extraRc + rcOf o.refcnt

variable {o : Obj L}

theorem Obj.rootRetainCount_eq (h : o.WF) : o.rootRetainCount = 1 + o.extraCount := by
  obtain ⟨isa, r⟩ := o
  cases isa with
  | raw c =>
    show 1 + rcOf r = 1 + (0 + rcOf r)
    omega
  | nonpointer b => ?_
  obtain ⟨-, -, -, hside⟩ := h
  show 1 + (b.extra_rc : Nat) + (if b.has_sidetable_rc then rcOf r else 0)
    = 1 + (b.extra_rc + rcOf r)
  cases hs : b.has_sidetable_rc with
  | true => simp only [if_true]; omega
  | false =>
    have hr : r = none := hside hs
    subst hr
    rfl

/-! ## Spec lemmas -/

structure Obj.Shows (o : Obj L) (extra : Nat) (dealloc weak : Bool) : Prop where
  wf : o.WF
  extra : o.extraCount = extra
  dealloc : o.rootIsDeallocating = dealloc
  weak : o.isWeaklyReferenced = weak

variable {r : SideWord} {b : IsaBits L}

theorem Obj.retain_overflow_shows (h : (Obj.mk (.nonpointer b) r).WF)
    (hfull : RC_RANGE L ≤ b.extra_rc + 1)
    (hlim : (Obj.mk (.nonpointer b) r).extraCount + 1 < pinLimit L) :
    Obj.Shows ⟨.nonpointer (b.addRC 1).1.leaveHalf, (sidetable_addExtraRC_nolock L r (RC_HALF L)).1⟩
      ((Obj.mk (.nonpointer b) r).extraCount + 1) b.deallocating b.weakly_referenced := by
  obtain ⟨hd, hw, hdvd, -⟩ := h
  have hhalf := RC_HALF_add_self L
  have hcount : (Obj.mk (.nonpointer b) r).extraCount = b.extra_rc + rcOf r := rfl
  have hleft : ((b.addRC 1).1.leaveHalf.extra_rc : Nat) = RC_HALF L :=
    setExtraRc_val (b.addRC 1).1 _ (RC_HALF_lt_range L)
  obtain ⟨-, hrc, hd', hw'⟩ :=
    sidetable_addExtraRC_spec (L := L) (r := r) (n := RC_HALF L) (by omega)
  refine ⟨⟨?_, ?_, ?_, ?_⟩, ?_, rfl, rfl⟩
  · exact hd'.trans hd
  · exact hw'.trans hw
  · rw [hrc]
    exact Nat.dvd_add hdvd (Nat.dvd_refl _)
  · intro hno
    exact absurd hno (by simp [leaveHalf])
  show ((b.addRC 1).1.leaveHalf.extra_rc : Nat) + rcOf _ = _
  rw [hleft, hrc, hcount]
  omega

theorem Obj.retain_inline_shows (h : (Obj.mk (.nonpointer b) r).WF) (hc : (b.addRC 1).2 = false) :
    Obj.Shows ⟨.nonpointer (b.addRC 1).1, r⟩
      ((Obj.mk (.nonpointer b) r).extraCount + 1) b.deallocating b.weakly_referenced := by
  refine ⟨h, ?_, rfl, rfl⟩
  show ((b.addRC 1).1.extra_rc : Nat) + rcOf r = b.extra_rc + rcOf r + 1
  rw [b.addRC_val 1 hc]
  omega

theorem Obj.rootRetain_spec (h : o.WF) (hlim : o.extraCount < pinLimit L) (tryRetain : Bool)
    (hnext : (tryRetain && o.rootIsDeallocating) = false → o.extraCount + 1 < pinLimit L) :
    (o.rootRetain tryRetain).2 = !(tryRetain && o.rootIsDeallocating)
      ∧ (o.rootRetain tryRetain).1.Shows
          (if tryRetain && o.rootIsDeallocating then o.extraCount else o.extraCount + 1)
          o.rootIsDeallocating o.isWeaklyReferenced := by
  obtain ⟨isa, r⟩ := o
  cases isa with
  | raw c =>
    have hlim' : rcOf r < pinLimit L := by
      have : (Obj.mk (.raw c : Isa L) r).extraCount = 0 + rcOf r := rfl
      omega
    obtain ⟨hrc, hd, hw⟩ := sidetable_retain_spec hlim'
    have hadd : (Obj.mk (.raw c) (sidetable_retain L r) : Obj L).Shows
        ((Obj.mk (.raw c : Isa L) r).extraCount + 1) (deallocatingOf r) (weakOf r) := by
      refine ⟨h, ?_, hd, hw⟩
      show 0 + rcOf (sidetable_retain L r) = 0 + rcOf r + 1
      omega
    cases tryRetain with
    | false => exact ⟨rfl, hadd⟩
    | true => ?_
    show (sidetable_tryRetain L r).2 = !(true && deallocatingOf r)
      ∧ (Obj.mk (.raw c) (sidetable_tryRetain L r).1 : Obj L).Shows
          (if true && deallocatingOf r then _ else _) (deallocatingOf r) (weakOf r)
    rw [sidetable_tryRetain_spec hlim']
    cases hdr : deallocatingOf r with
    | true => exact ⟨rfl, h, rfl, hdr, rfl⟩
    | false =>
      rw [hdr] at hadd
      exact ⟨rfl, hadd⟩
  | nonpointer b => ?_
  have hd : (Obj.mk (.nonpointer b) r).rootIsDeallocating = b.deallocating := rfl
  rw [hd]
  unfold Obj.rootRetain Obj.rootRetainWith
  cases ht : tryRetain && b.deallocating with
  | true =>
    simp only [ht, if_true]
    exact ⟨rfl, h, rfl, rfl, rfl⟩
  | false => ?_
  simp only [ht, false_eq_true, if_false]
  cases hc : (b.addRC 1).2 with
  | false =>
    exact ⟨rfl, Obj.retain_inline_shows h hc⟩
  | true => ?_
  have hfull : RC_RANGE L ≤ (b.extra_rc : Nat) + 1 := by
    simpa [addRC] using hc
  unfold Obj.rootRetain_overflow Obj.rootRetainWith
  simp only [ht, hc, false_eq_true, if_false, if_true]
  exact ⟨rfl, Obj.retain_overflow_shows h hfull (hnext ht)⟩

theorem Obj.reallyDeallocate_shows (h : (Obj.mk (.nonpointer b) r).WF)
    (hd : b.deallocating = false) :
    ((Obj.mk (.nonpointer b) r).reallyDeallocate b).2 = true
      ∧ ((Obj.mk (.nonpointer b) r).reallyDeallocate b).1.Shows
          (Obj.mk (.nonpointer b) r).extraCount true b.weakly_referenced := by
  unfold Obj.reallyDeallocate
  simp only [hd, false_eq_true, if_false]
  exact ⟨trivial, h, rfl, rfl, rfl⟩

theorem Obj.rootRelease_last (h : o.WF) (hz : o.extraCount = 0)
    (hd : o.rootIsDeallocating = false) :
    o.rootRelease.2 = true ∧ o.rootRelease.1.Shows 0 true o.isWeaklyReferenced := by
  obtain ⟨isa, r⟩ := o
  cases isa with
  | raw c =>
    have hr : rcOf r = 0 := by
      have : (Obj.mk (.raw c : Isa L) r).extraCount = 0 + rcOf r := rfl
      omega
    obtain ⟨hb, hrc, hd', hw⟩ := sidetable_release_last (L := L) hr hd
    refine ⟨hb, h, ?_, hd', hw⟩
    show 0 + rcOf (sidetable_release L r).1 = 0
    omega
  | nonpointer b => ?_
  have hcount : (Obj.mk (.nonpointer b) r).extraCount = b.extra_rc + rcOf r := rfl
  have hex : (b.extra_rc : Nat) = 0 := by omega
  have hword : r.getD 0 = 0 := by
    have hp := word_parts r
    rw [h.1, h.2.1] at hp
    simp only [toNat_false] at hp
    omega
  have hsub : b.subRC.2 = true := by simp [subRC, hex]
  have hgoal := Obj.reallyDeallocate_shows h hd
  rw [hz] at hgoal
  unfold Obj.rootRelease Obj.rootReleaseWith
  simp only [hsub, if_true]
  cases hs : b.has_sidetable_rc with
  | false =>
    exact hgoal
  | true =>
    unfold Obj.rootRelease_underflow Obj.rootReleaseWith
    simp only [hsub, hs, if_true, sidetable_subExtraRC_empty hword, lt_irrefl, if_false]
    exact hgoal

theorem Obj.rootRelease_counted (h : o.WF) (hpos : 0 < o.extraCount)
    (hlim : o.extraCount < pinLimit L) :
    o.rootRelease.2 = false ∧ o.rootRelease.1.Shows (o.extraCount - 1) o.rootIsDeallocating
          o.isWeaklyReferenced := by
  obtain ⟨isa, r⟩ := o
  cases isa with
  | raw c =>
    have hcount : (Obj.mk (.raw c : Isa L) r).extraCount = 0 + rcOf r := rfl
    obtain ⟨hb, hrc, hd', hw⟩ := sidetable_release_counted (L := L) (r := r) (by omega) (by omega)
    refine ⟨hb, h, ?_, hd', hw⟩
    show 0 + rcOf (sidetable_release L r).1 = 0 + rcOf r - 1
    omega
  | nonpointer b => ?_
  have hcount : (Obj.mk (.nonpointer b) r).extraCount = b.extra_rc + rcOf r := rfl
  unfold Obj.rootRelease Obj.rootReleaseWith
  cases hsub : b.subRC.2 with
  | false =>
    simp only [hsub, false_eq_true, if_false]
    refine ⟨trivial, h, ?_, rfl, rfl⟩
    have hval := b.subRC_val hsub
    show (b.subRC.1.extra_rc : Nat) + rcOf r = b.extra_rc + rcOf r - 1
    omega
  | true => ?_
  have hex : (b.extra_rc : Nat) = 0 := by simpa [subRC] using hsub
  have hrpos : 0 < rcOf r := by omega
  have hs : b.has_sidetable_rc = true := by
    by_contra hno
    have hr : r = none := h.2.2.2 (by simpa using hno)
    subst hr
    exact absurd hrpos (by decide)
  have hhalf : RC_HALF L ≤ rcOf r := le_of_dvd hrpos h.2.2.1
  obtain ⟨hb, hrc, hd', hw⟩ :=
    sidetable_subExtraRC_spec (L := L) (RC_HALF_pos L) hhalf (by omega)
  have hhp := RC_HALF_pos L
  have hval : ((b.setExtraRc (RC_HALF L - 1)).extra_rc : Nat) = RC_HALF L - 1 :=
    b.setExtraRc_val _ (by have := RC_HALF_lt_range L; omega)
  unfold Obj.rootRelease_underflow Obj.rootReleaseWith
  simp only [hsub, hs, if_true, hb, hhp]
  refine ⟨trivial, ⟨?_, ?_, ?_, ?_⟩, ?_, rfl, rfl⟩
  · exact hd'.trans h.1
  · exact hw.trans h.2.1
  · rw [hrc]
    exact dvd_sub h.2.2.1 (dvd_refl _)
  · intro hno
    exact absurd (hs.symm.trans hno) (by decide)
  show ((b.setExtraRc (RC_HALF L - 1)).extra_rc : Nat) + rcOf _ = b.extra_rc + rcOf r - 1
  rw [hval, hrc]
  omega

theorem Obj.setWeaklyReferenced_spec (h : o.WF) :
    o.setWeaklyReferenced_nolock.Shows o.extraCount o.rootIsDeallocating true := by
  obtain ⟨isa, r⟩ := o
  cases isa with
  | raw c =>
    obtain ⟨hrc, hd, hw⟩ := sidetable_setWeaklyReferenced_spec r
    refine ⟨h, ?_, hd, hw⟩
    show 0 + rcOf (sidetable_setWeaklyReferenced_nolock r) = 0 + rcOf r
    rw [hrc]
  | nonpointer b => exact ⟨h, rfl, rfl, rfl⟩

theorem Obj.changeIsa_spec (h : o.WF) (hlim : o.extraCount < pinLimit L) (newCls : Class)
    (f : ClassFlags) :
    (o.changeIsa newCls f).Shows o.extraCount o.rootIsDeallocating o.isWeaklyReferenced := by
  obtain ⟨isa, r⟩ := o
  cases isa with
  | raw c =>
    cases c with
    | none => exact absurd rfl h
    | some c => exact ⟨Option.some_ne_none _, rfl, rfl, rfl⟩
  | nonpointer b => ?_
  have hcount : (Obj.mk (.nonpointer b) r).extraCount = b.extra_rc + rcOf r := rfl
  unfold Obj.changeIsa changeIsaTo
  cases hf : !f.isFuture && f.canAllocNonpointer with
  | true =>
    exact ⟨h, rfl, rfl, rfl⟩
  | false => ?_
  simp only [false_eq_true, if_false, if_true]
  obtain ⟨hrc, hd, hw⟩ := sidetable_moveExtraRC_spec (L := L) (r := r) (n := b.extra_rc)
    (d := b.deallocating) (w := b.weakly_referenced) h.1 h.2.1 (by omega)
  refine ⟨Option.some_ne_none _, ?_, hd, hw⟩
  show 0 + rcOf _ = b.extra_rc + rcOf r
  rw [hrc]
  omega

end ObjcRuntime
