/-
RELEASING AN OBJECT THAT IS ALREADY DEALLOCATING.

The two representations detect an over-release in different places. A
bit-field isa has an explicit test (`overrelease_error`) and stays as it is. A
raw isa compares the whole side-table word with SIDE_TABLE_DEALLOCATING: the
word of a deallocating object is not below it, so the count is decremented
below zero and the word wraps around.
-/
import ObjcRuntime.Object.Counter

namespace ObjcRuntime

open List Option Nat Obj Bool IsaBits

variable {L : Layout}

/-! ## The side-table word, without a limit on the count -/

theorem isPinned_iff {w : Nat} (hw : w < 2 ^ L.WORD_BITS) :
    isPinned L w = true ↔ SIDE_TABLE_RC_PINNED L ≤ w := by
  have hword := word_eq L
  have hpin := pinned_eq L
  constructor
  · intro h
    by_contra hlt
    rw [isPinned_eq_false L (by omega)] at h
    cases h
  intro h
  show ((w &&& 2 ^ (L.WORD_BITS - 1)) != 0) = true
  rw [and_two_pow_ne_zero, Nat.testBit_eq_decide_div_mod_eq, decide_eq_true_eq]
  -- the quotient by the top bit is one
  have hdiv : w / SIDE_TABLE_RC_PINNED L = 1 := by
    apply Nat.div_eq_of_lt_le
    · omega
    · omega
  show w / SIDE_TABLE_RC_PINNED L % 2 = 1
  rw [hdiv]

theorem half_dvd_pinned : 4 * RC_HALF L ∣ SIDE_TABLE_RC_PINNED L := by
  have hpos := L.extraRcBits_pos
  have hfits := L.fits
  have hfour : 4 * RC_HALF L = 2 ^ (L.extraRcBits + 1) := by
    unfold RC_HALF
    rw [show L.extraRcBits + 1 = 2 + (L.extraRcBits - 1) by omega, Nat.pow_add]
  rw [hfour]
  exact Nat.pow_dvd_pow 2 (by omega)

/-- The bounds of the side-table word. Under a bit-field isa it holds whole halves of the inline
count, up to the pinned bit and not beyond; under a raw isa it is any machine word. -/
def Obj.Sound (o : Obj L) : Prop :=
  match o.isa with
  | .raw c => c ≠ none ∧ o.refcnt.getD 0 < 2 ^ L.WORD_BITS
  | .nonpointer b =>
    4 * RC_HALF L ∣ o.refcnt.getD 0 ∧ o.refcnt.getD 0 ≤ SIDE_TABLE_RC_PINNED L
      ∧ (b.has_sidetable_rc = false → o.refcnt = none)

variable {b : IsaBits L} {r : SideWord}

theorem Obj.sound_nonpointer :
    (mk (.nonpointer b) r).Sound ↔ 4 * RC_HALF L ∣ r.getD 0
      ∧ r.getD 0 ≤ SIDE_TABLE_RC_PINNED L ∧ (b.has_sidetable_rc = false → r = none) := Iff.rfl

theorem pinned_lt_word : SIDE_TABLE_RC_PINNED L < 2 ^ L.WORD_BITS := by
  have hpos : 0 < pinLimit L := Nat.two_pow_pos _
  rw [word_eq, pinned_eq]
  omega

variable {o : Obj L}

theorem Obj.Sound.word_lt (h : o.Sound) : o.refcnt.getD 0 < 2 ^ L.WORD_BITS := by
  obtain ⟨isa, r⟩ := o
  cases isa with
  | raw c => exact h.2
  | nonpointer b => exact lt_of_le_of_lt h.2.1 pinned_lt_word

theorem Obj.Sound.wf (h : o.Sound) : o.WF := by
  obtain ⟨isa, r⟩ := o
  cases isa with
  | raw c => exact h.1
  | nonpointer b => ?_
  obtain ⟨hdvd, _, hside⟩ := sound_nonpointer.mp h
  obtain ⟨k, hk⟩ := hdvd
  have hword : r.getD 0 = 4 * (RC_HALF L * k) := by
    rw [← mul_assoc]
    exact hk
  refine ⟨?_, ?_, ?_, hside⟩
  · show deallocatingOf r = false
    rw [deallocatingOf_eq, decide_eq_false_iff_not]
    omega
  · show weakOf r = false
    rw [weakOf_eq, decide_eq_false_iff_not]
    omega
  show RC_HALF L ∣ rcOf r
  rw [rcOf_eq, hword, Nat.mul_div_cancel_left _ (by omega)]
  exact dvd_mul_right _ _

theorem Obj.Fresh.sound (h : o.Fresh) : o.Sound := by
  obtain ⟨isa, r⟩ := o
  obtain ⟨hr, hisa⟩ := h
  obtain rfl : r = none := hr
  cases isa with
  | raw c => exact ⟨hisa, Nat.two_pow_pos _⟩
  | nonpointer b => exact ⟨dvd_zero _, zero_le _, fun _ => rfl⟩

/-! ## The transfers between the two stores, on any sound word -/

theorem sidetable_addExtraRC_half (hle : r.getD 0 ≤ SIDE_TABLE_RC_PINNED L)
    (hdvd : 4 * RC_HALF L ∣ r.getD 0) :
    (sidetable_addExtraRC_nolock L r (RC_HALF L)).1
        = some (if r.getD 0 = SIDE_TABLE_RC_PINNED L then r.getD 0
            else r.getD 0 + 4 * RC_HALF L)
      ∧ (r.getD 0 ≠ SIDE_TABLE_RC_PINNED L →
          r.getD 0 + 4 * RC_HALF L ≤ SIDE_TABLE_RC_PINNED L) := by
  have hlt : r.getD 0 < 2 ^ L.WORD_BITS := lt_of_le_of_lt hle pinned_lt_word
  have hroom : r.getD 0 ≠ SIDE_TABLE_RC_PINNED L →
      r.getD 0 + 4 * RC_HALF L ≤ SIDE_TABLE_RC_PINNED L := by
    intro hne
    apply Nat.add_le_of_le_sub' hle
    apply Nat.le_of_dvd
    · omega
    · exact dvd_sub half_dvd_pinned hdvd
  refine ⟨?_, hroom⟩
  unfold sidetable_addExtraRC_nolock
  by_cases heq : r.getD 0 = SIDE_TABLE_RC_PINNED L
  · have hp : isPinned L (r.getD 0) = true := (isPinned_iff hlt).mpr (le_of_eq heq.symm)
    simp only [hp, if_true, if_pos heq]
  have hp : isPinned L (r.getD 0) = false := by
    rw [← not_eq_true, isPinned_iff hlt]
    omega
  have hword := pinned_lt_word (L := L)
  have hhalf : 4 * RC_HALF L % 2 ^ L.WORD_BITS = 4 * RC_HALF L := mod_eq_of_lt (by omega)
  simp only [hp, false_eq_true, if_false, shiftLeft_rc, hhalf, addc, add_zero,
    decide_eq_false (show ¬ 2 ^ L.WORD_BITS ≤ r.getD 0 + 4 * RC_HALF L by omega), if_neg heq]
  rw [mod_eq_of_lt (by omega)]

theorem sidetable_subExtraRC_half (hle : r.getD 0 ≤ SIDE_TABLE_RC_PINNED L)
    (hdvd : 4 * RC_HALF L ∣ r.getD 0) (hne : r.getD 0 ≠ 0) :
    sidetable_subExtraRC_nolock L r (RC_HALF L) = (some (r.getD 0 - 4 * RC_HALF L), RC_HALF L) := by
  have hword := pinned_lt_word (L := L)
  have hge : 4 * RC_HALF L ≤ r.getD 0 := le_of_dvd (by omega) hdvd
  match r, hne with
  | some (w + 1), _ =>
    simp only [getD_some] at hge hle
    unfold sidetable_subExtraRC_nolock
    simp only [shiftLeft_rc, getD_some]
    rw [mod_eq_of_lt (a := 4 * RC_HALF L) (by omega),
      show w + 1 + 2 ^ L.WORD_BITS - 4 * RC_HALF L
        = w + 1 - 4 * RC_HALF L + 2 ^ L.WORD_BITS by omega,
      add_mod_right, mod_eq_of_lt (by omega)]

/-! ## Every call keeps the bounds -/

theorem Obj.Sound.bits {b' : IsaBits L} (h : (mk (.nonpointer b) r).Sound)
    (hside : b'.has_sidetable_rc = b.has_sidetable_rc) :
    (mk (.nonpointer b') r).Sound := by
  obtain ⟨hdvd, hle, hno⟩ := h
  exact ⟨hdvd, hle, fun hf => hno (hside ▸ hf)⟩

theorem Obj.Sound.word {c : Option Class} {r' : SideWord} (h : (mk (.raw c : Isa L) r).Sound)
    (hlt : r'.getD 0 < 2 ^ L.WORD_BITS) :
    (mk (.raw c : Isa L) r').Sound :=
  ⟨h.1, hlt⟩

section

variable (h : r.getD 0 < 2 ^ L.WORD_BITS)

include h

theorem sidetable_retain_lt : (sidetable_retain L r).getD 0 < 2 ^ L.WORD_BITS := by
  unfold sidetable_retain
  simp only
  split
  · exact h
  · exact Nat.mod_lt _ (Nat.two_pow_pos _)

theorem sidetable_tryRetain_lt : (sidetable_tryRetain L r).1.getD 0 < 2 ^ L.WORD_BITS := by
  have hword := word_eq L
  unfold sidetable_tryRetain
  cases r with
  | none =>
    show SIDE_TABLE_RC_ONE < 2 ^ L.WORD_BITS
    unfold SIDE_TABLE_RC_ONE
    omega
  | some w => ?_
  simp only
  split
  · exact h
  split
  · exact h
  · exact Nat.mod_lt _ (Nat.two_pow_pos _)

theorem sidetable_release_lt : (sidetable_release L r).1.getD 0 < 2 ^ L.WORD_BITS := by
  have hword := word_eq L
  unfold sidetable_release
  cases r with
  | none =>
    show SIDE_TABLE_DEALLOCATING < 2 ^ L.WORD_BITS
    unfold SIDE_TABLE_DEALLOCATING
    omega
  | some w => ?_
  simp only
  split
  · next hlt =>
    rw [getD_some, or_deallocating]
    unfold SIDE_TABLE_DEALLOCATING at hlt
    omega
  split
  · exact h
  · exact Nat.mod_lt _ (Nat.two_pow_pos _)

end

theorem or_flags_lt {w : Nat} (d k : Bool) (h : w < 2 ^ L.WORD_BITS) :
    (if k then (if d then w ||| SIDE_TABLE_DEALLOCATING else w) ||| SIDE_TABLE_WEAKLY_REFERENCED
      else (if d then w ||| SIDE_TABLE_DEALLOCATING else w)) < 2 ^ L.WORD_BITS := by
  have hfour : 4 ∣ 2 ^ L.WORD_BITS := by
    rw [word_eq]
    exact ⟨2 * pinLimit L, by ring⟩
  cases d <;> cases k <;>
    simp only [false_eq_true, if_false, if_true, or_deallocating, or_weakly_referenced] <;>
    omega

theorem sidetable_moveExtraRC_lt (r : SideWord) (n : Nat) (d k : Bool) :
    (sidetable_moveExtraRC_nolock L r n d k).getD 0 < 2 ^ L.WORD_BITS := by
  apply or_flags_lt
  split
  · exact pinned_lt_word
  · exact Nat.mod_lt _ (Nat.two_pow_pos _)

theorem Obj.rootRetain_sound (h : o.Sound) (tryRetain : Bool) :
    (o.rootRetain tryRetain).1.Sound := by
  obtain ⟨isa, r⟩ := o
  cases isa with
  | raw c =>
    cases tryRetain with
    | true => exact h.word (sidetable_tryRetain_lt h.2)
    | false => exact h.word (sidetable_retain_lt h.2)
  | nonpointer b => ?_
  unfold rootRetain rootRetainWith
  simp only
  split
  · exact h
  split
  next hdead hcarry =>
    unfold rootRetain_overflow rootRetainWith
    simp only [hdead, hcarry, false_eq_true, if_false, if_true]
    obtain ⟨hdvd, hle, -⟩ := h
    obtain ⟨hadd, hroom⟩ := sidetable_addExtraRC_half hle hdvd
    refine ⟨?_, ?_, fun hno => absurd hno (by simp [leaveHalf])⟩
    · show 4 * RC_HALF L ∣ ((sidetable_addExtraRC_nolock L r (RC_HALF L)).1).getD 0
      rw [hadd, getD_some]
      split
      · exact hdvd
      · exact Nat.dvd_add hdvd (Nat.dvd_refl _)
    show ((sidetable_addExtraRC_nolock L r (RC_HALF L)).1).getD 0 ≤ _
    rw [hadd, getD_some]
    split
    · exact hle
    next hne => exact hroom hne
  next => exact h.bits rfl

theorem Obj.reallyDeallocate_sound (h : (mk (.nonpointer b) r).Sound) :
    ((mk (.nonpointer b) r).reallyDeallocate b).1.Sound := by
  unfold reallyDeallocate
  split
  · exact h
  · exact h.bits rfl

theorem Obj.rootRelease_empty (h : (mk (.nonpointer b) r).Sound)
    (hex : (b.extra_rc : Nat) = 0) :
    (mk (.nonpointer b) r).rootRelease
      = if r.getD 0 = 0 then (mk (.nonpointer b) r).reallyDeallocate b
        else (⟨.nonpointer (b.setExtraRc (RC_HALF L - 1)), some (r.getD 0 - 4 * RC_HALF L)⟩,
          false) := by
  obtain ⟨hdvd, hle, hno⟩ := sound_nonpointer.mp h
  have hsub : b.subRC.2 = true := by
    simp only [subRC, hex, decide_true]
  unfold rootRelease rootReleaseWith
  simp only [hsub, if_true]
  cases hside : b.has_sidetable_rc with
  | false =>
    have hr : r.getD 0 = 0 := by rw [hno hside]; rfl
    rw [if_pos hr, if_neg Bool.false_ne_true]
  | true => ?_
  unfold rootRelease_underflow rootReleaseWith
  simp only [hsub, hside, if_true]
  by_cases hz : r.getD 0 = 0
  · rw [sidetable_subExtraRC_empty hz, if_pos hz]
    rfl
  · rw [sidetable_subExtraRC_half hle hdvd hz, if_neg hz, if_pos (RC_HALF_pos L)]

theorem Obj.rootRelease_inline (hex : (b.extra_rc : Nat) ≠ 0) :
    (mk (.nonpointer b) r).rootRelease = (⟨.nonpointer b.subRC.1, r⟩, false) := by
  have hsub : b.subRC.2 = false := by simp [subRC, hex]
  unfold rootRelease rootReleaseWith
  simp only [hsub, false_eq_true, if_false]

theorem Obj.rootRelease_sound (h : o.Sound) : o.rootRelease.1.Sound := by
  obtain ⟨isa, r⟩ := o
  cases isa with
  | raw c => exact h.word (sidetable_release_lt h.2)
  | nonpointer b => ?_
  by_cases hex : (b.extra_rc : Nat) = 0
  · rw [rootRelease_empty h hex]
    split
    · exact reallyDeallocate_sound h
    next hne =>
      obtain ⟨hdvd, hle, hno⟩ := sound_nonpointer.mp h
      refine ⟨dvd_sub hdvd (dvd_refl _), le_trans (sub_le _ _) hle, ?_⟩
      -- the flag is set, because the word is not empty
      intro hoff
      exact absurd (by rw [hno hoff]; rfl) hne
  · rw [rootRelease_inline hex]
    exact h.bits rfl

theorem Obj.changeIsa_sound (h : o.Sound) (newCls : Class) (f : ClassFlags) :
    (o.changeIsa newCls f).Sound := by
  obtain ⟨isa, r⟩ := o
  cases isa with
  | raw c =>
    cases c with
    | none => exact absurd rfl h.1
    | some c => exact ⟨some_ne_none _, h.2⟩
  | nonpointer b => ?_
  unfold changeIsa changeIsaTo
  cases hf : !f.isFuture && f.canAllocNonpointer with
  | true =>
    exact h.bits rfl
  | false =>
    exact ⟨some_ne_none _, sidetable_moveExtraRC_lt _ _ _ _⟩

theorem Obj.setWeaklyReferenced_sound (h : o.Sound) : o.setWeaklyReferenced_nolock.Sound := by
  obtain ⟨isa, r⟩ := o
  cases isa with
  | raw c => exact h.word (or_flags_lt (L := L) false true h.2)
  | nonpointer b => exact h.bits rfl

theorem Obj.step_sound (h : o.Sound) (op : RcOp) : (o.step op).1.Sound := by
  cases op with
  | retain => exact rootRetain_sound h false
  | release => exact rootRelease_sound h
  | tryRetain => exact rootRetain_sound h true
  | setWeaklyReferenced => exact setWeaklyReferenced_sound h
  | changeIsa newCls f => exact changeIsa_sound h newCls f

theorem Obj.run_sound (ops : List RcOp) : ∀ {o : Obj L}, o.Sound → (o.run ops).1.Sound := by
  induction ops with
  | nil => intro o h; exact h
  | cons op ops ih => intro o h; exact ih (step_sound h op)

/-! ## Releases of a deallocating object -/

def Obj.pinned (o : Obj L) : Bool := isPinned L (o.refcnt.getD 0)

structure Obj.SameReadings (o o' : Obj L) : Prop where
  count : o'.rootRetainCount = o.rootRetainCount
  dealloc : o'.rootIsDeallocating = o.rootIsDeallocating
  weak : o'.isWeaklyReferenced = o.isWeaklyReferenced
  pinned : o'.pinned = o.pinned

theorem Obj.SameReadings.refl (o : Obj L) : o.SameReadings o := ⟨rfl, rfl, rfl, rfl⟩

theorem Obj.over_release_nonpointer (h : (mk (.nonpointer b) r).Sound)
    (hd : b.deallocating = true) (hz : (mk (.nonpointer b) r).extraCount = 0) :
    (mk (.nonpointer b) r).rootRelease = (⟨.nonpointer b, r⟩, false) := by
  have hcount : (b.extra_rc : Nat) + rcOf r = 0 := hz
  have hword := word_parts r
  obtain ⟨hdeal, hweak, -⟩ := h.wf
  have hr : r.getD 0 = 0 := by
    rw [hdeal, hweak, show rcOf r = 0 by omega] at hword
    exact hword
  rw [rootRelease_empty h (by omega), if_pos hr]
  unfold reallyDeallocate
  rw [if_pos hd]

theorem raw_dealloc_word (hd : deallocatingOf r = true) (hz : rcOf r = 0) :
    ∃ k < 2, r = some (2 + k) := by
  have hword := word_parts r
  rw [hd, hz] at hword
  have hk := toNat_le (weakOf r)
  cases r with
  | none => cases hd
  | some w =>
    refine ⟨(weakOf (some w)).toNat, by omega, ?_⟩
    simpa using hword

theorem sidetable_release_wraps {k : Nat} (hk : k < 2) :
    sidetable_release L (some (2 + k)) = (some (2 ^ L.WORD_BITS - 2 + k), false) := by
  have hword := word_eq L
  have hpos : 8 ≤ pinLimit L := by
    have hfits := L.fits
    show 2 ^ 3 ≤ 2 ^ (L.WORD_BITS - 3)
    exact Nat.pow_le_pow_right (by omega) (by omega)
  have hnot : isPinned L (2 + k) = false := isPinned_eq_false L (by omega)
  unfold sidetable_release SIDE_TABLE_DEALLOCATING SIDE_TABLE_RC_ONE
  simp only [if_neg (show ¬ 2 + k < 2 by omega), hnot, false_eq_true, if_false]
  rw [mod_eq_of_lt (by omega), show 2 + k + 2 ^ L.WORD_BITS - 4 = 2 ^ L.WORD_BITS - 2 + k by omega]

theorem sidetable_release_pinned {w : Nat} (hlt : w < 2 ^ L.WORD_BITS)
    (hpin : SIDE_TABLE_RC_PINNED L ≤ w) : sidetable_release L (some w) = (some w, false) := by
  have hpos : 0 < pinLimit L := Nat.two_pow_pos _
  have heq := pinned_eq L
  have hp : isPinned L w = true := (isPinned_iff hlt).mpr hpin
  unfold sidetable_release SIDE_TABLE_DEALLOCATING
  simp only [if_neg (show ¬ w < 2 by omega), hp, if_true]

theorem Obj.run_releases_fixed (h : o.rootRelease = (o, false)) (n : Nat) :
    (o.run (replicate n .release)).1 = o ∧ ∀ e ∈ (o.run (replicate n .release)).2, e.2 = false := by
  induction n with
  | zero => exact ⟨rfl, nofun⟩
  | succ n ih => ?_
  have hstep : o.step .release = (o, false) := h
  rw [replicate_succ]
  unfold run
  rw [hstep]
  refine ⟨ih.1, ?_⟩
  intro e he
  rcases mem_cons.mp he with rfl | he
  · rfl
  · exact ih.2 e he

/-- **OVER-RELEASE.**  Take any object after any run of calls that is deallocating and has no
outstanding retain, and release it `n` more times.  No release answers true; and the retain count
and the deallocating, weakly-referenced and pinned marks stay as they are exactly if the isa is a
bit-field (or `n = 0`). -/
theorem over_release_changes_nothing_iff {o₀ : Obj L} (hfresh : o₀.Fresh) (ops : List RcOp)
    (hd : (o₀.run ops).1.rootIsDeallocating = true) (hz : (o₀.run ops).1.extraCount = 0)
    (n : Nat) :
    (∀ e ∈ ((o₀.run ops).1.run (replicate n .release)).2, e.2 = false)
      ∧ ((o₀.run ops).1.SameReadings ((o₀.run ops).1.run (replicate n .release)).1
          ↔ n = 0 ∨ (o₀.run ops).1.isa.isNonpointer = true) := by
  have hsound : (o₀.run ops).1.Sound := run_sound ops hfresh.sound
  generalize (o₀.run ops).1 = o at hd hz hsound ⊢
  obtain ⟨isa, r⟩ := o
  cases isa with
  | nonpointer b =>
    obtain ⟨hstate, hans⟩ :=
      run_releases_fixed (over_release_nonpointer hsound hd hz) n
    refine ⟨hans, fun _ => .inr rfl, fun _ => ?_⟩
    rw [hstate]
    exact Obj.SameReadings.refl _
  | raw c => ?_
  have hz' : rcOf r = 0 := by simpa [extraCount] using hz
  obtain ⟨k, hk, rfl⟩ := raw_dealloc_word hd hz'
  cases n with
  | zero =>
    exact ⟨forall_mem_nil _, fun _ => .inl rfl,
      fun _ => Obj.SameReadings.refl _⟩
  | succ n => ?_
  have hword := word_eq L
  have hpin := pinned_eq L
  have hpos : 0 < pinLimit L := Nat.two_pow_pos _
  have hstep : (mk (.raw c : Isa L) (some (2 + k))).step .release
      = (⟨.raw c, some (2 ^ L.WORD_BITS - 2 + k)⟩, false) := by
    show ((mk (.raw c) (sidetable_release L (some (2 + k))).1 : Obj L),
      (sidetable_release L (some (2 + k))).2) = _
    rw [sidetable_release_wraps hk]
  have hfix : (mk (.raw c : Isa L) (some (2 ^ L.WORD_BITS - 2 + k))).rootRelease
      = (⟨.raw c, some (2 ^ L.WORD_BITS - 2 + k)⟩, false) := by
    show ((mk (.raw c) (sidetable_release L (some (2 ^ L.WORD_BITS - 2 + k))).1 : Obj L),
      (sidetable_release L (some (2 ^ L.WORD_BITS - 2 + k))).2) = _
    rw [sidetable_release_pinned (by omega) (by omega)]
  obtain ⟨hstate, hans⟩ := run_releases_fixed hfix n
  rw [replicate_succ]
  unfold run
  rw [hstep]
  refine ⟨?_, ?_, ?_⟩
  · intro e he
    rcases mem_cons.mp he with rfl | he
    · rfl
    · exact hans e he
  · -- the pinned bit has appeared
    intro hsame
    have hp := hsame.pinned
    simp only [hstate, pinned, getD_some] at hp
    rw [(isPinned_iff (by omega)).mpr (by omega), isPinned_eq_false L (by omega)] at hp
    cases hp
  · rintro (hn | hn)
    · cases hn
    · cases hn

theorem over_released_bits_keep_readings :
    (∀ e ∈ (((Obj.freshNonpointer Layout.x86_64).run [.setWeaklyReferenced, .release]).1.run
        (replicate 3 .release)).2, e.2 = false)
      ∧ (((Obj.freshNonpointer Layout.x86_64).run [.setWeaklyReferenced, .release]).1.SameReadings
          (((Obj.freshNonpointer Layout.x86_64).run [.setWeaklyReferenced, .release]).1.run
            (replicate 3 .release)).1
          ↔ 3 = 0 ∨ ((Obj.freshNonpointer Layout.x86_64).run
            [.setWeaklyReferenced, .release]).1.isa.isNonpointer = true) :=
  have hfresh : (freshNonpointer Layout.x86_64).Fresh := ⟨rfl, rfl, rfl, rfl, rfl⟩
  over_release_changes_nothing_iff hfresh [.setWeaklyReferenced, .release]
    (by decide +kernel) (by decide +kernel) 3

/-- **A raw isa does not notice.**  An x86_64 object with a raw isa is released twice: the second
release leaves a count of 2^62 and the pinned bit. -/
theorem raw_over_release_wraps :
    ¬ ∀ (L : Layout) (o₀ : Obj L), o₀.Fresh → ∀ (ops : List RcOp) (n : Nat),
      (o₀.run ops).1.rootIsDeallocating = true → (o₀.run ops).1.extraCount = 0 →
        (∀ e ∈ ((o₀.run ops).1.run (replicate n .release)).2, e.2 = false)
          ∧ (o₀.run ops).1.SameReadings ((o₀.run ops).1.run (replicate n .release)).1 := by
  intro h
  have hsame := (h Layout.x86_64 ⟨.raw (some 1), none⟩ ⟨rfl, some_ne_none 1⟩ [.release] 1
    (by decide +kernel) (by decide +kernel)).2
  have hcount := hsame.count
  revert hcount
  decide +kernel

end ObjcRuntime
