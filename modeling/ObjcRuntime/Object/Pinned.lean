/-
A PINNED COUNT.

A side-table count that reaches SIDE_TABLE_RC_PINNED is meant to stay there: the
object is never deallocated. `sidetable_retain`, `sidetable_tryRetain`,
`sidetable_release` and `sidetable_addExtraRC_nolock` test the bit, and the move
to a raw isa keeps it. `sidetable_subExtraRC_nolock` does not test it, so a
release of a bit-field isa with an empty inline field borrows from the pinned
word and clears the bit.
-/
import ObjcRuntime.Object.OverRelease

namespace ObjcRuntime

open List Option Obj Layout IsaBits Counter Bool

variable {L : Layout}

/-! ## One call on a pinned word -/

def Obj.mustBorrow (o : Obj L) : Bool :=
  match o.isa with
  | .raw _ => false
  | .nonpointer b => decide ((b.extra_rc : Nat) = 0)

variable {o : Obj L}

theorem Obj.Sound.pinned_iff (h : o.Sound) :
    o.pinned = true ↔ SIDE_TABLE_RC_PINNED L ≤ o.refcnt.getD 0 :=
  isPinned_iff h.word_lt

variable {b : IsaBits L} {r : SideWord}

theorem Obj.Sound.pinned_word (h : (mk (.nonpointer b) r).Sound)
    (hp : (mk (.nonpointer b) r).pinned = true) :
    r.getD 0 = SIDE_TABLE_RC_PINNED L :=
  le_antisymm (sound_nonpointer.mp h).2.1 (h.pinned_iff.mp hp)

theorem sidetable_retain_pinned (hp : isPinned L (r.getD 0) = true) :
    (sidetable_retain L r).getD 0 = r.getD 0 := by
  unfold sidetable_retain
  simp only [hp, if_true, getD_some]

theorem sidetable_tryRetain_pinned (hp : isPinned L (r.getD 0) = true) :
    (sidetable_tryRetain L r).1.getD 0 = r.getD 0 := by
  unfold sidetable_tryRetain
  cases r with
  | none =>
    have hz : isPinned L 0 = false := isPinned_eq_false L (by
      have hpos : 0 < pinLimit L := Nat.two_pow_pos _
      omega)
    cases hz.symm.trans hp
  | some w =>
    have hp' : isPinned L w = true := hp
    simp only [hp', if_true]
    split <;> rfl

theorem sidetable_moveExtraRC_pinned (hle : SIDE_TABLE_RC_PINNED L ≤ r.getD 0) (n : Nat)
    (d k : Bool) :
    SIDE_TABLE_RC_PINNED L ≤ (sidetable_moveExtraRC_nolock L r n d k).getD 0 := by
  have hflags : ∀ w, w ≤ (if k then
      (if d then w ||| SIDE_TABLE_DEALLOCATING else w) ||| SIDE_TABLE_WEAKLY_REFERENCED
      else (if d then w ||| SIDE_TABLE_DEALLOCATING else w)) := by
    intro w
    cases d <;> cases k <;>
      simp only [false_eq_true, if_false, if_true, or_deallocating, or_weakly_referenced] <;>
      omega
  refine le_trans ?_ (hflags _)
  split
  · exact le_refl _
  next hcarry =>
    rw [decide_eq_true_eq, not_le] at hcarry
    rw [Nat.mod_eq_of_lt hcarry]
    omega

section

variable (h : o.Sound)

include h

section

variable (hp : o.pinned = true)

include hp

theorem Obj.rootRetain_pinned (tryRetain : Bool) : (o.rootRetain tryRetain).1.pinned = true := by
  obtain ⟨isa, r⟩ := o
  cases isa with
  | raw c =>
    cases tryRetain with
    | true =>
      show isPinned L ((sidetable_tryRetain L r).1.getD 0) = true
      rw [sidetable_tryRetain_pinned hp]
      exact hp
    | false =>
      show isPinned L ((sidetable_retain L r).getD 0) = true
      rw [sidetable_retain_pinned hp]
      exact hp
  | nonpointer b => ?_
  unfold rootRetain rootRetainWith
  simp only
  split
  · exact hp
  split
  next hdead hcarry =>
    -- the overflow finds the word full and adds nothing
    unfold rootRetain_overflow rootRetainWith
    simp only [hdead, hcarry, false_eq_true, if_false, if_true]
    obtain ⟨hdvd, hle, -⟩ := sound_nonpointer.mp h
    obtain ⟨hadd, -⟩ := sidetable_addExtraRC_half hle hdvd
    show isPinned L ((sidetable_addExtraRC_nolock L r (RC_HALF L)).1.getD 0) = true
    rw [hadd, if_pos (h.pinned_word hp)]
    exact hp
  next => exact hp

theorem Obj.rootRelease_pinned (hno : o.mustBorrow = false) :
    o.rootRelease.1.pinned = true ∧ o.rootRelease.2 = false := by
  obtain ⟨isa, r⟩ := o
  cases isa with
  | raw c =>
    have hle : SIDE_TABLE_RC_PINNED L ≤ r.getD 0 := h.pinned_iff.mp hp
    have hpin := pinned_eq L
    have hpos : 0 < pinLimit L := Nat.two_pow_pos _
    cases r with
    | none =>
      simp only [getD_none] at hle
      omega
    | some w => ?_
    show isPinned L ((sidetable_release L (some w)).1.getD 0) = true
      ∧ (sidetable_release L (some w)).2 = false
    have hlt : w < 2 ^ L.WORD_BITS := h.2
    rw [sidetable_release_pinned hlt hle]
    exact ⟨hp, rfl⟩
  | nonpointer b =>
    have hex : (b.extra_rc : Nat) ≠ 0 := of_decide_eq_false hno
    rw [rootRelease_inline hex]
    exact ⟨hp, rfl⟩

theorem Obj.changeIsa_pinned (newCls : Class)
    (f : ClassFlags) : (o.changeIsa newCls f).pinned = true := by
  have hsound := changeIsa_sound h newCls f
  rw [hsound.pinned_iff]
  obtain ⟨isa, r⟩ := o
  have hle : SIDE_TABLE_RC_PINNED L ≤ r.getD 0 := h.pinned_iff.mp hp
  cases isa with
  | raw c => exact hle
  | nonpointer b => ?_
  unfold changeIsa
  simp only
  split
  · exact sidetable_moveExtraRC_pinned hle _ _ _
  · exact hle

theorem Obj.setWeaklyReferenced_pinned : o.setWeaklyReferenced_nolock.pinned = true := by
  rw [(setWeaklyReferenced_sound h).pinned_iff]
  obtain ⟨isa, r⟩ := o
  have hle : SIDE_TABLE_RC_PINNED L ≤ r.getD 0 := h.pinned_iff.mp hp
  cases isa with
  | raw c =>
    show SIDE_TABLE_RC_PINNED L ≤ r.getD 0 ||| SIDE_TABLE_WEAKLY_REFERENCED
    exact le_trans hle Nat.left_le_or
  | nonpointer b => exact hle

theorem Obj.step_pinned {op : RcOp} (hno : op = .release → o.mustBorrow = false) :
    (o.step op).1.pinned = true ∧ (op = .release → (o.step op).2 = false) := by
  cases op with
  | retain => exact ⟨rootRetain_pinned h hp false, nofun⟩
  | release =>
    obtain ⟨hpin, hans⟩ := rootRelease_pinned h hp (hno rfl)
    exact ⟨hpin, fun _ => hans⟩
  | tryRetain => exact ⟨rootRetain_pinned h hp true, nofun⟩
  | setWeaklyReferenced => exact ⟨setWeaklyReferenced_pinned h hp, nofun⟩
  | changeIsa newCls f => exact ⟨changeIsa_pinned h hp newCls f, nofun⟩

theorem Obj.borrow_unpins (hmust : o.mustBorrow = true) : o.rootRelease.1.pinned = false := by
  have hsound := rootRelease_sound h
  rw [← not_eq_true, hsound.pinned_iff, not_le]
  obtain ⟨isa, r⟩ := o
  cases isa with
  | raw c => cases hmust
  | nonpointer b => ?_
  have hword := h.pinned_word hp
  have hpos : 0 < SIDE_TABLE_RC_PINNED L := Nat.two_pow_pos _
  have hhalf := RC_HALF_pos L
  rw [rootRelease_empty h (of_decide_eq_true hmust), if_neg (by omega)]
  show r.getD 0 - 4 * RC_HALF L < SIDE_TABLE_RC_PINNED L
  omega

end

end

/-! ## Runs -/

theorem Obj.run_append (ops ops' : List RcOp) : ∀ o : Obj L, o.run (ops ++ ops')
      = (((o.run ops).1.run ops').1, (o.run ops).2 ++ ((o.run ops).1.run ops').2) := by
  induction ops with
  | nil => intro o; rfl
  | cons op ops ih => ?_
  intro o
  show (((o.step op).1.run (ops ++ ops')).1, _ :: ((o.step op).1.run (ops ++ ops')).2) = _
  rw [ih]
  rfl

theorem Obj.run_pinned (ops : List RcOp) : ∀ {o : Obj L}, o.Sound → o.pinned = true →
    (∀ later, later ++ [.release] <+: ops → (o.run later).1.mustBorrow = false) →
      (∀ later, later <+: ops → (o.run later).1.pinned = true)
        ∧ ∀ e ∈ (o.run ops).2, e.1 = .release → e.2 = false := by
  induction ops with
  | nil =>
    intro o _ hp _
    refine ⟨?_, nofun⟩
    intro later hpre
    rw [prefix_nil.mp hpre]
    exact hp
  | cons op ops ih => ?_
  intro o h hp hno
  have hfirst : op = .release → o.mustBorrow = false := by
    rintro rfl
    exact hno [] (cons_prefix_cons.mpr ⟨rfl, nil_prefix⟩)
  obtain ⟨hp', hans⟩ := step_pinned h hp hfirst
  -- the rest of the run starts in a pinned state again
  obtain ⟨hstates, hlog⟩ := ih (step_sound h op) hp' fun later hpre =>
    hno (op :: later) (cons_prefix_cons.mpr ⟨rfl, hpre⟩)
  constructor
  · intro later hpre
    cases later with
    | nil => exact hp
    | cons op' later =>
      obtain ⟨rfl, hrest⟩ := cons_prefix_cons.mp hpre
      exact hstates later hrest
  intro e he hrel
  rcases mem_cons.mp he with rfl | he
  · exact hans hrel
  · exact hlog e he hrel

/-- **WHEN A PINNED COUNT IS STICKY.**  Take an object after any run of calls whose side-table
count is pinned.  Along any later run the pinned bit stays set and no `rootRelease` answers true,
if and only if no release of that run is made on a bit-field isa with an empty inline field. -/
theorem pinned_count_is_sticky_iff {o₀ : Obj L} (hfresh : o₀.Fresh) (before ops : List RcOp)
    (hpin : (o₀.run before).1.pinned = true) :
    ((∀ later, later <+: ops → ((o₀.run before).1.run later).1.pinned = true)
        ∧ ∀ e ∈ ((o₀.run before).1.run ops).2, e.1 = .release → e.2 = false)
      ↔ ∀ later, later ++ [.release] <+: ops →
          ((o₀.run before).1.run later).1.mustBorrow = false := by
  have hsound : (o₀.run before).1.Sound := run_sound before hfresh.sound
  constructor
  · rintro ⟨hstates, -⟩ later hpre
    by_contra hmust
    rw [not_eq_false] at hmust
    have hhere := hstates later ((prefix_append later [.release]).trans hpre)
    have hlost := borrow_unpins (run_sound later hsound) hhere hmust
    have hafter := hstates (later ++ [.release]) hpre
    rw [run_append] at hafter
    cases hlost.symm.trans hafter
  · intro hno
    exact run_pinned ops hsound hpin hno

/-- A count pinned by 33 retains of a one-bit inline field, then moved to a raw isa: the releases
after the move do not touch it. -/
theorem pinned_count_survives_raw_isa :
    ((Obj.freshNonpointer Layout.narrow).run (replicate 33 .retain)).1.pinned = true
      ∧ (((∀ later, later <+: [.changeIsa 2 ⟨false, false, false⟩, .release, .release, .release] →
            (((Obj.freshNonpointer Layout.narrow).run (replicate 33 .retain)).1.run
              later).1.pinned = true)
          ∧ ∀ e ∈ (((Obj.freshNonpointer Layout.narrow).run (replicate 33 .retain)).1.run
              [.changeIsa 2 ⟨false, false, false⟩, .release, .release, .release]).2,
              e.1 = .release → e.2 = false)
        ↔ ∀ later, later ++ [.release]
              <+: [.changeIsa 2 ⟨false, false, false⟩, .release, .release, .release] →
            (((Obj.freshNonpointer Layout.narrow).run (replicate 33 .retain)).1.run
              later).1.mustBorrow = false) :=
  have hfresh : (freshNonpointer narrow).Fresh := ⟨rfl, rfl, rfl, rfl, rfl⟩
  have hpin : ((freshNonpointer narrow).run (replicate 33 .retain)).1.pinned
      = true := by decide +kernel
  ⟨hpin, pinned_count_is_sticky_iff hfresh _ _ hpin⟩

/-! ## Pinned and lost again -/

theorem Obj.retain_inline (h : (b.extra_rc : Nat) + 1 < RC_RANGE L) :
    (Obj.mk (.nonpointer b) r).step .retain = (⟨.nonpointer (b.addRC 1).1, r⟩, true) := by
  have hcarry : (b.addRC 1).2 = false := by
    rw [addRC, decide_eq_false_iff_not, not_le]
    exact h
  unfold step rootRetain rootRetainWith
  simp only [hcarry, Bool.false_and, Bool.false_eq_true, if_false]

theorem Obj.retain_overflows (h : RC_RANGE L ≤ (b.extra_rc : Nat) + 1) :
    (mk (.nonpointer b) r).step .retain
      = (⟨.nonpointer b.leaveHalf, (sidetable_addExtraRC_nolock L r (RC_HALF L)).1⟩, true) := by
  have hcarry : (b.addRC 1).2 = true := by
    rw [addRC, decide_eq_true_eq]
    exact h
  unfold step rootRetain rootRetain_overflow rootRetainWith
  simp only [hcarry, Bool.false_and, Bool.false_eq_true, if_false, if_true]
  rfl

theorem Obj.retain_to_overflow (n : Nat) : ∀ {b : IsaBits L},
    (b.extra_rc : Nat) + n + 1 = RC_RANGE L →
    ((mk (.nonpointer b) r).run (replicate (n + 1) .retain)).1
      = ⟨.nonpointer b.leaveHalf, (sidetable_addExtraRC_nolock L r (RC_HALF L)).1⟩ := by
  induction n with
  | zero =>
    intro b hfull
    show ((mk (.nonpointer b) r).step .retain).1 = _
    rw [retain_overflows (by omega)]
  | succ n ih => ?_
  intro b hfull
  show (((mk (.nonpointer b) r).step .retain).1.run (replicate (n + 1) .retain)).1 = _
  rw [retain_inline (by omega)]
  have hval : ((b.addRC 1).1.extra_rc : Nat) = b.extra_rc + 1 :=
    b.setExtraRc_val _ (by omega)
  rw [ih (by omega)]
  rfl

theorem Obj.retains_fill (k : Nat) (hk : 4 * RC_HALF L * (k + 1) ≤ SIDE_TABLE_RC_PINNED L) :
    ∃ m, ((freshNonpointer L).run (replicate m .retain)).1
      = ⟨.nonpointer (leaveHalf (fresh 1 false)),
          some (4 * RC_HALF L * (k + 1))⟩ := by
  have hpos := RC_HALF_pos L
  have hrange := RC_HALF_add_self L
  induction k with
  | zero =>
    refine ⟨RC_RANGE L - 1 + 1, ?_⟩
    show ((mk (.nonpointer (fresh 1 false)) none).run _).1 = _
    rw [retain_to_overflow (RC_RANGE L - 1) (by
      show 0 + (RC_RANGE L - 1) + 1 = RC_RANGE L
      omega)]
    have hpin : 0 < SIDE_TABLE_RC_PINNED L := Nat.two_pow_pos _
    rw [(sidetable_addExtraRC_half (r := none) (Nat.zero_le _) (Nat.dvd_zero _)).1]
    simp only [getD_none, if_neg (ne_of_lt hpin), zero_add, Nat.mul_one]
  | succ k ih => ?_
  have hless : 4 * RC_HALF L * (k + 1) + 4 * RC_HALF L ≤ SIDE_TABLE_RC_PINNED L := by
    exact hk
  obtain ⟨m, hm⟩ := ih (by omega)
  refine ⟨m + (RC_RANGE L - RC_HALF L - 1 + 1), ?_⟩
  rw [← replicate_append_replicate, run_append, hm, retain_to_overflow _ (by
    show RC_HALF L % RC_RANGE L + (RC_RANGE L - RC_HALF L - 1) + 1 = RC_RANGE L
    rw [Nat.mod_eq_of_lt (by omega)]
    omega)]
  rw [(sidetable_addExtraRC_half (r := some (4 * RC_HALF L * (k + 1)))
    (show 4 * RC_HALF L * (k + 1) ≤ _ by omega) (Nat.dvd_mul_right _ _)).1]
  simp only [getD_some, if_neg (show ¬ 4 * RC_HALF L * (k + 1) = SIDE_TABLE_RC_PINNED L by omega)]
  rfl

theorem Obj.releases_inline (n : Nat) : ∀ {b : IsaBits L},
    (b.extra_rc : Nat) = n → ∃ b' : IsaBits L,
      ((mk (.nonpointer b) r).run (replicate n .release)).1 = ⟨.nonpointer b', r⟩
        ∧ (b'.extra_rc : Nat) = 0 ∧ b'.deallocating = b.deallocating := by
  induction n with
  | zero => intro b hb; exact ⟨b, rfl, hb, rfl⟩
  | succ n ih => ?_
  intro b hb
  have hstep : (mk (.nonpointer b) r).step .release = (⟨.nonpointer b.subRC.1, r⟩, false) :=
    rootRelease_inline (by omega)
  have hval := b.subRC_val (by simp [subRC, hb])
  obtain ⟨b', hrun, hz, hd⟩ := ih (b := b.subRC.1) (by omega)
  refine ⟨b', ?_, hz, hd⟩
  show (((mk (.nonpointer b) r).step .release).1.run (replicate n .release)).1 = _
  rw [hstep]
  exact hrun

theorem Counter.releases_to_end (n : Nat) (hn : n + 1 ≤ pinLimit L) :
    (mk (n + 1) false).Admissible L (replicate (n + 1) .release) ∧ (RcOp.release, true) ∈
          ((mk (n + 1) false).run (replicate (n + 1) .release)).2 := by
  induction n with
  | zero =>
    refine ⟨⟨fun h => (by cases h), ?_, trivial⟩, mem_cons_self⟩
    exact hn
  | succ n ih => ?_
  obtain ⟨hadm, hmem⟩ := ih (by omega)
  refine ⟨⟨fun h => (by cases h), ?_, ?_⟩, ?_⟩
  · show n + 1 ≤ pinLimit L
    omega
  · exact hadm
  · refine mem_cons_of_mem _ ?_
    exact hmem

/-- **The pinned count is lost**, on every layout. Retains alone pin the side-table count of a new
object with a bit-field isa; releases alone then clear the pinned bit, and a later one of them
answers true. -/
theorem Obj.pinned_then_lost (L : Layout) :
    ∃ m n k, ((freshNonpointer L).run (replicate m .retain)).1.pinned = true
      ∧ (((freshNonpointer L).run (replicate m .retain)).1.run
          (replicate n .release)).1.pinned = false
      ∧ (RcOp.release, true) ∈ (((freshNonpointer L).run (replicate m .retain)).1.run
          (replicate (n + k) .release)).2 := by
  have hfresh : (freshNonpointer L).Fresh := ⟨rfl, rfl, rfl, rfl, rfl⟩
  have hpos : 0 < SIDE_TABLE_RC_PINNED L := Nat.two_pow_pos _
  have hrange := RC_HALF_add_self L
  -- the number of halves that fill the word
  obtain ⟨K, hK⟩ := half_dvd_pinned (L := L)
  obtain ⟨k, rfl⟩ : ∃ k, K = k + 1 := by
    cases K with
    | zero => omega
    | succ k => exact ⟨k, rfl⟩
  obtain ⟨m, hm⟩ := retains_fill k (le_of_eq hK.symm)
  have hsound := run_sound (replicate m .retain) hfresh.sound
  rw [← hK] at hm
  rw [hm] at hsound
  have hpin : (mk (.nonpointer (leaveHalf (fresh 1 false)))
      (some (SIDE_TABLE_RC_PINNED L)) : Obj L).pinned = true :=
    hsound.pinned_iff.mpr le_rfl
  -- empty the inline field, then borrow
  obtain ⟨b', hrun, hz, hd⟩ := releases_inline (L := L) (r := some (SIDE_TABLE_RC_PINNED L))
    (RC_HALF L) (b := leaveHalf (fresh 1 false))
    (Nat.mod_eq_of_lt (RC_HALF_lt_range L))
  have hsound' := run_sound (replicate (RC_HALF L) .release) hsound
  rw [hrun] at hsound'
  have hborrow := rootRelease_empty hsound' hz
  rw [getD_some, if_neg (by omega)] at hborrow
  have hlast := rootRelease_sound hsound'
  have hstate : ((mk (.nonpointer (leaveHalf (fresh 1 false)))
      (some (SIDE_TABLE_RC_PINNED L)) : Obj L).run (replicate (RC_HALF L + 1) .release)).1
      = ⟨.nonpointer (b'.setExtraRc (RC_HALF L - 1)),
          some (SIDE_TABLE_RC_PINNED L - 4 * RC_HALF L)⟩ := by
    rw [← replicate_append_replicate, run_append, hrun]
    show (rootRelease _).1 = _
    rw [hborrow]
  rw [hborrow] at hlast
  refine ⟨m, RC_HALF L + 1, pinLimit L, ?_, ?_, ?_⟩
  · rw [hm]
    exact hpin
  · rw [hm, hstate, ← not_eq_true, hlast.pinned_iff, not_le]
    show SIDE_TABLE_RC_PINNED L - 4 * RC_HALF L < SIDE_TABLE_RC_PINNED L
    omega
  -- the count is below the limit again, so the counting theorem applies
  have hlim := pinned_eq L
  have hdiv : RC_HALF L ≤ pinLimit L := by
    have hle := Nat.le_of_dvd hpos (half_dvd_pinned (L := L))
    omega
  have hextra : (mk (.nonpointer (b'.setExtraRc (RC_HALF L - 1)))
      (some (SIDE_TABLE_RC_PINNED L - 4 * RC_HALF L)) : Obj L).extraCount = pinLimit L - 1 := by
    show ((b'.setExtraRc (RC_HALF L - 1)).extra_rc : Nat)
      + rcOf (some (SIDE_TABLE_RC_PINNED L - 4 * RC_HALF L)) = _
    rw [b'.setExtraRc_val _ (by omega), rcOf_eq, getD_some]
    omega
  have hrep : (mk (.nonpointer (b'.setExtraRc (RC_HALF L - 1)))
      (some (SIDE_TABLE_RC_PINNED L - 4 * RC_HALF L)) : Obj L).Represents
        ⟨pinLimit L - 1 + 1, false⟩ :=
    ⟨hlast.wf, by rw [hextra, add_comm], hd⟩
  obtain ⟨hadm, hmem⟩ := releases_to_end (L := L) (pinLimit L - 1) (by omega)
  obtain ⟨hlog, -⟩ := run_represents _ hrep (show pinLimit L - 1 + 1 ≤ _ by omega) hadm
  rw [hm, show RC_HALF L + 1 + pinLimit L = RC_HALF L + 1 + (pinLimit L - 1 + 1) by omega,
    ← replicate_append_replicate, run_append, hstate, hlog]
  exact mem_append_right _ hmem

/-- **THE PINNED COUNT IS LOST** on x86_64. -/
theorem pinned_count_is_lost :
    ∃ m n k, ((Obj.freshNonpointer Layout.x86_64).run (replicate m .retain)).1.pinned = true
      ∧ (((Obj.freshNonpointer Layout.x86_64).run (replicate m .retain)).1.run
          (replicate n .release)).1.pinned = false
      ∧ (RcOp.release, true) ∈ (((Obj.freshNonpointer Layout.x86_64).run
          (replicate m .retain)).1.run (replicate (n + k) .release)).2 :=
  pinned_then_lost x86_64

end ObjcRuntime
