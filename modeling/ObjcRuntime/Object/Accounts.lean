/-
THE BOOKS BEHIND THE TWO STORES.

Between two atomic accesses a count can be in three places: inline in the isa,
in the side-table word, or in the hands of the thread that holds the
side-table lock and is moving it (`pend`). The deallocating mark can be in
the hands of a `changeIsa` in the same way (`pmark`).

`Accounts isa r pend pmark sum won` says that the three places add up to the
`sum` owned references and that `won` releases have been told to deallocate.
One lemma for each kind of access that changes a store.
-/
import ObjcRuntime.Object.RefCount

namespace ObjcRuntime

open Bool Isa IsaBits Nat

variable {L : Layout}

/-! ## The books -/

def markOf (isa : Isa L) (r : SideWord) (pmark : Nat) : Bool :=
  match isa with
  | .raw _ => deallocatingOf r || decide (0 < pmark)
  | .nonpointer b => b.deallocating

/-- The stores and what is in transit account for every owned reference. The
first reference is not stored; it is gone once the mark is set. -/
structure Accounts (isa : Isa L) (r : SideWord) (pend pmark sum won : Nat) : Prop where
  wf : (Obj.mk isa r).WF
  quiet : ∀ b, isa = .nonpointer b → pmark = 0 ∧ (b.has_sidetable_rc = false → pend = 0)
  account : 1 + (isa.extraRc + rcOf r + pend) = sum + (markOf isa r pmark).toNat
  won : won = (markOf isa r pmark).toNat

def Isa.Announced (isa : Isa L) : Prop := ∃ b, isa = .nonpointer b ∧ b.has_sidetable_rc = true

def Isa.IsRaw (isa : Isa L) : Prop := ∃ c, isa = .raw c

namespace Accounts

variable {isa : Isa L} {r : SideWord} {pend pmark sum won : Nat} {b : IsaBits L}

theorem total_le (h : Accounts isa r pend pmark sum won) : isa.extraRc + rcOf r + pend ≤ sum := by
  have hacc := h.account
  have hmark := toNat_le (markOf isa r pmark)
  omega

theorem marked_of_sum_zero (h : Accounts isa r pend pmark 0 won) : markOf isa r pmark = true := by
  have hacc := h.account
  by_contra hno
  rw [eq_false_iff.mpr hno] at hacc
  simp at hacc

theorem mark_eq {isa' : Isa L} {r' : SideWord} {pend' pmark' sum' : Nat}
    (h : Accounts isa r pend pmark sum won) (h' : Accounts isa' r' pend' pmark' sum' won) :
    markOf isa' r' pmark' = markOf isa r pmark := by
  have h1 := h.won
  have h2 := h'.won
  cases hm : markOf isa r pmark <;> cases hm' : markOf isa' r' pmark' <;> simp_all

section

variable (h : Accounts (.nonpointer b) r pend pmark sum won)

include h

theorem unannounced (hs : b.has_sidetable_rc = false) : rcOf r = 0 ∧ pend = 0 := by
  obtain ⟨⟨-, -, -, hnone⟩, hquiet, -, -⟩ := h
  have hr : r = none := hnone hs
  exact ⟨by rw [hr, rcOf_none], (hquiet b rfl).2 hs⟩

/-! ## Accesses to the isa -/

theorem swap {b' : IsaBits L} {pend' sum' : Nat} (hd : b'.deallocating = b.deallocating)
    (hs : b'.has_sidetable_rc = false → b.has_sidetable_rc = false ∧ pend' = 0)
    (hsum : (b'.extra_rc : Nat) + pend' + sum = b.extra_rc + pend + sum') :
    Accounts (.nonpointer b') r pend' pmark sum' won := by
  obtain ⟨⟨hdr, hwr, hdvd, hnone⟩, hquiet, hacc, hwon⟩ := h
  refine ⟨⟨hdr, hwr, hdvd, fun hno => hnone (hs hno).1⟩, ?_, ?_, ?_⟩
  · intro b'' heq
    cases heq
    exact ⟨(hquiet b rfl).1, fun hno => (hs hno).2⟩
  · simp only [markOf, extraRc_nonpointer, hd] at hacc ⊢
    omega
  · simp only [markOf, hd] at hwon ⊢
    exact hwon

theorem retain_inline (hc : (b.addRC 1).2 = false) :
    Accounts (.nonpointer (b.addRC 1).1) r pend pmark (sum + 1) won := by
  have hval := b.addRC_val 1 hc
  refine h.swap rfl (fun hno => ⟨hno, (h.quiet b rfl).2 hno⟩) ?_
  omega

end

theorem retain_overflow (h : Accounts (.nonpointer b) r 0 pmark sum won)
    (hc : (b.addRC 1).2 = true) :
    Accounts (.nonpointer (b.addRC 1).1.leaveHalf) r (RC_HALF L) pmark (sum + 1) won := by
  have hhalf := RC_HALF_add_self L
  have hfull : RC_RANGE L ≤ (b.extra_rc : Nat) + 1 := by simpa [addRC] using hc
  have hleft : ((b.addRC 1).1.leaveHalf.extra_rc : Nat) = RC_HALF L :=
    setExtraRc_val (b.addRC 1).1 _ (RC_HALF_lt_range L)
  refine h.swap rfl (fun hno => absurd hno (by simp [leaveHalf])) ?_
  omega

theorem release_inline (h : Accounts (.nonpointer b) r pend pmark (sum + 1) won)
    (hc : b.subRC.2 = false) :
    Accounts (.nonpointer b.subRC.1) r pend pmark sum won := by
  have hval := b.subRC_val hc
  refine h.swap rfl (fun hno => ⟨hno, (h.quiet b rfl).2 hno⟩) ?_
  omega

variable (h : Accounts (.nonpointer b) r (RC_HALF L) pmark (sum + 1) won)
include h

theorem release_borrowed
    (hex : (b.extra_rc : Nat) = 0) :
    Accounts (.nonpointer (b.setExtraRc (RC_HALF L - 1))) r 0 pmark sum won := by
  have hpos := RC_HALF_pos L
  have hval : ((b.setExtraRc (RC_HALF L - 1)).extra_rc : Nat) = RC_HALF L - 1 :=
    b.setExtraRc_val _ (by have := RC_HALF_lt_range L; omega)
  refine h.swap rfl (fun hno => ⟨hno, rfl⟩) ?_
  omega

theorem release_borrowed_again
    (hc : (b.addRC (RC_HALF L - 1)).2 = false) :
    Accounts (.nonpointer (b.addRC (RC_HALF L - 1)).1) r 0 pmark sum won := by
  have hpos := RC_HALF_pos L
  have hval := b.addRC_val _ hc
  refine h.swap rfl (fun hno => ⟨hno, rfl⟩) ?_
  omega

omit h

theorem mark (h : Accounts (.nonpointer b) r 0 pmark sum won) (hex : (b.extra_rc : Nat) = 0)
    (hd : b.deallocating = false) (hrc : rcOf r = 0) :
    sum = 1 ∧ Accounts (.nonpointer { b with deallocating := true }) r 0 pmark 0 (won + 1) := by
  obtain ⟨hwf, hquiet, hacc, hwon⟩ := h
  simp only [markOf, hd, extraRc_nonpointer, hex, hrc] at hacc hwon
  refine ⟨by simpa using hacc.symm, hwf, ?_, ?_, ?_⟩
  · intro b' heq
    cases heq
    exact hquiet b rfl
  · simp [markOf, hex, hrc]
  · simp [markOf, hwon]

theorem change_nonpointer (h : Accounts (.nonpointer b) r pend pmark sum won) {newCls : Class}
    {d : Bool} : Accounts (.nonpointer { b with has_cxx_dtor := d, cls := newCls }) r pend pmark
      sum won :=
  h.swap rfl (fun hno => ⟨hno, (h.quiet b rfl).2 hno⟩) rfl

theorem change_raw {c : Option Class} (h : Accounts (.raw c : Isa L) r pend pmark sum won)
    (newCls : Class) : Accounts (.raw (some newCls) : Isa L) r pend pmark sum won :=
  ⟨Option.some_ne_none _, fun _ heq => (by cases heq), h.account, h.won⟩

theorem change_to_raw (h : Accounts (.nonpointer b) r 0 pmark sum won) (newCls : Class) :
    Accounts (.raw (some newCls) : Isa L) r b.extra_rc b.deallocating.toNat sum won := by
  obtain ⟨⟨hdr, -, -, -⟩, -, hacc, hwon⟩ := h
  have hmark : markOf (.raw (some newCls) : Isa L) r b.deallocating.toNat = b.deallocating := by
    unfold markOf
    rw [hdr]
    cases b.deallocating <;> rfl
  refine ⟨Option.some_ne_none _, fun _ heq => (by cases heq), ?_, ?_⟩
  · rw [hmark]
    simp only [markOf, extraRc_nonpointer, extraRc_raw] at hacc ⊢
    omega
  · rw [hmark]
    exact hwon

/-! ## Accesses to the side table -/

theorem add_side (h : Accounts isa r (RC_HALF L) pmark sum won) (ha : isa.Announced)
    (hlim : sum < pinLimit L) :
    Accounts isa (sidetable_addExtraRC_nolock L r (RC_HALF L)).1 0 pmark sum won := by
  obtain ⟨b, rfl, hs⟩ := ha
  have hle := h.total_le
  obtain ⟨⟨hdr, hwr, hdvd, -⟩, hquiet, hacc, hwon⟩ := h
  obtain ⟨-, hrc, hd', hw'⟩ :=
    sidetable_addExtraRC_spec (L := L) (r := r) (n := RC_HALF L) (by omega)
  refine ⟨⟨hd'.trans hdr, hw'.trans hwr, ?_, ?_⟩, fun b' heq => ?_, ?_, hwon⟩
  · rw [hrc]
    exact Nat.dvd_add hdvd (Nat.dvd_refl _)
  · exact fun hno => absurd (hs.symm.trans hno) (by decide)
  · exact ⟨(hquiet b' heq).1, fun _ => rfl⟩
  · simp only [markOf] at hacc ⊢
    omega

theorem borrow (h : Accounts isa r 0 pmark sum won) (ha : isa.Announced) (hpos : 0 < rcOf r)
    (hlim : sum < pinLimit L) :
    (sidetable_subExtraRC_nolock L r (RC_HALF L)).2 = RC_HALF L
      ∧ Accounts isa (sidetable_subExtraRC_nolock L r (RC_HALF L)).1 (RC_HALF L) pmark sum won := by
  obtain ⟨b, rfl, hs⟩ := ha
  have hle := h.total_le
  obtain ⟨⟨hdr, hwr, hdvd, -⟩, hquiet, hacc, hwon⟩ := h
  have hhalf : RC_HALF L ≤ rcOf r := le_of_dvd hpos hdvd
  obtain ⟨hb, hrc, hd', hw'⟩ :=
    sidetable_subExtraRC_spec (L := L) (RC_HALF_pos L) hhalf (by omega)
  refine ⟨hb, ⟨hd'.trans hdr, hw'.trans hwr, ?_, ?_⟩, fun b' heq => ?_, ?_, hwon⟩
  · rw [hrc]
    exact dvd_sub hdvd (dvd_refl _)
  · exact fun hno => absurd (hs.symm.trans hno) (by decide)
  · cases heq
    exact ⟨(hquiet b rfl).1, fun hno => absurd (hs.symm.trans hno) (by decide)⟩
  · simp only [markOf] at hacc ⊢
    omega

theorem move (h : Accounts isa r b.extra_rc b.deallocating.toNat sum won) (hraw : isa.IsRaw)
    (hdr : deallocatingOf r = false) (hwr : weakOf r = false) (hlim : sum < pinLimit L) :
    Accounts isa (sidetable_moveExtraRC_nolock L r b.extra_rc b.deallocating b.weakly_referenced)
      0 0 sum won := by
  obtain ⟨c, rfl⟩ := hraw
  have hle := h.total_le
  obtain ⟨hwf, -, hacc, hwon⟩ := h
  obtain ⟨hrc, hd', -⟩ := sidetable_moveExtraRC_spec (L := L) (r := r) (n := b.extra_rc)
    (d := b.deallocating) (w := b.weakly_referenced) hdr hwr (by omega)
  have hmark : markOf (.raw c : Isa L) (sidetable_moveExtraRC_nolock L r b.extra_rc b.deallocating
      b.weakly_referenced) 0 = markOf (.raw c : Isa L) r b.deallocating.toNat := by
    unfold markOf
    rw [hdr, hd']
    cases b.deallocating <;> rfl
  refine ⟨hwf, fun b' heq => (by cases heq), ?_, ?_⟩
  · rw [hmark, hrc]
    omega
  · rw [hmark]
    exact hwon

theorem raw_retain (h : Accounts isa r 0 0 sum won) (hraw : isa.IsRaw)
    (hlim : sum < pinLimit L) : Accounts isa (sidetable_retain L r) 0 0 (sum + 1) won := by
  obtain ⟨c, rfl⟩ := hraw
  have hle := h.total_le
  obtain ⟨hwf, -, hacc, hwon⟩ := h
  obtain ⟨hrc, hd', -⟩ := sidetable_retain_spec (L := L) (r := r) (by omega)
  refine ⟨hwf, fun b' heq => (by cases heq), ?_, ?_⟩
  · simp only [markOf, hd', hrc] at hacc ⊢
    omega
  · simp only [markOf, hd'] at hwon ⊢
    exact hwon

theorem raw_release (h : Accounts isa r 0 0 (sum + 1) won) (hraw : isa.IsRaw)
    (hlim : sum + 1 < pinLimit L) :
    ((sidetable_release L r).2 = true → sum = 0)
      ∧ Accounts isa (sidetable_release L r).1 0 0 sum (won + (sidetable_release L r).2.toNat) := by
  obtain ⟨c, rfl⟩ := hraw
  have hle := h.total_le
  obtain ⟨hwf, -, hacc, hwon⟩ := h
  simp only [markOf, Isa.extraRc_raw, Nat.lt_irrefl, decide_false, Bool.or_false] at hacc hwon
  by_cases hz : rcOf r = 0
  · -- nothing counted: the owned reference is the first one
    have hd : deallocatingOf r = false := by
      by_contra hno
      rw [Bool.not_eq_false] at hno
      rw [hno, hz] at hacc
      simp at hacc
    rw [hd, hz] at hacc
    obtain ⟨hb, hrc, hd', -⟩ := sidetable_release_last (L := L) hz hd
    rw [hb]
    refine ⟨fun _ => by simpa using hacc, hwf, fun b' heq => (by cases heq), ?_, ?_⟩
    · simp only [markOf, hd', hrc, Isa.extraRc_raw]
      simpa using hacc
    · simp [markOf, hd', hwon, hd]
  obtain ⟨hb, hrc, hd', -⟩ :=
    sidetable_release_counted (L := L) (r := r) (by omega) (by omega)
  rw [hb]
  refine ⟨fun hno => absurd hno (by decide), hwf, fun b' heq => (by cases heq), ?_, ?_⟩
  · simp only [markOf, hd', hrc, Isa.extraRc_raw, Nat.lt_irrefl, decide_false, Bool.or_false]
    omega
  · simp [markOf, hd', hwon]

end Accounts

end ObjcRuntime
