/-
NO INTERLEAVING LOSES A COUNT.

The invariant of `rcSystem` has three parts:

* the lock is held by exactly the thread whose program point says so,
* the books (`Accounts`) balance, with the counts and the mark in the hands
  of threads read off their program points,
* each thread's locals still mean what they meant when it read them
  (`Local`).

`Inv.advance` is the only place where the other threads are looked at: it asks
how a step may interfere with them. Every access of the source is then one
call of it.
-/
import ObjcRuntime.Object.Accounts
import ObjcRuntime.Object.Threads

namespace ObjcRuntime

open Function Option Bool Finset Nat PC Machine Isa IsaBits Obj Layout

variable {L : Layout}

/-! ## What a program point says -/

namespace PC

def holds : PC L → Bool
  | .retainLoad try_ _ locked | .retainStore try_ _ locked _ => try_ || locked
  | .releaseLoad _ locked | .releaseStore _ locked _ | .deallocStore _ locked _ => locked
  | .isaLoad _ _ locked | .isaStore _ _ locked _ => locked
  | .idle | .retainLock _ | .rawRetainLock | .tryLock | .releaseLock | .rawReleaseLock
  | .isaLock _ _ _ | .overrelease => false
  | .retainAddRead _ | .retainAddWrite _ _ | .retainUnlock | .rawRetainUnlock | .rawRetainRead
  | .rawRetainWrite _ | .rawTryRead | .rawTryWrite _ | .tryUnlock _ | .borrowRead _
  | .borrowWrite _ _ | .borrowStore _ _ | .borrowLoad2 _ | .borrowStore2 _ _ | .putBackRead _
  | .putBackWrite _ _ | .releaseUnlock _ | .rawReleaseUnlock | .rawReleaseRead
  | .rawReleaseWrite _ | .moveRead _ | .moveWrite _ _ | .isaUnlock => true

def pend : PC L → Nat
  | .retainAddRead _ | .retainAddWrite _ _ => RC_HALF L
  | .borrowStore _ n | .borrowLoad2 n | .borrowStore2 _ n | .putBackRead n
  | .putBackWrite n _ => n
  | .moveRead b | .moveWrite b _ => b.extra_rc
  | _ => 0

def mark : PC L → Nat
  | .moveRead b | .moveWrite b _ => b.deallocating.toNat
  | _ => 0

/-- The thread's `rootRelease` is going to return true. -/
def won : PC L → Nat
  | .releaseUnlock true => 1
  | _ => 0

theorem pend_of_not_holds {p : PC L} (h : p.holds = false) : p.pend = 0 := by
  cases p <;> first | rfl | exact Bool.noConfusion h

theorem mark_of_not_holds {p : PC L} (h : p.holds = false) : p.mark = 0 := by
  cases p <;> first | rfl | exact Bool.noConfusion h

/-- What a thread at `p` knows about the stores and about the references it owns.
`marked` is the deallocating mark, `own` the thread's own references. -/
def Local (isa : Isa L) (r : SideWord) (marked : Bool) (own : Nat) : PC L → Prop
  | .idle | .retainLock _ | .retainUnlock | .tryLock | .releaseUnlock _ | .isaLoad _ _ _
  | .isaLock _ _ _ | .isaUnlock => True
  | .retainLoad _ ho locked => locked = true → ho = true
  | .retainStore try_ ho locked old =>
    (locked = true → ho = true) ∧ ((old.addRC 1).2 = true → (try_ || locked) = true)
      ∧ (try_ = true → old.deallocating = false)
  | .retainAddRead try_ => isa.Announced ∧ (try_ = true → 0 < own ∧ marked = false)
  | .retainAddWrite try_ r' => isa.Announced ∧ (try_ = true → 0 < own ∧ marked = false) ∧ r' = r
  | .rawRetainUnlock | .rawRetainLock | .rawRetainRead | .rawTryRead => isa.IsRaw
  | .rawRetainWrite r' => isa.IsRaw ∧ r' = r
  | .rawTryWrite r' => isa.IsRaw ∧ deallocatingOf r = false ∧ r' = r
  | .tryUnlock result => result = true → 0 < own ∧ marked = false
  | .releaseLoad hu locked => 0 < own ∧ (locked = true → hu = true)
  | .releaseStore hu locked old => 0 < own ∧ (locked = true → hu = true) ∧ old.subRC.2 = false
  | .releaseLock => 0 < own
  | .borrowRead old =>
    0 < own ∧ isa.Announced ∧ (old.extra_rc : Nat) = 0
      ∧ (old.deallocating = true → 0 < rcOf r)
  | .borrowWrite old r' =>
    0 < own ∧ isa.Announced ∧ (old.extra_rc : Nat) = 0 ∧ 0 < rcOf r ∧ r' = r
  | .borrowStore old n => 0 < own ∧ isa.Announced ∧ (old.extra_rc : Nat) = 0 ∧ n = RC_HALF L
  | .borrowLoad2 n | .putBackRead n => 0 < own ∧ isa.Announced ∧ n = RC_HALF L
  | .borrowStore2 old n =>
    0 < own ∧ isa.Announced ∧ (old.addRC (n - 1)).2 = false ∧ n = RC_HALF L
  | .putBackWrite n r' => 0 < own ∧ isa.Announced ∧ n = RC_HALF L ∧ r' = r
  | .deallocStore hu locked old =>
    0 < own ∧ (locked = true → hu = true) ∧ (old.extra_rc : Nat) = 0
      ∧ old.deallocating = false ∧ (old.has_sidetable_rc = true → locked = true ∧ rcOf r = 0)
  | .overrelease => False
  | .rawReleaseUnlock | .rawReleaseLock | .rawReleaseRead => 0 < own ∧ isa.IsRaw
  | .rawReleaseWrite r' => 0 < own ∧ isa.IsRaw ∧ r' = r
  | .isaStore newCls f locked old => (changeIsaTo old newCls f).2 = true → locked = true
  | .moveRead _ => isa.IsRaw ∧ deallocatingOf r = false ∧ weakOf r = false
  | .moveWrite _ r' => isa.IsRaw ∧ deallocatingOf r = false ∧ weakOf r = false ∧ r' = r

/-- **Stability.** What a thread knows survives a step of another one, if a raw
isa stays raw, the stores it has locked keep their word and their announcement,
and no mark appears while it owns a reference. -/
theorem Local.stable {isa isa' : Isa L} {r r' : SideWord} {marked marked' : Bool} {own : Nat}
    {p : PC L} (h : Local isa r marked own p) (hraw : isa.IsRaw → isa'.IsRaw)
    (hlocked : p.holds = true → r' = r ∧ (isa.Announced → isa'.Announced))
    (hmark : 0 < own → marked = false → marked' = false) : Local isa' r' marked' own p := by
  cases p with
  | idle | retainLock | retainUnlock | tryLock | releaseUnlock | isaLoad | isaLock | isaUnlock
  | retainLoad | retainStore | releaseLoad | releaseStore | releaseLock | isaStore | overrelease =>
    exact h
  | retainAddRead try_ =>
    exact ⟨(hlocked rfl).2 h.1, fun ht => ⟨(h.2 ht).1, hmark (h.2 ht).1 (h.2 ht).2⟩⟩
  | retainAddWrite try_ q =>
    obtain ⟨ha, ht, rfl⟩ := h
    obtain ⟨rfl, hann⟩ := hlocked rfl
    exact ⟨hann ha, fun h' => ⟨(ht h').1, hmark (ht h').1 (ht h').2⟩, rfl⟩
  | tryUnlock result => exact fun ht => ⟨(h ht).1, hmark (h ht).1 (h ht).2⟩
  | rawRetainUnlock | rawRetainLock | rawRetainRead | rawTryRead => exact hraw h
  | rawReleaseUnlock | rawReleaseLock | rawReleaseRead => exact ⟨h.1, hraw h.2⟩
  | rawRetainWrite q =>
    obtain ⟨rfl, -⟩ := hlocked rfl
    exact ⟨hraw h.1, h.2⟩
  | rawTryWrite q | moveRead b | moveWrite b q =>
    obtain ⟨rfl, -⟩ := hlocked rfl
    exact ⟨hraw h.1, h.2⟩
  | rawReleaseWrite q =>
    obtain ⟨rfl, -⟩ := hlocked rfl
    exact ⟨h.1, hraw h.2.1, h.2.2⟩
  | borrowRead old | borrowWrite old q | putBackWrite n q =>
    obtain ⟨rfl, hann⟩ := hlocked rfl
    exact ⟨h.1, hann h.2.1, h.2.2⟩
  | borrowStore old n | borrowLoad2 n | borrowStore2 old n | putBackRead n =>
    exact ⟨h.1, (hlocked rfl).2 h.2.1, h.2.2⟩
  | deallocStore hu locked old => ?_
  obtain ⟨hown, hlu, hex, hd, hs⟩ := h
  refine ⟨hown, hlu, hex, hd, fun hside => ?_⟩
  obtain ⟨hl, hrc⟩ := hs hside
  obtain ⟨rfl, -⟩ := hlocked hl
  exact ⟨hl, hrc⟩

end PC

/-! ## The invariant and the rule for one step -/

variable {Tid : Type} [Fintype Tid]

namespace Machine

def sum (s : Machine L Tid) : Nat := ∑ t, s.owned t

def pend (s : Machine L Tid) : Nat := ∑ t, (s.pc t).pend

def pmark (s : Machine L Tid) : Nat := ∑ t, (s.pc t).mark

/-- The deallocating mark: in the isa, in the side table, or with a `changeIsa`
that is moving it from the one to the other. -/
def marked (s : Machine L Tid) : Bool := markOf s.isa s.refcnt s.pmark

/-- The `rootRelease` calls that have returned true, or have done the access
after which they can only return true. -/
def decided (s : Machine L Tid) : Nat := s.trueReturns.length + ∑ t, (s.pc t).won

structure Inv (s : Machine L Tid) : Prop where
  lock : ∀ t, s.lock = some t ↔ (s.pc t).holds = true
  books : Accounts s.isa s.refcnt s.pend s.pmark s.sum s.decided
  here : ∀ t, (s.pc t).Local s.isa s.refcnt s.marked (s.owned t)

/-- A step to `s'` that keeps the invariant, and in which a release is decided
only when it leaves no owned reference. -/
structure Moves (s s' : Machine L Tid) : Prop where
  inv : s'.Inv
  decided : s'.decided = s.decided ∨ s'.decided = s.decided + 1 ∧ s'.sum = 0

variable {s s' : Machine L Tid} {t : Tid} {p q : PC L}

theorem owned_le_sum (s : Machine L Tid) (t : Tid) : s.owned t ≤ s.sum :=
  single_le_sum (fun _ _ => zero_le _) (mem_univ t)

theorem sum_lose (hown : 0 < s.owned t) :
    ∃ n, s.sum = n + 1 ∧ n + s.owned t = s.sum + (s.owned t - 1) := by
  have hle := s.owned_le_sum t
  exact ⟨s.sum - 1, by omega, by omega⟩

variable (h : s.Inv)
include h

theorem Inv.knows (hq : s.pc t = q) :
    q.Local s.isa s.refcnt s.marked (s.owned t) := hq ▸ h.here t

theorem Inv.pend_eq (hq : s.pc t = q) (ht : q.holds = true) :
    s.pend = q.pend ∧ s.pmark = q.mark := by
  subst hq
  have hothers : ∀ u, u ≠ t → (s.pc u).holds = false := by
    intro u hne
    by_contra hu
    have h1 := (h.lock t).mpr ht
    have h2 := (h.lock u).mpr (by simpa using hu)
    rw [h1] at h2
    exact hne (some.inj h2).symm
  refine ⟨sum_eq_single t (fun u _ hne => ?_) (fun hno => ?_),
    sum_eq_single t (fun u _ hne => ?_) (fun hno => ?_)⟩
  · exact pend_of_not_holds (hothers u hne)
  · exact absurd (mem_univ t) hno
  · exact mark_of_not_holds (hothers u hne)
  · exact absurd (mem_univ t) hno

variable [DecidableEq Tid] {pend' pmark' sum' decided' : Nat}

/-- **The rule for one step** of thread `t` from `q` to `p`: the lock moves as the
program points say, the other threads are not disturbed, the books balance. -/
theorem Inv.advance (hq : s.pc t = q) {o : Nat} (hpc : s'.pc = update s.pc t p)
    (howned : s'.owned = update s.owned t o)
    (hlock : ∀ u, u ≠ t → (s'.lock = some u ↔ s.lock = some u))
    (hself : s'.lock = some t ↔ p.holds = true) (hraw : s.isa.IsRaw → s'.isa.IsRaw)
    (hother : ∀ u, u ≠ t → s.lock = some u →
      s'.refcnt = s.refcnt ∧ (s.isa.Announced → s'.isa.Announced))
    (hbooks : Accounts s'.isa s'.refcnt pend' pmark' sum' decided')
    (hpend : pend' + q.pend = s.pend + p.pend) (hpmark : pmark' + q.mark = s.pmark + p.mark)
    (hsum : sum' + s.owned t = s.sum + o)
    (hdec : decided' + q.won + s.trueReturns.length = s.decided + p.won + s'.trueReturns.length)
    (hwon : decided' = s.decided ∨ decided' = s.decided + 1 ∧ sum' = 0)
    (hlocal : p.Local s'.isa s'.refcnt (markOf s'.isa s'.refcnt pmark') o) : s.Moves s' := by
  subst hq
  have hmap : ∀ f : PC L → Nat, (∑ u, f (s'.pc u)) + f (s.pc t) = (∑ u, f (s.pc u)) + f p := by
    intro f
    rw [← Lib.sum_update (fun u => f (s.pc u)) t (f p), hpc]
    refine congrArg (· + f (s.pc t)) (Finset.sum_congr rfl fun u _ => ?_)
    exact apply_update (fun _ => f) s.pc t p u
  have e1 : s'.pend = pend' := by
    have := hmap PC.pend
    unfold pend at hpend ⊢
    omega
  have e2 : s'.pmark = pmark' := by
    have := hmap mark
    unfold pmark at hpmark ⊢
    omega
  have e3 : s'.sum = sum' := by
    have := Lib.sum_update s.owned t o
    rw [← howned] at this
    unfold sum at hsum ⊢
    omega
  have e4 : s'.decided = decided' := by
    have := hmap won
    unfold decided at hdec ⊢
    omega
  subst e1 e2 e3 e4
  refine ⟨⟨?_, hbooks, ?_⟩, hwon⟩
  · intro u
    by_cases hu : u = t
    · subst hu
      rw [hpc, update_self]
      exact hself
    · rw [hpc, update_of_ne hu, hlock u hu]
      exact h.lock u
  intro u
  by_cases hu : u = t
  · subst hu
    rw [hpc, howned, update_self, update_self]
    exact hlocal
  have hown : s'.owned u = s.owned u := by rw [howned, update_of_ne hu]
  rw [hown, hpc, update_of_ne hu]
  refine (h.here u).stable hraw (fun hh => hother u hu ((h.lock u).mpr hh)) ?_
  intro hpos hno
  -- a mark appears only in a step that leaves no owned reference
  have hle := s'.owned_le_sum u
  rcases hwon with hwon | ⟨-, hz⟩
  · rw [hwon] at hbooks
    exact (h.books.mark_eq hbooks).trans hno
  · omega

theorem Inv.goto (hq : s.pc t = q) (hholds : p.holds = q.holds)
    (hpend : p.pend = q.pend) (hmark : p.mark = q.mark) (hwon : p.won = q.won)
    (hlocal : p.Local s.isa s.refcnt s.marked (s.owned t)) : s.Moves (s.goto t p) := by
  refine h.advance hq rfl (update_eq_self t s.owned).symm (fun _ _ => Iff.rfl) ?_ id
    (fun _ _ _ => ⟨rfl, id⟩) h.books (by rw [hpend]) (by rw [hmark]) rfl ?_ (.inl rfl) hlocal
  · rw [hholds, ← hq]
    exact h.lock t
  · rw [hwon]
    rfl

theorem Inv.acquire (hq : s.pc t = q) (hstep : s.acquire t p = some s')
    (hqh : q.holds = false) (hph : p.holds = true) (hpend : p.pend = 0) (hmark : p.mark = 0)
    (hwon : p.won = q.won) (hlocal : p.Local s.isa s.refcnt s.marked (s.owned t)) :
    s.Moves s' := by
  obtain ⟨hfree, ⟨⟩⟩ := ite_none_right_eq_some.mp hstep
  refine h.advance hq rfl (update_eq_self t s.owned).symm ?_ ?_ id
    (fun _ _ _ => ⟨rfl, id⟩) h.books ?_ ?_ rfl ?_ (.inl rfl) hlocal
  · intro u hu
    simp [hfree, Ne.symm hu]
  · simp [hph]
  · rw [hpend, pend_of_not_holds hqh]
  · rw [hmark, mark_of_not_holds hqh]
  · rw [hwon]
    rfl

theorem Inv.unlock (hq : s.pc t = q) (hqh : q.holds = true) (hph : p.holds = false)
    (hpend : q.pend = 0) (hmark : q.mark = 0) {l : List Tid}
    (hwon : q.won + s.trueReturns.length = p.won + l.length)
    (hlocal : p.Local s.isa s.refcnt s.marked (s.owned t)) :
    s.Moves { s.unlock t p with trueReturns := l } := by
  have hown : s.lock = some t := (h.lock t).mpr (by rw [hq]; exact hqh)
  refine h.advance hq rfl (update_eq_self t s.owned).symm ?_ ?_ id
    (fun _ _ _ => ⟨rfl, id⟩) h.books ?_ ?_ rfl ?_ (.inl rfl) hlocal
  · intro u hu
    simp [Machine.unlock, hown, Ne.symm hu]
  · simp [Machine.unlock, hph]
  · rw [hpend, PC.pend_of_not_holds hph]
  · rw [hmark, PC.mark_of_not_holds hph]
  · show s.decided + q.won + s.trueReturns.length = s.decided + p.won + l.length
    omega

omit h

variable {isa : Isa L}

theorem Inv.swap (h : s.Inv) (hq : s.pc t = q) {l : List Tid} {o : Nat}
    (hholds : p.holds = q.holds) (hraw : s.isa.IsRaw → isa.IsRaw)
    (hann : q.holds = false → s.isa.Announced → isa.Announced)
    (hbooks : Accounts isa s.refcnt pend' pmark' sum' decided')
    (hpend : pend' + q.pend = s.pend + p.pend) (hpmark : pmark' + q.mark = s.pmark + p.mark)
    (hsum : sum' + s.owned t = s.sum + o)
    (hdec : decided' + q.won + s.trueReturns.length = s.decided + p.won + l.length)
    (hwon : decided' = s.decided ∨ decided' = s.decided + 1 ∧ sum' = 0)
    (hlocal : p.Local isa s.refcnt (markOf isa s.refcnt pmark') o) :
    s.Moves { s with
      isa := isa, pc := update s.pc t p,
      owned := update s.owned t o, trueReturns := l } := by
  refine h.advance hq rfl rfl (fun _ _ => Iff.rfl) ?_ hraw ?_ hbooks hpend hpmark hsum hdec hwon
    hlocal
  · rw [hholds, ← hq]
    exact h.lock t
  intro u hu hlocked
  refine ⟨rfl, hann ?_⟩
  by_contra hholds'
  have hmine := (h.lock t).mpr (by rw [hq]; simpa using hholds')
  rw [hlocked] at hmine
  exact hu (some.inj hmine)

variable {r : SideWord}

include h

theorem Inv.write (hq : s.pc t = q) {o : Nat} (hqh : q.holds = true)
    (hph : p.holds = true) (hbooks : Accounts s.isa r pend' pmark' sum' decided')
    (hpend : pend' = p.pend) (hpmark : pmark' = p.mark) (hsum : sum' + s.owned t = s.sum + o)
    (hdec : decided' + q.won = s.decided + p.won)
    (hwon : decided' = s.decided ∨ decided' = s.decided + 1 ∧ sum' = 0)
    (hlocal : p.Local s.isa r (markOf s.isa r pmark') o) :
    s.Moves { s with
      refcnt := r, pc := update s.pc t p, owned := update s.owned t o } := by
  have hmine : s.lock = some t := (h.lock t).mpr (by rw [hq]; exact hqh)
  obtain ⟨e1, e2⟩ := h.pend_eq hq hqh
  refine h.advance hq rfl rfl (fun _ _ => Iff.rfl) ?_ id ?_ hbooks ?_ ?_ hsum ?_ hwon hlocal
  · simp [hmine, hph]
  · intro u hu hlocked
    rw [hmine] at hlocked
    exact absurd (some.inj hlocked).symm hu
  · rw [hpend, e1, add_comm]
  · rw [hpmark, e2, add_comm]
  · show decided' + q.won + s.trueReturns.length = s.decided + p.won + s.trueReturns.length
    omega

/-! ## One lemma for each access of the source -/

theorem Inv.start (hq : s.pc t = .idle) {call : RcCall}
    (hstep : s.start t call = some s') : s.Moves s' := by
  cases call with
  | retain =>
    cases hstep
    exact h.goto hq rfl rfl rfl rfl id
  | release =>
    obtain ⟨hown, ⟨⟩⟩ := ite_none_right_eq_some.mp hstep
    exact h.goto hq rfl rfl rfl rfl ⟨hown, id⟩
  | tryRetain | changeIsa newCls f =>
    cases hstep
    exact h.goto hq rfl rfl rfl rfl trivial

omit h

variable {try_ locked : Bool}

theorem Inv.retainLoaded (h : s.Inv) {ho : Bool} (hq : s.pc t = .retainLoad try_ ho locked) :
    s.Moves (s.retainLoaded t try_ ho locked) := by
  have hloc : locked = true → ho = true := h.knows hq
  unfold Machine.retainLoaded
  cases hisa : s.isa with
  | raw c =>
    have hraw : s.isa.IsRaw := ⟨c, hisa⟩
    simp only
    split
    next ht => subst ht; exact h.goto hq rfl rfl rfl rfl hraw
    rename_i ht
    simp only [not_eq_true] at ht
    subst ht
    split
    next hl => subst hl; exact h.goto hq rfl rfl rfl rfl hraw
    next hl =>
      simp only [not_eq_true] at hl
      subst hl
      exact h.goto hq rfl rfl rfl rfl hraw
  | nonpointer old => ?_
  simp only
  split
  next ht =>
    -- a tryRetain of a deallocating object fails
    simp only [and_eq_true] at ht
    obtain ⟨rfl, -⟩ := ht
    exact h.goto hq rfl rfl rfl rfl (fun hno => absurd hno (by decide))
  rename_i ht
  have hdead : try_ = true → old.deallocating = false := by
    intro h1
    subst h1
    simpa using ht
  split
  next hcarry =>
    cases ho with
    | false =>
      have hl : locked = false := by
        cases locked
        · rfl
        · exact absurd (hloc rfl) (by decide)
      subst hl
      exact h.goto hq rfl rfl rfl rfl (fun _ => rfl)
    | true =>
      cases try_ <;> cases locked
      · exact h.goto hq rfl rfl rfl rfl trivial
      all_goals exact h.goto hq rfl rfl rfl rfl ⟨fun _ => rfl, fun _ => rfl, hdead⟩
  next hcarry =>
    exact h.goto hq rfl rfl rfl rfl ⟨hloc, fun hno => absurd hno hcarry, hdead⟩

variable {b : IsaBits L}

theorem announced_of_eq {c : IsaBits L} (hisa : isa = .nonpointer b)
    (hs : b.has_sidetable_rc = true → c.has_sidetable_rc = true) :
    isa.Announced → (Isa.nonpointer c).Announced := by
  rintro ⟨b0, heq, h0⟩
  obtain rfl := nonpointer.inj (hisa.symm.trans heq)
  exact ⟨c, rfl, hs h0⟩

theorem not_raw_of_eq (hisa : isa = .nonpointer b) {P : Prop} : isa.IsRaw → P := by
  rintro ⟨c, heq⟩
  rw [hisa] at heq
  cases heq

variable {old : IsaBits L}

include h

theorem Inv.retainStored {ho : Bool} (hq : s.pc t = .retainStore try_ ho locked old) :
    s.Moves (s.retainStored t try_ ho locked old) := by
  obtain ⟨hlu, hov, htry⟩ : (locked = true → ho = true)
    ∧ ((old.addRC 1).2 = true → (try_ || locked) = true)
    ∧ (try_ = true → old.deallocating = false) := h.knows hq
  have hsum : s.sum + 1 + s.owned t = s.sum + (s.owned t + 1) := by omega
  unfold Machine.retainStored
  split
  next hisa =>
    have hbooks := h.books
    rw [hisa] at hbooks
    split
    next hcarry =>
      -- overflow: the lock is held and nothing was in hand
      have hlocked : (retainStore try_ ho locked old).holds = true := hov hcarry
      obtain ⟨e1, -⟩ := h.pend_eq hq hlocked
      rw [e1] at hbooks
      have hnew := hbooks.retain_overflow hcarry
      refine h.swap hq hlocked.symm (not_raw_of_eq hisa)
        (fun hno => absurd (hlocked.symm.trans hno) (by decide)) hnew ?_ rfl hsum rfl
        (.inl rfl) ⟨⟨_, rfl, rfl⟩, fun ht => ⟨Nat.succ_pos _, htry ht⟩⟩
      rw [e1]
      exact add_comm _ _
    rename_i hcarry
    have hnew := hbooks.retain_inline (by simpa using hcarry)
    have hkeep := announced_of_eq (c := (old.addRC 1).1) hisa id
    cases try_ with
    | true =>
      exact h.swap hq rfl (not_raw_of_eq hisa) (fun _ => hkeep) hnew rfl rfl hsum rfl
        (.inl rfl) (fun _ => ⟨Nat.succ_pos _, htry rfl⟩)
    | false => ?_
    cases locked with
    | true | false =>
      exact h.swap hq rfl (not_raw_of_eq hisa) (fun _ => hkeep) hnew rfl rfl hsum rfl
        (.inl rfl) trivial
  next => exact h.goto hq rfl rfl rfl rfl hlu

theorem Inv.retainAddWritten (hlim : s.sum < pinLimit L)
    (hq : s.pc t = .retainAddWrite try_ r) :
    s.Moves ({ s with refcnt := (sidetable_addExtraRC_nolock L r (RC_HALF L)).1 }.goto t
      (if try_ then .tryUnlock true else .retainUnlock)) := by
  obtain ⟨hann, htry, rfl⟩ : s.isa.Announced ∧ (try_ = true → 0 < s.owned t ∧ s.marked = false)
    ∧ r = s.refcnt := h.knows hq
  obtain ⟨e1, e2⟩ := h.pend_eq hq rfl
  have hbooks := h.books
  have hnew : Accounts s.isa (sidetable_addExtraRC_nolock L s.refcnt (RC_HALF L)).1 0 s.pmark s.sum
      s.decided := by
    rw [e1] at hbooks
    exact hbooks.add_side hann hlim
  have hwrite := fun p hp h1 h2 h3 hl => h.write (o := s.owned t) (p := p) hq rfl hp hnew h1
    (e2.trans h2) rfl h3 (.inl rfl) hl
  rw [update_eq_self] at hwrite
  cases try_ with
  | true =>
    refine hwrite (.tryUnlock true) rfl rfl rfl rfl (fun _ => ⟨(htry rfl).1, ?_⟩)
    exact (hbooks.mark_eq hnew).trans (htry rfl).2
  | false => exact hwrite .retainUnlock rfl rfl rfl rfl trivial

theorem Inv.rawRetainWritten (hlim : s.sum < pinLimit L)
    (hq : s.pc t = .rawRetainWrite r) :
    s.Moves (({ s with refcnt := sidetable_retain L r }.gain t).goto t .retainUnlock) := by
  obtain ⟨hraw, rfl⟩ : s.isa.IsRaw ∧ r = s.refcnt := h.knows hq
  obtain ⟨e1, e2⟩ := h.pend_eq hq rfl
  have hbooks := h.books
  rw [e1, e2] at hbooks
  have hsum : s.sum + 1 + s.owned t = s.sum + (s.owned t + 1) := by omega
  exact h.write hq rfl rfl (hbooks.raw_retain hraw hlim) rfl rfl hsum rfl (.inl rfl) trivial

theorem Inv.rawTryLooked (hlim : s.sum < pinLimit L) (hq : s.pc t = .rawTryRead) :
    s.Moves (if (sidetable_tryRetain L s.refcnt).2 then s.goto t (.rawTryWrite s.refcnt)
      else s.goto t (.tryUnlock false)) := by
  have hraw : s.isa.IsRaw := h.knows hq
  have hle := h.books.total_le
  rw [sidetable_tryRetain_spec (L := L) (r := s.refcnt) (by omega)]
  cases hd : deallocatingOf s.refcnt with
  | true => exact h.goto hq rfl rfl rfl rfl (fun hno => absurd hno (by decide))
  | false => exact h.goto hq rfl rfl rfl rfl ⟨hraw, hd, rfl⟩

theorem Inv.rawTryWritten (hlim : s.sum < pinLimit L) (hq : s.pc t = .rawTryWrite r) :
    s.Moves (({ s with refcnt := (sidetable_tryRetain L r).1 }.gain t).goto t (.tryUnlock true)) := by
  obtain ⟨hraw, hd, rfl⟩ : s.isa.IsRaw ∧ deallocatingOf s.refcnt = false ∧ r = s.refcnt :=
    h.knows hq
  have hle := h.books.total_le
  obtain ⟨e1, e2⟩ := h.pend_eq hq rfl
  have hbooks := h.books
  rw [e1, e2] at hbooks
  have hnew := hbooks.raw_retain hraw hlim
  have hnot : markOf s.isa (sidetable_retain L s.refcnt) 0 = false := by
    rw [hbooks.mark_eq hnew]
    obtain ⟨c, hc⟩ := hraw
    simp [markOf, hc, hd, mark]
  have hsum : s.sum + 1 + s.owned t = s.sum + (s.owned t + 1) := by omega
  rw [sidetable_tryRetain_spec (L := L) (r := s.refcnt) (by omega), hd]
  exact h.write hq rfl rfl hnew rfl rfl hsum rfl (.inl rfl) (fun _ => ⟨succ_pos _, hnot⟩)

variable {hu : Bool}

theorem Inv.releaseLoaded (hq : s.pc t = .releaseLoad hu locked) :
    s.Moves (s.releaseLoaded t hu locked) := by
  obtain ⟨hown, hlu⟩ : 0 < s.owned t ∧ (locked = true → hu = true) := h.knows hq
  unfold Machine.releaseLoaded
  cases hisa : s.isa with
  | raw c =>
    have hraw : s.isa.IsRaw := ⟨c, hisa⟩
    cases locked with
    | true | false => exact h.goto hq rfl rfl rfl rfl ⟨hown, hraw⟩
  | nonpointer old => ?_
  cases hsub : old.subRC.2 with
  | false =>
    simp only [hsub, Bool.false_eq_true, if_false]
    exact h.goto hq rfl rfl rfl rfl ⟨hown, hlu, hsub⟩
  | true => ?_
  simp only [hsub, if_true]
  have hex : (old.extra_rc : Nat) = 0 := by simpa [IsaBits.subRC] using hsub
  have hle := s.owned_le_sum t
  have hacc := h.books.account
  rw [hisa] at hacc
  simp only [Isa.extraRc_nonpointer, hex, markOf] at hacc
  unfold Machine.releaseUnderflow
  cases hs : old.has_sidetable_rc with
  | true =>
    cases hu with
    | false =>
      have hl : locked = false := by
        cases locked
        · rfl
        · exact absurd (hlu rfl) (by decide)
      subst hl
      exact h.goto hq rfl rfl rfl rfl ⟨hown, fun _ => rfl⟩
    | true => ?_
    cases locked with
    | false => exact h.goto hq rfl rfl rfl rfl hown
    | true => ?_
    obtain ⟨e1, -⟩ := h.pend_eq hq rfl
    refine h.goto hq rfl rfl rfl rfl ⟨hown, ⟨old, hisa, hs⟩, hex, fun hd => ?_⟩
    rw [e1, hd] at hacc
    simp only [PC.pend, Bool.toNat_true] at hacc
    omega
  | false => ?_
  -- no side-table counts: what is owned is the first reference
  obtain ⟨hrc, hpend⟩ := Accounts.unannounced (hisa ▸ h.books) hs
  cases hd : old.deallocating with
  | true =>
    rw [hd, Bool.toNat_true] at hacc
    omega
  | false =>
    exact h.goto hq rfl rfl rfl rfl
      ⟨hown, hlu, hex, hd, fun hno => absurd (hs.symm.trans hno) (by decide)⟩

theorem Inv.releaseStored (hq : s.pc t = .releaseStore hu locked old) :
    s.Moves (s.releaseStored t hu locked old) := by
  obtain ⟨hown, hlu, hsub⟩ : 0 < s.owned t ∧ (locked = true → hu = true) ∧ old.subRC.2 = false :=
    h.knows hq
  unfold Machine.releaseStored
  split
  next hisa =>
    obtain ⟨n, hn, hsum⟩ := sum_lose hown
    have hbooks := h.books
    rw [hisa, hn] at hbooks
    have hnew := hbooks.release_inline hsub
    have hkeep := announced_of_eq (c := old.subRC.1) hisa id
    cases locked with
    | true | false =>
      exact h.swap hq rfl (not_raw_of_eq hisa) (fun _ => hkeep) hnew rfl rfl hsum rfl
        (.inl rfl) trivial
  next => exact h.goto hq rfl rfl rfl rfl ⟨hown, hlu⟩

theorem Inv.borrowLooked (hq : s.pc t = .borrowRead old) :
    s.Moves (s.borrowLooked t old) := by
  obtain ⟨hown, hann, hex, hd⟩ : 0 < s.owned t ∧ s.isa.Announced ∧ (old.extra_rc : Nat) = 0
    ∧ (old.deallocating = true → 0 < rcOf s.refcnt) := h.knows hq
  have hword := word_parts s.refcnt
  unfold Machine.borrowLooked
  split
  next hz =>
    have hrc : rcOf s.refcnt = 0 := by omega
    have hno : old.deallocating = false := by
      cases hdead : old.deallocating
      · rfl
      · have := hd hdead
        omega
    simp only [hno, false_eq_true, if_false]
    exact h.goto hq rfl rfl rfl rfl ⟨hown, fun _ => rfl, hex, hno, fun _ => ⟨rfl, hrc⟩⟩
  rename_i hnz
  -- with a bit-field isa the word holds counts only
  have hpos : 0 < rcOf s.refcnt := by
    obtain ⟨b, hisa, -⟩ := hann
    obtain ⟨hdr, hwr, -, -⟩ : (Obj.mk (Isa.nonpointer b) s.refcnt).WF := hisa ▸ h.books.wf
    rw [show deallocatingOf s.refcnt = false from hdr,
      show weakOf s.refcnt = false from hwr] at hword
    simp only [toNat_false] at hword
    omega
  exact h.goto hq rfl rfl rfl rfl ⟨hown, hann, hex, hpos, rfl⟩

theorem Inv.borrowWritten (hlim : s.sum < pinLimit L)
    (hq : s.pc t = .borrowWrite old r) :
    s.Moves ({ s with refcnt := (sidetable_subExtraRC_nolock L r (RC_HALF L)).1 }.goto t
      (.borrowStore old (sidetable_subExtraRC_nolock L r (RC_HALF L)).2)) := by
  obtain ⟨hown, hann, hex, hpos, rfl⟩ : 0 < s.owned t ∧ s.isa.Announced
    ∧ (old.extra_rc : Nat) = 0 ∧ 0 < rcOf s.refcnt ∧ r = s.refcnt := h.knows hq
  obtain ⟨e1, e2⟩ := h.pend_eq hq rfl
  have hbooks := h.books
  rw [e1] at hbooks
  obtain ⟨hb, hnew⟩ := hbooks.borrow hann hpos hlim
  have hwrite := h.write (o := s.owned t) (p := .borrowStore old (RC_HALF L)) hq rfl rfl hnew rfl
    e2 rfl rfl (.inl rfl) ⟨hown, hann, hex, rfl⟩
  rw [update_eq_self] at hwrite
  rw [hb]
  exact hwrite

omit h

variable {n : Nat}

section

variable (h : s.Inv)

include h

theorem Inv.borrowStored (hq : s.pc t = .borrowStore old n) : s.Moves (s.borrowStored t old n) := by
  obtain ⟨hown, hann, hex, rfl⟩ : 0 < s.owned t ∧ s.isa.Announced ∧ (old.extra_rc : Nat) = 0
    ∧ n = RC_HALF L := h.knows hq
  obtain ⟨e1, -⟩ := h.pend_eq hq rfl
  unfold borrowStored
  split
  next hisa =>
    obtain ⟨n, hn, hsum⟩ := sum_lose hown
    have hbooks := h.books
    rw [hisa, hn, e1] at hbooks
    refine h.swap hq rfl (not_raw_of_eq hisa) nofun
      (hbooks.release_borrowed hex) ?_ rfl hsum rfl (.inl rfl) trivial
    rw [e1]
    exact zero_add _
  next => exact h.goto hq rfl rfl rfl rfl ⟨hown, hann, rfl⟩

theorem Inv.borrowLoaded2 (hq : s.pc t = .borrowLoad2 n) : s.Moves (s.borrowLoaded2 t n) := by
  obtain ⟨hown, hann, hn⟩ : 0 < s.owned t ∧ s.isa.Announced ∧ n = RC_HALF L := h.knows hq
  unfold Machine.borrowLoaded2
  cases hisa : s.isa with
  | raw c => exact h.goto hq rfl rfl rfl rfl ⟨hown, hann, hn⟩
  | nonpointer old2 => ?_
  simp only
  split
  next => exact h.goto hq rfl rfl rfl rfl ⟨hown, hann, hn⟩
  next hc => exact h.goto hq rfl rfl rfl rfl ⟨hown, hann, by simpa using hc, hn⟩

theorem Inv.borrowStored2 {old2 : IsaBits L} (hq : s.pc t = .borrowStore2 old2 n) :
    s.Moves (s.borrowStored2 t old2 n) := by
  obtain ⟨hown, hann, hc, rfl⟩ : 0 < s.owned t ∧ s.isa.Announced
    ∧ (old2.addRC (n - 1)).2 = false ∧ n = RC_HALF L := h.knows hq
  obtain ⟨e1, -⟩ := h.pend_eq hq rfl
  unfold borrowStored2
  split
  next hisa =>
    obtain ⟨n, hn, hsum⟩ := sum_lose hown
    have hbooks := h.books
    rw [hisa, hn, e1] at hbooks
    refine h.swap hq rfl (not_raw_of_eq hisa) nofun
      (hbooks.release_borrowed_again hc) ?_ rfl hsum rfl (.inl rfl) trivial
    rw [e1]
    exact zero_add _
  next => exact h.goto hq rfl rfl rfl rfl ⟨hown, hann, rfl⟩

theorem Inv.putBackWritten (hlim : s.sum < pinLimit L) (hq : s.pc t = .putBackWrite n r) :
    s.Moves ({ s with refcnt := (sidetable_addExtraRC_nolock L r n).1 }.goto t
      (.releaseLoad true true)) := by
  obtain ⟨hown, hann, rfl, rfl⟩ : 0 < s.owned t ∧ s.isa.Announced ∧ n = RC_HALF L
    ∧ r = s.refcnt := h.knows hq
  obtain ⟨e1, e2⟩ := h.pend_eq hq rfl
  have hbooks := h.books
  rw [e1] at hbooks
  have hwrite := h.write (o := s.owned t) (p := .releaseLoad true true) hq rfl rfl
    (hbooks.add_side hann hlim) rfl e2 rfl rfl (.inl rfl) ⟨hown, id⟩
  rw [update_eq_self] at hwrite
  exact hwrite

theorem Inv.deallocStored (hq : s.pc t = .deallocStore hu locked old) :
    s.Moves (s.deallocStored t hu locked old) := by
  obtain ⟨hown, hlu, hex, hd, hs⟩ : 0 < s.owned t ∧ (locked = true → hu = true)
    ∧ (old.extra_rc : Nat) = 0 ∧ old.deallocating = false
    ∧ (old.has_sidetable_rc = true → locked = true ∧ rcOf s.refcnt = 0) := h.knows hq
  unfold Machine.deallocStored
  split
  next hisa =>
    have hbooks := h.books
    rw [hisa] at hbooks
    have hempty : rcOf s.refcnt = 0 ∧ s.pend = 0 := by
      cases hside : old.has_sidetable_rc with
      | false => exact hbooks.unannounced hside
      | true =>
        -- the lock is ours, so no other thread has counts in hand
        obtain ⟨rfl, hrc⟩ := hs hside
        exact ⟨hrc, (h.pend_eq hq rfl).1⟩
    obtain ⟨hrc, hpend⟩ := hempty
    rw [hpend] at hbooks
    obtain ⟨hone, hnew⟩ := hbooks.mark hex hd hrc
    have hsum : 0 + s.owned t = s.sum + (s.owned t - 1) := by omega
    have hkeep := announced_of_eq (c := { old with deallocating := true }) hisa id
    cases locked with
    | true =>
      exact h.swap (l := s.trueReturns) hq rfl (not_raw_of_eq hisa) (fun _ => hkeep) hnew
        (by rw [hpend]; rfl) rfl hsum rfl (.inr ⟨rfl, rfl⟩) trivial
    | false =>
      exact h.swap (l := t :: s.trueReturns) hq rfl (not_raw_of_eq hisa) (fun _ => hkeep) hnew
        (by rw [hpend]; rfl) rfl hsum (by simp only [won, List.length_cons]; omega)
        (.inr ⟨rfl, rfl⟩) trivial
  next => exact h.goto hq rfl rfl rfl rfl ⟨hown, hlu⟩

theorem Inv.releaseUnlocked {result : Bool} (hq : s.pc t = .releaseUnlock result) :
    s.Moves ({ s with lock := none }.returnRelease t result) := by
  cases result with
  | true =>
    exact h.unlock (p := .idle) (l := t :: s.trueReturns) hq rfl rfl rfl rfl
      (by simp [won]; omega) trivial
  | false => exact h.unlock (p := .idle) (l := s.trueReturns) hq rfl rfl rfl rfl rfl trivial

theorem Inv.rawReleaseWritten (hlim : s.sum < pinLimit L) (hq : s.pc t = .rawReleaseWrite r) :
    s.Moves (({ s with refcnt := (sidetable_release L r).1 }.lose t).goto t
      (.releaseUnlock (sidetable_release L r).2)) := by
  obtain ⟨hown, hraw, rfl⟩ : 0 < s.owned t ∧ s.isa.IsRaw ∧ r = s.refcnt := h.knows hq
  obtain ⟨e1, e2⟩ := h.pend_eq hq rfl
  obtain ⟨n, hn, hsum⟩ := sum_lose hown
  have hbooks := h.books
  rw [e1, e2, hn] at hbooks
  rw [hn] at hlim
  obtain ⟨hlast, hnew⟩ := hbooks.raw_release hraw hlim
  have hwon : ∀ d : Bool, (releaseUnlock d : PC L).won = d.toNat := by
    intro d
    cases d <;> rfl
  refine h.write hq rfl rfl hnew rfl rfl hsum ?_ ?_ trivial
  · rw [hwon]
    rfl
  cases hres : (sidetable_release L s.refcnt).2 with
  | true => exact .inr ⟨rfl, hlast hres⟩
  | false => exact .inl rfl

theorem Inv.isaLoaded {newCls : Class} {f : ClassFlags}
    (hq : s.pc t = .isaLoad newCls f locked) : s.Moves (s.isaLoaded t newCls f locked) := by
  unfold Machine.isaLoaded
  cases hisa : s.isa with
  | raw c =>
    refine h.goto hq rfl rfl rfl rfl (fun hno => ?_)
    cases c with
    | some c => exact absurd hno (by simp [changeIsaTo])
    | none => exact absurd hisa fun hz => (hz ▸ h.books.wf : (Obj.mk (.raw none) _).WF) rfl
  | nonpointer old => ?_
  simp only
  split
  next hmove =>
    simp only [and_eq_true, not_eq_true'] at hmove
    obtain ⟨-, rfl⟩ := hmove
    exact h.goto hq rfl rfl rfl rfl trivial
  next hmove =>
    refine h.goto hq rfl rfl rfl rfl (fun htrans => ?_)
    simpa [htrans] using hmove

theorem Inv.isaStored {newCls : Class} {f : ClassFlags} {old : Isa L}
    (hq : s.pc t = .isaStore newCls f locked old) :
    s.Moves (s.isaStored t newCls f locked old) := by
  have htrans : (changeIsaTo old newCls f).2 = true → locked = true := h.knows hq
  have hdone : ∀ i : Isa L, (s.isa.IsRaw → i.IsRaw) → (s.isa.Announced → i.Announced) →
      Accounts i s.refcnt s.pend s.pmark s.sum s.decided →
      s.Moves ({ s with isa := i }.goto t (if locked then .isaUnlock else .idle)) := by
    intro i hr ha hnew
    have hswap := fun p hh h1 h2 h3 hl => h.swap (p := p) (o := s.owned t)
      (l := s.trueReturns) hq hh hr (fun _ => ha) hnew h1 h2 rfl h3 (.inl rfl) hl
    rw [update_eq_self] at hswap
    cases locked with
    | true => exact hswap .isaUnlock rfl rfl rfl rfl trivial
    | false => exact hswap .idle rfl rfl rfl rfl trivial
  unfold Machine.isaStored
  split
  next hisa =>
    have hbooks := h.books
    rw [hisa] at hbooks
    cases old with
    | raw c =>
      cases c with
      | none => exact absurd rfl hbooks.wf
      | some c =>
        refine hdone _ (fun _ => ⟨_, rfl⟩) (fun ⟨b, hb, _⟩ => ?_) (hbooks.change_raw newCls)
        rw [hisa] at hb
        cases hb
    | nonpointer b => ?_
    cases hf : !f.isFuture && f.canAllocNonpointer with
    | true =>
      have hto : changeIsaTo (.nonpointer b) newCls f
          = (.nonpointer { b with has_cxx_dtor := f.hasCxxDtor, cls := newCls }, false) := by
        simp [changeIsaTo, hf]
      simp only [hto, false_eq_true, if_false]
      exact hdone _ (not_raw_of_eq hisa) (announced_of_eq hisa id) hbooks.change_nonpointer
    | false => ?_
    have hto : changeIsaTo (.nonpointer b) newCls f = (.raw (some newCls), true) := by
      simp [changeIsaTo, hf]
    simp only [hto, if_true]
    -- the transition to a raw isa is made by the lock holder only
    obtain rfl := htrans (by rw [hto])
    obtain ⟨e1, e2⟩ := h.pend_eq hq rfl
    rw [e1] at hbooks
    have hswap := h.swap (p := .moveRead b) (o := s.owned t) (l := s.trueReturns) hq
      rfl (fun _ => ⟨_, rfl⟩) nofun
      (hbooks.change_to_raw newCls) (by rw [e1]; exact add_comm _ _)
      (by rw [e2]; exact add_comm _ _) rfl rfl (.inl rfl)
      ⟨⟨_, rfl⟩, hbooks.wf.1, hbooks.wf.2.1⟩
    rw [update_eq_self] at hswap
    exact hswap
  next => exact h.goto hq rfl rfl rfl rfl trivial

theorem Inv.moveWritten (hlim : s.sum < pinLimit L) (hq : s.pc t = .moveWrite b r) {r' : SideWord}
    (hr' : r' = sidetable_moveExtraRC_nolock L r b.extra_rc b.deallocating b.weakly_referenced) :
    s.Moves ({ s with refcnt := r' }.goto t .isaUnlock) := by
  obtain ⟨hraw, hdr, hwr, rfl⟩ : s.isa.IsRaw ∧ deallocatingOf s.refcnt = false
    ∧ weakOf s.refcnt = false ∧ r = s.refcnt := h.knows hq
  obtain ⟨e1, e2⟩ := h.pend_eq hq rfl
  have hbooks := h.books
  rw [e1, e2] at hbooks
  have hwrite := h.write (o := s.owned t) (p := .isaUnlock) hq rfl rfl
    (hbooks.move hraw hdr hwr hlim) rfl rfl rfl rfl (.inl rfl) trivial
  rw [update_eq_self, ← hr'] at hwrite
  exact hwrite

/-! ## Steps and runs -/

theorem Inv.step (hlim : s.sum < pinLimit L) {call : RcCall}
    (hstep : s.step t call = some s') : s.Moves s' := by
  unfold Machine.step at hstep
  cases hq : s.pc t <;> simp only [hq, some.injEq, reduceCtorEq] at hstep <;>
    try subst hstep
  case idle => exact h.start hq hstep
  case retainLoad try_ ho locked => exact h.retainLoaded hq
  case retainLock old =>
    exact h.acquire (p := .retainStore false true true old) hq hstep rfl rfl rfl rfl rfl
      ⟨id, fun _ => rfl, fun hno => absurd hno (by decide)⟩
  case retainStore try_ ho locked old => exact h.retainStored hq
  case retainAddRead try_ =>
    obtain ⟨hann, htry⟩ : s.isa.Announced ∧ (try_ = true → 0 < s.owned t ∧ s.marked = false) :=
      h.knows hq
    exact h.goto hq rfl rfl rfl rfl ⟨hann, htry, rfl⟩
  case retainAddWrite try_ r => exact h.retainAddWritten hlim hq
  case retainUnlock =>
    exact h.unlock (p := .idle) (l := s.trueReturns) hq rfl rfl rfl rfl rfl trivial
  case rawRetainUnlock =>
    have hraw : s.isa.IsRaw := h.knows hq
    exact h.unlock (p := .rawRetainLock) (l := s.trueReturns) hq rfl rfl rfl rfl rfl hraw
  case rawRetainLock =>
    have hraw : s.isa.IsRaw := h.knows hq
    exact h.acquire (p := .rawRetainRead) hq hstep rfl rfl rfl rfl rfl hraw
  case rawRetainRead => exact h.goto hq rfl rfl rfl rfl ⟨h.knows hq, rfl⟩
  case rawRetainWrite r => exact h.rawRetainWritten hlim hq
  case rawTryRead => exact h.rawTryLooked hlim hq
  case rawTryWrite r => exact h.rawTryWritten hlim hq
  case tryLock =>
    exact h.acquire (p := .retainLoad true false false) hq hstep rfl rfl rfl rfl rfl id
  case tryUnlock result =>
    exact h.unlock (p := .idle) (l := s.trueReturns) hq rfl rfl rfl rfl rfl trivial
  case releaseLoad hu locked => exact h.releaseLoaded hq
  case releaseStore hu locked old => exact h.releaseStored hq
  case releaseLock =>
    exact h.acquire (p := .releaseLoad true true) hq hstep rfl rfl rfl rfl rfl ⟨h.knows hq, id⟩
  case borrowRead old => exact h.borrowLooked hq
  case borrowWrite old r => exact h.borrowWritten hlim hq
  case borrowStore old n => exact h.borrowStored hq
  case borrowLoad2 n => exact h.borrowLoaded2 hq
  case borrowStore2 old2 n => exact h.borrowStored2 hq
  case putBackRead n =>
    obtain ⟨hown, hann, hn⟩ : 0 < s.owned t ∧ s.isa.Announced ∧ n = RC_HALF L := h.knows hq
    exact h.goto hq rfl rfl rfl rfl ⟨hown, hann, hn, rfl⟩
  case putBackWrite n r => exact h.putBackWritten hlim hq
  case deallocStore hu locked old => exact h.deallocStored hq
  case releaseUnlock result => exact h.releaseUnlocked hq
  case rawReleaseUnlock =>
    have hloc : 0 < s.owned t ∧ s.isa.IsRaw := h.knows hq
    exact h.unlock (p := .rawReleaseLock) (l := s.trueReturns) hq rfl rfl rfl rfl rfl hloc
  case rawReleaseLock =>
    have hloc : 0 < s.owned t ∧ s.isa.IsRaw := h.knows hq
    exact h.acquire (p := .rawReleaseRead) hq hstep rfl rfl rfl rfl rfl hloc
  case rawReleaseRead =>
    obtain ⟨hown, hraw⟩ : 0 < s.owned t ∧ s.isa.IsRaw := h.knows hq
    exact h.goto hq rfl rfl rfl rfl ⟨hown, hraw, rfl⟩
  case rawReleaseWrite r => exact h.rawReleaseWritten hlim hq
  case isaLoad newCls f locked => exact h.isaLoaded hq
  case isaLock newCls f old =>
    exact h.acquire (p := .isaStore newCls f true (.nonpointer old)) hq hstep rfl rfl rfl rfl rfl
      (fun _ => rfl)
  case isaStore newCls f locked old => exact h.isaStored hq
  case moveRead b =>
    obtain ⟨hraw, hdr, hwr⟩ : s.isa.IsRaw ∧ deallocatingOf s.refcnt = false
      ∧ weakOf s.refcnt = false := h.knows hq
    exact h.goto hq rfl rfl rfl rfl ⟨hraw, hdr, hwr, rfl⟩
  case moveWrite b r => exact h.moveWritten hlim hq rfl
  case isaUnlock =>
    exact h.unlock (p := .idle) (l := s.trueReturns) hq rfl rfl rfl rfl rfl trivial

end

theorem Initial.inv (h : s.Initial) : s.Inv := by
  obtain ⟨⟨t, howned⟩, hr, hlock, hpc, hlog, hisa⟩ := h
  have hsum : s.sum = 1 := by
    unfold sum
    rw [howned]
    simp
  have hzero : ∀ f : PC L → Nat, f .idle = 0 → ∑ u, f (s.pc u) = 0 := fun f hf =>
    Finset.sum_eq_zero fun u _ => by rw [hpc u, hf]
  have hdec : s.decided = 0 := by
    unfold decided
    rw [hlog, hzero _ rfl]
    rfl
  refine ⟨fun u => ?_, ?_, fun u => ?_⟩
  · rw [hlock, hpc u]
    exact ⟨fun hno => (by cases hno), nofun⟩
  · rw [hr, hsum, hdec, show s.pend = 0 from hzero _ rfl, show s.pmark = 0 from hzero _ rfl]
    cases hi : s.isa with
    | raw c =>
      rw [hi] at hisa
      exact ⟨hisa, fun _ heq => (by cases heq), by simp [markOf], by simp [markOf]⟩
    | nonpointer b => ?_
    rw [hi] at hisa
    obtain ⟨hex, hd, -, -⟩ := hisa
    exact ⟨⟨deallocatingOf_none, weakOf_none, by simp, fun _ => rfl⟩,
      fun _ _ => ⟨rfl, fun _ => rfl⟩, by simp [markOf, hex, hd], by simp [markOf, hd]⟩
  · rw [hpc u]
    trivial

end Machine

/-! ## What holds in every interleaving -/

def Machine.BelowPinLimit (s : Machine L Tid) : Prop := s.sum < pinLimit L

instance : DecidablePred (@Machine.BelowPinLimit L Tid _) :=
  fun s => inferInstanceAs (Decidable (s.sum < pinLimit L))

variable {s s' : Machine L Tid}

namespace Machine

theorem Inv.pend_free (h : s.Inv) (hfree : s.lock = none) : s.pend = 0 ∧ s.pmark = 0 := by
  have hnone : ∀ t, (s.pc t).holds = false := by
    intro t
    by_contra hno
    have := (h.lock t).mpr (by simpa using hno)
    rw [hfree] at this
    cases this
  exact ⟨sum_eq_zero fun t _ => pend_of_not_holds (hnone t),
    sum_eq_zero fun t _ => mark_of_not_holds (hnone t)⟩

theorem Inv.account_free (h : s.Inv) (hfree : s.lock = none) :
    1 + s.isa.extraRc + rcOf s.refcnt
      = s.sum + (Obj.mk s.isa s.refcnt).rootIsDeallocating.toNat := by
  obtain ⟨e1, e2⟩ := h.pend_free hfree
  have hacc := h.books.account
  have hmark : markOf s.isa s.refcnt s.pmark = (Obj.mk s.isa s.refcnt).rootIsDeallocating := by
    rw [e2]
    unfold markOf Obj.rootIsDeallocating
    cases s.isa <;> simp
  rw [hmark, e1] at hacc
  omega

theorem Inv.trueReturns_le (h : s.Inv) : s.trueReturns.length ≤ 1 := by
  have hwon := h.books.won
  have hle := toNat_le (markOf s.isa s.refcnt s.pmark)
  unfold decided at hwon
  omega

theorem Inv.trueReturns_eq (h : s.Inv) (hidle : ∀ t, s.pc t = .idle) (hsum : s.sum = 0) :
    s.trueReturns.length = 1 := by
  have hwon := h.books.won
  have hbooks := h.books
  rw [hsum] at hbooks
  rw [hbooks.marked_of_sum_zero] at hwon
  have hzero : ∑ t, (s.pc t).won = 0 := sum_eq_zero fun t _ => by rw [hidle t]; rfl
  unfold decided at hwon
  rw [hzero] at hwon
  simpa using hwon

theorem Moves.marked (h : s.Inv) (hm : s.Moves s') (hmark : s.marked = true) :
    s'.marked = true := by
  have h1 := h.books.won
  have h2 := hm.inv.books.won
  have h3 : markOf s.isa s.refcnt s.pmark = true := hmark
  rw [h3, toNat_true] at h1
  by_contra hno
  have h4 : markOf s'.isa s'.refcnt s'.pmark = false := by simpa [Machine.marked] using hno
  rw [h4, toNat_false] at h2
  rcases hm.decided with hd | ⟨hd, -⟩ <;> omega

variable [DecidableEq Tid]

theorem Inv.holder_steps (h : s.Inv) {t : Tid} (hlock : s.lock = some t) (call : RcCall) :
    (s.step t call).isSome = true := by
  have hh := (h.lock t).mp hlock
  unfold Machine.step
  cases hq : s.pc t <;> rw [hq] at hh <;> first | rfl | exact Bool.noConfusion hh

end Machine

variable [DecidableEq Tid]

theorem rcSystem_inv (h : (rcSystem L Tid).Reachable Machine.BelowPinLimit s) : s.Inv :=
  h.invariant (fun _ hi _ => Machine.Initial.inv hi)
    (fun _ _ _ hinv hok hstep _ => (Machine.Inv.step hinv hok hstep).inv)

/-- **No interleaving loses or duplicates a count.**  In every state of every run
below the pinning limit:

  • whenever the side-table lock is free, 1 + `extra_rc` + the side-table count is
    the number of owned references, plus one once the deallocating mark is set;
  • at most one `rootRelease` has returned true, and exactly one has when every
    call has returned and no reference is owned;
  • a `rootRelease` is told to deallocate only by a step that leaves no owned
    reference;
  • once the mark is set no `rootTryRetain` succeeds any more;
  • a thread outside of these functions does not hold the lock, the holder is never
    blocked, and the over-release report is never reached. -/
theorem rc_interleaving_keeps_count
    (h : (rcSystem L Tid).Reachable Machine.BelowPinLimit s) :
    (s.lock = none → 1 + s.isa.extraRc + rcOf s.refcnt
        = s.sum + (Obj.mk s.isa s.refcnt).rootIsDeallocating.toNat)
      ∧ s.trueReturns.length ≤ 1
      ∧ ((∀ t, s.pc t = .idle) → s.sum = 0 → s.trueReturns.length = 1)
      ∧ (∀ a s', (rcSystem L Tid).step s a = some s' → s'.decided ≠ s.decided → s'.sum = 0)
      ∧ (∀ s', (rcSystem L Tid).Later Machine.BelowPinLimit s s' → s.marked = true →
          ∀ t, s'.pc t ≠ .tryUnlock true)
      ∧ (∀ t, s.pc t = .idle → s.lock ≠ some t)
      ∧ (∀ t, s.lock = some t → ∀ call, (s.step t call).isSome = true)
      ∧ (∀ t, s.pc t ≠ .overrelease) := by
  have hinv := rcSystem_inv h
  refine ⟨hinv.account_free, hinv.trueReturns_le, hinv.trueReturns_eq, ?_, ?_, ?_,
    fun t hl call => hinv.holder_steps hl call, ?_⟩
  · intro a s' hstep hne
    rcases (hinv.step h.holds hstep).decided with hd | ⟨-, hz⟩
    · exact absurd hd hne
    · exact hz
  · intro s' hlater hmark t htry
    have hmark' : s'.marked = true :=
      hlater.keeps (P := fun x => x.marked = true)
        (fun x a x' hr hstep _ hx =>
          ((rcSystem_inv hr).step hr.holds hstep).marked (rcSystem_inv hr) hx) h hmark
    have hloc : true = true → 0 < s'.owned t ∧ s'.marked = false :=
      (rcSystem_inv (hlater.reachable h)).knows htry
    rw [hmark'] at hloc
    exact absurd (hloc rfl).2 (by decide)
  · intro t hidle hlock
    have := (hinv.lock t).mp hlock
    rw [hidle] at this
    exact Bool.noConfusion this
  · intro t hover
    exact hinv.knows hover

def Machine.fresh (isa : Isa L) (n : Nat) : Machine L (Fin (n + 1)) :=
  { isa := isa, refcnt := none, lock := none, pc := fun _ => .idle,
    owned := fun u => if u = 0 then 1 else 0, trueReturns := [] }

/-- `k` accesses of thread `t`; an idle thread starts `call`. -/
def accesses {n : Nat} (t : Fin n) (call : RcCall) (k : Nat) : List (Fin n × RcCall) :=
  List.replicate k (t, call)

/-- Two threads on a one-bit inline field: a retain that finds the field full, loses
its swap to a release and retries; an overflow; a borrow that loses its first swap
to a retain; the last release. -/
def contendedRun : List (Fin 2 × RcCall) :=
  accesses 0 .retain 3 ++ accesses 1 .retain 4 ++ accesses 0 .release 3 ++ accesses 1 .retain 4
    ++ accesses 1 .retain 8 ++ accesses 1 .release 3
    ++ accesses 1 .release 7 ++ accesses 0 .retain 3 ++ accesses 1 .release 4
    ++ accesses 0 .release 3 ++ accesses 0 .release 8

set_option maxRecDepth 4000 in
/-- At the end of the contended run nothing is owned or stored, and thread 0's
release is the one that returned true. -/
theorem contended_run_keeps_count :
    ∃ s : Machine Layout.narrow (Fin 2),
      (rcSystem Layout.narrow (Fin 2)).runFrom Machine.BelowPinLimit
          (Machine.fresh (.nonpointer (IsaBits.fresh 1 false)) 1) contendedRun = some s
        ∧ s.sum = 0 ∧ s.trueReturns = [0] ∧ s.trueReturns.length = 1
        ∧ 1 + s.isa.extraRc + rcOf s.refcnt
            = s.sum + (Obj.mk s.isa s.refcnt).rootIsDeallocating.toNat := by
  refine ⟨_, rfl, by decide, rfl, ?_⟩
  have hreach : (rcSystem narrow (Fin 2)).Reachable BelowPinLimit
      (fresh (.nonpointer (fresh 1 false)) 1) :=
    .init ⟨⟨0, rfl⟩, rfl, rfl, fun _ => rfl, rfl, rfl, rfl, rfl, rfl⟩ (by decide)
  have hsafe := rc_interleaving_keeps_count (hreach.of_run contendedRun rfl)
  exact ⟨hsafe.2.2.1 (by decide) (by decide), hsafe.1 rfl⟩

set_option maxRecDepth 4000 in
/-- Without the two provisos the equation fails: after the last release one count
is stored and none is owned, and a pinned side-table word no longer counts. -/
theorem stored_count_exceptions :
    ¬ (∀ (L : Layout) (n : Nat) (s : Machine L (Fin n)),
        (rcSystem L (Fin n)).Reachable (fun _ => True) s → s.lock = none →
          1 + s.isa.extraRc + rcOf s.refcnt = s.sum)
      ∧ ¬ (∀ (L : Layout) (n : Nat) (s : Machine L (Fin n)),
        (rcSystem L (Fin n)).Reachable (fun _ => True) s → s.lock = none → s.marked = false →
          1 + s.isa.extraRc + rcOf s.refcnt = s.sum) := by
  refine ⟨fun hall => ?_, fun hall => ?_⟩
  · have hreach : (rcSystem x86_64 (Fin 1)).Reachable (fun _ => True)
        (fresh (.nonpointer (fresh 1 false)) 0) :=
      .init ⟨⟨0, rfl⟩, rfl, rfl, fun _ => rfl, rfl, rfl, rfl, rfl, rfl⟩ trivial
    have hbad := hall _ _ _ (hreach.of_run (accesses 0 .release 3) rfl) rfl
    exact absurd hbad (by decide)
  have hreach : (rcSystem narrow (Fin 1)).Reachable (fun _ => True)
      (fresh (.raw (some 1)) 0) :=
    .init ⟨⟨0, rfl⟩, rfl, rfl, fun _ => rfl, rfl, some_ne_none _⟩ trivial
  have hbad := hall _ _ _ (hreach.of_run (accesses 0 .retain (6 * 33)) rfl) rfl (by decide)
  exact absurd hbad (by decide)

end ObjcRuntime
