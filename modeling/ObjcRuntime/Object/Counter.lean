/-
THE ABSTRACT RETAIN COUNTER AND ITS REFINEMENT.

What the two stores are for: one natural number that starts at 1 and one
deallocating mark. The pair (inline `extra_rc`, side-table word) refines it
along every admissible run, in every layout and every isa representation:

rc_run_implements_counter

A run is admissible while no release is applied to a deallocating object with
no outstanding retain, and the extra count stays below the pinning limit.
-/
import ObjcRuntime.Object.RefCount

namespace ObjcRuntime

open Obj List

/-! ## Operations and runs -/

inductive RcOp where
  | retain
  | release
  | tryRetain
  | setWeaklyReferenced
  | changeIsa (newCls : Class) (f : ClassFlags)
  deriving DecidableEq

def RcOp.counts : RcOp → Bool
  | .retain | .release | .tryRetain => true
  | .setWeaklyReferenced | .changeIsa _ _ => false

variable {L : Layout}

def Obj.step (o : Obj L) : RcOp → Obj L × Bool
  | .retain => o.rootRetain false
  | .release => o.rootRelease
  | .tryRetain => o.rootTryRetain
  | .setWeaklyReferenced => (o.setWeaklyReferenced_nolock, true)
  | .changeIsa newCls f => (o.changeIsa newCls f, true)

def Obj.run : Obj L → List RcOp → Obj L × List (RcOp × Bool)
  | o, [] => (o, [])
  | o, op :: ops =>
    (((o.step op).1.run ops).1, (op, (o.step op).2) :: ((o.step op).1.run ops).2)

def Obj.Fresh (o : Obj L) : Prop :=
  o.refcnt = none ∧
    match o.isa with
    | .raw c => c ≠ none
    | .nonpointer b =>
      (b.extra_rc : Nat) = 0 ∧ b.deallocating = false ∧ b.weakly_referenced = false
        ∧ b.has_sidetable_rc = false

/-! ## The abstract counter -/

structure Counter where
  count : Nat
  deallocating : Bool
  deriving DecidableEq

def Counter.fresh : Counter := ⟨1, false⟩

def Counter.step (c : Counter) : RcOp → Counter × Bool
  | .retain => ({ c with count := c.count + 1 }, true)
  | .tryRetain =>
    if c.deallocating then (c, false) else ({ c with count := c.count + 1 }, true)
  | .release =>
    if c.count = 1 ∧ c.deallocating = false then ({ c with deallocating := true }, true)
    else ({ c with count := c.count - 1 }, false)
  | .setWeaklyReferenced => (c, true)
  | .changeIsa _ _ => (c, true)

def Counter.run : Counter → List RcOp → Counter × List (RcOp × Bool)
  | c, [] => (c, [])
  | c, op :: ops =>
    (((c.step op).1.run ops).1, (op, (c.step op).2) :: ((c.step op).1.run ops).2)

def Counter.Allows (c : Counter) : RcOp → Prop
  | .release => c.deallocating = true → 1 < c.count
  | _ => True

def Counter.Admissible (L : Layout) : Counter → List RcOp → Prop
  | _, [] => True
  | c, op :: ops =>
    c.Allows op ∧ (c.step op).1.count ≤ pinLimit L ∧ Counter.Admissible L (c.step op).1 ops

instance Counter.decAllows (c : Counter) : (op : RcOp) → Decidable (c.Allows op)
  | .release => inferInstanceAs (Decidable (c.deallocating = true → 1 < c.count))
  | .retain => .isTrue trivial
  | .tryRetain => .isTrue trivial
  | .setWeaklyReferenced => .isTrue trivial
  | .changeIsa _ _ => .isTrue trivial

instance Counter.decAdmissible (L : Layout) : (c : Counter) → (ops : List RcOp) →
    Decidable (c.Admissible L ops)
  | _, [] => .isTrue trivial
  | c, op :: ops =>
    have := Counter.decAdmissible L (c.step op).1 ops
    inferInstanceAs (Decidable (c.Allows op ∧ (c.step op).1.count ≤ pinLimit L
      ∧ Counter.Admissible L (c.step op).1 ops))

/-! ## One call refines one step -/

structure Obj.Represents (o : Obj L) (c : Counter) : Prop where
  wf : o.WF
  count : c.count = 1 + o.extraCount
  mark : o.rootIsDeallocating = c.deallocating

variable {o : Obj L}

theorem Obj.Fresh.represents (h : o.Fresh) : o.Represents Counter.fresh := by
  obtain ⟨isa, r⟩ := o
  obtain ⟨hr, hisa⟩ := h
  cases isa with
  | raw c =>
    subst hr
    exact ⟨hisa, by simp [extraCount, Counter.fresh], deallocatingOf_none⟩
  | nonpointer b => ?_
  subst hr
  obtain ⟨hex, hd, -, -⟩ := hisa
  refine ⟨⟨deallocatingOf_none, weakOf_none, by simp, fun _ => rfl⟩, ?_, hd⟩
  show 1 = 1 + ((b.extra_rc : Nat) + rcOf none)
  rw [hex, rcOf_none]

theorem Obj.Shows.represents {extra : Nat} {d w : Bool} (h : o.Shows extra d w) :
    o.Represents ⟨1 + extra, d⟩ :=
  ⟨h.wf, by rw [h.extra], h.dealloc⟩

theorem Obj.step_represents {c : Counter} (h : o.Represents c) (op : RcOp) (hallow : c.Allows op)
    (hbefore : c.count ≤ pinLimit L) (hafter : (c.step op).1.count ≤ pinLimit L) :
    (o.step op).2 = (c.step op).2 ∧ (o.step op).1.Represents (c.step op).1 := by
  obtain ⟨hwf, hcount, hmark⟩ := h
  obtain ⟨count, dealloc⟩ := c
  simp only at hcount hmark hbefore
  subst hcount
  cases op with
  | retain =>
    simp only [Counter.step] at hafter
    obtain ⟨hans, hshow⟩ := rootRetain_spec hwf (by omega) false (fun _ => by omega)
    have hrep := hshow.represents
    rw [hmark] at hrep
    exact ⟨hans, hrep⟩
  | tryRetain =>
    have hnext : (true && o.rootIsDeallocating) = false → o.extraCount + 1 < pinLimit L := by
      intro hd
      rw [hmark] at hd
      simp only [Bool.true_and] at hd
      simp only [Counter.step, hd, Bool.false_eq_true, if_false] at hafter
      omega
    obtain ⟨hans, hshow⟩ := rootRetain_spec hwf (by omega) true hnext
    have hrep := hshow.represents
    rw [hmark] at hans hrep
    cases dealloc with
    | true | false => exact ⟨hans, hrep⟩
  | release =>
    unfold step Counter.step
    by_cases hlast : o.extraCount = 0 ∧ dealloc = false
    · -- the counter is at 1 and the mark is not set
      obtain ⟨hz, hd⟩ := hlast
      subst hd
      obtain ⟨hans, hshow⟩ := rootRelease_last hwf hz hmark
      have hrep := hshow.represents
      simp only [hz, and_self, if_true]
      exact ⟨hans, hrep⟩
    have hpos : 0 < o.extraCount := by
      cases dealloc with
      | true =>
        have hallow' : 1 < 1 + o.extraCount := hallow rfl
        omega
      | false => simp only [and_true] at hlast; omega
    obtain ⟨hans, hshow⟩ := rootRelease_counted hwf hpos (by omega)
    have hrep := hshow.represents
    rw [hmark] at hrep
    have hnot : ¬ (1 + o.extraCount = 1 ∧ dealloc = false) := by
      rintro ⟨h1, h2⟩
      exact hlast ⟨by omega, h2⟩
    simp only [hnot, if_false]
    rw [show 1 + o.extraCount - 1 = 1 + (o.extraCount - 1) by omega]
    exact ⟨hans, hrep⟩
  | setWeaklyReferenced =>
    have hrep := (setWeaklyReferenced_spec hwf).represents
    rw [hmark] at hrep
    exact ⟨rfl, hrep⟩
  | changeIsa newCls f =>
    have hrep := (changeIsa_spec hwf (by omega) newCls f).represents
    rw [hmark] at hrep
    exact ⟨rfl, hrep⟩

variable (ops : List RcOp)

theorem Obj.run_represents : ∀ {o : Obj L} {c : Counter},
    o.Represents c → c.count ≤ pinLimit L → c.Admissible L ops →
      (o.run ops).2 = (c.run ops).2 ∧ (o.run ops).1.Represents (c.run ops).1 := by
  induction ops with
  | nil => intro o c h _ _; exact ⟨rfl, h⟩
  | cons op ops ih => ?_
  intro o c h hlim hadm
  obtain ⟨hallow, hafter, hrest⟩ := hadm
  obtain ⟨hans, hrep⟩ := step_represents h op hallow hlim hafter
  obtain ⟨hlog, hfin⟩ := ih hrep hafter hrest
  refine ⟨?_, hfin⟩
  show (op, (o.step op).2) :: ((o.step op).1.run ops).2 = _
  rw [hans, hlog]
  rfl

/-! ## What the counter counts -/

def acquired (log : List (RcOp × Bool)) : Nat :=
  log.countP fun e => e.1 == .retain || (e.1 == .tryRetain && e.2)

def dropped (log : List (RcOp × Bool)) : Nat :=
  log.countP fun e => e.1 == .release && !e.2

def answers (log : List (RcOp × Bool)) : List (RcOp × Bool) := log.filter fun e => e.1.counts

theorem acquired_cons (e : RcOp × Bool) (log : List (RcOp × Bool)) :
    acquired (e :: log)
      = acquired log + if e.1 == .retain || (e.1 == .tryRetain && e.2) then 1 else 0 :=
  countP_cons

theorem dropped_cons (e : RcOp × Bool) (log : List (RcOp × Bool)) :
    dropped (e :: log) = dropped log + if e.1 == .release && !e.2 then 1 else 0 :=
  countP_cons

theorem Counter.step_count {c : Counter} {op : RcOp} (hpos : 0 < c.count) (hallow : c.Allows op) :
    0 < (c.step op).1.count ∧ (c.step op).1.count + dropped [(op, (c.step op).2)]
          = c.count + acquired [(op, (c.step op).2)] := by
  obtain ⟨count, dealloc⟩ := c
  cases op with
  | retain => simp [Counter.step, acquired, dropped]
  | tryRetain =>
    cases dealloc <;> simp [Counter.step, acquired, dropped]
    exact hpos
  | release =>
    simp only at hpos
    by_cases hlast : count = 1 ∧ dealloc = false
    · simp [Counter.step, hlast, acquired, dropped]
    have hgt : 1 < count := by
      cases dealloc with
      | true => exact hallow rfl
      | false => simp only [and_true] at hlast; omega
    simp only [Counter.step, hlast, if_false]
    simp [acquired, dropped]
    omega
  | setWeaklyReferenced | changeIsa newCls f => simp [Counter.step, acquired, dropped]; exact hpos

theorem Counter.run_count : ∀ {c : Counter}, 0 < c.count → c.Admissible L ops →
    (c.run ops).1.count + dropped (c.run ops).2 = c.count + acquired (c.run ops).2 := by
  induction ops with
  | nil => intro c _ _; rfl
  | cons op ops ih => ?_
  intro c hpos hadm
  obtain ⟨hallow, -, hrest⟩ := hadm
  obtain ⟨hpos', hstep⟩ := Counter.step_count hpos hallow
  have hrun := ih hpos' hrest
  simp only [acquired_cons, dropped_cons, Counter.run] at hstep ⊢
  simp only [acquired, dropped, countP_nil, Nat.zero_add] at hstep hrun ⊢
  omega

theorem Counter.run_filter : ∀ c : Counter,
    answers (c.run ops).2 = (c.run (ops.filter RcOp.counts)).2
      ∧ (c.run ops).1 = (c.run (ops.filter RcOp.counts)).1 := by
  induction ops with
  | nil => intro c; exact ⟨rfl, rfl⟩
  | cons op ops ih => ?_
  intro c
  obtain ⟨hans, hfin⟩ := ih (c.step op).1
  cases hop : op.counts with
  | true =>
    rw [filter_cons_of_pos hop]
    refine ⟨?_, hfin⟩
    show answers ((op, (c.step op).2) :: ((c.step op).1.run ops).2) = _
    unfold answers at hans ⊢
    rw [filter_cons_of_pos (by exact hop), hans]
    rfl
  | false => ?_
  have hid : (c.step op).1 = c := by
    cases op <;> first | rfl | exact absurd hop (by decide)
  rw [filter_cons_of_neg (by simp [hop])]
  rw [hid] at hans hfin
  refine ⟨?_, ?_⟩
  · show answers ((op, (c.step op).2) :: ((c.step op).1.run ops).2) = _
    unfold answers at hans ⊢
    rw [filter_cons_of_neg (by simp [hop]), hid, hans]
  · show ((c.step op).1.run ops).1 = _
    rw [hid, hfin]

/-! ## The refinement theorem -/

/-- **The two stores implement one counter that starts at 1.**  Along every
admissible run from a new object: `rootRetainCount` is 1 plus the successful
retains and tryRetains minus the releases; every answer and the deallocating
mark are the counter's (`rootRelease` answers true exactly when it finds the
counter at 1 and no mark, and then sets it; `rootTryRetain` fails exactly on a
marked object); and the answers are the same for any other layout, isa
representation and placing of `changeIsa` and `setWeaklyReferenced` calls. -/
theorem rc_run_implements_counter (o : Obj L) (hfresh : o.Fresh) (ops : List RcOp)
    (hadm : Counter.fresh.Admissible L ops) :
    (o.run ops).1.rootRetainCount + dropped (o.run ops).2 = 1 + acquired (o.run ops).2
      ∧ (o.run ops).2 = (Counter.fresh.run ops).2
      ∧ (o.run ops).1.rootRetainCount = (Counter.fresh.run ops).1.count
      ∧ (o.run ops).1.rootIsDeallocating = (Counter.fresh.run ops).1.deallocating
      ∧ ∀ (L₂ : Layout) (o₂ : Obj L₂) (ops₂ : List RcOp), o₂.Fresh →
          Counter.fresh.Admissible L₂ ops₂ →
          ops₂.filter RcOp.counts = ops.filter RcOp.counts →
            answers (o₂.run ops₂).2 = answers (o.run ops).2
              ∧ (o₂.run ops₂).1.rootRetainCount = (o.run ops).1.rootRetainCount := by
  have hone : ∀ L' : Layout, Counter.fresh.count ≤ pinLimit L' := fun L' => Nat.two_pow_pos _
  have hmain : ∀ (L' : Layout) (o' : Obj L') (ops' : List RcOp), o'.Fresh →
      Counter.fresh.Admissible L' ops' →
      (o'.run ops').2 = (Counter.fresh.run ops').2
        ∧ (o'.run ops').1.rootRetainCount = (Counter.fresh.run ops').1.count
        ∧ (o'.run ops').1.rootIsDeallocating = (Counter.fresh.run ops').1.deallocating := by
    intro L' o' ops' hf ha
    obtain ⟨hlog, hrep⟩ := run_represents ops' hf.represents (hone L') ha
    exact ⟨hlog, by rw [rootRetainCount_eq hrep.wf, hrep.count], hrep.mark⟩
  obtain ⟨hlog, hcount, hmark⟩ := hmain L o ops hfresh hadm
  refine ⟨?_, hlog, hcount, hmark, ?_⟩
  · rw [hcount, hlog]
    exact Counter.run_count ops (by decide) hadm
  intro L₂ o₂ ops₂ hfresh2 hadm2 hsame
  obtain ⟨hlog2, hcount2, -⟩ := hmain L₂ o₂ ops₂ hfresh2 hadm2
  obtain ⟨hans, hfin⟩ := Counter.run_filter ops Counter.fresh
  obtain ⟨hans2, hfin2⟩ := Counter.run_filter ops₂ Counter.fresh
  refine ⟨?_, ?_⟩
  · rw [hlog2, hlog, hans2, hans, hsame]
  · rw [hcount2, hcount, hfin2, hfin, hsame]

def Obj.freshNonpointer (L : Layout) : Obj L := ⟨.nonpointer (IsaBits.fresh 1 false), none⟩

theorem rc_run_through_both_stores :
    ((Obj.freshNonpointer Layout.narrow).run
        [.retain, .retain, .tryRetain, .release, .release, .retain, .changeIsa 2 ⟨false, false, false⟩,
          .release, .release, .release, .tryRetain, .retain, .release]).2
      = (Counter.fresh.run
        [.retain, .retain, .tryRetain, .release, .release, .retain, .changeIsa 2 ⟨false, false, false⟩,
          .release, .release, .release, .tryRetain, .retain, .release]).2 :=
  (rc_run_implements_counter (freshNonpointer Layout.narrow)
    ⟨rfl, rfl, rfl, rfl, rfl⟩ _ (by decide)).2.1

end ObjcRuntime
