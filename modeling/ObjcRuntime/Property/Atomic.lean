/-
AN ATOMIC PROPERTY IS AN ATOMIC CELL.

A getter takes effect when it reads the slot, with the lock; a setter when it
writes the slot, or when it finds its value there and returns.
-/
import ObjcRuntime.Property.Safe

namespace ObjcRuntime

open Lib Function List Option PropertyState

variable {V ι : Type} [DecidableEq V] [DecidableEq ι] {s s' : PropertyState V ι}
  {slot : Option V}

/-! ## The order in which the calls take effect -/

def Point.Installs : Point V → Prop
  | .setLock arg kind newValue | .setLoad arg kind newValue | .setStore arg kind newValue _ =>
    (kind = .retain → newValue = arg) ∧ (arg = none → newValue = none)
  | _ => True

structure LinInv (slot : Option V) (s : PropertyState V ι) : Prop where
  lin : Linearizes cell slot s.hist s.order s.slot
  ids : ∀ e ∈ s.hist, e.id < s.nextId
  called : ∀ t f, s.pc t = some f → .call f.id f.point.op ∈ s.hist
  before : ∀ t f, s.pc t = some f → f.point.result = none → f.id ∉ s.order.map Done.id
  after : ∀ t f r, s.pc t = some f → f.point.result = some r → ⟨f.id, f.point.op, r⟩ ∈ s.order
  distinct : ∀ t u f g, s.pc t = some f → s.pc u = some g → f.id = g.id → t = u
  installs : ∀ t f, s.pc t = some f → f.point.Installs

variable {t : ι} {id : Nat} {p p' : Point V}

section

variable (h : LinInv slot s)

include h

section

variable (hp : s.pc t = some ⟨id, p⟩)

include hp

theorem LinInv.goTo (hpc : s'.pc = update s.pc t (some ⟨id, p'⟩)) (hslot : s'.slot = s.slot)
    (hhist : s'.hist = s.hist) (horder : s'.order = s.order) (hid : s'.nextId = s.nextId)
    (hop : p'.op = p.op) (hresult : p'.result = p.result) (hinst : p'.Installs) :
    LinInv slot s' := by
  -- the new frame is like the old one for everything but `installs`
  have hframe : ∀ u f, s'.pc u = some f → ∃ g, s.pc u = some g ∧ f.id = g.id ∧
      f.point.op = g.point.op ∧ f.point.result = g.point.result := by
    intro u f hf
    rw [hpc, update_apply] at hf
    split at hf
    next heq =>
      cases hf
      exact ⟨⟨id, p⟩, heq ▸ hp, rfl, hop, hresult⟩
    next => exact ⟨f, hf, rfl, rfl, rfl⟩
  refine ⟨?_, ?_, fun u f hf => ?_, fun u f hf hr => ?_, fun u f r hf hr => ?_,
    fun u w f g hf hg heq => ?_, fun u f hf => ?_⟩
  · rw [hslot, hhist, horder]
    exact h.lin
  · rw [hhist, hid]
    exact h.ids
  · obtain ⟨g, hg, hid', hop', _⟩ := hframe u f hf
    rw [hhist, hid', hop']
    exact h.called u g hg
  · obtain ⟨g, hg, hid', _, hres⟩ := hframe u f hf
    rw [horder, hid']
    exact h.before u g hg (hres ▸ hr)
  · obtain ⟨g, hg, hid', hop', hres⟩ := hframe u f hf
    rw [horder, hid', hop']
    exact h.after u g r hg (hres ▸ hr)
  · obtain ⟨f', hf', hidf, _⟩ := hframe u f hf
    obtain ⟨g', hg', hidg, _⟩ := hframe w g hg
    exact h.distinct u w f' g' hf' hg' (by rw [← hidf, ← hidg, heq])
  rw [hpc, update_apply] at hf
  split at hf
  next => cases hf; exact hinst
  next => exact h.installs u f hf

theorem LinInv.effect {res : Option V}
    (hpc : s'.pc = update s.pc t (some ⟨id, p'⟩)) (hhist : s'.hist = s.hist)
    (horder : s'.order = s.order ++ [⟨id, p.op, res⟩]) (hid : s'.nextId = s.nextId)
    (hop : p'.op = p.op) (hbefore : p.result = none) (hafter : p'.result = some res)
    (hcell : cell s.slot p.op res = some s'.slot) (hinst : p'.Installs) : LinInv slot s' := by
  have hnew : id ∉ s.order.map Done.id := h.before t _ hp hbefore
  have hother : ∀ u f, u ≠ t → s'.pc u = some f → s.pc u = some f ∧ f.id ≠ id := by
    intro u f hu hf
    rw [hpc, update_of_ne hu] at hf
    exact ⟨hf, fun heq => hu (h.distinct u t f _ hf hp heq)⟩
  have hself : ∀ f, s'.pc t = some f → f = ⟨id, p'⟩ := by
    intro f hf
    rw [hpc, update_self] at hf
    exact (some.inj hf).symm
  refine ⟨?_, ?_, fun u f hf => ?_, fun u f hf hr => ?_, fun u f r hf hr => ?_,
    fun u w f g hf hg heq => ?_, fun u f hf => ?_⟩
  · rw [hhist, horder]
    exact h.lin.point (h.called t _ hp) hnew hcell
  · rw [hhist, hid]
    exact h.ids
  · rw [hhist]
    by_cases hu : u = t
    · subst hu
      rw [hself f hf, hop]
      exact h.called u _ hp
    · exact h.called u f (hother u f hu hf).1
  · rw [horder, map_append, mem_append, map_singleton, mem_singleton]
    by_cases hu : u = t
    · subst hu
      rw [hself f hf, hafter] at hr
      cases hr
    · obtain ⟨hf', hne⟩ := hother u f hu hf
      exact fun hin => hin.elim (h.before u f hf' hr) hne
  · rw [horder, mem_append]
    by_cases hu : u = t
    · subst hu
      obtain rfl := hself f hf
      rw [hafter] at hr
      cases hr
      rw [hop]
      exact .inr (mem_singleton_self _)
    · exact .inl (h.after u f r (hother u f hu hf).1 hr)
  · by_cases hu : u = t
    · by_cases hw : w = t
      · rw [hu, hw]
      subst hu
      rw [hself f hf] at heq
      exact absurd heq.symm (hother w g hw hg).2
    by_cases hw : w = t
    · subst hw
      rw [hself g hg] at heq
      exact absurd heq (hother u f hu hf).2
    · exact h.distinct u w f g (hother u f hu hf).1 (hother w g hw hg).1 heq
  by_cases hu : u = t
  · subst hu
    rw [hself f hf]
    exact hinst
  · exact h.installs u f (hother u f hu hf).1

theorem LinInv.finish {res : Option V} (hpc : s'.pc = update s.pc t none) (hslot : s'.slot = s.slot)
    (hhist : s'.hist = s.hist ++ [.ret id res]) (horder : s'.order = s.order)
    (hid : s'.nextId = s.nextId) (hresult : p.result = some res) :
    LinInv slot s' := by
  have hframe : ∀ u f, s'.pc u = some f → s.pc u = some f := by
    intro u f hf
    rw [hpc, update_apply] at hf
    split at hf
    next => cases hf
    next => exact hf
  have hlt : id < s.nextId := h.ids _ (h.called t _ hp)
  refine ⟨?_, fun e he => ?_, fun u f hf => ?_, fun u f hf => ?_, fun u f r hf => ?_,
    fun u w f g hf hg => h.distinct u w f g (hframe u f hf) (hframe w g hg),
    fun u f hf => h.installs u f (hframe u f hf)⟩
  · rw [hslot, hhist, horder]
    exact h.lin.ret (h.after t _ res hp hresult)
  · rw [hhist, mem_append] at he
    rw [hid]
    rcases he with he | he
    · exact h.ids e he
    · rw [mem_singleton.mp he]
      exact hlt
  · rw [hhist]
    exact mem_append_left _ (h.called u f (hframe u f hf))
  · rw [horder]
    exact h.before u f (hframe u f hf)
  · rw [horder]
    exact h.after u f r (hframe u f hf)

end

theorem LinInv.begin (hresult : p.result = none) (hinst : p.Installs) :
    LinInv slot (s.begin t p) := by
  have hfresh : ∀ e ∈ s.hist, e.id ≠ s.nextId := fun e he => ne_of_lt (h.ids e he)
  have hframe : ∀ u f, (s.begin t p).pc u = some f →
      f = ⟨s.nextId, p⟩ ∧ u = t ∨ s.pc u = some f ∧ f.id < s.nextId := by
    intro u f hf
    simp only [PropertyState.begin, update_apply] at hf
    split at hf
    next heq =>
      cases hf
      exact Or.inl ⟨rfl, heq⟩
    next => exact Or.inr ⟨hf, h.ids _ (h.called u f hf)⟩
  refine ⟨h.lin.call p.op hfresh, fun e he => ?_, fun u f hf => ?_, fun u f hf hr => ?_,
    fun u f r hf hr => ?_, fun u w f g hf hg heq => ?_, fun u f hf => ?_⟩
  · rcases mem_append.mp he with he | he
    · exact Nat.lt_succ_of_lt (h.ids e he)
    · rw [mem_singleton.mp he]
      exact Nat.lt_succ_self _
  · rcases hframe u f hf with ⟨rfl, _⟩ | ⟨hf, _⟩
    · exact mem_append_right _ (mem_singleton_self _)
    · exact mem_append_left _ (h.called u f hf)
  · rcases hframe u f hf with ⟨rfl, _⟩ | ⟨hf, _⟩
    · intro hin
      obtain ⟨d, hd, hdid⟩ := mem_map.mp hin
      exact hfresh _ (h.lin.called d hd) hdid
    · exact h.before u f hf hr
  · rcases hframe u f hf with ⟨rfl, _⟩ | ⟨hf, _⟩
    · rw [hresult] at hr
      cases hr
    · exact h.after u f r hf hr
  · rcases hframe u f hf with ⟨rfl, rfl⟩ | ⟨hf, hlt⟩
    · rcases hframe w g hg with ⟨_, rfl⟩ | ⟨_, hlt⟩
      · rfl
      · exact absurd heq.symm (ne_of_lt hlt)
    rcases hframe w g hg with ⟨rfl, _⟩ | ⟨hg, _⟩
    · exact absurd heq (ne_of_lt hlt)
    · exact h.distinct u w f g hf hg heq
  · rcases hframe u f hf with ⟨rfl, _⟩ | ⟨hf, _⟩
    · exact hinst
    · exact h.installs u f hf

theorem LinInv.stepThread (hp : s.pc t = some ⟨id, p⟩)
    (hstep : s.stepThread t id p = some s') : LinInv slot s' := by
  have hinst : p.Installs := h.installs t _ hp
  cases p with
  | getLock =>
    obtain ⟨-, ⟨⟩⟩ := ite_none_right_eq_some.mp hstep
    exact h.goTo hp rfl rfl rfl rfl rfl rfl rfl trivial
  | getLoad =>
    cases hstep
    exact h.effect hp rfl rfl rfl rfl rfl rfl rfl (if_pos rfl) trivial
  | getRetain value | getUnlock value =>
    cases hstep; exact h.goTo hp rfl rfl rfl rfl rfl rfl rfl trivial
  | getReturn value | setReturn arg kind newValue =>
    cases hstep; exact h.finish hp rfl rfl rfl rfl rfl rfl
  | setBegin arg kind =>
    cases kind with
    | retain =>
      simp only [stepThread] at hstep
      split at hstep
      next heq =>
        -- the slot has the value already: the setter takes effect as it reads it
        cases hstep
        refine h.effect hp rfl rfl rfl rfl rfl rfl rfl ?_ trivial
        show cell s.slot (.set arg .retain) arg = some s.slot
        rw [heq]
        exact if_pos ⟨fun _ => rfl, fun h => h⟩
      next => cases hstep; exact h.goTo hp rfl rfl rfl rfl rfl rfl rfl trivial
    | copy | mutableCopy => cases hstep
  | setRetain arg =>
    cases hstep
    exact h.goTo hp rfl rfl rfl rfl rfl rfl rfl ⟨fun _ => rfl, fun h => h⟩
  | setLock arg kind newValue =>
    obtain ⟨-, ⟨⟩⟩ := ite_none_right_eq_some.mp hstep
    exact h.goTo hp rfl rfl rfl rfl rfl rfl rfl hinst
  | setLoad arg kind newValue => cases hstep; exact h.goTo hp rfl rfl rfl rfl rfl rfl rfl hinst
  | setStore arg kind newValue oldValue =>
    cases hstep
    exact h.effect hp rfl rfl rfl rfl rfl rfl rfl (if_pos hinst) trivial
  | setUnlock arg kind newValue oldValue origin | setRelease arg kind newValue oldValue origin =>
    cases hstep
    exact h.goTo hp rfl rfl rfl rfl rfl rfl rfl trivial

theorem LinInv.perform {a : PropertyAction V ι}
    (hstep : s.perform a = some s') : LinInv slot s' := by
  cases a with
  | get t =>
    obtain ⟨-, ⟨⟩⟩ := ite_none_right_eq_some.mp hstep
    exact h.begin rfl trivial
  | set t newValue kind =>
    obtain ⟨-, ⟨⟩⟩ := ite_none_right_eq_some.mp hstep
    have h' : LinInv slot { s with elsewhere := fun v => s.elsewhere v - own newValue v } :=
      { h with }
    exact h'.begin rfl trivial
  | step t =>
    obtain ⟨⟨id, p⟩, hp, hthread⟩ := bind_eq_some_iff.mp hstep
    exact h.stepThread hp hthread
  | copied t copy =>
    obtain ⟨⟨id, p⟩, hp, hcopied⟩ := bind_eq_some_iff.mp hstep
    obtain ⟨arg, kind, rfl, hkind, hnil, rfl⟩ := copied_spec hcopied
    exact h.goTo hp rfl rfl rfl rfl rfl rfl rfl ⟨fun h => absurd h hkind, hnil⟩
  | retain v => cases hstep; exact { h with }
  | release v | lock | unlock =>
    obtain ⟨-, ⟨⟩⟩ := ite_none_right_eq_some.mp hstep
    exact { h with }

end

/-! ## Installed values and their release -/

/-- Whether a thread is going to release what the call `i` installed. -/
def awaits (o : Option (Frame V)) (i : Option Nat) : Nat :=
  o.elim 0 fun f => if f.point.origin = some i then 1 else 0

variable [Fintype ι]

/-- How many threads are going to release what the call `i` installed. -/
def PropertyState.awaiting (s : PropertyState V ι) (i : Option Nat) : Nat :=
  ∑ t, awaits (s.pc t) i

/-- `value` is what the call `origin` installed, or the first value of the slot. -/
def Installed (slot : Option V) (order : List (Done (PropertyOp V) (Option V)))
    (origin : Option Nat) (value : Option V) : Prop :=
  origin.elim (value = slot) fun i => ∃ op, ⟨i, op, value⟩ ∈ order

def Point.replaced : Point V → Option (Option V × Option Nat)
  | .setUnlock _ _ _ oldValue origin | .setRelease _ _ _ oldValue origin => some (oldValue, origin)
  | _ => none

structure OriginInv (slot : Option V) (s : PropertyState V ι) : Prop where
  current : Installed slot s.order s.origin s.slot
  replaced : ∀ t f value origin, s.pc t = some f → f.point.replaced = some (value, origin) →
    Installed slot s.order origin value
  nodup : s.installed.Nodup
  stored : ∀ i, some i ∈ s.installed → i ∈ s.order.map Done.id
  count : ∀ i, s.installed.count i
    = (if s.origin = i then 1 else 0) + s.awaiting i + s.released.count i

omit [DecidableEq V] in
theorem Installed.mono {order order' : List (Done (PropertyOp V) (Option V))}
    (hsub : ∀ d ∈ order, d ∈ order') {origin : Option Nat} {value : Option V}
    (h : Installed slot order origin value) : Installed slot order' origin value := by
  cases origin with
  | none => exact h
  | some i =>
    obtain ⟨op, hin⟩ := h
    exact ⟨op, hsub _ hin⟩

omit [DecidableEq V] in
theorem OriginInv.move (h : OriginInv slot s) {o : Option (Frame V)}
    (hpc : s'.pc = update s.pc t o) (hslot : s'.slot = s.slot)
    (hinstalled : s'.installed = s.installed) (horigin : s'.origin = s.origin)
    (horder : ∀ d ∈ s.order, d ∈ s'.order)
    (hreplaced : ∀ f value origin, o = some f → f.point.replaced = some (value, origin) →
      Installed slot s.order origin value)
    (hrelease : ∀ i, awaits (s.pc t) i + s.released.count i
      = awaits o i + s'.released.count i) : OriginInv slot s' := by
  refine ⟨?_, fun u f value origin hf hr => ?_, hinstalled ▸ h.nodup, fun i hi => ?_, fun i => ?_⟩
  · rw [hslot, horigin]
    exact h.current.mono horder
  · rw [hpc, update_apply] at hf
    split at hf
    next => exact (hreplaced f value origin hf hr).mono horder
    next => exact (h.replaced u f value origin hf hr).mono horder
  · obtain ⟨d, hd, hid⟩ := mem_map.mp (h.stored i (hinstalled ▸ hi))
    exact mem_map.mpr ⟨d, horder d hd, hid⟩
  have hsum := sum_move awaits s.pc t o i
  have hcount := h.count i
  have := hrelease i
  unfold awaiting at hcount ⊢
  rw [hinstalled, horigin, hpc]
  omega

omit [DecidableEq V] in
theorem OriginInv.goTo (h : OriginInv slot s) (hp : s.pc t = some ⟨id, p⟩)
    (hpc : s'.pc = update s.pc t (some ⟨id, p'⟩)) (hslot : s'.slot = s.slot)
    (hinstalled : s'.installed = s.installed) (horigin : s'.origin = s.origin)
    (hreleased : s'.released = s.released) (horder : ∀ d ∈ s.order, d ∈ s'.order)
    (hsame : p'.replaced = p.replaced) (hsame' : p'.origin = p.origin) : OriginInv slot s' := by
  refine h.move hpc hslot hinstalled horigin horder (fun f value origin hf hr => ?_) fun i => ?_
  · cases hf
    exact h.replaced t _ value origin hp (hsame ▸ hr)
  · rw [hp, hreleased]
    simp only [awaits, elim_some, hsame']

theorem OriginInv.stepThread (h : OriginInv slot s) (hlin : LinInv slot s) (hlock : LockInv s)
    (hp : s.pc t = some ⟨id, p⟩) (hstep : s.stepThread t id p = some s') : OriginInv slot s' := by
  have hmore : ∀ d, ∀ d' ∈ s.order, d' ∈ s.order ++ [d] :=
    fun _ _ hd' => mem_append_left _ hd'
  have hsame : ∀ d ∈ s.order, d ∈ s.order := fun _ hd => hd
  cases p with
  | getLock | setLock arg kind newValue =>
    obtain ⟨-, ⟨⟩⟩ := ite_none_right_eq_some.mp hstep
    exact h.goTo hp rfl rfl rfl rfl rfl hsame rfl rfl
  | getLoad => cases hstep; exact h.goTo hp rfl rfl rfl rfl rfl (hmore _) rfl rfl
  | getRetain value | getUnlock value | setRetain arg | setLoad arg kind newValue =>
    cases hstep; exact h.goTo hp rfl rfl rfl rfl rfl hsame rfl rfl
  | getReturn value =>
    cases hstep
    refine h.move rfl rfl rfl rfl hsame nofun fun i => ?_
    rw [hp]
    rfl
  | setBegin arg kind =>
    cases kind with
    | retain =>
      simp only [PropertyState.stepThread] at hstep
      split at hstep
      next => cases hstep; exact h.goTo hp rfl rfl rfl rfl rfl (hmore _) rfl rfl
      next => cases hstep; exact h.goTo hp rfl rfl rfl rfl rfl hsame rfl rfl
    | copy | mutableCopy => cases hstep
  | setStore arg kind newValue oldValue =>
    -- the call is the new origin, and the thread is going to release for the old one
    cases hstep
    have hnew : some id ∉ s.installed := fun hin => hlin.before t _ hp rfl (h.stored id hin)
    have hsees : s.slot = oldValue := hlock.sees t _ hp
    refine ⟨⟨_, mem_append_right _ (mem_singleton_self _)⟩,
      fun u f value origin hf hr => ?_, ?_, fun i hi => ?_, fun i => ?_⟩
    · simp only [PropertyState.takeEffect, PropertyState.goTo, update_apply] at hf
      split at hf
      next =>
        cases hf
        cases hr
        exact (hsees ▸ h.current).mono (hmore _)
      next => exact (h.replaced u f value origin hf hr).mono (hmore _)
    · exact nodup_append.mpr ⟨h.nodup, nodup_singleton _, fun a ha b hb => by
        rw [mem_singleton.mp hb]
        rintro rfl
        exact hnew ha⟩
    · show i ∈ (s.order ++ [_]).map Done.id
      rw [map_append]
      rcases mem_append.mp hi with hi | hi
      · exact mem_append_left _ (h.stored i hi)
      · cases mem_singleton.mp hi
        exact mem_append_right _ (mem_singleton_self _)
    have hsum := sum_move awaits s.pc t
      (some ⟨id, .setUnlock arg kind newValue oldValue s.origin⟩) i
    have hcount := h.count i
    have hold : awaits (s.pc t) i = 0 := by
      rw [hp]
      rfl
    have hmine : awaits (some ⟨id, .setUnlock arg kind newValue oldValue s.origin⟩ :
        Option (Frame V)) i = if s.origin = i then 1 else 0 := by
      simp only [awaits, elim_some, Point.origin, some.injEq]
    unfold PropertyState.awaiting at hcount ⊢
    simp only [PropertyState.takeEffect, PropertyState.goTo, count_append,
      count_singleton, beq_iff_eq]
    by_cases hi : some id = i
    · simp only [hi, if_true]
      omega
    · simp only [hi, if_false]
      omega
  | setUnlock arg kind newValue oldValue origin =>
    cases hstep
    exact h.goTo hp rfl rfl rfl rfl rfl hsame rfl rfl
  | setRelease arg kind newValue oldValue origin =>
    cases hstep
    refine h.move rfl rfl rfl rfl hsame (fun f _ _ hf hr => by cases hf; cases hr) fun i => ?_
    rw [hp]
    simp only [PropertyState.goTo, awaits, elim_some, Point.origin, some.injEq,
      reduceCtorEq, if_false, count_append, count_singleton, beq_iff_eq]
    omega
  | setReturn arg kind newValue => ?_
  cases hstep
  refine h.move rfl rfl rfl rfl hsame nofun fun i => ?_
  rw [hp]
  rfl

theorem OriginInv.perform (h : OriginInv slot s) (hlin : LinInv slot s) (hlock : LockInv s)
    {a : PropertyAction V ι} (hstep : s.perform a = some s') : OriginInv slot s' := by
  have hsame : ∀ d ∈ s.order, d ∈ s.order := fun _ => id
  cases a with
  | get t =>
    obtain ⟨hidle, ⟨⟩⟩ := ite_none_right_eq_some.mp hstep
    refine h.move rfl rfl rfl rfl hsame (fun f _ _ hf hr => by cases hf; cases hr) fun i => ?_
    rw [isNone_iff_eq_none.mp hidle]
    rfl
  | set t newValue kind =>
    obtain ⟨hidle, ⟨⟩⟩ := ite_none_right_eq_some.mp hstep
    refine h.move rfl rfl rfl rfl hsame (fun f _ _ hf hr => by cases hf; cases hr) fun i => ?_
    rw [isNone_iff_eq_none.mp hidle.1]
    rfl
  | step t =>
    obtain ⟨⟨id, p⟩, hp, hthread⟩ := bind_eq_some_iff.mp hstep
    exact h.stepThread hlin hlock hp hthread
  | copied t copy =>
    obtain ⟨⟨id, p⟩, hp, hcopied⟩ := bind_eq_some_iff.mp hstep
    obtain ⟨arg, kind, rfl, _, _, rfl⟩ := copied_spec hcopied
    exact h.goTo hp rfl rfl rfl rfl rfl hsame rfl rfl
  | retain v => cases hstep; exact { h with }
  | release v | lock | unlock =>
    obtain ⟨-, ⟨⟩⟩ := ite_none_right_eq_some.mp hstep
    exact { h with }

/-! ## Any interleaving -/

structure PropertyInv (slot : Option V) (s : PropertyState V ι) : Prop where
  lock : LockInv s
  refs : RefInv s
  lin : LinInv slot s
  origins : OriginInv slot s

omit [DecidableEq ι] in
theorem PropertyInv.start (slot : Option V) (elsewhere : V → Nat) :
    PropertyInv slot (.start slot elsewhere : PropertyState V ι) where
  lock := ⟨fun _ _ h => (by cases h), fun _ _ h => (by cases h), fun _ _ h => (by cases h)⟩
  refs := fun v => by simp [PropertyState.start, heldBy]
  lin := ⟨.nil cell slot, fun _ h => (by cases h), fun _ _ h => (by cases h),
    fun _ _ h => (by cases h), fun _ _ _ h => (by cases h), fun _ _ _ _ h => (by cases h),
    fun _ _ h => (by cases h)⟩
  origins := by
    refine ⟨rfl, fun _ _ _ _ h => (by cases h), nodup_singleton _, fun i hi => ?_, fun i => ?_⟩
    · cases mem_singleton.mp hi
    by_cases hi : none = i
    · simp [PropertyState.start, PropertyState.awaiting, awaits, ← hi]
    · simp [PropertyState.start, PropertyState.awaiting, awaits, hi]

theorem propertyInv_of_reachable
    (h : (propertySystem slot).Reachable (fun _ => True) s) : PropertyInv slot s := by
  apply h.invariant
  · rintro s ⟨elsewhere, rfl⟩ _
    exact .start slot elsewhere
  intro s a s' hinv _ hstep _
  exact ⟨hinv.lock.perform hstep, hinv.refs.perform hinv.lock hstep, hinv.lin.perform hstep,
    hinv.origins.perform hinv.lin hinv.lock hstep⟩

omit [Fintype ι] in
theorem PropertyState.releases (slot : Option V) (s : PropertyState V ι) {t : ι} {frame : Frame V}
    {origin : Option Nat} (hp : s.pc t = some frame) (horigin : frame.point.origin = some origin) :
    ∃ n s', (propertySystem slot).runFrom (fun _ => True) s (replicate n (.step t)) = some s' ∧
      s'.released = s.released ++ [origin] := by
  have hstep : ∀ (s : PropertyState V ι) id point, s.pc t = some ⟨id, point⟩ →
      (propertySystem slot).step s (.step t) = s.stepThread t id point := by
    intro s id point hp
    show (s.pc t).bind _ = _
    rw [hp, bind_some]
  have hrelease : ∀ (s : PropertyState V ι) id arg kind newValue oldValue,
      s.pc t = some ⟨id, .setRelease arg kind newValue oldValue origin⟩ →
      ∃ s', (propertySystem slot).step s (.step t) = some s' ∧
        s'.released = s.released ++ [origin] :=
    fun s id arg kind newValue oldValue hp => ⟨_, (hstep s id _ hp).trans rfl, rfl⟩
  obtain ⟨id, point⟩ := frame
  cases point <;> cases horigin
  case setUnlock arg kind newValue oldValue =>
    have hunlock := hstep s id _ hp
    obtain ⟨s', hlast, hreleased⟩ := hrelease ({ s with lock := none }.goTo t id
      (.setRelease arg kind newValue oldValue origin)) id arg kind newValue oldValue (update_self ..)
    refine ⟨2, s', ?_, hreleased⟩
    simp only [replicate, System.runFrom, hunlock, stepThread, bind_some, if_true, hlast]
  case setRelease arg kind newValue oldValue =>
    obtain ⟨s', hlast, hreleased⟩ := hrelease s id arg kind newValue oldValue hp
    exact ⟨1, s', by simp only [replicate, System.runFrom, hlast, bind_some, if_true], hreleased⟩

/-- **An atomic property**, for any number of threads and in every state of every interleaving.
A getter retains a value that the slot owns a reference to, besides those of the threads and of
the rest of the program.  What a call installed is not released while it is in the slot; once it is
replaced, it was released once or one setter is going to release it, which it can do by itself, and
what that setter releases is the value that the call installed.  The history of calls and returns
is one of an atomic cell. -/
theorem atomic_property_is_safe (slot : Option V) (s : PropertyState V ι)
    (h : (propertySystem slot).Reachable (fun _ => True) s) :
    (∀ t id v, s.pc t = some ⟨id, .getRetain (some v)⟩ →
      s.slot = some v ∧ s.refs v = s.elsewhere v + (∑ u, heldBy (s.pc u) v) + 1) ∧
    (s.installed.Nodup ∧ (∀ i ∈ s.installed,
      s.released.count i + s.awaiting i = if s.origin = i then 0 else 1) ∧
      ∀ t id arg kind newValue oldValue origin,
        s.pc t = some ⟨id, .setRelease arg kind newValue oldValue origin⟩ →
          Installed slot s.order origin oldValue) ∧
    (∀ t frame origin, s.pc t = some frame → frame.point.origin = some origin →
      ∃ n s', (propertySystem slot).runFrom (fun _ => True) s (replicate n (.step t)) = some s' ∧
        s'.released = s.released ++ [origin]) ∧
    Linearizable cell slot s.hist := by
  have hinv := propertyInv_of_reachable h
  refine ⟨fun t id v hp => ?_, ⟨hinv.origins.nodup, fun i hi => ?_,
    fun t _ _ _ _ oldValue origin hp => hinv.origins.replaced t _ oldValue origin hp rfl⟩,
    fun _ _ _ hp horigin => s.releases slot hp horigin, ⟨s.order, s.slot, hinv.lin.lin⟩⟩
  · have hslot : s.slot = some v := hinv.lock.sees t _ hp
    have hrefs := hinv.refs v
    rw [hslot, own, if_pos rfl] at hrefs
    exact ⟨hslot, by omega⟩
  have hcount := hinv.origins.count i
  rw [count_eq_one_of_mem hinv.origins.nodup hi] at hcount
  split at hcount
  next heq => rw [if_pos heq]; omega
  next hne => rw [if_neg hne]; omega

/-- A setter has stored its value and is going to release the old one, when a getter reads and is
going to retain the new one. -/
theorem getter_after_store :
    ∃ s : PropertyState Bool Bool, (propertySystem (some true)).Reachable (fun _ => True) s ∧
      s.pc false = some ⟨0, .getRetain (some false)⟩ ∧
      s.pc true = some ⟨1, .setRelease (some false) .retain (some false) (some true) none⟩ ∧
      s.slot = some false ∧
      s.refs false = s.elsewhere false + (∑ u, heldBy (s.pc u) false) + 1 ∧
      ∃ n s', (propertySystem (some true)).runFrom (fun _ => True) s (replicate n (.step true))
        = some s' ∧ s'.released = s.released ++ [none] := by
  have hrun : ((propertySystem (some true)).runFrom (fun _ => True)
      (.start (some true) fun _ => 1 : PropertyState Bool Bool)
      ([.get false, .set true (some false) .retain] ++ replicate 6 (.step true)
        ++ replicate 2 (.step false))).map (fun s => decide (
          s.pc false = some ⟨0, .getRetain (some false)⟩ ∧
          s.pc true = some ⟨1, .setRelease (some false) .retain (some false) (some true) none⟩))
      = some true := by
    decide +kernel
  obtain ⟨s, hs, hpoint⟩ := map_eq_some_iff.mp hrun
  have hreach : (propertySystem (some true)).Reachable (fun _ => True) s :=
    .of_run _ (.init ⟨fun _ => 1, rfl⟩ trivial) hs
  obtain ⟨hget, hset⟩ := of_decide_eq_true hpoint
  obtain ⟨hsafe, _, hreleases, _⟩ := atomic_property_is_safe (some true) s hreach
  obtain ⟨hslot, hrefs⟩ := hsafe false 0 false hget
  exact ⟨s, hreach, hget, hset, hslot, hrefs, hreleases true _ none hset rfl⟩

end ObjcRuntime
