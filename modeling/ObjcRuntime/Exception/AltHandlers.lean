/-
THE ORDER OF ALT HANDLERS.

objc-exception.mm keeps the handlers of `objc_addExceptionHandler` in an array
of slots. A removed handler leaves a hole, and the next one takes the first
hole; but `call_alt_handlers` goes through the slots under a comment that says
"called in order registered". OBJC_DEBUG_ALT_HANDLERS is off.
-/
import Mathlib.Data.List.Perm.Basic

namespace ObjcRuntime

open List

/-! ## The functions -/

/-- What a handler is for; `ips`, if there, ends with a zero entry. -/
structure FrameRange where
  ip_start : Nat
  ip_end : Nat
  cfa : Nat
  ips : Option (List (Nat × Nat))

def FrameRange.inIps (ip : Nat) : List (Nat × Nat) → Bool
  | [] => false
  | (start, stop) :: ips =>
    if start = 0 ∧ stop = 0 then false
    else decide (start ≤ ip ∧ ip < stop) || inIps ip ips

def FrameRange.matches (frame : FrameRange) (ip cfa : Nat) : Bool :=
  decide (frame.ip_start ≤ ip ∧ ip < frame.ip_end ∧ frame.cfa = cfa) &&
    frame.ips.all (inIps ip)

structure AltHandlerData (F : Type) where
  frame : FrameRange
  fn : Option F
  context : Nat

/-- `alt_handler_list`. An empty slot is all zero there, and no handler has `ip_start` zero. -/
structure AltHandlerList (F : Type) where
  used : Nat
  handlers : List (Option (AltHandlerData F))

def occupied {α : Type} (slots : List (Option α)) : List (Nat × α) :=
  (slots.zipIdx 1).filterMap fun slot => slot.1.map (slot.2, ·)

variable {F : Type}

namespace AltHandlerList

/-- The token and the list, or nothing where the runtime stops; `target_frame` is the result of
`findHandler`. -/
def objc_addExceptionHandler (list : AltHandlerList F) (target_frame : FrameRange)
    (fn : Option F) (context : Nat) : Option (Nat × AltHandlerList F) :=
  if target_frame.ip_start = 0 then some (0, list)
  else
    let data : AltHandlerData F := ⟨target_frame, fn, context⟩
    if list.used = list.handlers.length then
      let allocated := if list.handlers.length * 2 = 0 then 4 else list.handlers.length * 2
      some (list.used + 1, ⟨list.used + 1,
        (list.handlers ++ replicate (allocated - list.used) none).set list.used (some data)⟩)
    else
      let i := list.handlers.findIdx (·.isNone)
      if i = list.handlers.length then none
      else some (i + 1, ⟨list.used + 1, list.handlers.set i (some data)⟩)

def objc_removeExceptionHandler (list : AltHandlerList F) (token : Nat) :
    Option (AltHandlerList F) :=
  if token = 0 then some list
  else
    match list.handlers[token - 1]? with
    | some (some _) => some ⟨list.used - 1, list.handlers.set (token - 1) none⟩
    | _ => none

def call_alt_handlers (list : AltHandlerList F) (ip cfa : Nat) :
    List (Nat × AltHandlerData F) × AltHandlerList F :=
  if list.used = 0 then ([], list)
  else
    let cleared := (occupied list.handlers).filter (·.2.frame.matches ip cfa)
    (cleared.filter (·.2.fn.isSome), ⟨list.used - cleared.length,
      list.handlers.map (Option.filter fun data => !data.frame.matches ip cfa)⟩)

end AltHandlerList

/-- A call before the unwind. `remove k` is with the token of the `k`-th handler that is still
registered, or with zero. -/
inductive AltOp (F : Type)
  | add (target_frame : FrameRange) (fn : Option F) (context : Nat)
  | remove (k : Nat)

structure AltRun (F : Type) where
  list : AltHandlerList F
  registered : List (Nat × AltHandlerData F)

namespace AltRun

def step (s : AltRun F) : AltOp F → Option (AltRun F)
  | .add target_frame fn context =>
    (s.list.objc_addExceptionHandler target_frame fn context).map fun r =>
      ⟨r.2, if r.1 = 0 then s.registered
        else s.registered ++ [(r.1, ⟨target_frame, fn, context⟩)]⟩
  | .remove k =>
    (s.list.objc_removeExceptionHandler (s.registered[k]?.elim 0 (·.1))).map fun list =>
      ⟨list, s.registered.eraseIdx k⟩

def run (ops : List (AltOp F)) : Option (AltRun F) :=
  ops.foldlM step ⟨⟨0, []⟩, []⟩

def callable (s : AltRun F) (ip cfa : Nat) : List (Nat × AltHandlerData F) :=
  s.registered.filter fun r => r.2.frame.matches ip cfa && r.2.fn.isSome

def Dense (s : AltRun F) (ip cfa : Nat) : Prop :=
  ∀ r ∈ s.callable ip cfa, ∀ slot ∈ s.list.handlers.take (r.1 - 1), slot.isSome = true

instance (s : AltRun F) (ip cfa : Nat) : Decidable (s.Dense ip cfa) :=
  inferInstanceAs (Decidable (∀ r ∈ s.callable ip cfa, _))

def addsInOrder (ip cfa : Nat) : List (AltOp F) → AltRun F → Bool
  | [], _ => true
  | op :: ops, s =>
    (match op with
      | .add target_frame fn _ =>
        !(target_frame.matches ip cfa && fn.isSome) || decide (s.Dense ip cfa)
      | .remove _ => true) &&
    (s.step op).all (addsInOrder ip cfa ops)

end AltRun

/-! ## The slots in use -/

section

variable {α : Type} {slots : List (Option α)}

theorem mem_occupied {r : Nat × α} (h : r ∈ occupied slots) :
    0 < r.1 ∧ slots[r.1 - 1]? = some (some r.2) := by
  obtain ⟨⟨o, i⟩, hmem, hslot⟩ := mem_filterMap.mp h
  obtain ⟨x, rfl, rfl⟩ := Option.map_eq_some_iff.mp hslot
  exact mk_mem_zipIdx_iff_le_and_getElem?_sub.mp hmem

theorem occupied_set (x : α) {i : Nat} (h : slots[i]? = some none) :
    (occupied (slots.set i (some x))).Perm ((i + 1, x) :: occupied slots) := by
  obtain ⟨hlt, hnone⟩ := List.getElem?_eq_some_iff.mp h
  have hsplit : slots = slots.take i ++ none :: slots.drop (i + 1) := by
    rw [← hnone, getElem_cons_drop, take_append_drop]
  have hlen : (slots.take i).length = i := length_take_of_le (Nat.le_of_lt hlt)
  rw [set_eq_take_append_cons_drop, if_pos hlt]
  nth_rewrite 3 [hsplit]
  simp only [occupied, zipIdx_append, filterMap_append, zipIdx_cons, filterMap_cons, hlen,
    Option.map_some, Option.map_none, Nat.add_comm 1 i]
  exact perm_middle

theorem occupied_append_none (k : Nat) : occupied (slots ++ replicate k none) = occupied slots := by
  unfold occupied
  rw [zipIdx_append, filterMap_append]
  have hnone : ∀ r ∈ (replicate k (none : Option α)).zipIdx (1 + slots.length),
      r.1.map (r.2, ·) = none := by
    intro r hr
    rw [eq_of_mem_replicate (fst_mem_of_mem_zipIdx hr)]
    rfl
  rw [filterMap_eq_nil_iff.mpr hnone, append_nil]

theorem occupied_ascends (slots : List (Option α)) : (occupied slots).Pairwise (·.1 < ·.1) := by
  have hindex : (slots.zipIdx 1).Pairwise (·.2 < ·.2) := by
    refine pairwise_map.mp ?_
    rw [zipIdx_map_snd]
    exact pairwise_lt_range'
  refine hindex.filterMap _ fun a b hab r hr r' hr' => ?_
  obtain ⟨x, -, rfl⟩ := Option.map_eq_some_iff.mp hr
  obtain ⟨y, -, rfl⟩ := Option.map_eq_some_iff.mp hr'
  exact hab

theorem occupied_filter (p : α → Bool) :
    occupied (slots.map (Option.filter p)) = (occupied slots).filter (p ·.2) := by
  unfold occupied
  rw [zipIdx_map, filterMap_map, filter_filterMap]
  refine filterMap_congr fun slot _ => ?_
  obtain ⟨o, i⟩ := slot
  cases o with
  | none => rfl
  | some x => simp [Option.filter]

end

/-! ## Every sequence of calls -/

namespace AltRun

structure Inv (s : AltRun F) : Prop where
  perm : s.registered.Perm (occupied s.list.handlers)
  used : s.list.used = s.registered.length

variable {s : AltRun F} (h : s.Inv)

include h

theorem Inv.fill {handlers : List (Option (AltHandlerData F))} {i : Nat}
    (data : AltHandlerData F) (hsame : occupied handlers = occupied s.list.handlers)
    (hi : handlers[i]? = some none) :
    Inv ⟨⟨s.list.used + 1, handlers.set i (some data)⟩, s.registered ++ [(i + 1, data)]⟩ := by
  have hset := occupied_set data hi
  rw [hsame] at hset
  refine ⟨(perm_append_singleton _ _).trans ((h.perm.cons _).trans hset.symm), ?_⟩
  show s.list.used + 1 = _
  rw [h.used, length_append]
  rfl

theorem Inv.add (target_frame : FrameRange) (fn : Option F) (context : Nat) :
    ∃ s', s.step (.add target_frame fn context) = some s' ∧ s'.Inv := by
  simp only [step, AltHandlerList.objc_addExceptionHandler]
  by_cases hstart : target_frame.ip_start = 0
  · rw [if_pos hstart]
    exact ⟨s, rfl, h⟩
  rw [if_neg hstart]
  by_cases hfull : s.list.used = s.list.handlers.length
  · rw [if_pos hfull]
    refine ⟨_, rfl, h.fill _ (occupied_append_none _) ?_⟩
    rw [hfull, getElem?_append_right (Nat.le_refl _), Nat.sub_self, getElem?_replicate, if_pos]
    split <;> omega
  have hlt : s.list.handlers.findIdx (·.isNone) < s.list.handlers.length := by
    refine Nat.lt_of_le_of_ne findIdx_le_length fun hall => hfull ?_
    rw [h.used, h.perm.length_eq, occupied, filterMap_length_eq_length.mpr, length_zipIdx]
    intro r hr
    have := findIdx_eq_length.mp hall r.1 (fst_mem_of_mem_zipIdx hr)
    simpa using this
  rw [if_neg hfull, if_neg (Nat.ne_of_lt hlt)]
  refine ⟨_, rfl, h.fill _ rfl ?_⟩
  rw [getElem?_eq_getElem hlt]
  exact congrArg some (Option.isNone_iff_eq_none.mp (findIdx_getElem (w := hlt)))

theorem Inv.remove (k : Nat) : ∃ s', s.step (.remove k) = some s' ∧ s'.Inv := by
  simp only [step, AltHandlerList.objc_removeExceptionHandler]
  cases hk : s.registered[k]? with
  | none =>
    refine ⟨_, rfl, ?_⟩
    rw [eraseIdx_of_length_le (getElem?_eq_none_iff.mp hk)]
    exact h
  | some r => ?_
  obtain ⟨hlt, rfl⟩ := List.getElem?_eq_some_iff.mp hk
  obtain ⟨hpos, hslot⟩ := mem_occupied (h.perm.mem_iff.mp (getElem_mem hlt))
  have herase := getElem_cons_eraseIdx_perm hlt
  generalize s.registered[k] = r at *
  simp only [Option.elim_some, Nat.ne_of_gt hpos, if_false, hslot]
  refine ⟨_, rfl, ?_, ?_⟩
  · -- the slot is one that the handler could fill
    obtain ⟨hlen, hdata⟩ := List.getElem?_eq_some_iff.mp hslot
    have hempty : (s.list.handlers.set (r.1 - 1) none)[r.1 - 1]? = some none := by simp [hlen]
    have hback := occupied_set r.2 hempty
    rw [set_set, ← hdata, set_getElem_self, Nat.sub_add_cancel hpos] at hback
    exact (perm_cons r).mp (herase.trans (h.perm.trans hback))
  have hlength := herase.length_eq
  rw [length_cons] at hlength
  show s.list.used - 1 = (s.registered.eraseIdx k).length
  rw [h.used]
  omega

theorem Inv.run (ops : List (AltOp F)) : ∃ s', ops.foldlM step s = some s' ∧ s'.Inv := by
  induction ops generalizing s with
  | nil => exact ⟨s, rfl, h⟩
  | cons op ops ih => ?_
  have hstep : ∃ s', s.step op = some s' ∧ s'.Inv := by
    cases op with
    | add target_frame fn context => exact h.add target_frame fn context
    | remove k => exact h.remove k
  obtain ⟨s1, hs1, h1⟩ := hstep
  rw [foldlM_cons, hs1]
  exact ih h1

theorem Inv.call (ip cfa : Nat) :
    (s.list.call_alt_handlers ip cfa).1 = (occupied s.list.handlers).filter
        (fun r => r.2.frame.matches ip cfa && r.2.fn.isSome) ∧
      occupied (s.list.call_alt_handlers ip cfa).2.handlers
        = (occupied s.list.handlers).filter fun r => !r.2.frame.matches ip cfa := by
  unfold AltHandlerList.call_alt_handlers
  split
  next hzero =>
    have hempty : occupied s.list.handlers = [] := by
      refine eq_nil_of_length_eq_zero ?_
      rw [← h.perm.length_eq, ← h.used, hzero]
    rw [hempty]
    exact ⟨rfl, rfl⟩
  refine ⟨?_, occupied_filter _⟩
  simp only [filter_filter, Bool.and_comm]

/-! ## The order of the tokens -/

theorem Inv.add_ascends {target_frame : FrameRange} {fn : Option F} {context ip cfa : Nat}
    {s' : AltRun F} (hasc : (s.callable ip cfa).Pairwise (·.1 < ·.1))
    (hdense : (target_frame.matches ip cfa && fn.isSome) = true → s.Dense ip cfa)
    (hstep : s.step (.add target_frame fn context) = some s') :
    (s'.callable ip cfa).Pairwise (·.1 < ·.1) := by
  have hslot : ∀ r ∈ s.callable ip cfa, 0 < r.1 ∧ s.list.handlers[r.1 - 1]? = some (some r.2) :=
    fun r hr => mem_occupied (h.perm.mem_iff.mp (mem_of_mem_filter hr))
  -- the new handler is the last one registered
  have hlast : ∀ (token : Nat) (list : AltHandlerList F),
      ((target_frame.matches ip cfa && fn.isSome) = true → ∀ r ∈ s.callable ip cfa, r.1 < token) →
      (callable ⟨list, s.registered ++ [(token, ⟨target_frame, fn, context⟩)]⟩ ip cfa).Pairwise
        (·.1 < ·.1) := by
    intro token list habove
    unfold callable at hasc habove ⊢
    rw [filter_append]
    by_cases hm : (target_frame.matches ip cfa && fn.isSome) = true
    · simp only [filter_cons, filter_nil, hm, if_true]
      refine pairwise_append.mpr ⟨hasc, pairwise_singleton _ _, fun r hr r' hr' => ?_⟩
      rw [mem_singleton.mp hr']
      exact habove hm r hr
    · simp only [filter_cons, filter_nil, hm, Bool.false_eq_true, if_false, append_nil]
      exact hasc
  simp only [step, AltHandlerList.objc_addExceptionHandler] at hstep
  split at hstep
  next =>
    cases hstep
    exact hasc
  split at hstep
  next hfull =>
    cases hstep
    refine hlast _ _ fun _ r hr => ?_
    obtain ⟨hlt, -⟩ := List.getElem?_eq_some_iff.mp (hslot r hr).2
    omega
  split at hstep
  next => cases hstep
  next hfind =>
    cases hstep
    refine hlast _ _ fun hm r hr => ?_
    obtain ⟨hpos, hget⟩ := hslot r hr
    have hi : s.list.handlers.findIdx (·.isNone) < s.list.handlers.length :=
      Nat.lt_of_le_of_ne findIdx_le_length hfind
    have hhole : s.list.handlers[s.list.handlers.findIdx (·.isNone)].isNone = true :=
      findIdx_getElem (w := hi)
    generalize s.list.handlers.findIdx (·.isNone) = i at hi hhole
    by_contra hle
    rcases Nat.lt_or_ge i (r.1 - 1) with hlt | hge
    · have hused := hdense hm r hr s.list.handlers[i]
        (mem_take_iff_getElem.mpr ⟨i, by omega, rfl⟩)
      rw [Option.isNone_iff_eq_none.mp hhole] at hused
      cases hused
    · rw [show r.1 - 1 = i by omega, getElem?_eq_getElem hi] at hget
      rw [Option.some.inj hget] at hhole
      cases hhole

omit h in
theorem remove_ascends {k ip cfa : Nat} {s' : AltRun F}
    (hasc : (s.callable ip cfa).Pairwise (·.1 < ·.1)) (hstep : s.step (.remove k) = some s') :
    (s'.callable ip cfa).Pairwise (·.1 < ·.1) := by
  obtain ⟨list, -, rfl⟩ := Option.map_eq_some_iff.mp hstep
  exact hasc.sublist ((eraseIdx_sublist s.registered k).filter _)

/-- **The tokens of the handlers for the frame ascend**, by induction on the calls. -/
theorem Inv.ascends {ip cfa : Nat} (ops : List (AltOp F)) {s' : AltRun F}
    (hasc : (s.callable ip cfa).Pairwise (·.1 < ·.1)) (hops : addsInOrder ip cfa ops s = true)
    (hrun : ops.foldlM step s = some s') : (s'.callable ip cfa).Pairwise (·.1 < ·.1) := by
  induction ops generalizing s with
  | nil =>
    cases hrun
    exact hasc
  | cons op ops ih => ?_
  rw [foldlM_cons] at hrun
  obtain ⟨s1, hs1, hrest⟩ := Option.bind_eq_some_iff.mp hrun
  cases op with
  | add target_frame fn context =>
    simp only [addsInOrder, hs1, Option.all_some, Bool.and_eq_true] at hops
    obtain ⟨hadd, hops⟩ := hops
    obtain ⟨s2, hs2, h2⟩ := h.add target_frame fn context
    rw [hs1] at hs2
    cases hs2
    refine ih h2 (h.add_ascends hasc (fun hm => ?_) hs1) hops hrest
    rw [hm] at hadd
    exact of_decide_eq_true hadd
  | remove k =>
    simp only [addsInOrder, hs1, Option.all_some, Bool.true_and] at hops
    obtain ⟨s2, hs2, h2⟩ := h.remove k
    rw [hs1] at hs2
    cases hs2
    exact ih h2 (remove_ascends hasc hs1) hops hrest

end AltRun

end ObjcRuntime
