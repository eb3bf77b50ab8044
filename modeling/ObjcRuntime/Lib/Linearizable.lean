/-
LINEARIZABLE HISTORIES.

A history is the sequence of calls and returns of operations that overlap in
time. It is linearizable to a sequential object when the operations can be
put into one order, in which the object allows them with the results that
they return and in which an operation that returned before another one was
called comes first.

* `Linearizes`: such an order, with the state that it ends in,
* `Linearizes.call`, `Linearizes.point`, `Linearizes.ret`: the order grows
  at the linearization points; calls and returns do not change it.
-/
import Mathlib.Data.List.Nodup

namespace ObjcRuntime.Lib

open List

variable {σ Op Res : Type*}

/-! ## Histories and sequential objects -/

/-- A call or a return; `id` is the operation. -/
inductive Event (Op Res : Type*) where
  | call (id : Nat) (op : Op)
  | ret (id : Nat) (res : Res)

def Event.id : Event Op Res → Nat
  | .call id _ => id
  | .ret id _ => id

structure Done (Op Res : Type*) where
  id : Nat
  op : Op
  res : Res

/-- The object performs the operations in order; `none` when it does not allow a result. -/
def replay (next : σ → Op → Res → Option σ) : σ → List (Done Op Res) → Option σ
  | s, [] => some s
  | s, d :: ds => (next s d.op d.res).bind fun s' => replay next s' ds

theorem replay_append (next : σ → Op → Res → Option σ) (ds ds' : List (Done Op Res)) :
    ∀ s, replay next s (ds ++ ds') = (replay next s ds).bind fun s' => replay next s' ds' := by
  induction ds with
  | nil => intro s; rfl
  | cons d ds ih =>
    intro s
    rw [cons_append, replay, replay, Option.bind_assoc]
    exact congrArg _ (funext ih)

/-- `order` linearizes the history and leaves the object in the state `s`. -/
structure Linearizes (next : σ → Op → Res → Option σ) (s₀ : σ) (hist : List (Event Op Res))
    (order : List (Done Op Res)) (s : σ) : Prop where
  legal : replay next s₀ order = some s
  nodup : (order.map Done.id).Nodup
  called : ∀ d ∈ order, .call d.id d.op ∈ hist
  returned : ∀ id res, .ret id res ∈ hist → ∃ op, ⟨id, op, res⟩ ∈ order
  /-- What returned before the call of another operation comes before it. -/
  precedes : ∀ i j res op, [.ret i res, .call j op].Sublist hist → j ∈ order.map Done.id →
    [i, j].Sublist (order.map Done.id)

def Linearizable (next : σ → Op → Res → Option σ) (s₀ : σ) (hist : List (Event Op Res)) : Prop :=
  ∃ order s, Linearizes next s₀ hist order s

/-! ## Linearization points -/

variable {next : σ → Op → Res → Option σ} {s₀ s : σ} {hist : List (Event Op Res)}
  {order : List (Done Op Res)}

theorem Linearizes.nil (next : σ → Op → Res → Option σ) (s₀ : σ) :
    Linearizes next s₀ [] [] s₀ :=
  ⟨rfl, nodup_nil, fun _ h => (by cases h), fun _ _ h => (by cases h),
    fun _ _ _ _ h => (by cases h)⟩

theorem sublist_pair_append_singleton {α : Type*} {a b c : α} {l : List α}
    (h : [a, b].Sublist (l ++ [c])) : [a, b].Sublist l ∨ b = c ∧ a ∈ l := by
  obtain ⟨l1, l2, heq, h1, h2⟩ := sublist_append_iff.mp h
  rcases l2 with _ | ⟨x, _ | ⟨y, l2⟩⟩
  · rw [append_nil] at heq
    exact .inl (heq ▸ h1)
  · obtain ⟨rfl, hx⟩ : l1 = [a] ∧ x = b := by
      have hleft : [a] = l1 := append_inj_left' (show [a] ++ [b] = l1 ++ [x] from heq) rfl
      subst hleft
      simpa using heq.symm
    refine .inr ⟨?_, singleton_sublist.mp h1⟩
    rw [← hx]
    exact mem_singleton.mp (h2.subset mem_cons_self)
  · have := h2.length_le
    simp at this

variable {id : Nat}

section

variable (h : Linearizes next s₀ hist order s)

include h

theorem Linearizes.call (op : Op)
    (hnew : ∀ e ∈ hist, e.id ≠ id) : Linearizes next s₀ (hist ++ [.call id op]) order s := by
  refine ⟨h.legal, h.nodup, fun d hd => mem_append_left _ (h.called d hd), fun i res hin => ?_,
    fun i j res op' hsub hj => ?_⟩
  · refine h.returned i res ((mem_append.mp hin).resolve_right fun hin => ?_)
    cases mem_singleton.mp hin
  rcases sublist_pair_append_singleton hsub with hsub | ⟨heq, _⟩
  · exact h.precedes i j res op' hsub hj
  -- the new operation has no linearization point yet
  cases heq
  obtain ⟨d, hd, rfl⟩ := mem_map.mp hj
  exact absurd rfl (hnew _ (h.called d hd))

theorem Linearizes.point {op : Op} {res : Res} {s' : σ}
    (hcalled : .call id op ∈ hist) (hnew : id ∉ order.map Done.id)
    (hnext : next s op res = some s') :
    Linearizes next s₀ hist (order ++ [⟨id, op, res⟩]) s' := by
  have hids : (order ++ [(⟨id, op, res⟩ : Done Op Res)]).map Done.id
      = order.map Done.id ++ [id] := by
    rw [map_append, map_singleton]
  refine ⟨?_, ?_, fun d hd => ?_, fun i r hin => ?_, fun i j r op' hsub hj => ?_⟩
  · rw [replay_append, h.legal, Option.bind_some, replay, hnext, Option.bind_some, replay]
  · rw [hids, nodup_append]
    refine ⟨h.nodup, nodup_singleton id, fun a ha b hb => ?_⟩
    rw [mem_singleton.mp hb]
    rintro rfl
    exact hnew ha
  · rcases mem_append.mp hd with hd | hd
    · exact h.called d hd
    · rw [mem_singleton.mp hd]
      exact hcalled
  · obtain ⟨op', hin'⟩ := h.returned i r hin
    exact ⟨op', mem_append_left _ hin'⟩
  rw [hids] at hj ⊢
  obtain ⟨op0, hin⟩ := h.returned i r (hsub.subset mem_cons_self)
  have hi : i ∈ order.map Done.id := mem_map.mpr ⟨_, hin, rfl⟩
  rcases mem_append.mp hj with hj | hj
  · exact (h.precedes i j r op' hsub hj).trans (sublist_append_left _ _)
  · rw [mem_singleton.mp hj]
    exact Sublist.append (singleton_sublist.mpr hi) (Sublist.refl [id])

theorem Linearizes.ret {op : Op} {res : Res}
    (hdone : ⟨id, op, res⟩ ∈ order) : Linearizes next s₀ (hist ++ [.ret id res]) order s := by
  refine ⟨h.legal, h.nodup, fun d hd => mem_append_left _ (h.called d hd), fun i r hin => ?_,
    fun i j r op' hsub hj => ?_⟩
  · rcases mem_append.mp hin with hin | hin
    · exact h.returned i r hin
    · cases mem_singleton.mp hin
      exact ⟨op, hdone⟩
  · rcases sublist_pair_append_singleton hsub with hsub | ⟨heq, _⟩
    · exact h.precedes i j r op' hsub hj
    · cases heq

end

end ObjcRuntime.Lib
