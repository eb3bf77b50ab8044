/-
WHAT AN AUTORELEASE POOL IS FOR.

NSObject.mm: "A thread's autorelease pool is a stack of pointers. Each pointer
is either an object to release, or POOL_BOUNDARY".

* `StackMachine`: one stack, and one frame for each `pop` in progress and
  for each release it is in the middle of,
* `StackMachine.WF`: the places of the tokens; every step keeps it.
-/
import Mathlib.Computability.StateTransition
import ObjcRuntime.Weak.Entry

namespace ObjcRuntime

open StateTransition List

/-! ## Code that uses pools -/

/-- One use of the pools of the current thread. `pop n` pops the token of the `n`-th most
recent push of the same code among those whose tokens are still valid. -/
inductive PoolOp (α : Type) where
  | push
  | autorelease (obj : α)
  | pop (n : Nat)

/-- An autoreleased object: which one it is, and what its `-release` will run. -/
inductive Pending where
  | mk (obj : ObjPtr) (code : List (PoolOp Pending))

/-- A slot of the pool, `none` for `POOL_BOUNDARY`. -/
abbrev PoolEntry := Option Pending

mutual

def Pending.balanced : Pending → Bool
  | .mk _ code => codeDepth 0 code == some 0

/-- The number of valid tokens that the code holds at its end, when it starts with `depth` of
them; `none` when it pops a token it does not hold. -/
def codeDepth (depth : Nat) : List (PoolOp Pending) → Option Nat
  | [] => some depth
  | .push :: ops => codeDepth (depth + 1) ops
  | .autorelease obj :: ops => if obj.balanced then codeDepth depth ops else none
  | .pop n :: ops => if n < depth then codeDepth (depth - (n + 1)) ops else none

end

theorem balanced_of_autorelease_mem {obj : Pending} {ops : List (PoolOp Pending)} :
    ∀ {depth d : Nat}, codeDepth depth ops = some d → .autorelease obj ∈ ops →
      obj.balanced = true := by
  induction ops with
  | nil => intro _ _ _ hmem; cases hmem
  | cons op ops ih => ?_
  intro depth d hdepth hmem
  cases op with
  | push =>
    exact ih hdepth (by simpa using hmem)
  | autorelease obj' =>
    obtain ⟨hb, hdepth⟩ := Option.ite_none_right_eq_some.mp hdepth
    rcases mem_cons.mp hmem with heq | hmem
    · cases heq
      exact hb
    · exact ih hdepth hmem
  | pop n => ?_
  rw [codeDepth] at hdepth
  split at hdepth
  next => exact ih hdepth (by simpa using hmem)
  next => cases hdepth

/-! ## The stack machine -/

/-- What the thread is in the middle of: code, with the heights of the stack at its valid
tokens (the most recent first), or a `pop` to a height. -/
inductive StackFrame where
  | code (ops : List (PoolOp Pending)) (heights : List Nat)
  | releasing (height : Nat)

def StackFrame.heights : StackFrame → List Nat
  | .code _ heights => heights
  | .releasing height => [height]

structure StackMachine where
  stack : List PoolEntry
  frames : List StackFrame
  released : List ObjPtr

def StackMachine.step (m : StackMachine) : Option StackMachine :=
  match m.frames with
  | [] => none
  | .code [] heights :: frames =>
    -- the code of a release returns with its pools popped; the outermost code just ends
    if heights = [] ∧ frames ≠ [] then some { m with frames := frames } else none
  | .code (.push :: ops) heights :: frames =>
    some { m with
      stack := m.stack ++ [none]
      frames := .code ops (m.stack.length :: heights) :: frames }
  | .code (.autorelease obj :: ops) heights :: frames =>
    some { m with stack := m.stack ++ [some obj], frames := .code ops heights :: frames }
  | .code (.pop n :: ops) heights :: frames =>
    match heights[n]? with
    | none => none
    | some h =>
      some { m with frames := .releasing h :: .code ops (heights.drop (n + 1)) :: frames }
  | .releasing h :: frames =>
    if m.stack.length = h then some { m with frames := frames }
    else
      match m.stack.getLast? with
      | none => none
      | some none => some { m with stack := m.stack.dropLast }
      | some (some (.mk obj code)) =>
        some { stack := m.stack.dropLast, frames := .code code [] :: .releasing h :: frames
               released := m.released ++ [obj] }

def StackMachine.start (program : List (PoolOp Pending)) : StackMachine :=
  ⟨[], [.code program []], []⟩

variable {st : List PoolEntry} {h : Nat}

theorem StackMachine.step_releasing_boundary
    (hle : h ≤ st.length) (frames : List StackFrame) (log : List ObjPtr) :
    StackMachine.step ⟨st ++ [none], .releasing h :: frames, log⟩
      = some ⟨st, .releasing h :: frames, log⟩ := by
  have hne : ¬ st.length + 1 = h := by omega
  simp [StackMachine.step, hne]

theorem StackMachine.step_releasing_object
    (hle : h ≤ st.length) (obj : ObjPtr) (code : List (PoolOp Pending))
    (frames : List StackFrame) (log : List ObjPtr) :
    StackMachine.step ⟨st ++ [some (.mk obj code)], .releasing h :: frames, log⟩
      = some ⟨st, .code code [] :: .releasing h :: frames, log ++ [obj]⟩ := by
  have hne : ¬ st.length + 1 = h := by omega
  simp [StackMachine.step, hne]

theorem StackMachine.step_releasing_done (st : List PoolEntry) (frames : List StackFrame)
    (log : List ObjPtr) :
    StackMachine.step ⟨st, .releasing st.length :: frames, log⟩ = some ⟨st, frames, log⟩ := by
  simp [StackMachine.step]

/-! ## Well-formed machines -/

/-- The heights in use lie strictly below one another, from the innermost frame outwards, and
each is the place of a boundary, unless its `pop` has just removed it. -/
structure StackMachine.WF (m : StackMachine) : Prop where
  decreasing : (m.frames.flatMap StackFrame.heights).Pairwise (· > ·)
  boundary : ∀ h ∈ m.frames.flatMap StackFrame.heights,
    m.stack[h]? = some none ∨ m.frames.head? = some (.releasing h) ∧ m.stack.length = h

theorem StackMachine.start_wf (program : List (PoolOp Pending)) : (start program).WF :=
  ⟨by simp [start, StackFrame.heights], by simp [start, StackFrame.heights]⟩

variable {frames : List StackFrame} {log : List ObjPtr}

theorem StackMachine.WF.boundary_of_code {ops : List (PoolOp Pending)} {heights : List Nat}
    (hwf : WF ⟨st, .code ops heights :: frames, log⟩)
    (hh : h ∈ (StackFrame.code ops heights :: frames).flatMap StackFrame.heights) :
    st[h]? = some none := by
  rcases hwf.boundary h hh with hb | ⟨hhead, _⟩
  · exact hb
  · simp at hhead

theorem StackMachine.WF.boundary_below {h h' : Nat} (hwf : WF ⟨st, .releasing h :: frames, log⟩)
    (hh : h' ∈ frames.flatMap StackFrame.heights) : h' < h ∧ st[h']? = some none := by
  have hlt : h' < h := (pairwise_cons.mp hwf.decreasing).1 h' hh
  rcases hwf.boundary h' (mem_append_right _ hh) with hb | ⟨hhead, _⟩
  · exact ⟨hlt, hb⟩
  · simp only [head?_cons, Option.some.injEq, StackFrame.releasing.injEq] at hhead
    omega

theorem StackMachine.WF.releasing_le (hwf : WF ⟨st, .releasing h :: frames, log⟩) :
    st[h]? = some none ∨ st.length = h := by
  rcases hwf.boundary h (by simp [StackFrame.heights]) with hb | ⟨_, hlen⟩
  · exact .inl hb
  · exact .inr hlen

theorem boundary_append (hb : st[h]? = some none)
    (e : PoolEntry) : (st ++ [e])[h]? = some none := by
  obtain ⟨hlt, _⟩ := List.getElem?_eq_some_iff.mp hb
  rw [getElem?_append_left hlt, hb]

theorem StackMachine.WF.step {m m' : StackMachine} (hwf : m.WF) (hstep : m.step = some m') :
    m'.WF := by
  obtain ⟨st, frames, log⟩ := m
  match frames, hwf, hstep with
  | .code [] heights :: frames, hwf, hstep =>
    obtain ⟨hret, hstep⟩ := Option.ite_none_right_eq_some.mp hstep
    obtain ⟨rfl, _⟩ := hret
    cases hstep
    exact ⟨hwf.decreasing, fun h hh => .inl (hwf.boundary_of_code hh)⟩
  | .code (.push :: ops) heights :: frames, hwf, hstep =>
    cases hstep
    refine ⟨pairwise_cons.mpr ⟨fun h hh => ?_, hwf.decreasing⟩, fun h hh => .inl ?_⟩
    · exact (List.getElem?_eq_some_iff.mp (hwf.boundary_of_code hh)).1
    rcases mem_cons.mp hh with rfl | hh
    · simp
    · exact boundary_append (hwf.boundary_of_code hh) none
  | .code (.autorelease obj :: ops) heights :: frames, hwf, hstep =>
    cases hstep
    exact ⟨hwf.decreasing, fun h hh => .inl (boundary_append (hwf.boundary_of_code hh) (some obj))⟩
  | .code (.pop n :: ops) heights :: frames, hwf, hstep =>
    simp only [StackMachine.step] at hstep
    split at hstep
    next => cases hstep
    rename_i h hn
    cases hstep
    -- the heights that stay in use are some of those that were
    have hdrop : heights.drop n = h :: heights.drop (n + 1) := by
      obtain ⟨hlt, rfl⟩ := List.getElem?_eq_some_iff.mp hn
      exact drop_eq_getElem_cons hlt
    have hsub : Sublist ((StackFrame.releasing h :: .code ops (heights.drop (n + 1)) ::
          frames).flatMap StackFrame.heights)
        ((StackFrame.code (.pop n :: ops) heights :: frames).flatMap StackFrame.heights) := by
      show Sublist ((h :: heights.drop (n + 1)) ++ frames.flatMap StackFrame.heights) _
      rw [← hdrop]
      exact (drop_sublist n heights).append_right _
    exact ⟨hwf.decreasing.sublist hsub, fun h' hh => .inl (hwf.boundary_of_code (hsub.subset hh))⟩
  | .releasing h :: frames, hwf, hstep =>
    simp only [StackMachine.step] at hstep
    split at hstep
    next hlen =>
      cases hstep
      exact ⟨(pairwise_cons.mp hwf.decreasing).2, fun h' hh => .inl (hwf.boundary_below hh).2⟩
    rename_i hlen
    have hb : st[h]? = some none := hwf.releasing_le.resolve_right hlen
    obtain ⟨st, e, rfl⟩ : ∃ st' e, st = st' ++ [e] := by
      have hne : st ≠ [] := by rintro rfl; simp at hb
      exact ⟨st.dropLast, st.getLast hne, (dropLast_append_getLast hne).symm⟩
    have hlt : h < st.length + 1 := by
      simpa using (List.getElem?_eq_some_iff.mp hb).1
    -- every boundary but the one at the very top stays
    have hkeep : ∀ h', h' < st.length → (st ++ [e])[h']? = some none → st[h']? = some none := by
      intro h' hlt' hb'
      rwa [getElem?_append_left hlt'] at hb'
    have hbelow : ∀ h' ∈ frames.flatMap StackFrame.heights, st[h']? = some none := by
      intro h' hh
      obtain ⟨hlt', hb'⟩ := hwf.boundary_below hh
      exact hkeep h' (by omega) hb'
    rw [getLast?_concat, dropLast_concat] at hstep
    rcases e with _ | ⟨obj, code⟩
    · cases hstep
      refine ⟨hwf.decreasing, fun h' hh => ?_⟩
      rcases mem_cons.mp hh with rfl | hh
      · rcases Nat.lt_or_ge h' st.length with hlt' | hge
        · exact .inl (hkeep h' hlt' hb)
        · exact .inr ⟨rfl, by show st.length = h'; omega⟩
      · exact .inl (hbelow h' hh)
    cases hstep
    -- the released entry is no boundary, so it lies above the height
    have hlt' : h < st.length := by
      rcases Nat.lt_or_ge h st.length with hlt' | hge
      · exact hlt'
      · obtain rfl : h = st.length := by omega
        simp at hb
    refine ⟨hwf.decreasing, fun h' hh => .inl ?_⟩
    rcases mem_cons.mp hh with rfl | hh
    · exact hkeep h' hlt' hb
    · exact hbelow h' hh

end ObjcRuntime
