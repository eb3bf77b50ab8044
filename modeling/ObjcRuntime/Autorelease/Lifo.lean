/-
POPPING A POOL IS LAST IN, FIRST OUT.

`Lifo` says in one go where the stack stands after some code and what has been
released by then; `Pending.trace` are the releases that one object stands for.
-/
import ObjcRuntime.Autorelease.Stack

namespace ObjcRuntime

open StateTransition List Pending Nat Relation.ReflTransGen StackMachine Pairwise

/-! ## Last in, first out -/

mutual

/-- The releases that releasing the object leads to: its own, then those its code makes, then
those of what the code leaves in the pool, the last one first. -/
def Pending.trace : Pending → List ObjPtr
  | .mk obj code => obj :: codeTrace code [] []

/-- The releases of some code and of what it leaves behind; the stack holds for each entry the
releases that the entry stands for. -/
def codeTrace : List (PoolOp Pending) → List (List ObjPtr) → List Nat → List ObjPtr
  | [], stack, _ => stack.reverse.flatten
  | .push :: ops, stack, heights => codeTrace ops (stack ++ [[]]) (stack.length :: heights)
  | .autorelease obj :: ops, stack, heights => codeTrace ops (stack ++ [obj.trace]) heights
  | .pop n :: ops, stack, heights =>
    match heights[n]? with
    | none => []
    | some h => (stack.drop h).reverse.flatten ++
        codeTrace ops (stack.take h) (heights.drop (n + 1))

end

def PoolEntry.trace : PoolEntry → List ObjPtr
  | none => []
  | some obj => obj.trace

def popTrace (entries : List PoolEntry) : List ObjPtr :=
  (entries.map PoolEntry.trace).reverse.flatten

theorem popTrace_concat (entries : List PoolEntry) (e : PoolEntry) :
    popTrace (entries ++ [e]) = e.trace ++ popTrace entries := by
  simp [popTrace]

structure Lifo where
  stack : List PoolEntry
  heights : List Nat
  released : List ObjPtr

/-- One use of the pool, `pop` in one go. -/
def Lifo.perform (s : Lifo) : PoolOp Pending → Option Lifo
  | .push => some ⟨s.stack ++ [none], s.stack.length :: s.heights, s.released⟩
  | .autorelease obj => some ⟨s.stack ++ [some obj], s.heights, s.released⟩
  | .pop n =>
    match s.heights[n]? with
    | none => none
    | some h => some ⟨s.stack.take h, s.heights.drop (n + 1),
        s.released ++ popTrace (s.stack.drop h)⟩

def Lifo.run : Lifo → List (PoolOp Pending) → Option Lifo
  | s, [] => some s
  | s, op :: ops => (s.perform op).bind fun s' => s'.run ops

variable {ops : List (PoolOp Pending)}

theorem Lifo.run_of_codeDepth {d : Nat} :
    ∀ {s : Lifo}, codeDepth s.heights.length ops = some d →
      ∃ s', s.run ops = some s' ∧ s'.heights.length = d := by
  induction ops with
  | nil =>
    intro s hdepth
    injection hdepth with hdepth
    exact ⟨s, rfl, hdepth⟩
  | cons op ops ih => ?_
  intro s hdepth
  cases op with
  | push => exact ih (s := ⟨s.stack ++ [none], s.stack.length :: s.heights, s.released⟩) hdepth
  | autorelease obj =>
    rw [codeDepth] at hdepth
    split at hdepth
    next => exact ih (s := ⟨s.stack ++ [some obj], s.heights, s.released⟩) hdepth
    next => cases hdepth
  | pop n => ?_
  obtain ⟨hn, hdepth⟩ := Option.ite_none_right_eq_some.mp hdepth
  obtain ⟨s', hrun, hlen⟩ := ih (s := ⟨s.stack.take s.heights[n],
    s.heights.drop (n + 1), s.released ++ popTrace (s.stack.drop s.heights[n])⟩)
    (by rw [length_drop]; exact hdepth)
  refine ⟨s', ?_, hlen⟩
  simp only [Lifo.run, Lifo.perform, getElem?_eq_getElem hn, Option.bind_some]
  exact hrun

variable {s' : Lifo}

theorem Lifo.run_pop {s : Lifo} {n : Nat} (hrun : s.run (.pop n :: ops) = some s') :
    ∃ h, s.heights[n]? = some h ∧ Lifo.run ⟨s.stack.take h, s.heights.drop (n + 1),
      s.released ++ popTrace (s.stack.drop h)⟩ ops = some s' := by
  simp only [run, perform] at hrun
  cases hn : s.heights[n]? with
  | none => simp [hn] at hrun
  | some h => exact ⟨h, rfl, by rw [hn] at hrun; exact hrun⟩

theorem Lifo.run_trace :
    ∀ {s : Lifo}, s.run ops = some s' →
      s.released ++ codeTrace ops (s.stack.map PoolEntry.trace) s.heights
        = s'.released ++ popTrace s'.stack := by
  induction ops with
  | nil =>
    intro s hrun
    cases hrun
    rfl
  | cons op ops ih => ?_
  intro s hrun
  cases op with
  | push =>
    have h := ih (s := ⟨s.stack ++ [none], s.stack.length :: s.heights, s.released⟩) hrun
    simpa [codeTrace, PoolEntry.trace] using h
  | autorelease obj =>
    have h := ih (s := ⟨s.stack ++ [some obj], s.heights, s.released⟩) hrun
    simpa [codeTrace, PoolEntry.trace] using h
  | pop n => ?_
  obtain ⟨h, hn, hrun⟩ := Lifo.run_pop hrun
  rw [← ih hrun]
  simp only [codeTrace, hn, popTrace, map_drop, map_take, append_assoc]

theorem Pending.trace_of_run {obj : ObjPtr} {code : List (PoolOp Pending)}
    (hrun : Lifo.run ⟨[], [], []⟩ code = some s') :
    (mk obj code).trace = obj :: (s'.released ++ popTrace s'.stack) := by
  rw [trace, ← Lifo.run_trace hrun]
  rfl

theorem Lifo.run_objects {obj : Pending} :
    ∀ {s : Lifo}, s.run ops = some s' → some obj ∈ s'.stack →
      some obj ∈ s.stack ∨ .autorelease obj ∈ ops := by
  induction ops with
  | nil =>
    intro s hrun hmem
    injection hrun with hrun
    exact .inl (hrun ▸ hmem)
  | cons op ops ih => ?_
  intro s hrun hmem
  cases op with
  | push =>
    rcases ih (s := ⟨s.stack ++ [none], s.stack.length :: s.heights, s.released⟩)
      hrun hmem with h | h
    · exact .inl (by simpa using h)
    · exact .inr (mem_cons_of_mem _ h)
  | autorelease obj' =>
    rcases ih (s := ⟨s.stack ++ [some obj'], s.heights, s.released⟩) hrun hmem with h | h
    · rcases mem_append.mp h with h | h
      · exact .inl h
      · obtain rfl : obj = obj' := by simpa using h
        exact .inr mem_cons_self
    · exact .inr (mem_cons_of_mem _ h)
  | pop n => ?_
  obtain ⟨h, hn, hrun⟩ := Lifo.run_pop hrun
  rcases ih hrun hmem with h' | h'
  · exact .inl (mem_of_mem_take h')
  · exact .inr (mem_cons_of_mem _ h')

/-! ## Where the tokens are -/

structure Lifo.WF (s : Lifo) : Prop where
  decreasing : s.heights.Pairwise (· ≥ ·)
  le : ∀ h ∈ s.heights, h ≤ s.stack.length

theorem Lifo.WF.push {s : Lifo} (hwf : s.WF) :
    Lifo.WF ⟨s.stack ++ [none], s.stack.length :: s.heights, s.released⟩ := by
  refine ⟨pairwise_cons.mpr ⟨hwf.le, hwf.decreasing⟩, fun h hh => ?_⟩
  rw [length_append]
  rcases mem_cons.mp hh with rfl | hh
  · exact le_add_right _ _
  · exact le_add_right_of_le (hwf.le h hh)

theorem Lifo.WF.autorelease {s : Lifo} (hwf : s.WF) (obj : Pending) :
    Lifo.WF ⟨s.stack ++ [some obj], s.heights, s.released⟩ := by
  refine ⟨hwf.decreasing, fun h hh => ?_⟩
  rw [length_append]
  exact le_add_right_of_le (hwf.le h hh)

theorem Lifo.WF.pop {s : Lifo} (hwf : s.WF) {n h : Nat} (hn : s.heights[n]? = some h)
    (log : List ObjPtr) : Lifo.WF ⟨s.stack.take h, s.heights.drop (n + 1), log⟩ := by
  obtain ⟨hlt, rfl⟩ := List.getElem?_eq_some_iff.mp hn
  have hdrop := drop_eq_getElem_cons hlt
  have hsub : (s.heights.drop n).Pairwise (· ≥ ·) := hwf.decreasing.sublist (drop_sublist _ _)
  rw [hdrop, pairwise_cons] at hsub
  refine ⟨hsub.2, fun h hh => ?_⟩
  rw [length_take]
  exact Nat.le_min.mpr ⟨hsub.1 h hh, hwf.le h (mem_of_mem_drop hh)⟩

/-! ## The stack machine is last in, first out -/

/-- A `pop` in progress releases the object at the top, with all that follows from it, and is
back where the object was put on. -/
def Pending.Pops (obj : Pending) : Prop :=
  ∀ (st : List PoolEntry) (frames : List StackFrame) (log : List ObjPtr) (h : Nat),
    h ≤ st.length →
      Reaches StackMachine.step ⟨st ++ [some obj], .releasing h :: frames, log⟩
        ⟨st, .releasing h :: frames, log ++ obj.trace⟩

theorem StackMachine.pops_all {up : List PoolEntry} (hup : ∀ obj, some obj ∈ up → obj.Pops)
    {st : List PoolEntry} {h : Nat} (hle : h ≤ st.length) (frames : List StackFrame) :
    ∀ log : List ObjPtr, Reaches step ⟨st ++ up, .releasing h :: frames, log⟩
      ⟨st, .releasing h :: frames, log ++ popTrace up⟩ := by
  -- from the last entry down
  induction up using reverseRecOn with
  | nil =>
    intro log
    rw [append_nil, show popTrace [] = [] from rfl, append_nil]
    exact refl
  | append_singleton up e ih => ?_
  intro log
  have hle' : h ≤ (st ++ up).length := by rw [length_append]; omega
  have hrest := ih (fun obj hobj => hup obj (mem_append_left _ hobj))
  rw [← append_assoc, popTrace_concat, ← append_assoc]
  have hfirst : Reaches step ⟨st ++ up ++ [e], .releasing h :: frames, log⟩
      ⟨st ++ up, .releasing h :: frames, log ++ e.trace⟩ := by
    cases e with
    | none =>
      rw [show PoolEntry.trace none = [] from rfl, append_nil]
      exact single (step_releasing_boundary hle' frames log)
    | some obj => exact hup obj (by simp) (st ++ up) frames log h hle'
  exact hfirst.trans (hrest (log ++ e.trace))

theorem StackMachine.pops_to {up : List PoolEntry} (hup : ∀ obj, some obj ∈ up → obj.Pops)
    (st : List PoolEntry) (frames : List StackFrame) (log : List ObjPtr) :
    Reaches step ⟨st ++ up, .releasing st.length :: frames, log⟩
      ⟨st, frames, log ++ popTrace up⟩ :=
  (pops_all hup le_rfl frames log).tail (step_releasing_done st frames _)

theorem StackMachine.run_code (base : List PoolEntry) (held : List Nat)
    (frames : List StackFrame) (rest : List (PoolOp Pending)) (log : List ObjPtr)
    (hops : ∀ obj, .autorelease obj ∈ ops → obj.Pops) :
    ∀ {s : Lifo}, s.WF → (∀ obj, some obj ∈ s.stack → obj.Pops) → s.run ops = some s' →
      Reaches step
        ⟨base ++ s.stack, .code (ops ++ rest) (s.heights.map (base.length + ·) ++ held) :: frames,
          log ++ s.released⟩
        ⟨base ++ s'.stack, .code rest (s'.heights.map (base.length + ·) ++ held) :: frames,
          log ++ s'.released⟩ := by
  induction ops with
  | nil =>
    intro s _ _ hrun
    cases hrun
    exact refl
  | cons op ops ih => ?_
  intro s hwf hstack hrun
  have hops' : ∀ obj, .autorelease obj ∈ ops → obj.Pops :=
    fun obj hobj => hops obj (mem_cons_of_mem _ hobj)
  cases op with
  | push =>
    have hnext := ih hops' (s := ⟨s.stack ++ [none], s.stack.length :: s.heights,
      s.released⟩) hwf.push (fun obj hobj => hstack obj (by simpa using hobj)) hrun
    refine head ?_ hnext
    simp [step]
  | autorelease obj =>
    have hnext := ih hops' (s := ⟨s.stack ++ [some obj], s.heights, s.released⟩)
      (hwf.autorelease obj) (by
        intro obj' hobj'
        rcases mem_append.mp hobj' with hobj' | hobj'
        · exact hstack obj' hobj'
        · obtain rfl : obj' = obj := by simpa using hobj'
          exact hops obj' mem_cons_self) hrun
    refine head ?_ hnext
    simp [step]
  | pop n => ?_
  obtain ⟨h, hn, hrun⟩ := Lifo.run_pop hrun
  have hnext := ih hops' (hwf.pop hn _) (fun obj hobj => hstack obj (mem_of_mem_take hobj)) hrun
  obtain ⟨hlt, hget⟩ := List.getElem?_eq_some_iff.mp hn
  have hle : h ≤ s.stack.length := hwf.le h (hget ▸ getElem_mem hlt)
  -- the call, the releases down to the height, and the return
  have hpop := pops_to
    (fun obj (hobj : some obj ∈ s.stack.drop h) => hstack obj (mem_of_mem_drop hobj))
    (base ++ s.stack.take h)
    (.code (ops ++ rest) ((s.heights.drop (n + 1)).map (base.length + ·) ++ held) ::
      frames) (log ++ s.released)
  rw [append_assoc, take_append_drop, length_append, length_take,
    min_eq_left hle, append_assoc] at hpop
  refine head ?_ (hpop.trans hnext)
  have hlen : n < (s.heights.map (base.length + ·)).length := by simpa using hlt
  have hheight : (s.heights.map (base.length + ·) ++ held)[n]? = some (base.length + h) := by
    rw [getElem?_append_left hlen, getElem?_map, hn]
    rfl
  have hdrop : (s.heights.map (base.length + ·) ++ held).drop (n + 1)
      = (s.heights.drop (n + 1)).map (base.length + ·) ++ held := by
    rw [drop_append_of_le_length hlen, map_drop]
  simp only [cons_append, step, hheight, hdrop, Option.mem_def]

/-- **Every balanced object pops**: by induction on the object, since what its code autoreleases
is part of it. -/
theorem Pending.pops_of_balanced : ∀ obj : Pending, obj.balanced = true → obj.Pops
  | .mk id code, hb => by
    intro st frames log h hle
    have hdepth : codeDepth 0 code = some 0 := by
      exact eq_of_beq hb
    have hcode : ∀ obj, .autorelease obj ∈ code → obj.Pops := fun obj hobj =>
      have : 1 + sizeOf obj < sizeOf code := sizeOf_lt_of_mem hobj
      pops_of_balanced obj (balanced_of_autorelease_mem hdepth hobj)
    obtain ⟨⟨up, heights, log'⟩, hrun, hheights⟩ :=
      Lifo.run_of_codeDepth (s := ⟨[], [], []⟩) hdepth
    obtain rfl : heights = [] := eq_nil_of_length_eq_zero hheights
    have hup : ∀ obj, some obj ∈ up → obj.Pops := by
      intro obj hobj
      rcases Lifo.run_objects hrun hobj with hobj | hobj
      · cases hobj
      · exact hcode obj hobj
    have hcall := step_releasing_object hle id code frames log
    have hbody := run_code st [] (.releasing h :: frames) [] (log ++ [id]) hcode
      (s := ⟨[], [], []⟩) ⟨nil, by simp⟩ (by simp) hrun
    simp only [append_nil, map_nil] at hbody
    have hreturn : step ⟨st ++ up, .code [] [] :: .releasing h :: frames, log ++ [id] ++ log'⟩
        = some ⟨st ++ up, .releasing h :: frames, log ++ [id] ++ log'⟩ := rfl
    have hrest := pops_all hup hle frames (log ++ [id] ++ log')
    have htrace : log ++ (mk id code).trace = log ++ [id] ++ log' ++ popTrace up := by
      rw [trace_of_run hrun]
      simp
    rw [htrace]
    exact head hcall ((hbody.tail hreturn).trans hrest)

/-- **A push and the matching pop.** Code pushes a pool, goes on with `ops`, which holds `n`
newer tokens at its end, and pops: the entries above the boundary are released, the last one
first, and the stack is the one before the push. -/
theorem StackMachine.push_pop {n : Nat}
    (hdepth : codeDepth 0 ops = some n) (st : List PoolEntry) (heights : List Nat)
    (frames : List StackFrame) (rest : List (PoolOp Pending)) (log : List ObjPtr) :
    ∃ up heights' log',
      Reaches step ⟨st, .code (.push :: (ops ++ .pop n :: rest)) heights :: frames, log⟩
        ⟨st ++ none :: up, .code (.pop n :: rest) heights' :: frames, log'⟩ ∧
      Reaches step ⟨st ++ none :: up, .code (.pop n :: rest) heights' :: frames, log'⟩
        ⟨st, .code rest heights :: frames, log' ++ popTrace up⟩ := by
  obtain ⟨⟨up, heights', log'⟩, hrun, hlen⟩ :=
    Lifo.run_of_codeDepth (s := ⟨[], [], []⟩) hdepth
  have hops : ∀ obj, .autorelease obj ∈ ops → obj.Pops := fun obj hobj =>
    obj.pops_of_balanced (balanced_of_autorelease_mem hdepth hobj)
  have hup : ∀ obj, some obj ∈ up → obj.Pops := by
    intro obj hobj
    rcases Lifo.run_objects hrun hobj with hobj | hobj
    · cases hobj
    · exact hops obj hobj
  have hbody := run_code (st ++ [none]) (st.length :: heights) frames (.pop n :: rest) log hops
    (s := ⟨[], [], []⟩) ⟨nil, by simp⟩ (by simp) hrun
  simp only [append_nil, map_nil, nil_append, append_assoc, singleton_append] at hbody
  refine ⟨up, _, _, head rfl hbody, ?_⟩
  -- the token of the push is the first one that the code of `ops` did not push itself
  have hcall : step ⟨st ++ none :: up, .code (.pop n :: rest)
      (heights'.map ((st ++ [none]).length + ·) ++ st.length :: heights) :: frames, log ++ log'⟩
      = some ⟨st ++ none :: up, .releasing st.length :: .code rest heights :: frames,
          log ++ log'⟩ := by
    have hlen' : (heights'.map ((st ++ [none]).length + ·)).length = n := by simpa using hlen
    have hheight : (heights'.map ((st ++ [none]).length + ·) ++ st.length :: heights)[n]?
        = some st.length := by
      rw [List.getElem?_append_right (by omega), hlen', Nat.sub_self]
      rfl
    have hdrop : (heights'.map ((st ++ [none]).length + ·) ++ st.length :: heights).drop (n + 1)
        = heights := by
      rw [← hlen', drop_length_add_append]
      rfl
    simp only [step, hheight, hdrop]
  have hpop := pops_to (fun obj (hobj : some obj ∈ none :: up) => hup obj (by simpa using hobj))
    st (.code rest heights :: frames) (log ++ log')
  have htrace : popTrace (none :: up) = popTrace up := by simp [popTrace, PoolEntry.trace]
  rw [htrace] at hpop
  exact head hcall hpop

theorem StackMachine.run_program {program : List (PoolOp Pending)} {d : Nat}
    (hdepth : codeDepth 0 program = some d) :
    ∃ st heights log, Reaches step (start program) ⟨st, [.code [] heights], log⟩ := by
  obtain ⟨s', hrun, _⟩ := Lifo.run_of_codeDepth (s := ⟨[], [], []⟩) hdepth
  have hbody := run_code [] [] [] [] [] (fun obj hobj =>
    obj.pops_of_balanced (balanced_of_autorelease_mem hdepth hobj))
    (s := ⟨[], [], []⟩) ⟨nil, by simp⟩ (by simp) hrun
  simp only [append_nil] at hbody
  exact ⟨_, _, _, hbody⟩

theorem StackMachine.progress {program : List (PoolOp Pending)} {d : Nat}
    (hdepth : codeDepth 0 program = some d) {m : StackMachine}
    (hreach : Reaches step (start program) m) :
    (∃ heights, m.frames = [.code [] heights]) ∨ ∃ m', m.step = some m' := by
  obtain ⟨st, heights, log, hend⟩ := run_program hdepth
  rcases reaches_total hreach hend with h | h
  · rcases cases_head h with heq | ⟨m', hstep, _⟩
    · exact .inl ⟨heights, by rw [heq]⟩
    · exact .inr ⟨m', hstep⟩
  rcases cases_head h with heq | ⟨m', hstep, _⟩
  · exact .inl ⟨heights, by rw [← heq]⟩
  · simp [step] at hstep

end ObjcRuntime
