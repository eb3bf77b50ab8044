/-
THE PAGES ARE A LAST-IN, FIRST-OUT STACK.

The thread on pages and the stack machine run in lockstep: `Simulates` relates
their states (the pages represent the stack, every token points at the height
of its pool), and one step of either is one step of the other. What the stack
machine does is then what the pages do.
-/
import Mathlib.Algebra.Order.BigOperators.Group.List
import ObjcRuntime.Autorelease.Lifo
import ObjcRuntime.Autorelease.Popping

namespace ObjcRuntime

open AutoreleasePoolPage Lib StateTransition List Option StackMachine Nat PoolHeap PoolMachine
  PageAllocator

variable {cap : Nat}

/-! ## Related states -/

inductive FrameMatches (cap : Nat) (l : List PageAddr) : StackFrame → PoolFrame → Prop where
  | code {ops : List (PoolOp Pending)} {heights : List Nat} {tokens : List PoolToken} :
      Forall₂ (TokenAt cap l) heights tokens →
      FrameMatches cap l (.code ops heights) (.code ops tokens)
  | releaseUntil {height : Nat} {page : PageAddr} : l[height / cap]? = some page →
      FrameMatches cap l (.releasing height) (.releaseUntil page (slot page (height % cap)))

/-- The frames of the thread. A `pop` of the unused placeholder has frames of its own, and they
are innermost. -/
inductive FramesMatch (cap : Nat) (p : PoolHeap) (l : List PageAddr) :
    List StackFrame → List PoolFrame → Prop where
  | frames {fs : List StackFrame} {gs : List PoolFrame} :
      Forall₂ (FrameMatches cap l) fs gs → FramesMatch cap p l fs gs
  | clearPlaceholder {fs : List StackFrame} {gs : List PoolFrame} : p.tls = .placeholder →
      Forall₂ (FrameMatches cap l) fs gs →
      FramesMatch cap p l (.releasing 0 :: fs) (.clearPlaceholder :: gs)
  | returning {fs : List StackFrame} {gs : List PoolFrame} : p.tls = .nil →
      Forall₂ (FrameMatches cap l) fs gs →
      FramesMatch cap p l (.releasing 0 :: fs) (.returning :: gs)

/-- The thread on pages is in the state `a` of the stack machine, on the chain of pages `l`. -/
structure Simulates (cap : Nat) (m : PoolMachine) (a : StackMachine) (l : List PageAddr) :
    Prop where
  pool : m.pool.Represents cap a.stack l
  frames : FramesMatch cap m.pool l a.frames m.frames
  released : m.released = a.released
  wf : a.WF

theorem simulates_start (cap : Nat) (program : List (PoolOp Pending)) :
    Simulates cap (start program) (start program) [] where
  pool := .nil rfl rfl
  frames := .frames (.cons (.code .nil) .nil)
  released := rfl
  wf := start_wf program

variable {l' : List PageAddr} {l : List PageAddr}

theorem forall₂_frameMatches_mono {fs : List StackFrame} {gs : List PoolFrame}
    (h : Forall₂ (FrameMatches cap l) fs gs)
    (hl : ∀ i ∈ fs.flatMap StackFrame.heights, ∀ a, l[i / cap]? = some a → l'[i / cap]? = some a) :
    Forall₂ (FrameMatches cap l') fs gs := by
  induction h with
  | nil => exact .nil
  | @cons f g fs gs hf hfs ih => ?_
  refine .cons ?_ (ih fun i hi => hl i (mem_append_right _ hi))
  have hhead : ∀ i ∈ f.heights, ∀ a, l[i / cap]? = some a → l'[i / cap]? = some a :=
    fun i hi => hl i (mem_append_left _ hi)
  cases hf with
  | code htokens =>
    refine .code ?_
    clear hl
    induction htokens with
    | nil => exact .nil
    | cons ht _ ih =>
      exact .cons (ht.mono (hhead _ mem_cons_self)) (ih fun i hi => hhead i (mem_cons_of_mem _ hi))
  | releaseUntil hpage => exact .releaseUntil (hhead _ (mem_singleton_self _) _ hpage)

variable {a : PageAddr}

theorem getElem?_extend (h : l <+: l') {i : Nat} (ha : l[i]? = some a) : l'[i]? = some a := by
  obtain ⟨t, rfl⟩ := h
  rw [List.getElem?_append_left (List.getElem?_eq_some_iff.mp ha).1, ha]

variable {st : List PoolEntry} {p : PoolHeap} (h : p.Represents cap st l)
include h

theorem PoolHeap.Represents.chain {i : Nat} (ha : l[i]? = some a) :
    PageChain cap p.pages st l := by
  cases h with
  | nil | placeholder => simp at ha
  | pages _ _ _ hchain => exact hchain

theorem PoolHeap.Represents.page_eq {page : AutoreleasePoolPage} (ha : p.pages.lookup a = some page) :
    ∃ i, l[i]? = some a ∧ page = chainPage cap st l i := by
  cases h with
  | nil _ hpages | placeholder _ hpages => simp [hpages] at ha
  | pages _ _ _ hchain => ?_
  by_cases hmem : a ∈ l
  · obtain ⟨i, hi⟩ := mem_iff_getElem?.mp hmem
    exact ⟨i, hi, some.inj (ha.symm.trans (hchain.page i a hi))⟩
  · cases (hchain.dead a hmem).symm.trans ha

theorem PoolHeap.Represents.live (ha : a ∈ l) : (p.pages.lookup a).isSome := by
  obtain ⟨i, hi⟩ := mem_iff_getElem?.mp ha
  rw [(h.chain hi).page i a hi]
  rfl

omit h

theorem next_eq_stop_iff (hcap : 0 < cap) {h : Nat} (hle : h ≤ st.length) (this : PageAddr) :
    (chainPage cap st l (h / cap)).next this = slot this (h % cap) ↔ st.length = h := by
  have hmod : h % cap < cap := Nat.mod_lt h hcap
  have hdiv : h / cap * cap + h % cap = h := Nat.div_add_mod' h cap
  have hslot : ∀ i j : Nat, slot this i = slot this j ↔ i = j := by
    intro i j
    constructor
    · intro heq
      have := Nat.add_left_cancel heq
      omega
    · rintro rfl
      rfl
  rw [AutoreleasePoolPage.next, hslot]
  show (window cap st (h / cap)).length = h % cap ↔ _
  rw [length_window]
  omega

/-! ## The lockstep -/

def ChainKeeps (cap : Nat) (st : List PoolEntry) (l l' : List PageAddr) : Prop :=
  ∀ i a, l[i]? = some a → i * cap < st.length → a ∈ l'

theorem ChainKeeps.refl (cap : Nat) (st : List PoolEntry) (l : List PageAddr) :
    ChainKeeps cap st l l :=
  fun _ _ ha _ => mem_of_getElem? ha

theorem ChainKeeps.extend (h : l <+: l') :
    ChainKeeps cap st l l' :=
  fun _ _ ha _ => mem_of_getElem? (getElem?_extend h ha)

inductive StepsMatch (A : PageAllocator cap) (m : PoolMachine) (a : StackMachine)
    (l : List PageAddr) : Prop where
  | stuck : m.step A = none → a.step = none → StepsMatch A m a l
  | step (m' : PoolMachine) {a' : StackMachine} {l' : List PageAddr} : m.step A = some m' →
      a.step = some a' → Simulates cap m' a' l' → ChainKeeps cap a.stack l l' → StepsMatch A m a l

section

variable {A : PageAllocator cap} {p : PoolHeap} {st : List PoolEntry} {fs : List StackFrame}
  {gs : List PoolFrame} {log : List ObjPtr} {l : List PageAddr}

variable {heights : List Nat} {ops : List (PoolOp Pending)}

theorem FramesMatch.of_code {gs' : List PoolFrame}
    (h : FramesMatch cap p l (.code ops heights :: fs) gs') :
    ∃ tokens gs, gs' = .code ops tokens :: gs ∧ Forall₂ (TokenAt cap l) heights tokens ∧
      Forall₂ (FrameMatches cap l) fs gs := by
  cases h with
  | frames hfs =>
    cases hfs with
    | cons hf hfs =>
      cases hf with
      | code htokens => exact ⟨_, _, rfl, htokens, hfs⟩

theorem autoreleaseFast_frames (A : PageAllocator cap) (hcap : 2 ≤ cap)
    (ops : List (PoolOp Pending)) {tokens : List PoolToken} (hrep : p.Represents cap st l)
    (htokens : Forall₂ (TokenAt cap l) heights tokens) (hfs : Forall₂ (FrameMatches cap l) fs gs)
    (e : PoolEntry) :
    ∃ t p' l', p.autoreleaseFast A e = some (t, p') ∧ ChainKeeps cap st l l' ∧
      p'.Represents cap (st ++ [e]) l' ∧ TokenAt cap l' st.length t ∧
      Forall₂ (FrameMatches cap l') (.code ops heights :: fs) (.code ops tokens :: gs) := by
  obtain ⟨t, p', l', hadd, hpre, hrep', htoken⟩ := autoreleaseFast_spec A hcap hrep e
  refine ⟨t, p', l', hadd, .extend hpre, hrep', htoken, ?_⟩
  exact forall₂_frameMatches_mono (.cons (.code htokens) hfs)
    fun _ _ _ ha => getElem?_extend hpre ha

theorem Simulates.step_code (hcap : 2 ≤ cap) {gs' : List PoolFrame}
    (h : Simulates cap ⟨p, gs', log⟩ ⟨st, .code ops heights :: fs, log⟩ l) :
    StepsMatch A ⟨p, gs', log⟩ ⟨st, .code ops heights :: fs, log⟩ l := by
  obtain ⟨tokens, gs, rfl, htokens, hfs⟩ := h.frames.of_code
  match ops, h with
  | [], h =>
    by_cases hret : heights = [] ∧ fs ≠ []
    · obtain ⟨rfl, hne⟩ := hret
      cases htokens
      have hne' : gs ≠ [] := by
        rintro rfl
        cases hfs
        exact hne rfl
      have hstep : step ⟨st, .code [] [] :: fs, log⟩ = some ⟨st, fs, log⟩ :=
        if_pos ⟨rfl, hne⟩
      exact .step _ (if_pos ⟨rfl, hne'⟩) hstep ⟨h.pool, .frames hfs, rfl, h.wf.step hstep⟩
        (.refl cap st l)
    refine .stuck (if_neg fun hret' => hret ?_) (if_neg hret)
    obtain ⟨rfl, hne⟩ := hret'
    cases htokens
    refine ⟨rfl, ?_⟩
    rintro rfl
    cases hfs
    exact hne rfl
  | .push :: ops, h =>
    obtain ⟨t, p', l', hadd, hkeeps, hrep, htoken, hframes⟩ :=
      autoreleaseFast_frames A hcap ops h.pool htokens hfs none
    have hstep : step ⟨st, .code (.push :: ops) heights :: fs, log⟩
        = some ⟨st ++ [none], .code ops (st.length :: heights) :: fs, log⟩ := rfl
    refine .step ⟨p', .code ops (t :: tokens) :: gs, log⟩ ?_ hstep
      ⟨hrep, .frames ?_, rfl, h.wf.step hstep⟩ hkeeps
    · simp only [PoolMachine.step, PoolHeap.push, hadd]
    cases hframes with
    | cons hf hfs' =>
      cases hf with
      | code htokens' => exact .cons (.code (.cons htoken htokens')) hfs'
  | .autorelease obj :: ops, h =>
    obtain ⟨t, p', l', hadd, hkeeps, hrep, _, hframes⟩ :=
      autoreleaseFast_frames A hcap ops h.pool htokens hfs (some obj)
    have hstep : step ⟨st, .code (.autorelease obj :: ops) heights :: fs, log⟩
        = some ⟨st ++ [some obj], .code ops heights :: fs, log⟩ := rfl
    refine .step ⟨p', .code ops tokens :: gs, log⟩ ?_ hstep
      ⟨hrep, .frames hframes, rfl, h.wf.step hstep⟩ hkeeps
    simp only [PoolMachine.step, PoolHeap.autorelease, hadd]
  | .pop n :: ops, h =>
    cases hn : heights[n]? with
    | none =>
      have hn' : tokens[n]? = none := by
        rw [List.getElem?_eq_none_iff] at hn ⊢
        rwa [← htokens.length_eq]
      exact .stuck (by simp only [PoolMachine.step, hn']) (by simp only [StackMachine.step, hn])
    | some height => ?_
    obtain ⟨hlt, hget⟩ := List.getElem?_eq_some_iff.mp hn
    have hlt' : n < tokens.length := by rwa [← htokens.length_eq]
    have htoken : TokenAt cap l height tokens[n] := by
      have := htokens.get hlt hlt'
      simpa [hget] using this
    have hb : st[height]? = some none :=
      h.wf.boundary_of_code (mem_append_left _ (hget ▸ getElem_mem hlt))
    have hrest : Forall₂ (FrameMatches cap l)
        (.code ops (heights.drop (n + 1)) :: fs) (.code ops (tokens.drop (n + 1)) :: gs) :=
      .cons (.code (forall₂_drop (n + 1) htokens)) hfs
    have hstep : step ⟨st, .code (.pop n :: ops) heights :: fs, log⟩
        = some ⟨st, .releasing height :: .code ops (heights.drop (n + 1)) :: fs, log⟩ := by
      simp only [StackMachine.step, hn]
    have hn' : tokens[n]? = some tokens[n] := getElem?_eq_getElem hlt'
    rcases pop_spec (by omega) h.pool hb htoken with
      ⟨page, hpage, hpop⟩ | ⟨htls, _, _, _, rfl, hpop⟩
    · refine .step ⟨p, .releaseUntil page (slot page (height % cap)) ::
        .code ops (tokens.drop (n + 1)) :: gs, log⟩ ?_ hstep
        ⟨h.pool, .frames (.cons (.releaseUntil hpage) hrest), rfl, h.wf.step hstep⟩
        (.refl cap st l)
      simp only [PoolMachine.step, hn', hpop, PoolHeap.PopCall.frame]
    refine .step ⟨p, .clearPlaceholder :: .code ops (tokens.drop (n + 1)) :: gs,
      log⟩ ?_ hstep ⟨h.pool, .clearPlaceholder htls hrest, rfl, h.wf.step hstep⟩
      (.refl cap st l)
    simp only [PoolMachine.step, hn', hpop, PoolHeap.PopCall.frame]

theorem Simulates.step_releaseUntil (hcap : 2 ≤ cap) {height : Nat} {page : PageAddr}
    {stop : PoolToken}
    (h : Simulates cap ⟨p, .releaseUntil page stop :: gs, log⟩ ⟨st, .releasing height :: fs, log⟩ l)
    (hpage : l[height / cap]? = some page) (hstop : stop = slot page (height % cap))
    (hfs : Forall₂ (FrameMatches cap l) fs gs) :
    StepsMatch A ⟨p, .releaseUntil page stop :: gs, log⟩ ⟨st, .releasing height :: fs, log⟩ l := by
  subst hstop
  have hpos : 0 < cap := by omega
  have hpool : p.Represents cap st l := h.pool
  have hlookup := (hpool.chain hpage).page _ page hpage
  have hle : height ≤ st.length := by
    rcases h.wf.releasing_le with hb | hlen
    · exact le_of_lt (List.getElem?_eq_some_iff.mp hb).1
    · exact le_of_eq hlen.symm
  have htest := next_eq_stop_iff (l := l) hpos hle page
  by_cases hlen : st.length = height
  · -- the stack is down to the token: the page becomes hot and its children may go
    subst hlen
    obtain ⟨p', j, hfinish, hj, hrep⟩ := finishPop_spec hpos hpool hpage
    have hstep := step_releasing_done st fs log
    refine .step ⟨p', gs, log⟩ ?_ hstep ⟨hrep, .frames ?_, rfl, h.wf.step hstep⟩ ?_
    · simp only [PoolMachine.step, hlookup, if_pos (htest.mpr rfl), hfinish]
    · refine forall₂_frameMatches_mono hfs fun i hi a ha => ?_
      have hlt : i / cap ≤ st.length / cap :=
        Nat.div_le_div_right (le_of_lt (h.wf.boundary_below hi).1)
      rw [getElem?_take_of_lt (by omega), ha]
    intro i a ha hi
    have hlt : i ≤ st.length / cap :=
      (Nat.le_div_iff_mul_le hpos).mpr (le_of_lt hi)
    have hij : i < j := by omega
    exact mem_of_getElem? (by rw [getElem?_take_of_lt hij, ha])
  obtain ⟨st, e, rfl⟩ : ∃ st' e, st = st' ++ [e] := by
    have hne : st ≠ [] := by
      rintro rfl
      exact hlen (Nat.le_zero.mp hle).symm
    exact ⟨st.dropLast, st.getLast hne, (dropLast_append_getLast hne).symm⟩
  have hle' : height ≤ st.length := by
    rw [length_append, length_singleton] at hle hlen
    omega
  obtain ⟨p', hpop, hrep⟩ := popEntry_spec hpos hpool
    (ne_nil_of_mem (mem_of_getElem? hpage))
  have htest' : ¬ (chainPage cap (st ++ [e]) l (height / cap)).next page
      = slot page (height % cap) := fun heq => hlen (htest.mp heq)
  rcases e with _ | ⟨obj, code⟩
  · have hstep := step_releasing_boundary hle' fs log
    refine .step ⟨p', .releaseUntil page _ :: gs, log⟩ ?_ hstep
      ⟨hrep, .frames (.cons (.releaseUntil hpage) hfs), rfl, h.wf.step hstep⟩ (.refl cap _ l)
    simp only [PoolMachine.step, hlookup, if_neg htest', hpop]
  have hstep := step_releasing_object hle' obj code fs log
  refine .step ⟨p', .code code [] :: .releaseUntil page _ :: gs, log ++ [obj]⟩ ?_ hstep
    ⟨hrep, .frames (.cons (.code .nil) (.cons (.releaseUntil hpage) hfs)), rfl,
      h.wf.step hstep⟩ (.refl cap _ l)
  simp only [PoolMachine.step, hlookup, if_neg htest', hpop]

theorem Simulates.step (hcap : 2 ≤ cap) {m : PoolMachine} {a : StackMachine}
    (h : Simulates cap m a l) : StepsMatch A m a l := by
  obtain ⟨p, gs, log⟩ := m
  obtain ⟨st, fs, log'⟩ := a
  obtain rfl : log = log' := h.released
  match fs, h with
  | [], h =>
    cases hgs : h.frames with
    | frames hfs =>
      cases hfs
      exact .stuck rfl rfl
  | .code ops heights :: fs, h => exact h.step_code hcap
  | .releasing height :: fs, h =>
    cases hgs : h.frames with
    | frames hfs =>
      cases hfs with
      | cons hf hfs =>
        cases hf with
        | releaseUntil hpage => exact h.step_releaseUntil hcap hpage rfl hfs
    | clearPlaceholder htls hfs =>
      -- the stack is the placeholder's boundary alone
      have hrep := h.pool
      cases hrep with
      | nil htls' | pages _ htls' => cases htls.symm.trans htls'
      | placeholder _ hpages => ?_
      have hstep : step ⟨[none], .releasing 0 :: fs, log⟩
          = some ⟨[], .releasing 0 :: fs, log⟩ := rfl
      exact .step _ rfl hstep
        ⟨.nil rfl hpages, .returning rfl hfs, rfl, h.wf.step hstep⟩ (.refl cap _ _)
    | returning htls hfs => ?_
    have hrep := h.pool
    cases hrep with
    | placeholder htls' | pages _ htls' => cases htls.symm.trans htls'
    | nil _ hpages =>
      have hstep := step_releasing_done [] fs log
      exact .step _ rfl hstep ⟨h.pool, .frames hfs, rfl, h.wf.step hstep⟩ (.refl cap _ _)

end

/-! ## Runs -/

variable {m m' : PoolMachine}

theorem Simulates.reaches (A : PageAllocator cap) (hcap : 2 ≤ cap) {a : StackMachine}
    (h : Simulates cap m a l) (hreach : Reaches (PoolMachine.step A) m m') :
    ∃ a' l', Reaches StackMachine.step a a' ∧ Simulates cap m' a' l' := by
  induction hreach with
  | refl => exact ⟨a, l, .refl, h⟩
  | tail _ hstep ih => ?_
  obtain ⟨a', l', hreach', h'⟩ := ih
  cases h'.step (A := A) hcap with
  | stuck hnone => cases hnone.symm.trans hstep
  | step _ hm ha hsim =>
    obtain rfl := some.inj (hm.symm.trans hstep)
    exact ⟨_, _, hreach'.tail ha, hsim⟩

theorem Simulates.reaches_of_stack (A : PageAllocator cap) (hcap : 2 ≤ cap) {a a' : StackMachine}
    (h : Simulates cap m a l) (hreach : Reaches StackMachine.step a a') :
    ∃ m' l', Reaches (PoolMachine.step A) m m' ∧ Simulates cap m' a' l' := by
  induction hreach with
  | refl => exact ⟨m, l, .refl, h⟩
  | tail _ hstep ih => ?_
  obtain ⟨m', l', hreach', h'⟩ := ih
  cases h'.step (A := A) hcap with
  | stuck _ hnone => cases hnone.symm.trans hstep
  | step _ hm ha hsim =>
    obtain rfl := some.inj (ha.symm.trans hstep)
    exact ⟨_, _, hreach'.tail hm, hsim⟩

def PoolMachine.under (m : PoolMachine) (frames : List PoolFrame) : PoolMachine :=
  { m with frames := m.frames ++ frames }

theorem PoolMachine.step_under {A : PageAllocator cap} (h : m.step A = some m')
    (frames : List PoolFrame) :
    (m.under frames).step A = some (m'.under frames) := by
  obtain ⟨p, gs, log⟩ := m
  match gs, h with
  | .code [] tokens :: gs, h =>
    simp only [step] at h
    split at h
    next hret =>
      cases h
      exact if_pos ⟨hret.1, by simp [hret.2]⟩
    next => cases h
  | .code (.push :: ops) tokens :: gs, h =>
    simp only [step, under, cons_append] at h ⊢
    split at h
    next => cases h
    next hpush =>
      cases h
      rfl
  | .code (.autorelease obj :: ops) tokens :: gs, h =>
    simp only [step, under, cons_append] at h ⊢
    split at h
    next => cases h
    next hpush =>
      cases h
      rfl
  | .code (.pop n :: ops) tokens :: gs, h =>
    simp only [step, under, cons_append] at h ⊢
    split at h
    next => cases h
    split at h
    next => cases h
    cases h
    rfl
  | .releaseUntil this stop :: gs, h =>
    simp only [step, under, cons_append] at h ⊢
    split at h
    next => cases h
    split at h
    next hstop =>
      split at h
      next => cases h
      cases h
      exact if_pos hstop
    rename_i hstop
    split at h
    next => cases h
    next =>
      cases h
      exact if_neg hstop
    cases h
    exact if_neg hstop
  | .clearPlaceholder :: gs, h =>
    cases h
    rfl
  | .returning :: gs, h =>
    cases h
    rfl

theorem PoolMachine.reaches_under {A : PageAllocator cap} (h : Reaches (step A) m m')
    (frames : List PoolFrame) :
    Reaches (step A) (m.under frames) (m'.under frames) := by
  induction h with
  | refl => exact .refl
  | tail _ hstep ih => exact ih.tail (step_under hstep frames)

/-! ## The result -/

/-- What an autorelease pool is for, of the thread on pages in the state `m`, with the stack
`st`. -/
structure PoolMachine.IsLifoStack (A : PageAllocator cap) (m : PoolMachine)
    (st : List PoolEntry) : Prop where
  /-- The doubly linked pages are the stack. -/
  represents : ∃ l, m.pool.Represents cap st l
  /-- No assertion fails and no pop is bad: the thread goes on to the end of its program. -/
  progress : (∃ tokens, m.frames = [.code [] tokens]) ∨ ∃ m', m.step A = some m'
  /-- No page that holds an object or a boundary is killed. -/
  keeps : ∀ m' a page, m.step A = some m' → m.pool.pages.lookup a = some page →
    page.entries ≠ [] → (m'.pool.pages.lookup a).isSome
  /-- Code that pushes a pool now and pops it after `ops` releases what is above the boundary by
  then, the last one first, and nothing else; the stack is then the one it is now. -/
  pops : ∀ ops n rest tokens frames,
    m.frames = .code (.push :: (ops ++ .pop n :: rest)) tokens :: frames →
    codeDepth 0 ops = some n →
    ∃ m₁ m₂ up l₁ l₂ tokens₁ tokens₂,
      Reaches (PoolMachine.step A) m m₁ ∧ m₁.frames = .code (.pop n :: rest) tokens₁ :: frames ∧
      m₁.pool.Represents cap (st ++ none :: up) l₁ ∧
      Reaches (PoolMachine.step A) m₁ m₂ ∧ m₂.frames = .code rest tokens₂ :: frames ∧
      m₂.pool.Represents cap st l₂ ∧ m₂.released = m₁.released ++ popTrace up

theorem Simulates.innermost {fs : List StackFrame} {gs : List PoolFrame} {log log' : List ObjPtr}
    {tokens : List PoolToken}
    (h : Simulates cap ⟨p, .code ops tokens :: gs, log⟩ ⟨st, fs, log'⟩ l) :
    ∃ heights, Simulates cap ⟨p, [.code ops tokens], log⟩ ⟨st, [.code ops heights], log⟩ l := by
  cases hframes : h.frames with
  | frames hfs =>
    cases hfs with
    | cons hf hfs =>
      cases hf with
      | code htokens =>
        rename_i heights
        refine ⟨heights, h.pool, .frames (.cons (.code htokens) .nil), rfl, ?_, ?_⟩
        · have hdec := h.wf.decreasing
          simpa [StackFrame.heights] using (pairwise_append.mp hdec).1
        intro i hi
        refine .inl (h.wf.boundary_of_code ?_)
        rw [flatMap_cons, flatMap_nil, append_nil] at hi
        exact mem_append_left _ hi

/-- **THE PAGES ARE A LAST-IN, FIRST-OUT STACK**, in every state of every valid program, for
pages of at least two slots. -/
theorem pool_pages_are_lifo_stack (A : PageAllocator cap) (hcap : 2 ≤ cap)
    {program : List (PoolOp Pending)} {d : Nat} (hvalid : codeDepth 0 program = some d)
    {m : PoolMachine}
    (hreach : Reaches (PoolMachine.step A) (PoolMachine.start program) m) :
    ∃ st, m.IsLifoStack A st := by
  obtain ⟨a, l, hreach', hsim⟩ := (simulates_start cap program).reaches A hcap hreach
  refine ⟨a.stack, ⟨l, hsim.pool⟩, ?_, ?_, ?_⟩
  · rcases StackMachine.progress hvalid hreach' with ⟨heights, hend⟩ | ⟨a', hstep⟩
    · have hframes := hsim.frames
      rw [hend] at hframes
      obtain ⟨tokens, gs, hgs, _, ⟨⟩⟩ := hframes.of_code
      exact Or.inl ⟨tokens, hgs⟩
    · cases hsim.step (A := A) hcap with
      | stuck _ hnone => cases hnone.symm.trans hstep
      | step _ hm => exact Or.inr ⟨_, hm⟩
  · intro m' b page hstep hlookup hentries
    cases hsim.step (A := A) hcap with
    | stuck hnone => cases hnone.symm.trans hstep
    | step _ hm _ hsim' hkeeps => ?_
    obtain rfl := some.inj (hm.symm.trans hstep)
    obtain ⟨i, hi, rfl⟩ := hsim.pool.page_eq hlookup
    refine hsim'.pool.live (hkeeps i b hi ?_)
    by_contra hle
    exact hentries (window_eq_nil (Nat.le_of_not_lt hle))
  intro ops n rest tokens frames hframes hdepth
  obtain ⟨p, gs, log⟩ := m
  obtain ⟨st, fs, log'⟩ := a
  obtain rfl : gs = _ := hframes
  obtain ⟨heights, hsim0⟩ := hsim.innermost
  obtain ⟨up, heights1, log1, hreach1, hreach2⟩ :=
    StackMachine.push_pop hdepth st heights [] rest log
  obtain ⟨m₁, l₁, hm1, hsim1⟩ := hsim0.reaches_of_stack A hcap hreach1
  obtain ⟨m₂, l₂, hm2, hsim2⟩ := hsim1.reaches_of_stack A hcap hreach2
  obtain ⟨tokens₁, gs1, hgs1, _, hnil1⟩ := hsim1.frames.of_code
  obtain ⟨tokens₂, gs2, hgs2, _, hnil2⟩ := hsim2.frames.of_code
  cases hnil1
  cases hnil2
  refine ⟨m₁.under frames, m₂.under frames, up, l₁, l₂, tokens₁, tokens₂,
    PoolMachine.reaches_under hm1 frames, ?_, hsim1.pool, PoolMachine.reaches_under hm2 frames,
    ?_, hsim2.pool, ?_⟩
  · show m₁.frames ++ frames = _
    rw [hgs1]
    rfl
  · show m₂.frames ++ frames = _
    rw [hgs2]
    rfl
  · show m₂.released = m₁.released ++ popTrace up
    rw [hsim2.released, hsim1.released]

def PageAllocator.past (cap : Nat) : PageAllocator cap where
  malloc _ live := SIZE cap * (live.sum + 1)
  fresh := by
    intro _ live hmem
    have hle : SIZE cap * (live.sum + 1) ≤ live.sum :=
      single_le_sum (fun _ _ => Nat.zero_le _) _ hmem
    have hge : live.sum + 1 ≤ SIZE cap * (live.sum + 1) :=
      Nat.le_mul_of_pos_left _ (lt_of_lt_of_le (by decide) (Nat.le_add_right headerSize _))
    exact Nat.not_succ_le_self _ (le_trans hge hle)
  aligned := fun _ _ => Nat.dvd_mul_right _ _

/-- Two pools and an object whose release leaves another one in the pool, on pages of two
slots. -/
theorem two_slot_pages_are_lifo_stack :
    codeDepth 0 [.push, .push, .autorelease (.mk 1 [.autorelease (.mk 2 [])]), .pop 1] = some 0 ∧
    ∃ st, (PoolMachine.start
      [.push, .push, .autorelease (.mk 1 [.autorelease (.mk 2 [])]), .pop 1]).IsLifoStack
        (PageAllocator.past 2) st := by
  have hvalid : codeDepth 0
      [.push, .push, .autorelease (.mk 1 [.autorelease (.mk 2 [])]), .pop 1] = some 0 := by
    simp [codeDepth, Pending.balanced]
  exact ⟨hvalid, pool_pages_are_lifo_stack (past 2) (le_refl 2) hvalid .refl⟩

/-- **One slot is not enough.**  The first object of the placeholder's pool needs a page with the
pool's boundary and itself; on a page of one slot `add` fails its assertion. -/
theorem one_slot_page_overflows :
    ¬ ∀ (cap : Nat) (A : PageAllocator cap), 1 ≤ cap →
      ∀ (program : List (PoolOp Pending)) (d : Nat), codeDepth 0 program = some d →
        ∀ m, Reaches (PoolMachine.step A) (PoolMachine.start program) m →
          ∃ st, m.IsLifoStack A st := by
  intro h
  obtain ⟨st, hst⟩ := h 1 (past 1) (le_refl 1)
    [.push, .autorelease (.mk 1 [])] 1 (by simp [codeDepth, Pending.balanced])
    ⟨⟨∅, .placeholder, 0⟩, [.code [.autorelease (.mk 1 [])] [EMPTY_POOL_PLACEHOLDER]], []⟩
    (Relation.ReflTransGen.single rfl)
  rcases hst.progress with ⟨tokens, hend⟩ | ⟨m', hstep⟩
  · simp at hend
  have hstuck : step (past 1)
      ⟨⟨∅, .placeholder, 0⟩, [.code [.autorelease (.mk 1 [])] [EMPTY_POOL_PLACEHOLDER]], []⟩
      = none := rfl
  cases hstuck.symm.trans hstep

end ObjcRuntime
