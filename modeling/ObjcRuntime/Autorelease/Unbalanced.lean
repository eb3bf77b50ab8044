/-
FULL PAGES BEFORE THE HOT PAGE, EMPTY ONES AFTER IT.

The thread of `Autorelease.Page` runs code that pops what it pushes. Here nothing is
asked of the code: a run is any list of actions, and between two rounds of the loop of
`releaseUntil` (where an object is released) any number of pushes, autoreleases and
pops may stand, with pools left over or not. A token is valid as long as its boundary
is on the stack (`live`).

One kind of pop must not occur: of a pool that is OLDER than one whose pop is in
progress. It takes the stack below the place where the outer `releaseUntil` stops, and
that loop then runs off the first page.
-/
import ObjcRuntime.Autorelease.Refine
import Mathlib.Logic.Relation

namespace ObjcRuntime

open AutoreleasePoolPage Lib Nat List PoolHeap

variable {cap : Nat}

/-! ## The pages around the hot page -/

namespace PoolHeap

/-- `b` is the parent of the page at `a`. -/
def ParentOf (p : PoolHeap) (a b : PageAddr) : Prop :=
  ∃ page, p.pages.lookup a = some page ∧ page.parent = some b

/-- `b` is the child of the page at `a`. -/
def ChildOf (p : PoolHeap) (a b : PageAddr) : Prop :=
  ∃ page, p.pages.lookup a = some page ∧ page.child = some b

structure HotSplit (cap : Nat) (p : PoolHeap) : Prop where
  before : ∀ hot a page, p.hotPage = some hot → Relation.TransGen p.ParentOf hot a →
    p.pages.lookup a = some page → page.full cap
  after : ∀ hot a page, p.hotPage = some hot → Relation.TransGen p.ChildOf hot a →
    p.pages.lookup a = some page → page.entries = []

variable {p : PoolHeap} {st : List PoolEntry} {l : List PageAddr} {a b : PageAddr} {k : Nat}

section

variable (h : PageChain cap p.pages st l)

include h

section

variable (hk : l[k]? = some a)

include hk

theorem ParentOf.index (hab : p.ParentOf a b) : ∃ i < k, l[i]? = some b := by
  obtain ⟨page, hpage, hparent⟩ := hab
  rw [h.page k a hk] at hpage
  cases hpage
  by_cases h0 : k = 0
  · simp [chainPage, h0] at hparent
  · refine ⟨k - 1, by omega, ?_⟩
    simpa [chainPage, h0] using hparent

theorem ChildOf.index (hab : p.ChildOf a b) : ∃ i, k < i ∧ l[i]? = some b := by
  obtain ⟨page, hpage, hchild⟩ := hab
  rw [h.page k a hk] at hpage
  cases hpage
  exact ⟨k + 1, lt_succ_self k, hchild⟩

theorem parents_lt (hab : Relation.TransGen p.ParentOf a b) : ∃ i < k, l[i]? = some b := by
  induction hab with
  | single hb => exact hb.index h hk
  | tail _ hb ih =>
    obtain ⟨i, hi, hget⟩ := ih
    obtain ⟨j, hj, hget'⟩ := hb.index h hget
    exact ⟨j, by omega, hget'⟩

theorem children_gt (hab : Relation.TransGen p.ChildOf a b) : ∃ i, k < i ∧ l[i]? = some b := by
  induction hab with
  | single hb => exact hb.index h hk
  | tail _ hb ih =>
    obtain ⟨i, hi, hget⟩ := ih
    obtain ⟨j, hj, hget'⟩ := hb.index h hget
    exact ⟨j, by omega, hget'⟩

end

end

theorem Represents.hotSplit (h : Represents cap p st l) : HotSplit cap p := by
  cases h with
  | nil htls _ | placeholder htls _ =>
    constructor <;> intro hot a page hhot <;> simp [hotPage, htls] at hhot
  | pages k htls hk hchain hlow hup => ?_
  have hhot : ∀ hot, p.hotPage = some hot → l[k]? = some hot := by
    intro hot h
    simp only [hotPage, htls] at h
    rw [← h]
    exact hk
  constructor
  · intro hot a page hp hbefore hpage
    obtain ⟨i, hi, hget⟩ := parents_lt hchain (hhot hot hp) hbefore
    rw [hchain.page i a hget] at hpage
    cases hpage
    show (window cap st i).length = cap
    have hle : (i + 1) * cap ≤ k * cap := mul_le_mul_right cap hi
    rw [succ_mul] at hle
    rw [length_window]
    omega
  intro hot a page hp hafter hpage
  obtain ⟨i, hi, hget⟩ := children_gt hchain (hhot hot hp) hafter
  rw [hchain.page i a hget] at hpage
  cases hpage
  exact window_eq_nil (le_trans hup (mul_le_mul_right cap hi))

/-! ## The loop with `if` -/

/-- `id obj = *--page->next;` -/
def takeEntry (p : PoolHeap) (a : PageAddr) : Option (PoolEntry × PoolHeap) :=
  match p.pages.lookup a with
  | none => none
  | some page =>
    match page.entries.getLast? with
    | none => none
    | some obj => some (obj, p.setPage a { page with entries := page.entries.dropLast })

/-- The body of the loop of `releaseUntil` with `if (page->empty())`. -/
def popEntryIf (p : PoolHeap) : Option (PoolEntry × PoolHeap) :=
  match p.hotPage with
  | none => none
  | some a =>
    match p.pages.lookup a with
    | none => none
    | some page =>
      if page.entries.isEmpty then
        match page.parent with
        | none => none
        | some q => takeEntry (p.setHotPage (some q)) q
      else takeEntry p a

theorem popEntry_of_entry {page : AutoreleasePoolPage} (htls : p.tls = .page a)
    (hpage : p.pages.lookup a = some page) (hne : page.entries ≠ []) (fuel : Nat) :
    popEntry (fuel + 1) p = takeEntry p a := by
  simp only [popEntry, hotPage, htls, hpage, takeEntry]
  cases hlast : page.entries.getLast? with
  | none => exact absurd (getLast?_eq_none_iff.mp hlast) hne
  | some obj => rfl

theorem popEntry_of_empty {page : AutoreleasePoolPage} (htls : p.tls = .page a)
    (hpage : p.pages.lookup a = some page) (hempty : page.entries = []) (fuel : Nat) :
    popEntry (fuel + 1) p = popEntry fuel (p.setHotPage page.parent) := by
  simp only [popEntry, hotPage, htls, hpage, hempty, getLast?_nil]

theorem popEntryIf_eq (hcap : 0 < cap) {e : PoolEntry} (h : Represents cap p (st ++ [e]) l)
    (hl : l ≠ []) : popEntryIf p = popEntry p.fuel p := by
  generalize hst : st ++ [e] = st' at h
  cases h with
  | nil => simp at hst
  | placeholder => exact absurd rfl hl
  | pages k htls hk hchain hlow hup => ?_
  subst hst
  rw [length_append, length_singleton] at hlow hup
  have hkeys := hchain.length_le_keys
  have hpage := hchain.page k _ hk
  obtain ⟨hltk, _⟩ := List.getElem?_eq_some_iff.mp hk
  by_cases hempty : window cap (st ++ [e]) k = []
  · -- the hot page is empty, and its parent is full
    have hlen := congrArg length hempty
    rw [length_window, length_append, length_singleton, length_nil] at hlen
    obtain ⟨k, rfl⟩ : ∃ j, k = j + 1 := by
      refine ⟨k - 1, ?_⟩
      rcases Nat.eq_zero_or_pos k with rfl | hpos <;> omega
    rw [succ_mul] at hlow hlen hup
    have hparent : l[k]? = some l[k] := getElem?_eq_getElem (by omega)
    have hup' : (chainPage cap (st ++ [e]) l (k + 1)).parent = some l[k] := by
      simp [chainPage]
    have hne : (chainPage cap (st ++ [e]) l k).entries ≠ [] := by
      intro hnil
      have hlen' : (window cap (st ++ [e]) k).length = 0 := by
        rw [show window cap (st ++ [e]) k = [] from hnil, length_nil]
      rw [length_window, length_append, length_singleton] at hlen'
      omega
    obtain ⟨f, hf⟩ : ∃ f, p.fuel = f + 2 := ⟨p.fuel - 2, by simp only [fuel]; omega⟩
    have hentry := popEntry_of_entry (p := p.setHotPage (some l[k])) rfl
      (hchain.page k _ hparent) hne f
    rw [hf, popEntry_of_empty htls hpage hempty, hup', hentry]
    have hisEmpty : (chainPage cap (st ++ [e]) l (k + 1)).entries.isEmpty = true := by
      rw [List.isEmpty_iff]
      exact hempty
    simp only [popEntryIf, hotPage, htls, hpage, hisEmpty, if_true, hup']
  · have hentry := popEntry_of_entry htls hpage hempty p.pages.keys.length
    have hisEmpty : (chainPage cap (st ++ [e]) l k).entries.isEmpty = false := by
      rw [isEmpty_eq_false_iff]
      exact hempty
    rw [fuel, hentry]
    simp only [popEntryIf, hotPage, htls, hpage, hisEmpty, Bool.false_eq_true, if_false]

end PoolHeap

/-! ## Runs -/

/-- What a thread does next. What the release of an object runs is part of the run, so
the code that `Pending` carries plays no part here. -/
inductive PoolAct where
  | push
  | autorelease (obj : Pending)
  | pop (token : PoolToken)
  /-- The innermost `releaseUntil` goes on: the test of its loop, and a round or the end. -/
  | resume

/-- A `pop` that has called `page->releaseUntil(stop)`, with the valid tokens that were
pushed before the one it pops. -/
structure PopInProgress where
  page : PageAddr
  stop : PoolToken
  older : List PoolToken
  deriving DecidableEq

structure PoolThread where
  pool : PoolHeap
  /-- The valid tokens, the last one pushed first. -/
  live : List PoolToken
  /-- The pops in progress, the innermost first. -/
  pops : List PopInProgress

namespace PoolThread

def start : PoolThread := ⟨⟨∅, .nil, 0⟩, [], []⟩

/-- The tokens pushed before `token`. -/
def olderThan (m : PoolThread) (token : PoolToken) : List PoolToken :=
  m.live.drop (m.live.idxOf token + 1)

def step (A : PageAllocator cap) (m : PoolThread) : PoolAct → Option PoolThread
  | .push =>
    match m.pool.push A with
    | none => none
    | some (token, pool) => some { m with pool := pool, live := token :: m.live }
  | .autorelease obj =>
    match m.pool.autorelease A obj with
    | none => none
    | some (_, pool) => some { m with pool := pool }
  | .pop token =>
    match m.pool.pop cap token with
    | none => none
    | some .clearPlaceholder =>
      some { m with pool := m.pool.setHotPage none, live := m.live.tail }
    | some (.releaseUntil page stop) =>
      some { m with pops := ⟨page, stop, m.olderThan token⟩ :: m.pops }
  | .resume =>
    match m.pops with
    | [] => none
    | c :: pops =>
      match m.pool.pages.lookup c.page with
      | none => none
      | some page =>
        if page.next c.page = c.stop then
          match m.pool.finishPop cap c.page with
          | none => none
          | some pool => some { m with pool := pool, pops := pops }
        else
          match m.pool.popEntry m.pool.fuel with
          | none => none
          | some (none, pool) => some { m with pool := pool, live := m.live.tail }
          | some (some _, pool) => some { m with pool := pool }

def Valid (m : PoolThread) : PoolAct → Prop
  | .push => True
  | .autorelease _ => True
  | .pop token => token ∈ m.live
  | .resume => m.pops ≠ []

def InOrder (m : PoolThread) : PoolAct → Prop
  | .pop token => ∀ c ∈ m.pops, token ∉ c.older
  | _ => True

def run (A : PageAllocator cap) : PoolThread → List PoolAct → Option PoolThread
  | m, [] => some m
  | m, act :: acts =>
    match m.step A act with
    | none => none
    | some m' => run A m' acts

/-- Every action of the run satisfies `P` in the state it is made in. -/
def Along (A : PageAllocator cap) (P : PoolThread → PoolAct → Prop) :
    PoolThread → List PoolAct → Prop
  | _, [] => True
  | m, act :: acts =>
    P m act ∧
      match m.step A act with
      | none => True
      | some m' => Along A P m' acts

instance (m : PoolThread) (act : PoolAct) : Decidable (m.Valid act) := by
  cases act <;> simp only [Valid] <;> infer_instance

instance (m : PoolThread) (act : PoolAct) : Decidable (m.InOrder act) := by
  cases act <;> simp only [InOrder] <;> infer_instance

instance Along.decidable (A : PageAllocator cap) (P : PoolThread → PoolAct → Prop)
    [∀ m act, Decidable (P m act)] : ∀ m acts, Decidable (Along A P m acts)
  | _, [] => isTrue trivial
  | m, act :: acts => by
    rw [Along]
    cases m.step A act with
    | none => infer_instance
    | some m' =>
      have := Along.decidable A P m' acts
      infer_instance

end PoolThread

/-! ## The boundaries of a stack -/

def topHeights : List PoolEntry → List Nat
  | [] => []
  | none :: st => st.length :: topHeights st
  | some _ :: st => topHeights st

def poolHeights (st : List PoolEntry) : List Nat := topHeights st.reverse

theorem poolHeights_boundary (st : List PoolEntry) :
    poolHeights (st ++ [none]) = st.length :: poolHeights st := by
  simp [poolHeights, topHeights]

theorem poolHeights_object (st : List PoolEntry) (obj : Pending) :
    poolHeights (st ++ [some obj]) = poolHeights st := by
  simp [poolHeights, topHeights]

theorem poolHeights_append (st more : List PoolEntry) :
    ∃ upper, poolHeights (st ++ more) = upper ++ poolHeights st ∧ ∀ h ∈ upper, st.length ≤ h := by
  induction more using reverseRecOn with
  | nil => exact ⟨[], by simp, by simp⟩
  | append_singleton more e ih => ?_
  obtain ⟨upper, hsplit, hupper⟩ := ih
  rw [← append_assoc]
  cases e with
  | none =>
    refine ⟨(st ++ more).length :: upper, by rw [poolHeights_boundary, hsplit]; rfl, ?_⟩
    intro h hh
    rcases mem_cons.mp hh with rfl | hh
    · rw [length_append]
      omega
    · exact hupper h hh
  | some obj => exact ⟨upper, by rw [poolHeights_object, hsplit], hupper⟩

theorem lt_of_mem_poolHeights {st : List PoolEntry} {h : Nat} (hh : h ∈ poolHeights st) :
    h < st.length ∧ st[h]? = some none := by
  induction st using reverseRecOn with
  | nil => cases hh
  | append_singleton st e ih => ?_
  rw [length_append, length_singleton]
  have hlift : h ∈ poolHeights st → h < st.length + 1 ∧ (st ++ [e])[h]? = some none := by
    intro hmem
    obtain ⟨hlt, hget⟩ := ih hmem
    refine ⟨by omega, ?_⟩
    rw [getElem?_append_left hlt, hget]
  cases e with
  | none =>
    rw [poolHeights_boundary] at hh
    rcases mem_cons.mp hh with rfl | hh
    · exact ⟨lt_succ_self _, by simp⟩
    · exact hlift hh
  | some obj =>
    rw [poolHeights_object] at hh
    exact hlift hh

theorem poolHeights_take (st : List PoolEntry) (h : Nat) :
    ∃ upper, poolHeights st = upper ++ poolHeights (st.take h) ∧
      ∀ x ∈ upper, min h st.length ≤ x := by
  obtain ⟨upper, hsplit, hupper⟩ := poolHeights_append (st.take h) (st.drop h)
  rw [take_append_drop] at hsplit
  rw [length_take] at hupper
  exact ⟨upper, hsplit, hupper⟩

theorem poolHeights_drop {st : List PoolEntry} {i h : Nat} (hi : (poolHeights st)[i]? = some h) :
    (poolHeights st).drop (i + 1) = poolHeights (st.take h) := by
  obtain ⟨hlt, hget⟩ := lt_of_mem_poolHeights (mem_of_getElem? hi)
  obtain ⟨upper, hsplit, hupper⟩ := poolHeights_take st (h + 1)
  have htake : st.take (h + 1) = st.take h ++ [none] := by
    rw [take_add_one, hget]
    rfl
  rw [htake, poolHeights_boundary, length_take, min_eq_left (le_of_lt hlt)] at hsplit
  -- above it the heights are larger, below it they are smaller
  have hplace : i = upper.length := by
    rw [hsplit] at hi
    rcases lt_trichotomy i upper.length with hlow | heq | hhigh
    · rw [getElem?_append_left hlow] at hi
      have := hupper h (mem_of_getElem? hi)
      omega
    · exact heq
    rw [getElem?_append_right (le_of_lt hhigh)] at hi
    obtain ⟨j, hj⟩ : ∃ j, i - upper.length = j + 1 := ⟨i - upper.length - 1, by omega⟩
    rw [hj, getElem?_cons_succ] at hi
    have := (lt_of_mem_poolHeights (mem_of_getElem? hi)).1
    rw [length_take] at this
    omega
  rw [hsplit, hplace, ← drop_drop, drop_left]
  rfl

/-! ## The invariant -/

theorem forall₂_imp_mem {α β : Type} {R S : α → β → Prop} {as : List α} {bs : List β}
    (h : List.Forall₂ R as bs) (himp : ∀ a ∈ as, ∀ b, R a b → S a b) : List.Forall₂ S as bs := by
  induction h with
  | nil => exact .nil
  | cons hab _ ih =>
    exact .cons (himp _ (mem_cons_self ..) _ hab) (ih fun a ha => himp a (mem_cons_of_mem _ ha))

theorem forall₂_exists_mem {α β : Type} {R : α → β → Prop} {as : List α} {bs : List β}
    (h : List.Forall₂ R as bs) {a : α} (ha : a ∈ as) : ∃ b ∈ bs, R a b := by
  induction h with
  | nil => cases ha
  | cons hab _ ih => ?_
  rcases mem_cons.mp ha with rfl | ha
  · exact ⟨_, mem_cons_self .., hab⟩
  · obtain ⟨b, hb, hr⟩ := ih ha
    exact ⟨b, mem_cons_of_mem _ hb, hr⟩

/-- The pop `c` is on its way down to the height `h`, and the boundaries below it are those
of the older tokens. -/
structure PopMatches (cap : Nat) (st : List PoolEntry) (l : List PageAddr)
    (live : List PoolToken) (h : Nat) (c : PopInProgress) : Prop where
  page : l[h / cap]? = some c.page
  stop : c.stop = slot c.page (h % cap)
  older : c.older <:+ live
  count : c.older.length = (poolHeights (st.take h)).length

/-- The pages hold the stack `st`, the valid tokens stand for its boundaries, and the pops in
progress go down to the heights `hs`, an inner one not below an outer one. -/
structure PoolThread.Inv (cap : Nat) (m : PoolThread) (st : List PoolEntry) (l : List PageAddr)
    (hs : List Nat) : Prop where
  pool : m.pool.Represents cap st l
  live : List.Forall₂ (TokenAt cap l) (poolHeights st) m.live
  pops : List.Forall₂ (PopMatches cap st l m.live) hs m.pops
  sorted : hs.Pairwise (· ≥ ·)
  below : ∀ h ∈ hs, h ≤ st.length

namespace PoolThread

variable {m : PoolThread} {st : List PoolEntry} {l : List PageAddr} {hs : List Nat}

theorem inv_start (cap : Nat) : Inv cap start [] [] [] :=
  ⟨.nil rfl rfl, .nil, .nil, .nil, by simp⟩

variable (A : PageAllocator cap) (hcap : 2 ≤ cap)
include hcap

theorem Inv.autoreleaseFast (h : Inv cap m st l hs)
    (e : PoolEntry) :
    ∃ t p' l', m.pool.autoreleaseFast A e = some (t, p') ∧ TokenAt cap l' st.length t ∧
      List.Forall₂ (TokenAt cap l') (poolHeights st) m.live ∧
      ∀ live', List.Forall₂ (TokenAt cap l') (poolHeights (st ++ [e])) live' → m.live <:+ live' →
        Inv cap ⟨p', live', m.pops⟩ (st ++ [e]) l' hs := by
  obtain ⟨t, p', l', hadd, hpre, hrep, htoken⟩ := autoreleaseFast_spec A hcap h.pool e
  refine ⟨t, p', l', hadd, htoken, ?_, ?_⟩
  · exact forall₂_imp_mem h.live fun _ _ _ ht => ht.mono fun _ ha => getElem?_extend hpre ha
  intro live' hlive hsuffix
  refine ⟨hrep, hlive, ?_, h.sorted, ?_⟩
  · refine forall₂_imp_mem h.pops fun k hk c hc => ?_
    have htake : (st ++ [e]).take k = st.take k :=
      take_append_of_le_length (h.below k hk)
    exact ⟨getElem?_extend hpre hc.page, hc.stop, hc.older.trans hsuffix,
      by rw [htake]; exact hc.count⟩
  intro k hk
  have := h.below k hk
  rw [length_append]
  omega

theorem Inv.push (h : Inv cap m st l hs) :
    ∃ m' st' l', m.step A .push = some m' ∧ Inv cap m' st' l' hs := by
  obtain ⟨t, p', l', hadd, htoken, hlive, hinv⟩ := h.autoreleaseFast A hcap none
  refine ⟨⟨p', t :: m.live, m.pops⟩, st ++ [none], l', ?_, hinv _ ?_ (suffix_cons t m.live)⟩
  · simp only [step, PoolHeap.push, hadd]
  · rw [poolHeights_boundary]
    exact .cons htoken hlive

theorem Inv.autorelease (h : Inv cap m st l hs)
    (obj : Pending) :
    ∃ m' st' l', m.step A (.autorelease obj) = some m' ∧ Inv cap m' st' l' hs := by
  obtain ⟨t, p', l', hadd, -, hlive, hinv⟩ := h.autoreleaseFast A hcap (some obj)
  refine ⟨⟨p', m.live, m.pops⟩, st ++ [some obj], l', ?_, hinv _ ?_ (suffix_refl m.live)⟩
  · simp only [step, PoolHeap.autorelease, hadd]
  · rw [poolHeights_object]
    exact hlive

omit hcap

variable {token : PoolToken}

theorem Inv.height_of_live (h : Inv cap m st l hs) (ht : token ∈ m.live) :
    ∃ height, (poolHeights st)[m.live.idxOf token]? = some height ∧ TokenAt cap l height token := by
  have hlt : m.live.idxOf token < m.live.length := idxOf_lt_length_of_mem ht
  have hlt' : m.live.idxOf token < (poolHeights st).length := by
    rw [h.live.length_eq]
    exact hlt
  have hget := h.live.get hlt' hlt
  rw [get_eq_getElem, get_eq_getElem, getElem_idxOf] at hget
  exact ⟨_, getElem?_eq_getElem hlt', hget⟩

theorem Inv.le_height (h : Inv cap m st l hs) {height k : Nat} {c : PopInProgress}
    (hi : (poolHeights st)[m.live.idxOf token]? = some height) (ht : token ∈ m.live)
    (hc : PopMatches cap st l m.live k c) (hk : k ≤ st.length) (holder : token ∉ c.older) :
    k ≤ height := by
  by_contra hlt
  obtain ⟨upper, hsplit, hupper⟩ := poolHeights_take st k
  rw [min_eq_left hk] at hupper
  -- the place of the token is among the older ones
  have hplace : upper.length ≤ m.live.idxOf token := by
    by_contra hplace
    rw [hsplit, getElem?_append_left (by omega)] at hi
    exact absurd (hupper height (mem_of_getElem? hi)) hlt
  obtain ⟨newer, hnewer⟩ := hc.older
  have hlength : newer.length = upper.length := by
    have h1 := h.live.length_eq
    rw [hsplit, length_append, ← hnewer, length_append, hc.count] at h1
    omega
  have hmem : token ∈ newer ++ c.older := by
    rw [hnewer]
    exact ht
  rcases mem_append.mp hmem with hin | hin
  · have hearly := idxOf_lt_length_of_mem hin
    rw [← hnewer, idxOf_append_of_mem hin] at hplace
    omega
  · exact holder hin

include hcap

theorem Inv.pop (h : Inv cap m st l hs)
    (hvalid : token ∈ m.live) (horder : ∀ c ∈ m.pops, token ∉ c.older) :
    ∃ m' st' l' hs', m.step A (.pop token) = some m' ∧ Inv cap m' st' l' hs' := by
  obtain ⟨height, hi, htoken⟩ := h.height_of_live hvalid
  obtain ⟨hlt, hb⟩ := lt_of_mem_poolHeights (mem_of_getElem? hi)
  rcases pop_spec (by omega) h.pool hb htoken with
    ⟨page, hpage, hpop⟩ | ⟨htls, hpages, rfl, rfl, rfl, hpop⟩
  · refine ⟨⟨m.pool, m.live, ⟨page, slot page (height % cap), m.olderThan token⟩ :: m.pops⟩,
      st, l, height :: hs, ?_, h.pool, h.live, .cons ⟨hpage, rfl, ?_, ?_⟩ h.pops, ?_, ?_⟩
    · simp only [step, hpop]
    · exact drop_suffix _ _
    · have hdrop := congrArg length (poolHeights_drop hi)
      rw [length_drop, h.live.length_eq] at hdrop
      rw [olderThan, length_drop]
      exact hdrop
    · refine pairwise_cons.mpr ⟨?_, h.sorted⟩
      intro k hk
      obtain ⟨c, hc, hmatch⟩ := forall₂_exists_mem h.pops hk
      exact h.le_height hi hvalid hmatch (h.below k hk) (horder c hc)
    intro k hk
    rcases mem_cons.mp hk with rfl | hk
    · exact le_of_lt hlt
    · exact h.below k hk
  -- only the placeholder is there, so no pop is in progress
  have hnone : hs = [] ∧ m.pops = [] := by
    have hpops := h.pops
    cases hpops' : m.pops with
    | nil =>
      rw [hpops'] at hpops
      cases hpops
      exact ⟨rfl, rfl⟩
    | cons c pops => ?_
    rw [hpops'] at hpops
    cases hpops with
    | cons hc _ =>
      have := hc.page
      simp at this
  obtain ⟨rfl, hpops⟩ := hnone
  have hlive : m.live.tail = [] := by
    have hlen := h.live.length_eq
    rw [← length_eq_zero_iff, length_tail, ← hlen]
    rfl
  refine ⟨⟨m.pool.setHotPage none, m.live.tail, m.pops⟩, [], [], [], ?_, .nil rfl hpages, ?_, ?_,
    .nil, by simp⟩
  · simp only [step, hpop]
  · rw [hlive]
    exact .nil
  · rw [hpops]
    exact .nil

theorem Inv.finish {c : PopInProgress} {pops : List PopInProgress} {h : Nat}
    (hinv : Inv cap ⟨m.pool, m.live, c :: pops⟩ st l (h :: hs)) (hlen : st.length = h) :
    ∃ p' l', m.pool.finishPop cap c.page = some p' ∧ Inv cap ⟨p', m.live, pops⟩ st l' hs := by
  subst hlen
  obtain ⟨hc, hpops⟩ := forall₂_cons.mp hinv.pops
  obtain ⟨p', j, hfinish, hj, hrep⟩ := finishPop_spec (by omega) hinv.pool hc.page
  have hkeep : ∀ i ≤ st.length, ∀ a, l[i / cap]? = some a → (l.take j)[i / cap]? = some a := by
    intro i hi a ha
    have := Nat.div_le_div_right (c := cap) hi
    rw [getElem?_take_of_lt (by omega), ha]
  refine ⟨p', l.take j, hfinish, hrep, ?_, ?_, (pairwise_cons.mp hinv.sorted).2, ?_⟩
  · refine forall₂_imp_mem hinv.live fun i hi t ht => ?_
    exact ht.mono (hkeep i (le_of_lt (lt_of_mem_poolHeights hi).1))
  · refine forall₂_imp_mem hpops fun i hi d hd => ?_
    have hle := hinv.below i (mem_cons_of_mem _ hi)
    exact ⟨hkeep i hle _ hd.page, hd.stop, hd.older, hd.count⟩
  · intro i hi
    exact hinv.below i (mem_cons_of_mem _ hi)

omit hcap

theorem Inv.taken {e : PoolEntry} {p' : PoolHeap} (hinv : Inv cap m (st ++ [e]) l hs)
    (hrep : p'.Represents cap st l) (hbelow : ∀ h ∈ hs, h ≤ st.length) {live' : List PoolToken}
    (hlive : List.Forall₂ (TokenAt cap l) (poolHeights st) live')
    (hsuffix : ∀ older, older <:+ m.live → older.length ≤ live'.length → older <:+ live') :
    Inv cap ⟨p', live', m.pops⟩ st l hs := by
  refine ⟨hrep, hlive, ?_, hinv.sorted, hbelow⟩
  refine forall₂_imp_mem hinv.pops fun h hh c hc => ?_
  have htake : (st ++ [e]).take h = st.take h := take_append_of_le_length (hbelow h hh)
  have hcount : c.older.length = (poolHeights (st.take h)).length := by
    rw [← htake]
    exact hc.count
  refine ⟨hc.page, hc.stop, hsuffix _ hc.older ?_, hcount⟩
  obtain ⟨upper, hsplit, -⟩ := poolHeights_take st h
  rw [hcount, ← hlive.length_eq, hsplit, length_append]
  omega

include hcap

theorem Inv.resume (h : Inv cap m st l hs)
    (hvalid : m.pops ≠ []) :
    ∃ m' st' l' hs', m.step A .resume = some m' ∧ Inv cap m' st' l' hs' := by
  obtain ⟨c, pops, hm⟩ := exists_cons_of_ne_nil hvalid
  obtain ⟨pool, live, _⟩ := m
  subst hm
  cases hs with
  | nil => cases h.pops
  | cons k hs => ?_
  obtain ⟨hc, -⟩ := forall₂_cons.mp h.pops
  have hpos : 0 < cap := by omega
  have hpool : pool.Represents cap st l := h.pool
  have hlookup := (hpool.chain hc.page).page _ c.page hc.page
  have hle := h.below k (mem_cons_self ..)
  have htest := next_eq_stop_iff (l := l) hpos hle c.page
  rw [← hc.stop] at htest
  by_cases hlen : st.length = k
  · obtain ⟨p', l', hfinish, hinv⟩ := Inv.finish (m := ⟨pool, live, c :: pops⟩) hcap h hlen
    refine ⟨⟨p', live, pops⟩, st, l', hs, ?_, hinv⟩
    simp only [step, hlookup, if_pos (htest.mpr hlen)]
    rw [show pool.finishPop cap c.page = some p' from hfinish]
  have hne : st ≠ [] := by
    rintro rfl
    exact hlen (le_zero.mp hle).symm
  obtain ⟨st, e, rfl⟩ : ∃ st' e, st = st' ++ [e] :=
    ⟨st.dropLast, st.getLast hne, (dropLast_append_getLast hne).symm⟩
  rw [length_append, length_singleton] at hle hlen
  obtain ⟨p', hpop, hrep⟩ := popEntry_spec hpos hpool (ne_nil_of_mem (mem_of_getElem? hc.page))
  have hbelow : ∀ i ∈ k :: hs, i ≤ st.length := by
    intro i hi
    rcases mem_cons.mp hi with rfl | hi
    · omega
    · have := (pairwise_cons.mp h.sorted).1 i hi
      omega
  have hnot : ¬ (chainPage cap (st ++ [e]) l (k / cap)).next c.page = c.stop := by
    intro heq
    have := htest.mp heq
    rw [length_append, length_singleton] at this
    omega
  cases e with
  | none =>
    have hlive := h.live
    rw [poolHeights_boundary] at hlive
    obtain ⟨t, live, -, hrest, rfl⟩ := forall₂_cons_left_iff.mp hlive
    refine ⟨⟨p', live, c :: pops⟩, st, l, k :: hs, ?_, h.taken hrep hbelow hrest ?_⟩
    · simp only [step, hlookup, if_neg hnot, hpop, tail_cons]
    intro older hsuffix hshort
    rcases suffix_cons_iff.mp hsuffix with rfl | hs'
    · rw [length_cons] at hshort
      omega
    · exact hs'
  | some obj => ?_
  have hlive := h.live
  rw [poolHeights_object] at hlive
  refine ⟨⟨p', live, c :: pops⟩, st, l, k :: hs, ?_,
    h.taken hrep hbelow hlive fun _ hsuffix _ => hsuffix⟩
  simp only [step, hlookup, if_neg hnot, hpop]

theorem Inv.step (h : Inv cap m st l hs) {act : PoolAct}
    (hvalid : m.Valid act) (horder : m.InOrder act) :
    ∃ m' st' l' hs', m.step A act = some m' ∧ Inv cap m' st' l' hs' := by
  cases act with
  | push =>
    obtain ⟨m', st', l', hstep, hinv⟩ := h.push A hcap
    exact ⟨m', st', l', hs, hstep, hinv⟩
  | autorelease obj =>
    obtain ⟨m', st', l', hstep, hinv⟩ := h.autorelease A hcap obj
    exact ⟨m', st', l', hs, hstep, hinv⟩
  | pop token => exact h.pop A hcap hvalid horder
  | resume => exact h.resume A hcap hvalid

theorem Inv.run {acts : List PoolAct}
    (h : Inv cap m st l hs) (hacts : Along A (fun m act => m.Valid act ∧ m.InOrder act) m acts) :
    ∃ m' st' l' hs', m.run A acts = some m' ∧ Inv cap m' st' l' hs' := by
  induction acts generalizing m st l hs with
  | nil => exact ⟨m, st, l, hs, rfl, h⟩
  | cons act acts ih => ?_
  obtain ⟨⟨hvalid, horder⟩, hrest⟩ := hacts
  obtain ⟨m', st', l', hs', hstep, hinv⟩ := h.step A hcap hvalid horder
  rw [hstep] at hrest
  obtain ⟨m'', st'', l'', hs'', hrun, hinv'⟩ := ih hinv hrest
  refine ⟨m'', st'', l'', hs'', ?_, hinv'⟩
  rw [run, hstep]
  exact hrun

/-! ## The result -/

/-- When the innermost `releaseUntil` has not come to its stop, its loop finds an entry, and
it finds the same one with `if` in the place of `while`: the hot page has an entry, or it
has a parent that has one. -/
def LoopIsIf (m : PoolThread) : Prop :=
  ∀ c ∈ m.pops.head?, ∃ page, m.pool.pages.lookup c.page = some page ∧
    (page.next c.page ≠ c.stop →
      (m.pool.popEntry m.pool.fuel).isSome ∧
        m.pool.popEntryIf = m.pool.popEntry m.pool.fuel)

theorem Inv.loopIsIf (h : Inv cap m st l hs) : m.LoopIsIf := by
  intro c hc
  obtain ⟨pool, live, pops⟩ := m
  cases pops with
  | nil => cases hc
  | cons c' pops => ?_
  cases hc
  cases hs with
  | nil => cases h.pops
  | cons k hs => ?_
  obtain ⟨hmatch, -⟩ := forall₂_cons.mp h.pops
  have hpool : pool.Represents cap st l := h.pool
  have hle := h.below k (mem_cons_self ..)
  have hpos : 0 < cap := by omega
  have htest := next_eq_stop_iff (l := l) hpos hle c.page
  rw [← hmatch.stop] at htest
  refine ⟨_, (hpool.chain hmatch.page).page _ _ hmatch.page, ?_⟩
  intro hnot
  have hne : st ≠ [] := by
    rintro rfl
    exact hnot (htest.mpr (le_zero.mp hle).symm)
  obtain ⟨st, e, rfl⟩ : ∃ st' e, st = st' ++ [e] :=
    ⟨st.dropLast, st.getLast hne, (dropLast_append_getLast hne).symm⟩
  have hl : l ≠ [] := ne_nil_of_mem (mem_of_getElem? hmatch.page)
  obtain ⟨p', hpop, -⟩ := popEntry_spec hpos hpool hl
  refine ⟨?_, popEntryIf_eq hpos hpool hl⟩
  show (pool.popEntry pool.fuel).isSome
  rw [hpop]
  rfl

end PoolThread

/-- **The pages before the hot page are full and those after it are empty**, in every state
that pushes, autoreleases and pops of valid tokens lead to, nested in releases in any way,
as long as no pool is popped that is older than one whose pop is in progress; no such run
fails, and in the loop of `releaseUntil` the `while` can be an `if`. -/
theorem pages_split_at_hot (A : PageAllocator cap) (hcap : 2 ≤ cap) (acts : List PoolAct)
    (hacts : PoolThread.Along A (fun m act => m.Valid act ∧ m.InOrder act)
      PoolThread.start acts) :
    ∃ m, PoolThread.start.run A acts = some m ∧ m.pool.HotSplit cap ∧ m.LoopIsIf := by
  obtain ⟨m, st, l, hs, hrun, hinv⟩ := (PoolThread.inv_start cap).run A hcap hacts
  exact ⟨m, hrun, hinv.pool.hotSplit, hinv.loopIsIf hcap⟩

/-- Two pools on pages of two slots; the release of the object pushes a pool and leaves it
there. -/
def leftoverPool : List PoolAct :=
  [.push, .push, .autorelease (.mk 1 []), .pop 136, .resume, .push, .autorelease (.mk 2 []),
    .resume, .resume, .resume, .resume]

theorem leftover_pool_splits_at_hot :
    ∃ m, PoolThread.start.run (PageAllocator.past 2) leftoverPool = some m ∧
      m.pool.HotSplit 2 ∧ m.LoopIsIf :=
  pages_split_at_hot (PageAllocator.past 2) (le_refl 2) leftoverPool (by decide +kernel)

def outerPop : List PoolAct :=
  [.push, .push, .autorelease (.mk 1 []), .pop 4160, .resume, .pop EMPTY_POOL_PLACEHOLDER,
    .resume, .resume, .resume]

/-- On the pages of the runtime: every token is valid when it is popped, and the outer
`releaseUntil` then goes on from an empty hot page whose parent is nil. -/
theorem outer_pop_runs_off_first_page :
    PoolThread.Along (PageAllocator.past 505) PoolThread.Valid PoolThread.start
        (outerPop ++ [.resume]) ∧
      ((PoolThread.start.run (PageAllocator.past 505) outerPop).bind fun m =>
        m.pool.hotPage.bind fun a => (m.pool.pages.lookup a).map fun page =>
          (page.entries.isEmpty, page.parent.isNone)) = some (true, true) ∧
      (PoolThread.start.run (PageAllocator.past 505) (outerPop ++ [.resume])).isNone = true := by
  decide +kernel

end ObjcRuntime
