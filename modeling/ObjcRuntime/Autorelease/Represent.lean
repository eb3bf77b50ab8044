/-
THE PAGES HOLD ONE STACK.

`PoolHeap.Represents cap p st l`: the live pages are the chain `l`, linked both
ways, the `i`-th page holds the `i`-th window of the stack `st`, and the hot
page is the one where the stack ends. `TokenAt cap l h token` says which token
stands for the height `h`.
-/
import ObjcRuntime.Autorelease.Page
import ObjcRuntime.Lib.Windows

namespace ObjcRuntime

open AutoreleasePoolPage Lib List Option AList Nat

variable {cap : Nat}

/-! ## The chain of pages -/

/-- The page at the `i`-th place of the chain `l`. -/
def chainPage (cap : Nat) (st : List PoolEntry) (l : List PageAddr) (i : Nat) :
    AutoreleasePoolPage :=
  ⟨if i = 0 then none else l[i - 1]?, l[i + 1]?, window cap st i⟩

/-- The live pages are the chain `l`, and hold the stack `st`. -/
structure PageChain (cap : Nat) (pages : AList fun _ : PageAddr => AutoreleasePoolPage)
    (st : List PoolEntry) (l : List PageAddr) : Prop where
  nodup : l.Nodup
  aligned : ∀ a ∈ l, SIZE cap ∣ a
  page : ∀ i a, l[i]? = some a → pages.lookup a = some (chainPage cap st l i)
  dead : ∀ a, a ∉ l → pages.lookup a = none

namespace PageChain

variable {pages : AList fun _ : PageAddr => AutoreleasePoolPage} {st st' : List PoolEntry}
  {l : List PageAddr} {a q : PageAddr} {i k : Nat}

section

variable (h : PageChain cap pages st l)

include h

theorem index_eq (hi : l[i]? = some a) (hk : l[k]? = some a) : i = k := by
  obtain ⟨hlt, _⟩ := List.getElem?_eq_some_iff.mp hi
  exact (getElem?_inj hlt h.nodup).mp (hi.trans hk.symm)

theorem length_le_keys : l.length ≤ pages.keys.length := by
  refine (subperm_of_subset h.nodup fun a ha => ?_).length_le
  obtain ⟨i, hi⟩ := mem_iff_getElem?.mp ha
  have hsome : (pages.lookup a).isSome := by rw [h.page i a hi]; rfl
  exact mem_keys.mp (lookup_isSome.mp hsome)

theorem not_mem_of_not_mem_keys (ha : a ∉ pages.keys) : a ∉ l := by
  intro hmem
  obtain ⟨i, hi⟩ := mem_iff_getElem?.mp hmem
  have hsome : (pages.lookup a).isSome := by rw [h.page i a hi]; rfl
  exact ha (mem_keys.mp (lookup_isSome.mp hsome))

theorem setEntries (hk : l[k]? = some a) (hne : ∀ i, i ≠ k → window cap st' i = window cap st i) :
    PageChain cap (pages.insert a (chainPage cap st' l k)) st' l where
  nodup := h.nodup
  aligned := h.aligned
  page := by
    intro i b hb
    by_cases heq : b = a
    · subst heq
      rw [lookup_insert, h.index_eq hb hk]
    have hik : i ≠ k := by
      rintro rfl
      exact heq (some.inj (hb.symm.trans hk))
    rw [lookup_insert_ne heq, h.page i b hb, chainPage, chainPage, hne i hik]
  dead := by
    intro b hb
    have heq : b ≠ a := by
      rintro rfl
      exact hb (mem_of_getElem? hk)
    rw [lookup_insert_ne heq, h.dead b hb]

theorem concat (hk : l[k]? = some a) (hlow : k * cap ≤ st.length)
    (hup : st.length < (k + 1) * cap) (e : PoolEntry) :
    PageChain cap (pages.insert a (chainPage cap (st ++ [e]) l k)) (st ++ [e]) l :=
  h.setEntries hk fun _ hne => window_concat_of_ne hlow hup e hne

end

theorem dropLast {e : PoolEntry} (h : PageChain cap pages (st ++ [e]) l) (hk : l[k]? = some a)
    (hlow : k * cap ≤ st.length) (hup : st.length < (k + 1) * cap) :
    PageChain cap (pages.insert a (chainPage cap st l k)) st l :=
  h.setEntries hk fun _ hne => (window_concat_of_ne hlow hup e hne).symm

theorem singleton (ha : SIZE cap ∣ a) :
    PageChain cap ((∅ : AList fun _ : PageAddr => AutoreleasePoolPage).insert a ⟨none, none, []⟩)
      [] [a] where
  nodup := nodup_singleton a
  aligned := by simpa using ha
  page := by
    intro i b hb
    obtain ⟨rfl, rfl⟩ : i = 0 ∧ a = b := by
      cases i with
      | zero => simpa using hb
      | succ i => simp at hb
    rw [lookup_insert]
    simp [chainPage, window]
  dead := by
    intro b hb
    rw [lookup_insert_ne (by simpa using hb), lookup_empty]

theorem append (h : PageChain cap pages st l) (hq : l[k]? = some q) (hk : k + 1 = l.length)
    (ha : a ∉ l) (haligned : SIZE cap ∣ a) (hlen : st.length ≤ l.length * cap) :
    PageChain cap ((pages.insert a ⟨some q, none, []⟩).insert q
      { chainPage cap st l k with child := some a }) st (l ++ [a]) where
  nodup := nodup_append.mpr ⟨h.nodup, nodup_singleton a, by
    rintro x hx y hy rfl
    exact ha (mem_singleton.mp hy ▸ hx)⟩
  aligned := by
    intro b hb
    rcases mem_append.mp hb with hb | hb
    · exact h.aligned b hb
    · exact mem_singleton.mp hb ▸ haligned
  page := by
    intro i b hb
    have haq : a ≠ q := by
      rintro rfl
      exact ha (mem_of_getElem? hq)
    rcases lt_or_ge i l.length with hlt | hge
    · rw [getElem?_append_left hlt] at hb
      have hba : b ≠ a := by
        rintro rfl
        exact ha (mem_of_getElem? hb)
      have hprev : (l ++ [a])[i - 1]? = l[i - 1]? := getElem?_append_left (by omega)
      by_cases hbq : b = q
      · subst hbq
        obtain rfl := h.index_eq hb hq
        have hnext : (l ++ [a])[i + 1]? = some a := by
          rw [hk, List.getElem?_append_right (le_refl _), Nat.sub_self]
          rfl
        rw [lookup_insert, chainPage, chainPage, hprev, hnext]
      have hik : i ≠ k := by
        rintro rfl
        exact hbq (some.inj (hb.symm.trans hq))
      have hnext : (l ++ [a])[i + 1]? = l[i + 1]? := getElem?_append_left (by omega)
      rw [lookup_insert_ne hbq, lookup_insert_ne hba, h.page i b hb, chainPage,
        chainPage, hprev, hnext]
    obtain ⟨hlt, hget⟩ := List.getElem?_eq_some_iff.mp hb
    rw [length_append, length_singleton] at hlt
    obtain rfl : i = l.length := by omega
    obtain rfl : a = b := by simpa using hget
    have hprev : (l ++ [a])[l.length - 1]? = some q := by
      rw [getElem?_append_left (by omega), ← hq]
      congr 1
      omega
    have hnext : (l ++ [a])[l.length + 1]? = none := by simp
    rw [lookup_insert_ne haq, lookup_insert, chainPage, window_eq_nil hlen, hprev,
      hnext, if_neg (by omega)]
  dead := by
    intro b hb
    rw [mem_append, mem_singleton, not_or] at hb
    have hbq : b ≠ q := by
      rintro rfl
      exact hb.1 (mem_of_getElem? hq)
    rw [lookup_insert_ne hbq, lookup_insert_ne hb.2, h.dead b hb.1]

theorem delete (h : PageChain cap pages st (l ++ [a])) (hq : l[k]? = some q)
    (hk : k + 1 = l.length) :
    PageChain cap ((pages.insert q { chainPage cap st (l ++ [a]) k with child := none }).erase a)
      st l := by
  have hnodup := nodup_append.mp h.nodup
  have ha : a ∉ l := fun hmem => hnodup.2.2 a hmem a (mem_singleton_self a) rfl
  refine ⟨hnodup.1, fun b hb => h.aligned b (mem_append_left _ hb), ?_, ?_⟩
  · intro i b hb
    obtain ⟨hlt, _⟩ := List.getElem?_eq_some_iff.mp hb
    have hba : b ≠ a := by
      rintro rfl
      exact ha (mem_of_getElem? hb)
    have hprev : (l ++ [a])[i - 1]? = l[i - 1]? := getElem?_append_left (by omega)
    rw [lookup_erase_ne hba]
    by_cases hbq : b = q
    · subst hbq
      obtain rfl : i = k := (getElem?_inj hlt hnodup.1).mp (hb.trans hq.symm)
      have hnext : l[i + 1]? = none := by rw [getElem?_eq_none_iff]; omega
      rw [lookup_insert, chainPage, chainPage, hprev, hnext]
    have hik : i ≠ k := by
      rintro rfl
      exact hbq (some.inj (hb.symm.trans hq))
    have hnext : (l ++ [a])[i + 1]? = l[i + 1]? := getElem?_append_left (by omega)
    have hb' : (l ++ [a])[i]? = some b := by rw [getElem?_append_left hlt, hb]
    rw [lookup_insert_ne hbq, h.page i b hb', chainPage, chainPage, hprev, hnext]
  intro b hb
  by_cases hba : b = a
  · rw [hba, lookup_erase]
  have hbq : b ≠ q := by
    rintro rfl
    exact hb (mem_of_getElem? hq)
  rw [lookup_erase_ne hba, lookup_insert_ne hbq]
  exact h.dead b (by simp [hb, hba])

end PageChain

/-! ## What a pool represents, and where a token points -/

/-- The pool `p` is the stack `st` on the chain of pages `l`. -/
inductive PoolHeap.Represents (cap : Nat) : PoolHeap → List PoolEntry → List PageAddr → Prop where
  | nil {p : PoolHeap} : p.tls = .nil → p.pages = ∅ → Represents cap p [] []
  | placeholder {p : PoolHeap} : p.tls = .placeholder → p.pages = ∅ → Represents cap p [none] []
  | pages {p : PoolHeap} {st : List PoolEntry} {l : List PageAddr} (k : Nat) {a : PageAddr} :
      p.tls = .page a → l[k]? = some a → PageChain cap p.pages st l → k * cap ≤ st.length →
      st.length ≤ (k + 1) * cap → Represents cap p st l

/-- The token is the address of the entry at height `h`, or the placeholder for the bottom. -/
def TokenAt (cap : Nat) (l : List PageAddr) (h : Nat) (token : PoolToken) : Prop :=
  token = EMPTY_POOL_PLACEHOLDER ∧ h = 0 ∨
    ∃ a, l[h / cap]? = some a ∧ token = slot a (h % cap)

theorem TokenAt.mono {l l' : List PageAddr} {h : Nat} {token : PoolToken}
    (ht : TokenAt cap l h token) (hl : ∀ a, l[h / cap]? = some a → l'[h / cap]? = some a) :
    TokenAt cap l' h token := by
  rcases ht with ht | ⟨a, ha, ht⟩
  · exact .inl ht
  · exact .inr ⟨a, hl a ha, ht⟩

theorem tokenAt_next {l : List PageAddr} {a : PageAddr} {k h : Nat} (hk : l[k]? = some a)
    (hlow : k * cap ≤ h) (hup : h < (k + 1) * cap) : TokenAt cap l h (slot a (h - k * cap)) := by
  have hdiv : h / cap = k := Nat.div_eq_of_lt_le hlow hup
  refine .inr ⟨a, hdiv ▸ hk, ?_⟩
  rw [mod_eq_sub_mul_div, hdiv, mul_comm]

namespace PoolHeap

variable {p : PoolHeap} {st : List PoolEntry} {l : List PageAddr} {a q : PageAddr} {k : Nat}

/-! ## Adding an entry -/

theorem add_spec (h : PageChain cap p.pages st l) (hk : l[k]? = some a)
    (hlow : k * cap ≤ st.length) (hup : st.length < (k + 1) * cap) (e : PoolEntry) :
    ∃ p', p.add cap a e = some (slot a (st.length - k * cap), p') ∧ p'.tls = p.tls ∧
      PageChain cap p'.pages (st ++ [e]) l := by
  have hlen := length_window_of_le (n := cap) hlow (le_of_lt hup)
  have hfull : ¬ (chainPage cap st l k).full cap := by
    show ¬ (window cap st k).length = cap
    rw [succ_mul] at hup
    omega
  refine ⟨p.setPage a (chainPage cap (st ++ [e]) l k), ?_, rfl, h.concat hk hlow hup e⟩
  simp only [add, h.page k a hk, if_neg hfull, AutoreleasePoolPage.next]
  rw [show (chainPage cap st l k).entries = window cap st k from rfl, hlen,
    ← window_concat hlow hup e]
  rfl

theorem Represents.add (h : PageChain cap p.pages st l) (htls : p.tls = .page a)
    (hk : l[k]? = some a) (hlow : k * cap ≤ st.length) (hup : st.length < (k + 1) * cap)
    (e : PoolEntry) :
    ∃ t p', p.add cap a e = some (t, p') ∧ Represents cap p' (st ++ [e]) l ∧
      TokenAt cap l st.length t := by
  obtain ⟨p', hadd, htls', hchain⟩ := add_spec h hk hlow hup e
  refine ⟨_, p', hadd, .pages k (htls'.trans htls) hk hchain ?_ ?_, tokenAt_next hk hlow hup⟩
  · rw [length_append]
    omega
  · rw [length_append]
    exact hup

variable (A : PageAllocator cap)

theorem newPage_spec (h : PageChain cap p.pages st l)
    (hq : l[k]? = some q) (hk : k + 1 = l.length) (hlen : st.length ≤ l.length * cap) :
    ∃ a p', p.newPage A (some q) = some (a, p') ∧ p'.tls = p.tls ∧
      PageChain cap p'.pages st (l ++ [a]) := by
  have hchild : (chainPage cap st l k).child = none := by
    show l[k + 1]? = none
    rw [getElem?_eq_none_iff]
    omega
  have hchain := h.append hq hk (h.not_mem_of_not_mem_keys (A.fresh p.mallocs p.pages.keys))
    (A.aligned p.mallocs p.pages.keys) hlen
  refine ⟨_, ⟨_, p.tls, p.mallocs + 1⟩, ?_, rfl, hchain⟩
  simp only [newPage, h.page k q hq, hchild, isSome_none]
  rfl

theorem newPage_first (hp : p.pages = ∅) :
    ∃ a p', p.newPage A none = some (a, p') ∧ PageChain cap p'.pages [] [a] := by
  refine ⟨_, _, rfl, ?_⟩
  show PageChain cap (p.pages.insert _ _) [] _
  rw [hp]
  exact PageChain.singleton (A.aligned _ _)

theorem childPage_spec (h : PageChain cap p.pages st l)
    (hq : l[k]? = some q) (hlen : st.length ≤ (k + 1) * cap) :
    ∃ a p' l', p.childPage A q = some (a, p') ∧ p'.tls = p.tls ∧ l <+: l' ∧
      l'[k + 1]? = some a ∧ PageChain cap p'.pages st l' := by
  have hlookup := h.page k q hq
  obtain ⟨hlt, _⟩ := List.getElem?_eq_some_iff.mp hq
  cases hc : l[k + 1]? with
  | some c =>
    refine ⟨c, p, l, ?_, rfl, prefix_refl l, hc, h⟩
    simp only [childPage, hlookup, chainPage, hc]
  | none => ?_
  have hk : k + 1 = l.length := by
    rw [getElem?_eq_none_iff] at hc
    omega
  obtain ⟨a, p', hnew, htls, hchain⟩ := newPage_spec A h hq hk (hk ▸ hlen)
  refine ⟨a, p', l ++ [a], ?_, htls, prefix_append l [a], ?_, hchain⟩
  · simp only [childPage, hlookup, chainPage, hc, hnew]
  · rw [hk, List.getElem?_append_right (le_refl _), Nat.sub_self]
    rfl

theorem autoreleaseFullPage_spec (hcap : 0 < cap)
    (h : PageChain cap p.pages st l) (hq : l[k]? = some q) (hlen : st.length = (k + 1) * cap)
    (e : PoolEntry) :
    ∃ t p' l', p.autoreleaseFullPage A e q = some (t, p') ∧ l <+: l' ∧
      Represents cap p' (st ++ [e]) l' ∧ TokenAt cap l' st.length t := by
  obtain ⟨a, p', l', hchild, _, hpre, ha, hchain⟩ := childPage_spec A h hq (le_of_eq hlen)
  have hfull : ¬ (chainPage cap st l' (k + 1)).full cap := by
    show ¬ (window cap st (k + 1)).length = cap
    rw [window_eq_nil (le_of_eq hlen), length_nil]
    omega
  have hpage : nonFullPage A p.fuel p q = some (a, p') := by
    simp only [fuel, nonFullPage, hchild, hchain.page (k + 1) a ha, if_neg hfull]
  obtain ⟨t, p'', hadd, hrep, htoken⟩ :=
    Represents.add (p := p'.setHotPage (some a)) hchain rfl ha (le_of_eq hlen.symm)
      (by rw [hlen]; exact mul_lt_mul_of_pos_right (lt_succ_self _) hcap) e
  refine ⟨t, p'', l', ?_, hpre, hrep, htoken⟩
  simp only [autoreleaseFullPage, hpage, hadd]

/-- **`autoreleaseFast` puts one entry on the stack** and returns its address. A first page must
have room for the placeholder's boundary and the entry. -/
theorem autoreleaseFast_spec (hcap : 2 ≤ cap)
    (h : Represents cap p st l) (e : PoolEntry) :
    ∃ t p' l', p.autoreleaseFast A e = some (t, p') ∧ l <+: l' ∧
      Represents cap p' (st ++ [e]) l' ∧ TokenAt cap l' st.length t := by
  cases h with
  | nil htls hpages =>
    cases e with
    | none =>
      refine ⟨_, { p with tls := .placeholder }, [], ?_, prefix_refl _,
        .placeholder rfl hpages, .inl ⟨rfl, rfl⟩⟩
      simp only [autoreleaseFast, hotPage, htls, autoreleaseNoPage]
    | some obj => ?_
    obtain ⟨a, p', hnew, hchain⟩ := newPage_first A hpages
    obtain ⟨t, p'', hadd, hrep, htoken⟩ :=
      Represents.add (p := p'.setHotPage (some a)) hchain rfl (k := 0) rfl (by simp)
        (by rw [length_nil]; omega) (some obj)
    refine ⟨t, p'', [a], ?_, nil_prefix, hrep, htoken⟩
    simp only [autoreleaseFast, hotPage, htls, autoreleaseNoPage, hnew, hadd]
  | placeholder htls hpages =>
    obtain ⟨a, p', hnew, hchain⟩ := newPage_first A hpages
    obtain ⟨p1, hadd1, htls1, hchain1⟩ :=
      add_spec (p := p'.setHotPage (some a)) hchain (k := 0) rfl (by simp)
        (by rw [length_nil]; omega) none
    obtain ⟨t, p2, hadd2, hrep, htoken⟩ :=
      Represents.add hchain1 htls1 (k := 0) rfl (by simp)
        (by rw [nil_append, length_singleton]; omega) e
    refine ⟨t, p2, [a], ?_, nil_prefix, hrep, htoken⟩
    simp only [autoreleaseFast, hotPage, htls, autoreleaseNoPage, hnew, hadd1, hadd2]
  | pages k htls hk hchain hlow hup => ?_
  rename_i a
  rcases lt_or_eq_of_le hup with hlt | heq
  · obtain ⟨t, p', hadd, hrep, htoken⟩ := Represents.add hchain htls hk hlow hlt e
    have hfull : ¬ (chainPage cap st l k).full cap := by
      show ¬ (window cap st k).length = cap
      rw [length_window_of_le hlow hup]
      rw [succ_mul] at hlt
      omega
    refine ⟨t, p', l, ?_, prefix_refl l, hrep, htoken⟩
    simp only [autoreleaseFast, hotPage, htls, hchain.page k a hk, if_neg hfull, hadd]
  obtain ⟨t, p', l', hadd, hpre, hrep, htoken⟩ :=
    autoreleaseFullPage_spec A (by omega) hchain hk heq e
  have hfull : (chainPage cap st l k).full cap := by
    show (window cap st k).length = cap
    rw [length_window_of_le hlow hup, heq, succ_mul]
    omega
  refine ⟨t, p', l', ?_, hpre, hrep, htoken⟩
  simp only [autoreleaseFast, hotPage, htls, hchain.page k a hk, if_pos hfull, hadd]

end PoolHeap

end ObjcRuntime
