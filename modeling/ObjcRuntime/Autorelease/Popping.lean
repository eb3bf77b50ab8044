/-
POPPING MOVES DOWN THE STACK AND KILLS EMPTY PAGES ONLY.

One lemma for each part of `pop`:

* `kill_spec`: `kill` deletes the end of the chain, all of it empty,
* `finishPop_spec`: the hysteresis moves no entry.
-/
import ObjcRuntime.Autorelease.Represent

namespace ObjcRuntime.PoolHeap

open AutoreleasePoolPage Lib List Nat

variable {cap : Nat} {p : PoolHeap} {st : List PoolEntry} {l : List PageAddr} {a : PageAddr}
  {k : Nat}

/-! ## From a token to its page -/

theorem slot_ne_placeholder (a j : Nat) : slot a j ≠ EMPTY_POOL_PLACEHOLDER := by
  show a + 56 + 8 * j ≠ 1
  omega

theorem slot_index (a j : Nat) : (slot a j - slot a 0) / 8 = j := by
  show (a + 56 + 8 * j - (a + 56 + 8 * 0)) / 8 = j
  omega

theorem pageForPointer_slot {j : Nat} (ha : SIZE cap ∣ a) (hj : j < cap) :
    pageForPointer cap (slot a j) = some a := by
  have hlt : headerSize + 8 * j < SIZE cap := by
    show 56 + 8 * j < 56 + 8 * cap
    omega
  have hoff : slot a j % SIZE cap = headerSize + 8 * j := by
    rw [slot, add_assoc, Nat.add_mod, Nat.mod_eq_zero_of_dvd ha, zero_add, Nat.mod_mod]
    exact Nat.mod_eq_of_lt hlt
  have hpage : slot a j - (headerSize + 8 * j) = a := by
    rw [slot, add_assoc, Nat.add_sub_cancel]
  simp only [pageForPointer, hoff, Nat.le_add_right, if_true, hpage]

theorem coldPage_spec (h : PageChain cap p.pages st l) :
    ∀ {k fuel : Nat} {a : PageAddr}, l[k]? = some a → k < fuel → p.coldPage fuel a = l[0]? := by
  intro k
  induction k with
  | zero =>
    intro fuel a hk hfuel
    rcases fuel with _ | fuel
    · omega
    simp only [coldPage, h.page 0 a hk, chainPage, if_true, hk]
  | succ k ih => ?_
  intro fuel a hk hfuel
  rcases fuel with _ | fuel
  · omega
  obtain ⟨hlt, _⟩ := List.getElem?_eq_some_iff.mp hk
  have hparent : l[k]? = some l[k] := List.getElem?_eq_getElem (by omega)
  simp only [coldPage, h.page (k + 1) a hk, chainPage, Nat.succ_ne_zero, if_false,
    Nat.add_sub_cancel, hparent]
  exact ih hparent (by omega)

theorem popAddress_spec (hcap : 0 < cap) (h : PageChain cap p.pages st l) {height : Nat}
    (hb : st[height]? = some none) (ha : l[height / cap]? = some a) :
    p.popAddress cap (slot a (height % cap)) = some (.releaseUntil a (slot a (height % cap))) := by
  have hslot := pageForPointer_slot (h.aligned a (mem_of_getElem? ha)) (mod_lt height hcap)
  have hboundary : (chainPage cap st l (height / cap)).boundaryAt a (slot a (height % cap))
      = true := by
    simp only [boundaryAt, chainPage, slot_index, getElem?_window_div_mod hcap, hb]
  simp only [popAddress, hslot, h.page _ a ha, hboundary, true_or, if_true]

theorem pop_spec (hcap : 0 < cap) (h : Represents cap p st l) {height : Nat}
    (hb : st[height]? = some none) {token : PoolToken} (ht : TokenAt cap l height token) :
    (∃ a, l[height / cap]? = some a ∧
        p.pop cap token = some (.releaseUntil a (slot a (height % cap)))) ∨
      (p.tls = .placeholder ∧ p.pages = ∅ ∧ st = [none] ∧ l = [] ∧ height = 0 ∧
        p.pop cap token = some .clearPlaceholder) := by
  rcases ht with ⟨rfl, rfl⟩ | ⟨a, ha, rfl⟩
  · cases h with
    | nil => simp at hb
    | placeholder htls hpages =>
      refine Or.inr ⟨htls, hpages, rfl, rfl, rfl, ?_⟩
      simp only [pop, if_true, hotPage, htls]
    | pages k htls hk hchain hlow hup => ?_
    obtain ⟨hlt, _⟩ := List.getElem?_eq_some_iff.mp hk
    have hcold : l[0 / cap]? = some l[0] := by
      rw [Nat.zero_div]
      exact getElem?_eq_getElem (by omega)
    have hwalk : p.coldPage p.fuel _ = some l[0] :=
      (coldPage_spec hchain hk (by have := hchain.length_le_keys; simp only [fuel]; omega)).trans
        (getElem?_eq_getElem (by omega))
    have haddress := popAddress_spec hcap hchain hb hcold
    rw [zero_mod] at haddress ⊢
    exact Or.inl ⟨_, hcold, by simp only [pop, if_true, hotPage, htls, hwalk, haddress]⟩
  cases h with
  | nil | placeholder => simp at ha
  | pages k htls hk hchain hlow hup =>
    refine Or.inl ⟨a, ha, ?_⟩
    simp only [pop, if_neg (slot_ne_placeholder a _), popAddress_spec hcap hchain hb ha]

/-! ## One round of `releaseUntil` -/

theorem popEntry_hot {e : PoolEntry} (fuel : Nat) (hchain : PageChain cap p.pages (st ++ [e]) l)
    (htls : p.tls = .page a) (hk : l[k]? = some a) (hlow : k * cap ≤ st.length)
    (hup : st.length < (k + 1) * cap) :
    ∃ p', popEntry (fuel + 1) p = some (e, p') ∧ Represents cap p' st l := by
  have hwindow := window_concat hlow hup e
  refine ⟨p.setPage a (chainPage cap st l k), ?_,
    .pages k htls hk (hchain.dropLast hk hlow hup) hlow (le_of_lt hup)⟩
  simp only [popEntry, hotPage, htls, hchain.page k a hk, chainPage, hwindow,
    getLast?_concat, dropLast_concat]

theorem popEntry_spec (hcap : 0 < cap) {e : PoolEntry} (h : Represents cap p (st ++ [e]) l)
    (hl : l ≠ []) : ∃ p', popEntry p.fuel p = some (e, p') ∧ Represents cap p' st l := by
  generalize hst : st ++ [e] = st' at h
  cases h with
  | nil => simp at hst
  | placeholder => exact absurd rfl hl
  | pages k htls hk hchain hlow hup => ?_
  subst hst
  rw [length_append, length_singleton] at hlow hup
  rcases Nat.lt_or_eq_of_le hlow with hlt | heq
  · exact popEntry_hot _ hchain htls hk (by omega) (by omega)
  -- the hot page is empty, and its parent is full
  obtain ⟨k, rfl⟩ : ∃ j, k = j + 1 := by
    refine ⟨k - 1, ?_⟩
    rcases Nat.eq_zero_or_pos k with rfl | hpos <;> omega
  obtain ⟨hltk, _⟩ := List.getElem?_eq_some_iff.mp hk
  have hparent : l[k]? = some l[k] := List.getElem?_eq_getElem (by omega)
  have hfuel : ∃ f, p.fuel = f + 2 := by
    have := hchain.length_le_keys
    exact ⟨p.fuel - 2, by simp only [fuel]; omega⟩
  obtain ⟨f, hf⟩ := hfuel
  have hempty : window cap (st ++ [e]) (k + 1) = [] :=
    window_eq_nil (by rw [length_append, length_singleton]; omega)
  have hlow' : k * cap ≤ st.length := by
    rw [Nat.succ_mul] at heq
    omega
  obtain ⟨p', hpop, hrep⟩ := popEntry_hot (p := p.setHotPage (some l[k])) f
    hchain rfl hparent hlow' (by omega)
  refine ⟨p', ?_, hrep⟩
  rw [hf, popEntry]
  simp only [hotPage, htls, hchain.page (k + 1) _ hk, chainPage, hempty, getLast?_nil,
    Nat.succ_ne_zero, if_false, Nat.add_sub_cancel, hparent, hpop]

/-! ## Killing pages -/

theorem lastPage_spec (h : PageChain cap p.pages st l) :
    ∀ {fuel k : Nat} {a : PageAddr}, l[k]? = some a → l.length - k ≤ fuel →
      p.lastPage fuel a = l.getLast? := by
  intro fuel
  induction fuel with
  | zero =>
    intro k a hk hfuel
    obtain ⟨hlt, _⟩ := List.getElem?_eq_some_iff.mp hk
    omega
  | succ fuel ih => ?_
  intro k a hk hfuel
  cases hc : l[k + 1]? with
  | none =>
    have hlast : l.getLast? = some a := by
      obtain ⟨hlt, _⟩ := List.getElem?_eq_some_iff.mp hk
      rw [getElem?_eq_none_iff] at hc
      rw [getLast?_eq_getElem?, ← hk]
      congr 1
      omega
    simp only [lastPage, h.page k a hk, chainPage, hc, hlast]
  | some c =>
    simp only [lastPage, h.page k a hk, chainPage, hc]
    exact ih hc (by omega)

theorem deletePage_spec (h : PageChain cap p.pages st (l ++ [a])) (hl : l ≠ [])
    (hlen : st.length ≤ l.length * cap) :
    ∃ p', p.deletePage a = some p' ∧ p'.tls = p.tls ∧ PageChain cap p'.pages st l := by
  have hpos : 0 < l.length := length_pos_iff.mpr hl
  have hq : l[l.length - 1]? = some l[l.length - 1] := getElem?_eq_getElem (by omega)
  have hq' : (l ++ [a])[l.length - 1]? = some l[l.length - 1] := by
    rw [getElem?_append_left (by omega), hq]
  have ha : (l ++ [a])[l.length]? = some a := by simp
  have hempty : ¬ ((chainPage cap st (l ++ [a]) l.length).entries ≠ [] ∨
      (chainPage cap st (l ++ [a]) l.length).child.isSome) := by
    simp [chainPage, window_eq_nil hlen]
  have hparent : (chainPage cap st (l ++ [a]) l.length).parent = some l[l.length - 1] := by
    simp only [chainPage, ne_of_gt hpos, if_false, hq']
  refine ⟨⟨(p.pages.insert l[l.length - 1] { chainPage cap st (l ++ [a]) (l.length - 1) with
    child := none }).erase a, p.tls, p.mallocs⟩, ?_, rfl, h.delete hq (by omega)⟩
  simp only [deletePage, h.page _ a ha, if_neg hempty, hparent, h.page _ _ hq']

variable {this : PageAddr}

/-- The second loop of `kill`: by induction on the pages that go, the last one first. -/
theorem deletePages_spec {l1 l2 : List PageAddr} (hl1 : l1 ≠ [])
    (hlen : st.length ≤ l1.length * cap) :
    ∀ (fuel : Nat) {p : PoolHeap}, PageChain cap p.pages st (l1 ++ this :: l2) → l2.length < fuel →
      ∃ p', deletePages fuel p this ((this :: l2).getLast (cons_ne_nil _ _)) = some p' ∧
        p'.tls = p.tls ∧ PageChain cap p'.pages st l1 := by
  induction l2 using reverseRecOn with
  | nil =>
    intro fuel p h hfuel
    rcases fuel with _ | fuel
    · omega
    obtain ⟨p', hdel, htls, hchain⟩ := deletePage_spec h hl1 hlen
    have hthis : (l1 ++ [this])[l1.length]? = some this := by simp
    refine ⟨p', ?_, htls, hchain⟩
    simp only [getLast_singleton, deletePages, h.page _ _ hthis, hdel, if_true]
  | append_singleton l2 b ih => ?_
  intro fuel p h hfuel
  rw [length_append, length_singleton] at hfuel
  rcases fuel with _ | fuel
  · omega
  have hassoc : l1 ++ this :: (l2 ++ [b]) = (l1 ++ this :: l2) ++ [b] := by simp
  rw [hassoc] at h
  have hlen' : st.length ≤ (l1 ++ this :: l2).length * cap := by
    refine le_trans hlen (mul_le_mul_right cap ?_)
    rw [length_append]
    omega
  obtain ⟨p', hdel, htls, hchain⟩ := deletePage_spec h (by simp) hlen'
  obtain ⟨p'', hrest, htls', hchain'⟩ := ih fuel hchain (by omega)
  have hb : ((l1 ++ this :: l2) ++ [b])[(l1 ++ this :: l2).length]? = some b := by simp
  have hne : b ≠ this := by
    have hthis : this ∈ l1 ++ this :: l2 := by simp
    intro heq
    exact (nodup_append.mp h.nodup).2.2 this hthis b (mem_singleton_self b) heq.symm
  -- the parent of the deleted page is the last of those that remain
  have hparent : ((l1 ++ this :: l2) ++ [b])[(l1 ++ this :: l2).length - 1]?
      = some ((this :: l2).getLast (cons_ne_nil _ _)) := by
    rw [getElem?_append_left (by simp), ← getLast?_eq_getElem?,
      getLast?_append_of_ne_nil _ (cons_ne_nil _ _),
      getLast?_eq_some_getLast (cons_ne_nil _ _)]
  refine ⟨p'', ?_, htls'.trans htls, hchain'⟩
  have hlast : (this :: (l2 ++ [b])).getLast (cons_ne_nil _ _) = b := by simp
  have hpos : (l1 ++ this :: l2).length ≠ 0 := by simp
  rw [hlast, deletePages]
  simp only [h.page _ b hb, chainPage, hdel, if_neg hne, if_neg hpos, hparent, hrest]

theorem kill_spec {l1 l2 : List PageAddr} (h : PageChain cap p.pages st (l1 ++ this :: l2))
    (hl1 : l1 ≠ []) (hlen : st.length ≤ l1.length * cap) :
    ∃ p', p.kill this = some p' ∧ p'.tls = p.tls ∧ PageChain cap p'.pages st l1 := by
  have hkeys := h.length_le_keys
  rw [length_append, length_cons] at hkeys
  have hthis : (l1 ++ this :: l2)[l1.length]? = some this := by simp
  have hlast : p.lastPage p.fuel this = some ((this :: l2).getLast (cons_ne_nil _ _)) := by
    rw [lastPage_spec h hthis (by rw [length_append, length_cons, fuel]; omega),
      getLast?_append_of_ne_nil _ (cons_ne_nil _ _),
      getLast?_eq_some_getLast (cons_ne_nil _ _)]
  obtain ⟨p', hdel, htls, hchain⟩ := deletePages_spec hl1 hlen p.fuel h (by simp only [fuel]; omega)
  exact ⟨p', by simp only [kill, hlast, hdel], htls, hchain⟩

theorem kill_at {j : Nat} {c : PageAddr} (h : PageChain cap p.pages st l) (hc : l[j]? = some c)
    (hj : 0 < j) (hlen : st.length ≤ j * cap) :
    ∃ p', p.kill c = some p' ∧ p'.tls = p.tls ∧ PageChain cap p'.pages st (l.take j) := by
  obtain ⟨hlt, hget⟩ := List.getElem?_eq_some_iff.mp hc
  have hsplit : l = l.take j ++ c :: l.drop (j + 1) := by
    rw [← hget, ← drop_eq_getElem_cons hlt, take_append_drop]
  have htake : (l.take j).length = j := by
    rw [length_take]
    omega
  have h' : PageChain cap p.pages st (l.take j ++ c :: l.drop (j + 1)) := hsplit ▸ h
  refine kill_spec h' ?_ (by rw [htake]; exact hlen)
  intro hnil
  rw [hnil, length_nil] at htake
  omega

theorem finishPop_spec (hcap : 0 < cap) (h : Represents cap p st l)
    (hthis : l[st.length / cap]? = some this) :
    ∃ p' j, p.finishPop cap this = some p' ∧ st.length / cap < j ∧
      Represents cap p' st (l.take j) := by
  cases h with
  | nil | placeholder => simp at hthis
  | pages k htls hk hchain hlow hup => ?_
  have hlow' : st.length / cap * cap ≤ st.length := div_mul_le_self _ _
  have hup' : st.length < (st.length / cap + 1) * cap := lt_mul_of_div_lt (lt_succ_self _) hcap
  generalize st.length / cap = j at *
  obtain ⟨hj, _⟩ := List.getElem?_eq_some_iff.mp hthis
  have hpage : (p.setHotPage (some this)).pages.lookup this = some (chainPage cap st l j) :=
    hchain.page j this hthis
  -- the chain may lose what comes after place `n`, if that is after the hot page
  have hfinish : ∀ n p', p'.tls = .page this → PageChain cap p'.pages st (l.take n) → j < n →
      Represents cap p' st (l.take n) := by
    intro n p' htls' hchain' hn
    exact .pages j htls' (by rw [getElem?_take_of_lt hn, hthis]) hchain' hlow' (le_of_lt hup')
  have hstay : Represents cap (p.setHotPage (some this)) st (l.take l.length) :=
    hfinish l.length _ rfl (by rw [take_length]; exact hchain) hj
  cases hc : l[j + 1]? with
  | none =>
    have hchild : (chainPage cap st l j).child = none := hc
    exact ⟨_, l.length, by simp only [finishPop, hpage, hchild], hj, hstay⟩
  | some c => ?_
  have hchild : (chainPage cap st l j).child = some c := hc
  by_cases hhalf : (chainPage cap st l j).lessThanHalfFull cap
  · obtain ⟨p', hkill, htls', hchain'⟩ := kill_at (p := p.setHotPage (some this)) hchain hc
      (succ_pos j) (le_of_lt hup')
    refine ⟨p', j + 1, ?_, lt_succ_self j, hfinish _ p' htls' hchain' (lt_succ_self j)⟩
    simp only [finishPop, hpage, hchild, if_pos hhalf, hkill]
  have hpage' : (p.setHotPage (some this)).pages.lookup c
      = some (chainPage cap st l (j + 1)) := hchain.page (j + 1) c hc
  cases hc' : l[j + 2]? with
  | none =>
    have hchild' : (chainPage cap st l (j + 1)).child = none := hc'
    refine ⟨_, l.length, ?_, hj, hstay⟩
    simp only [finishPop, hpage, hchild, if_neg hhalf, hpage', hchild']
  | some c' => ?_
  have hchild' : (chainPage cap st l (j + 1)).child = some c' := hc'
  have hlen : st.length ≤ (j + 2) * cap :=
    le_trans (le_of_lt hup') (mul_le_mul_right cap (le_succ _))
  obtain ⟨p', hkill, htls', hchain'⟩ := kill_at (p := p.setHotPage (some this))
    hchain hc' (succ_pos _) hlen
  refine ⟨p', j + 2, ?_, by omega, hfinish _ p' htls' hchain' (by omega)⟩
  simp only [finishPop, hpage, hchild, if_neg hhalf, hpage', hchild', hkill]

end ObjcRuntime.PoolHeap
