/-
FORESTS WITH PARENT, FIRST-CHILD AND NEXT-SIBLING LINKS.

`Forest L linked children`: the links `L` describe a forest whose nodes are the
`linked` ones and in which `children p` is the list that starts at `first p`.
The rules:

* `Forest.insert`, `Forest.remove`: a node at the front of a list of
  children, and a node taken out of one,
* `walk`, `Forest.walk_spec`: the traversal without a stack (down to the
  first child, over to the next sibling, up to the parent) visits each node
  under its start once, within a bounded number of moves.
-/
import Mathlib.Data.Finset.Lattice.Fold
import Mathlib.Data.Fintype.Card
import Mathlib.Logic.Relation
import Mathlib.Order.WellFounded

namespace ObjcRuntime.Lib

open Function List Option Relation.ReflTransGen

variable {α : Type*}

/-! ## Nodes under a node -/

/-- `c` is `a` or lies under it. -/
def Under (parent : α → Option α) : α → α → Prop :=
  Relation.ReflTransGen fun c p => parent c = some p

namespace Under

variable {parent parent' : α → Option α} {a b c : α}

theorem refl (parent : α → Option α) (c : α) : Under parent c c := Relation.ReflTransGen.refl

theorem head (h : parent c = some b) (hu : Under parent b a) : Under parent c a :=
  Relation.ReflTransGen.head h hu

theorem total (ha : Under parent c a) (hb : Under parent c b) :
    Under parent a b ∨ Under parent b a :=
  total_of_right_unique (fun _ _ _ h h' => some.inj (h.symm.trans h')) ha hb

/-- Below `a`, the way up goes through the parent. -/

theorem parent_of_ne (h : Under parent c a) (hne : c ≠ a) :
    ∃ p, parent c = some p ∧ Under parent p a := by
  rcases cases_head h with heq | ⟨p, hp, h⟩
  · exact absurd heq hne
  · exact ⟨p, hp, h⟩

theorem root_unique (ha : Under parent c a) (hb : Under parent c b) (hra : parent a = none)
    (hrb : parent b = none) : a = b := by
  by_contra hne
  rcases ha.total hb with hu | hu
  · obtain ⟨p, hp, _⟩ := hu.parent_of_ne hne
    rw [hra] at hp
    cases hp
  obtain ⟨p, hp, _⟩ := hu.parent_of_ne (Ne.symm hne)
  rw [hrb] at hp
  cases hp

theorem child_of_ne (h : Under parent c a) (hne : c ≠ a) :
    ∃ d, Under parent c d ∧ parent d = some a := by
  rcases cases_tail h with heq | ⟨d, hd, hda⟩
  · exact absurd heq.symm hne
  · exact ⟨d, hd, hda⟩

theorem of_closed {P : α → Prop} (hup : ∀ x p, P x → parent x = some p → Under parent p a → P p)
    (h : Under parent c a) (hc : P c) : P a := by
  induction h using head_induction_on with
  | refl => exact hc
  | head hp hu ih => exact ih (hup _ _ hc hp hu)

theorem of_changed {S : α → Prop} (hsame : ∀ x, ¬ S x → parent' x = parent x)
    (h : Under parent c a) (ha : S a) : ∃ b, S b ∧ Under parent' c b := by
  induction h using head_induction_on with
  | refl => exact ⟨a, ha, refl parent' a⟩
  | @head x p hp _ ih => ?_
  by_cases hx : S x
  · exact ⟨x, hx, refl parent' x⟩
  · obtain ⟨b, hb, hu⟩ := ih
    exact ⟨b, hb, head ((hsame x hx).trans hp) hu⟩

end Under

/-- The way up from a node for `fuel` steps, in search of another. -/
def reaches [DecidableEq α] (parent : α → Option α) (a : α) : Nat → α → Bool
  | 0, c => decide (c = a)
  | fuel + 1, c => decide (c = a) || (parent c).elim false (reaches parent a fuel)

def Ranked (parent : α → Option α) (rank : α → Nat) : Prop :=
  ∀ c p, parent c = some p → rank p < rank c

namespace Ranked

variable {parent : α → Option α} {rank : α → Nat} {a c : α}

section

variable (h : Ranked parent rank)

include h

theorem le_of_under (hu : Under parent c a) : rank a ≤ rank c := by
  induction hu with
  | refl => exact le_refl _
  | tail _ hp ih => exact le_trans (le_of_lt (h _ _ hp)) ih

theorem not_under_of_parent (hp : parent c = some a) : ¬ Under parent a c := by
  intro hu
  have hlt := h c a hp
  have hle := h.le_of_under hu
  omega

theorem wf_up : WellFounded fun p c => parent c = some p :=
  Subrelation.wf (fun {p c} hp => h c p hp) (measure rank).wf

theorem exists_root (c : α) : ∃ r, Under parent c r ∧ parent r = none := by
  induction c using h.wf_up.induction with
  | h c ih =>
    cases hp : parent c with
    | none => exact ⟨c, Under.refl _ _, hp⟩
    | some p =>
      obtain ⟨r, hu, hr⟩ := ih p hp
      exact ⟨r, Under.head hp hu, hr⟩

theorem exists_rooted : ∃ depth, Ranked parent depth ∧ ∀ c, parent c = none → depth c = 0 := by
  refine ⟨fun c => (parent c).elim 0 fun _ => rank c + 1, fun c p hp => ?_, fun c hc => ?_⟩
  · show (parent p).elim 0 (fun _ => rank p + 1) < (parent c).elim 0 fun _ => rank c + 1
    rw [hp, elim_some]
    cases parent p with
    | none => exact Nat.succ_pos _
    | some q => exact Nat.succ_lt_succ (h c p hp)
  · show (parent c).elim 0 (fun _ => rank c + 1) = 0
    rw [hc, elim_none]

end

variable (h : Ranked parent rank)
include h

theorem wf_down [Fintype α] :
    WellFounded fun c p => parent c = some p := by
  refine Subrelation.wf (fun {c p} hp => ?_) (measure fun c => Finset.univ.sup rank - rank c).wf
  have hlt : rank p < rank c := h c p hp
  have hle : rank c ≤ Finset.univ.sup rank := Finset.le_sup (Finset.mem_univ c)
  show Finset.univ.sup rank - rank c < Finset.univ.sup rank - rank p
  omega

theorem exists_bounded [Fintype α] :
    ∃ depth, Ranked parent depth ∧ ∀ c, depth c < Fintype.card α := by
  classical
  refine ⟨fun c => (Finset.univ.filter fun x => Under parent c x ∧ x ≠ c).card,
    fun c p hp => Finset.card_lt_card ?_, fun c => ?_⟩
  · refine (Finset.ssubset_iff_of_subset fun x hx => ?_).mpr ⟨p, ?_, ?_⟩
    · rw [Finset.mem_filter] at hx ⊢
      refine ⟨hx.1, Under.head hp hx.2.1, ?_⟩
      rintro rfl
      exact h.not_under_of_parent hp hx.2.1
    · rw [Finset.mem_filter]
      refine ⟨Finset.mem_univ p, Under.head hp (Under.refl _ _), ?_⟩
      rintro rfl
      exact h.not_under_of_parent hp (Under.refl _ _)
    · simp
  · exact Finset.card_lt_card
      ((Finset.ssubset_iff_of_subset (Finset.subset_univ _)).mpr ⟨c, Finset.mem_univ c, by simp⟩)

theorem reaches_of_under [DecidableEq α] {fuel : Nat} :
    ∀ {c : α}, rank c ≤ fuel → Under parent c a → reaches parent a fuel c = true := by
  induction fuel with
  | zero =>
    intro c hle hu
    by_cases heq : c = a
    · exact decide_eq_true heq
    obtain ⟨p, hp, _⟩ := hu.parent_of_ne heq
    have hlt := h c p hp
    omega
  | succ fuel ih => ?_
  intro c hle hu
  rw [reaches]
  by_cases heq : c = a
  · rw [decide_eq_true heq, Bool.true_or]
  obtain ⟨p, hp, hu'⟩ := hu.parent_of_ne heq
  have hlt := h c p hp
  rw [hp, elim_some, ih (by omega) hu', Bool.or_true]

theorem move [DecidableEq α] (hnot : ¬ Under parent a c) :
    ∃ rank', Ranked (update parent c (some a)) rank' := by
  classical
  -- everything under the node moves down with it
  refine ⟨fun x => if Under parent x c then rank x + rank a + 1 else rank x, fun x p hp => ?_⟩
  show (if Under parent p c then rank p + rank a + 1 else rank p)
    < (if Under parent x c then rank x + rank a + 1 else rank x)
  by_cases hx : x = c
  · subst hx
    rw [update_self] at hp
    cases hp
    rw [if_neg hnot, if_pos (Under.refl parent x)]
    omega
  rw [update_of_ne hx] at hp
  have hlt := h x p hp
  by_cases hu : Under parent x c
  · obtain ⟨p', hp', hu'⟩ := hu.parent_of_ne hx
    obtain rfl : p' = p := some.inj (hp'.symm.trans hp)
    rw [if_pos hu, if_pos hu']
    omega
  · rw [if_neg hu, if_neg fun hu' : Under parent p c => hu (Under.head hp hu')]
    exact hlt

end Ranked

/-! ## Links and lists of children -/

/-- The links of a forest. The roots are the list that starts at `first none`. -/
structure Links (α : Type*) where
  parent : α → Option α
  first : Option α → Option α
  next : α → Option α

/-- The list that starts at `a` and follows `next` to its end. -/
inductive SiblingList (next : α → Option α) : Option α → List α → Prop where
  | nil : SiblingList next none []
  | cons {c : α} {l : List α} : SiblingList next (next c) l → SiblingList next (some c) (c :: l)

variable {next : α → Option α} {l : List α}

theorem SiblingList.congr {next' : α → Option α} {a : Option α} (h : SiblingList next a l)
    (hsame : ∀ c ∈ l, next' c = next c) : SiblingList next' a l := by
  induction h with
  | nil => exact .nil
  | @cons c l _ ih =>
    refine .cons ?_
    rw [hsame c mem_cons_self]
    exact ih fun d hd => hsame d (mem_cons_of_mem _ hd)

theorem SiblingList.mem_of_next :
    ∀ {x c p : α}, SiblingList next (next x) l → c ∈ x :: l → next c = some p → p ∈ l := by
  induction l with
  | nil =>
    intro x c p h hc hp
    rw [mem_singleton] at hc
    rw [hc] at hp
    rw [hp] at h
    cases h
  | cons y l ih => ?_
  intro x c p h hc hp
  generalize hx : next x = a at h
  cases h with
  | cons h =>
    rcases mem_cons.mp hc with rfl | hc
    · rw [hx] at hp
      exact mem_cons.mpr (.inl (some.inj hp).symm)
    · exact mem_cons_of_mem _ (ih h hc hp)

theorem SiblingList.under_iff :
    ∀ {x p : α}, SiblingList next (next x) l → (Under next x p ↔ p ∈ x :: l) := by
  intro x p h
  constructor
  · intro hu
    exact hu.of_closed (P := (· ∈ x :: l))
      (fun c q hc hq _ => mem_cons_of_mem _ (h.mem_of_next hc hq)) mem_cons_self
  intro hp
  induction l generalizing x with
  | nil =>
    rw [mem_singleton] at hp
    rw [hp]
    exact Under.refl next x
  | cons y l ih => ?_
  generalize hx : next x = a at h
  cases h with
  | cons h =>
    rcases mem_cons.mp hp with rfl | hp
    · exact Under.refl next _
    · exact Under.head hx (ih h hp)

theorem Ranked.exists_chain {parent : α → Option α} {rank : α → Nat} (h : Ranked parent rank)
    (c : α) : ∃ l, SiblingList parent (some c) l := by
  induction c using h.wf_up.induction with
  | h c ih =>
    cases hp : parent c with
    | none => exact ⟨[c], .cons (hp ▸ .nil)⟩
    | some p =>
      obtain ⟨l, hl⟩ := ih p hp
      exact ⟨c :: l, .cons (hp ▸ hl)⟩

theorem Ranked.chain_length_le {parent : α → Option α} {rank : α → Nat} (h : Ranked parent rank) :
    ∀ {c : α}, SiblingList parent (some c) l → l.length ≤ rank c + 1 := by
  induction l with
  | nil => intro c _; exact Nat.zero_le _
  | cons d l ih => ?_
  intro c hl
  cases hl with
  | cons hl =>
    cases l with
    | nil => exact Nat.succ_le_succ (Nat.zero_le _)
    | cons e l => ?_
    generalize hp : parent d = a at hl
    cases hl with
    | cons hl' =>
      have hle := ih (.cons hl')
      have hlt := h d e hp
      rw [length_cons]
      omega

/-- The links are a forest of the `linked` nodes. -/
structure Forest (L : Links α) (linked : α → Prop) (children : Option α → List α) : Prop where
  siblings : ∀ p, SiblingList L.next (L.first p) (children p)
  nodup : ∀ p, (children p).Nodup
  mem_children : ∀ p c, c ∈ children p ↔ linked c ∧ L.parent c = p

variable [DecidableEq α]

/-- Put `c` at the front of the children of `p`. -/
def Links.insert (L : Links α) (p : Option α) (c : α) : Links α :=
  { L with next := update L.next c (L.first p)
           first := update L.first p (some c) }

/-- The node before `c` in the list that starts at `x`. -/
def findPrev (next : α → Option α) : Nat → α → α → Option α
  | 0, _, _ => none
  | fuel + 1, x, c =>
    match next x with
    | none => none
    | some y => if y = c then some x else findPrev next fuel y c

/-- Take `c` out of the children of `p`; `none` when it is not one of them. -/
def Links.remove (fuel : Nat) (L : Links α) (p : Option α) (c : α) : Option (Links α) :=
  match L.first p with
  | none => none
  | some x =>
    if x = c then some { L with first := update L.first p (L.next c) }
    else
      match findPrev L.next fuel x c with
      | none => none
      | some y => some { L with next := update L.next y (L.next c) }

theorem SiblingList.erase {c : α} :
    ∀ {x : α} (fuel : Nat), SiblingList next (next x) l → (x :: l).Nodup → c ∈ l → l.length ≤ fuel →
      ∃ y ∈ x :: l, findPrev next fuel x c = some y ∧
        SiblingList (update next y (next c)) (some x) ((x :: l).erase c) := by
  induction l with
  | nil => intro _ _ _ _ hmem; cases hmem
  | cons z l ih => ?_
  intro x fuel h hnodup hmem hfuel
  rcases fuel with _ | fuel
  · simp at hfuel
  rw [length_cons] at hfuel
  obtain ⟨hx, hnodup'⟩ := nodup_cons.mp hnodup
  have hxc : x ≠ c := fun heq => hx (heq ▸ hmem)
  generalize hz : next x = a at h
  cases h with
  | cons h =>
    by_cases hzc : z = c
    · subst hzc
      refine ⟨x, mem_cons_self, by simp only [findPrev, hz, if_true], ?_⟩
      rw [erase_cons_tail (by simpa using hxc), erase_cons_head]
      refine .cons ?_
      rw [update_self]
      refine h.congr fun d hd => update_of_ne ?_ _ _
      rintro rfl
      exact hx (mem_cons_of_mem _ hd)
    have hmem' : c ∈ l := (mem_cons.mp hmem).resolve_left (Ne.symm hzc)
    obtain ⟨y, hy, hfind, hlist⟩ := ih fuel h hnodup' hmem' (by omega)
    have hyx : x ≠ y := fun heq => hx (heq ▸ hy)
    refine ⟨y, mem_cons_of_mem _ hy, by simp only [findPrev, hz, if_neg hzc, hfind], ?_⟩
    rw [erase_cons_tail (by simpa using hxc)]
    refine .cons ?_
    rw [update_of_ne hyx, hz]
    exact hlist

theorem SiblingList.snoc :
    ∀ {x y p : α}, SiblingList next (next x) l → (x :: l).Nodup → p ∉ x :: l → y ∈ x :: l →
      next y = none →
      SiblingList (update (update next y (some p)) p none)
        (update (update next y (some p)) p none x) (l ++ [p]) := by
  induction l with
  | nil =>
    intro x y p _ _ hp hy _
    rw [mem_singleton] at hy
    subst hy
    have hyp : y ≠ p := fun heq => hp (heq ▸ mem_cons_self)
    rw [update_of_ne hyp, update_self]
    refine .cons ?_
    rw [update_self]
    exact .nil
  | cons z l ih => ?_
  intro x y p h hnodup hp hy hlast
  generalize hx : next x = a at h
  cases h with
  | cons h =>
    have hxp : x ≠ p := fun heq => hp (heq ▸ mem_cons_self)
    have hxy : x ≠ y := by
      rintro rfl
      rw [hx] at hlast
      cases hlast
    have hy' : y ∈ z :: l := (mem_cons.mp hy).resolve_left (Ne.symm hxy)
    rw [update_of_ne hxp, update_of_ne hxy, hx]
    exact .cons (ih h (nodup_cons.mp hnodup).2
      (fun hmem => hp (mem_cons_of_mem _ hmem)) hy' hlast)

namespace Forest

variable {L : Links α} {linked : α → Prop} {children : Option α → List α} {p : Option α} {c : α}

section

variable (h : Forest L linked children)

include h

theorem insert (hc : ¬ linked c) (hp : L.parent c = p) :
    Forest (L.insert p c) (fun x => linked x ∨ x = c) (update children p (c :: children p)) := by
  have hnot : ∀ q, c ∉ children q := fun q hmem => hc ((h.mem_children q c).mp hmem).1
  have hlist : ∀ q, SiblingList (L.insert p c).next (L.first q) (children q) := by
    intro q
    refine (h.siblings q).congr fun d hd => update_of_ne ?_ _ _
    rintro rfl
    exact hnot q hd
  refine ⟨fun q => ?_, fun q => ?_, fun q x => ?_⟩
  · by_cases hq : q = p
    · subst hq
      show SiblingList _ (update L.first q (some c) q) _
      rw [update_self, update_self]
      refine .cons ?_
      show SiblingList _ (update L.next c (L.first q) c) _
      rw [update_self]
      exact hlist q
    · show SiblingList _ (update L.first p (some c) q) _
      rw [update_of_ne hq, update_of_ne hq]
      exact hlist q
  · by_cases hq : q = p
    · subst hq
      rw [update_self]
      exact nodup_cons.mpr ⟨hnot q, h.nodup q⟩
    · rw [update_of_ne hq]
      exact h.nodup q
  show _ ↔ (linked x ∨ x = c) ∧ L.parent x = q
  by_cases hq : q = p
  · subst hq
    rw [update_self, mem_cons, h.mem_children]
    constructor
    · rintro (rfl | ⟨hx, hpx⟩)
      · exact ⟨.inr rfl, hp⟩
      · exact ⟨.inl hx, hpx⟩
    rintro ⟨hx | rfl, hpx⟩
    · exact .inr ⟨hx, hpx⟩
    · exact .inl rfl
  rw [update_of_ne hq, h.mem_children]
  constructor
  · rintro ⟨hx, hpx⟩
    exact ⟨.inl hx, hpx⟩
  rintro ⟨hx | rfl, hpx⟩
  · exact ⟨hx, hpx⟩
  · exact absurd (hpx.symm.trans hp) hq

theorem remove (hc : linked c) (hp : L.parent c = p) {fuel : Nat}
    (hfuel : (children p).length ≤ fuel) :
    ∃ L', L.remove fuel p c = some L' ∧ L'.parent = L.parent ∧ Forest L' (fun x => linked x ∧ x ≠ c)
        (update children p ((children p).erase c)) := by
  have hmem : c ∈ children p := (h.mem_children p c).mpr ⟨hc, hp⟩
  -- the other lists, and what is in the lists, whatever links lead to this one
  have hrest : ∀ L' : Links α, L'.parent = L.parent →
      SiblingList L'.next (L'.first p) ((children p).erase c) →
      (∀ q, q ≠ p → SiblingList L'.next (L'.first q) (children q)) →
      Forest L' (fun x => linked x ∧ x ≠ c) (update children p ((children p).erase c)) := by
    intro L' hparent hthis hother
    refine ⟨fun q => ?_, fun q => ?_, fun q x => ?_⟩
    · by_cases hq : q = p
      · subst hq
        rw [update_self]
        exact hthis
      · rw [update_of_ne hq]
        exact hother q hq
    · by_cases hq : q = p
      · subst hq
        rw [update_self]
        exact (h.nodup q).erase c
      · rw [update_of_ne hq]
        exact h.nodup q
    rw [hparent]
    by_cases hq : q = p
    · subst hq
      rw [update_self, (h.nodup q).mem_erase_iff, h.mem_children]
      constructor
      · rintro ⟨hne, hx, hpx⟩
        exact ⟨⟨hx, hne⟩, hpx⟩
      · rintro ⟨⟨hx, hne⟩, hpx⟩
        exact ⟨hne, hx, hpx⟩
    rw [update_of_ne hq, h.mem_children]
    constructor
    · rintro ⟨hx, hpx⟩
      refine ⟨⟨hx, ?_⟩, hpx⟩
      rintro rfl
      exact hq (hpx.symm.trans hp)
    · rintro ⟨⟨hx, _⟩, hpx⟩
      exact ⟨hx, hpx⟩
  have hlist := h.siblings p
  have hnodup := h.nodup p
  generalize hfirst : L.first p = a at hlist
  generalize hl : children p = l at hlist hmem hnodup hfuel hrest
  cases hlist with
  | nil => cases hmem
  | @cons x l hlist => ?_
  by_cases hxc : x = c
  · subst hxc
    refine ⟨{ L with first := update L.first p (L.next x) }, ?_, rfl, ?_⟩
    · simp only [Links.remove, hfirst, if_true]
    refine hrest _ rfl ?_ fun q hq => ?_
    · show SiblingList L.next (update L.first p (L.next x) p) _
      rw [update_self, erase_cons_head]
      exact hlist
    show SiblingList L.next (update L.first p (L.next x) q) _
    rw [update_of_ne hq]
    exact h.siblings q
  have hmem' : c ∈ l := (mem_cons.mp hmem).resolve_left (Ne.symm hxc)
  rw [length_cons] at hfuel
  obtain ⟨y, hy, hfind, hlist'⟩ := SiblingList.erase fuel hlist hnodup hmem' (by omega)
  refine ⟨{ L with next := update L.next y (L.next c) }, ?_, rfl, ?_⟩
  · simp only [Links.remove, hfirst, if_neg hxc, hfind]
  refine hrest _ rfl ?_ fun q hq => ?_
  · show SiblingList _ (L.first p) _
    rw [hfirst]
    exact hlist'
  refine (h.siblings q).congr fun d hd => update_of_ne ?_ _ _
  rintro rfl
  have hyp : L.parent d = p := ((h.mem_children p d).mp (hl ▸ hy)).2
  exact hq (((h.mem_children q d).mp hd).2.symm.trans hyp)

theorem setParent (hc : ¬ linked c) (q : Option α) :
    Forest { L with parent := update L.parent c q } linked children := by
  refine ⟨h.siblings, h.nodup, fun p x => ?_⟩
  rw [h.mem_children]
  show _ ↔ linked x ∧ update L.parent c q x = p
  by_cases hx : x = c
  · subst hx
    constructor
    · rintro ⟨hx, _⟩
      exact absurd hx hc
    · rintro ⟨hx, _⟩
      exact absurd hx hc
  · rw [update_of_ne hx]

end

theorem movePair [Fintype α] (h : Forest L linked children) {c d p p' : α} (hne : c ≠ d)
    (hc : linked c) (hd : linked d) (hp : L.parent c = some p) (hp' : L.parent d = some p')
    (q q' : α) :
    ∃ L₁ L₂, L.remove (Fintype.card α) (some p) c = some L₁ ∧
      L₁.remove (Fintype.card α) (some p') d = some L₂ ∧
      L₁.parent = L.parent ∧ L₂.parent = L.parent ∧
      ∃ children, Forest ((Links.insert
        { L₂ with parent := update (update L.parent c (some q)) d (some q') } (some q) c).insert
        (some q') d) linked children := by
  obtain ⟨L₁, hL1, hparent1, hforest1⟩ := h.remove hc hp (h.nodup _).length_le_card
  obtain ⟨L₂, hL2, hparent2, hforest2⟩ := hforest1.remove ⟨hd, hne.symm⟩
    ((congrFun hparent1 d).trans hp') (hforest1.nodup _).length_le_card
  refine ⟨L₁, L₂, hL1, hL2, hparent1, hparent2.trans hparent1, ?_⟩
  have hforest3 := (hforest2.setParent (c := c) (fun hc => hc.1.2 rfl) (some q)).setParent
    (c := d) (fun hd => hd.2 rfl) (some q')
  have hforest4 := hforest3.insert (c := c) (p := some q) (fun hc => hc.1.2 rfl) (by
    show update (update L₂.parent c _) d _ c = _
    rw [update_of_ne hne, update_self])
  have hforest5 := hforest4.insert (c := d) (p := some q')
    (fun hd => hd.elim (fun hd => hd.2 rfl) fun heq => hne heq.symm) (by
      show update (update L₂.parent c _) d _ d = _
      rw [update_self])
  have hlinked : (fun x => (((linked x ∧ x ≠ c) ∧ x ≠ d) ∨ x = c) ∨ x = d) = linked := by
    funext x
    rw [eq_iff_iff]
    constructor
    · rintro ((hx | rfl) | rfl)
      · exact hx.1.1
      · exact hc
      · exact hd
    intro hx
    by_cases hxd : x = d
    · exact .inr hxd
    by_cases hxc : x = c
    · exact .inl (.inr hxc)
    · exact .inl (.inl ⟨⟨hx, hxc⟩, hxd⟩)
  rw [hlinked] at hforest5
  rw [← hparent1, ← hparent2]
  exact ⟨_, hforest5⟩

end Forest

/-! ## The traversal without a stack -/

inductive WalkPhase where
  | visit
  | climb

/-- The traversal of what is under `top`: down to the first child, over to the next sibling, up
to the parent. `count` bounds the moves down, over and up; `none` when it runs out or when a
link is missing. The result is what is left of the bound, and the nodes in order. -/
def walk (L : Links α) (top : α) : Nat → WalkPhase → Nat → α → List α → Option (Nat × List α)
  | 0, _, _, _, _ => none
  | fuel + 1, .visit, count, c, visited =>
    if count ≤ 1 then none
    else
      match L.first (some c) with
      | some d => walk L top fuel .visit (count - 1) d (visited ++ [c])
      | none => walk L top fuel .climb (count - 1) c (visited ++ [c])
  | fuel + 1, .climb, count, c, visited =>
    if c = top then some (count, visited)
    else
      match L.next c with
      | some d => walk L top fuel .visit count d visited
      | none =>
        match L.parent c with
        | none => none
        | some p => if count ≤ 1 then none else walk L top fuel .climb (count - 1) p visited

/-- `vs` are the nodes under `c`, and the traversal takes `moves` to get through them. -/
structure Tour (L : Links α) (linked : α → Prop) (c : α) (vs : List α) (moves : Nat) : Prop where
  nodup : vs.Nodup
  mem : ∀ x, x ∈ vs ↔ Under L.parent x c ∧ (x = c ∨ linked x)
  length_le : vs.length ≤ moves
  moves_lt : moves < 2 * vs.length
  run : ∀ top fuel count visited, (∀ x ∈ vs, x = top → x = c) → 0 < count →
    walk L top (fuel + (2 * vs.length - 1)) .visit (count + moves) c visited
      = walk L top fuel .climb count c (visited ++ vs)

/-- The same for a list of siblings, the children of `p` from one on. -/
structure SiblingTour (L : Links α) (linked : α → Prop) (p d : α) (l vs : List α) (moves : Nat) :
    Prop where
  nodup : vs.Nodup
  mem : ∀ x, x ∈ vs ↔ ∃ c ∈ d :: l, Under L.parent x c ∧ (x = c ∨ linked x)
  length_lt : vs.length < moves
  moves_le : moves ≤ 2 * vs.length
  run : ∀ top fuel count visited, (∀ x ∈ vs, x ≠ top) → 0 < count →
    walk L top (fuel + 2 * vs.length) .visit (count + moves) d visited
      = walk L top fuel .climb count p (visited ++ vs)

variable {L : Links α} {linked : α → Prop} {children : Option α → List α} {rank : α → Nat}

theorem Ranked.disjoint (h : Ranked L.parent rank) {p c d x : α} (hc : L.parent c = some p)
    (hd : L.parent d = some p) (hxc : Under L.parent x c) (hxd : Under L.parent x d) : c = d := by
  by_contra hne
  rcases hxc.total hxd with hu | hu
  · obtain ⟨p', hp', hu'⟩ := hu.parent_of_ne hne
    obtain rfl : p' = p := some.inj (hp'.symm.trans hc)
    exact h.not_under_of_parent hd hu'
  obtain ⟨p', hp', hu'⟩ := hu.parent_of_ne (Ne.symm hne)
  obtain rfl : p' = p := some.inj (hp'.symm.trans hd)
  exact h.not_under_of_parent hc hu'

theorem siblingTour (hrank : Ranked L.parent rank) {p : α} :
    ∀ {d : α}, SiblingList L.next (some d) (d :: l) → (d :: l).Nodup →
      (∀ c ∈ d :: l, L.parent c = some p) → (∀ c ∈ d :: l, ∃ vs moves, Tour L linked c vs moves) →
      ∃ vs moves, SiblingTour L linked p d l vs moves := by
  induction l with
  | nil =>
    intro d hlist _ hparent htour
    obtain ⟨vs, moves, ht⟩ := htour d mem_cons_self
    have hnext : L.next d = none := by
      cases hlist with
      | cons h =>
        generalize L.next d = a at h
        cases h
        rfl
    have hp := hparent d mem_cons_self
    refine ⟨vs, moves + 1, ht.nodup, fun x => ?_, Nat.lt_succ_of_le ht.length_le, ht.moves_lt,
      fun top fuel count visited htop hcount => ?_⟩
    · rw [ht.mem]
      simp
    have hlen := ht.moves_lt
    have hd : d ≠ top := htop d ((ht.mem d).mpr ⟨Under.refl _ _, .inl rfl⟩)
    -- the last child: up to the parent
    have hrun := ht.run top (fuel + 1) (count + 1) visited (fun x hx hxt => absurd hxt (htop x hx))
      (Nat.succ_pos count)
    rw [show fuel + 2 * vs.length = fuel + 1 + (2 * vs.length - 1) by omega,
      show count + (moves + 1) = count + 1 + moves by omega, hrun, walk, if_neg hd]
    simp only [hnext, hp]
    rw [if_neg (by omega), Nat.add_sub_cancel]
  | cons e l ih => ?_
  intro d hlist hnodup hparent htour
  obtain ⟨vs, moves, ht⟩ := htour d mem_cons_self
  obtain ⟨hd_not, hnodup'⟩ := nodup_cons.mp hnodup
  have hlist' : SiblingList L.next (L.next d) (e :: l) := by
    cases hlist with
    | cons h => exact h
  have hnext : L.next d = some e := by
    generalize L.next d = a at hlist'
    cases hlist'
    rfl
  rw [hnext] at hlist'
  obtain ⟨vs', moves', ht'⟩ := ih hlist' hnodup' (fun c hc => hparent c (mem_cons_of_mem _ hc))
    (fun c hc => htour c (mem_cons_of_mem _ hc))
  have hlen := ht.length_le
  have hlen' := ht'.length_lt
  have hlt := ht.moves_lt
  have hle := ht'.moves_le
  refine ⟨vs ++ vs', moves + moves', ?_, fun x => ?_, ?_, ?_, ?_⟩
  · refine nodup_append.mpr ⟨ht.nodup, ht'.nodup, fun x hx y hy heq => ?_⟩
    subst heq
    obtain ⟨hxd, _⟩ := (ht.mem x).mp hx
    obtain ⟨c, hc, hxc, _⟩ := (ht'.mem x).mp hy
    have heq := hrank.disjoint (hparent d mem_cons_self)
      (hparent c (mem_cons_of_mem _ hc)) hxd hxc
    exact hd_not (heq ▸ hc)
  · rw [mem_append, ht.mem, ht'.mem]
    constructor
    · rintro (h | ⟨c, hc, h⟩)
      · exact ⟨d, mem_cons_self, h⟩
      · exact ⟨c, mem_cons_of_mem _ hc, h⟩
    rintro ⟨c, hc, h⟩
    rcases mem_cons.mp hc with rfl | hc
    · exact .inl h
    · exact .inr ⟨c, hc, h⟩
  · rw [length_append]
    omega
  · rw [length_append]
    omega
  intro top fuel count visited htop hcount
  rw [length_append]
  have hd : d ≠ top :=
    htop d (mem_append_left _ ((ht.mem d).mpr ⟨Under.refl _ _, .inl rfl⟩))
  have hrun := ht.run top (fuel + 2 * vs'.length + 1) (count + moves') visited
    (fun x hx hxt => absurd hxt (htop x (mem_append_left _ hx))) (by omega)
  have hrun' := ht'.run top fuel count (visited ++ vs)
    (fun x hx => htop x (mem_append_right _ hx)) hcount
  rw [show fuel + 2 * (vs.length + vs'.length)
      = fuel + 2 * vs'.length + 1 + (2 * vs.length - 1) by omega,
    show count + (moves + moves') = count + moves' + moves by omega, hrun, walk, if_neg hd]
  simp only [hnext]
  rw [hrun', append_assoc]

/-- **The tour of a node**, by induction on what is under it. -/
theorem Forest.tour [Fintype α] (h : Forest L linked children) (hrank : Ranked L.parent rank)
    {top : α} (hup : ∀ x p, linked x → L.parent x = some p → Under L.parent p top → linked p)
    (c : α) : Under L.parent c top → ∃ vs moves, Tour L linked c vs moves := by
  induction c using hrank.wf_down.induction with
  | h c ih =>
    intro hctop
    have hlist := h.siblings (some c)
    have hnodup := h.nodup (some c)
    have hmem := h.mem_children (some c)
    -- what is linked under `c` is `c` or under one of its children
    have hunder : ∀ x, Under L.parent x c ∧ (x = c ∨ linked x) ↔
        x = c ∨ ∃ d ∈ children (some c), Under L.parent x d ∧ (x = d ∨ linked x) := by
      intro x
      constructor
      · rintro ⟨hu, hx⟩
        by_cases hxc : x = c
        · exact .inl hxc
        have hlinked := hx.resolve_left hxc
        obtain ⟨d, hd, hdc⟩ := hu.child_of_ne hxc
        have hdlinked : linked d :=
          hd.of_closed (fun y p hy hp hpd => hup y p hy hp ((hpd.tail hdc).trans hctop)) hlinked
        exact .inr ⟨d, (hmem d).mpr ⟨hdlinked, hdc⟩, hd, .inr hlinked⟩
      rintro (rfl | ⟨d, hd, hu, hx⟩)
      · exact ⟨Under.refl _ _, .inl rfl⟩
      obtain ⟨hd, hdc⟩ := (hmem d).mp hd
      refine ⟨hu.tail hdc, .inr ?_⟩
      rcases hx with rfl | hx
      · exact hd
      · exact hx
    generalize hfirst : L.first (some c) = a at hlist
    generalize children (some c) = l at hlist hnodup hmem hunder
    cases hlist with
    | nil =>
      refine ⟨[c], 1, nodup_singleton c, fun x => ?_, le_refl _, ?_, ?_⟩
      · rw [hunder]
        simp
      · rw [length_singleton]
        decide
      intro top fuel count visited _ hcount
      show walk L top (fuel + 1) .visit (count + 1) c visited = _
      rw [walk, if_neg (by omega)]
      simp only [hfirst, Nat.add_sub_cancel]
    | @cons d l hlist => ?_
    have hparent : ∀ e ∈ d :: l, L.parent e = some c := fun e he => ((hmem e).mp he).2
    obtain ⟨vs, moves, ht⟩ := siblingTour hrank (.cons hlist) hnodup hparent
      fun e he => ih e (hparent e he) (Under.head (hparent e he) hctop)
    have hlt := ht.length_lt
    have hle := ht.moves_le
    refine ⟨c :: vs, moves + 1, ?_, fun x => ?_, ?_, ?_, ?_⟩
    · refine nodup_cons.mpr ⟨fun hc => ?_, ht.nodup⟩
      obtain ⟨e, he, hu, _⟩ := (ht.mem c).mp hc
      exact hrank.not_under_of_parent (hparent e he) hu
    · rw [mem_cons, ht.mem, hunder]
    · rw [length_cons]
      omega
    · rw [length_cons]
      omega
    intro top fuel count visited htop hcount
    have hne : ∀ x ∈ vs, x ≠ top := by
      intro x hx hxt
      obtain rfl := htop x (mem_cons_of_mem _ hx) hxt
      obtain ⟨e, he, hu, _⟩ := (ht.mem x).mp hx
      exact hrank.not_under_of_parent (hparent e he) hu
    have hrun := ht.run top fuel count (visited ++ [c]) hne hcount
    rw [length_cons, show fuel + (2 * (vs.length + 1) - 1)
        = fuel + 2 * vs.length + 1 by omega, walk, if_neg (by omega)]
    simp only [hfirst]
    rw [show count + (moves + 1) - 1 = count + moves by omega, hrun, append_assoc,
      singleton_append]

theorem Forest.walk_spec [Fintype α] (h : Forest L linked children) (hrank : Ranked L.parent rank)
    (top : α) (hup : ∀ x p, linked x → L.parent x = some p → Under L.parent p top → linked p) :
    ∃ vs moves, vs.Nodup ∧ (∀ x, x ∈ vs ↔ Under L.parent x top ∧ (x = top ∨ linked x)) ∧
      moves < 2 * vs.length ∧
      ∀ count, moves < count → walk L top (2 * count) .visit count top []
        = some (count - moves, vs) := by
  obtain ⟨vs, moves, ht⟩ := h.tour hrank hup top (Under.refl _ _)
  refine ⟨vs, moves, ht.nodup, ht.mem, ht.moves_lt, fun count hcount => ?_⟩
  have hlen := ht.length_le
  have hrun := ht.run top (2 * count - (2 * vs.length - 1)) (count - moves) []
    (fun x _ hx => hx) (by omega)
  rw [show 2 * count - (2 * vs.length - 1) + (2 * vs.length - 1) = 2 * count by omega,
    show count - moves + moves = count by omega] at hrun
  rw [hrun, nil_append]
  obtain ⟨fuel, hfuel⟩ : ∃ f, 2 * count - (2 * vs.length - 1) = f + 1 :=
    ⟨2 * count - (2 * vs.length - 1) - 1, by omega⟩
  rw [hfuel, walk, if_pos rfl]

end ObjcRuntime.Lib
