/-
WHEN THE SCANNER STAYS INSIDE THE STRING.

`SkipFirstType` returns a pointer behind the terminating NUL exactly on a string of
qualifiers: it has found no type when it meets the NUL, and takes the NUL for one.
Which calls meet such a rest of the string is decided by two facts about the input:

Closed t            every bracket that is not inside another one is closed
EndsInQualifier t   the last character is a qualifier or `^`
-/
import ObjcRuntime.TypeEncoding.Scan

namespace ObjcRuntime.TypeEncoding

open List SubtypeUntil Nat TypeEncoding

/-! ## Bracket levels -/

def level (s : List Char) : Int := (s.map levelStep).sum

@[simp] theorem level_nil : level [] = 0 := rfl

@[simp] theorem level_cons (c : Char) (s : List Char) :
    level (c :: s) = levelStep c + level s := by
  simp [level]

/-- From the level `l`, the text `body` ends at level zero and meets no `close` at level
zero before. -/
def FirstClose (l : Int) (close : Char) (body : List Char) : Prop :=
  l + level body = 0 ∧ ∀ p r, body = p ++ close :: r → l + level p ≠ 0

variable {close : Char} {r : List Char}

theorem FirstClose.unique {l : Int} {b b' r' : List Char} (hb : FirstClose l close b)
    (hb' : FirstClose l close b') (h : b ++ close :: r = b' ++ close :: r') : b = b' ∧ r = r' := by
  rcases append_eq_append_iff.mp h with ⟨m, hm, hr⟩ | ⟨m, hm, hr⟩
  · cases m with
    | nil => simp_all
    | cons c m =>
      obtain ⟨rfl, -⟩ := cons.inj hr
      exact absurd hb.1 (hb'.2 b m hm)
  cases m with
  | nil => simp_all
  | cons c m =>
    obtain ⟨rfl, -⟩ := cons.inj hr
    exact absurd hb'.1 (hb.2 b' m hm)

theorem FirstClose.nil : FirstClose 0 close [] := by
  refine ⟨by simp, ?_⟩
  intro p r h
  simp at h

variable {c : Char} {body : List Char}

theorem firstClose_cons {l : Int} (hc : ¬ (l = 0 ∧ c = close)) :
    FirstClose l close (c :: body) ↔ FirstClose (l + levelStep c) close body := by
  unfold FirstClose
  rw [level_cons, add_assoc]
  refine and_congr_right fun _ => ?_
  constructor
  · intro h p r hp
    have := h (c :: p) r (by rw [hp]; rfl)
    rwa [level_cons, ← add_assoc] at this
  intro h p r hp
  cases p with
  | nil =>
    obtain ⟨rfl, -⟩ := cons.inj hp
    intro h0
    exact hc ⟨by simpa using h0, rfl⟩
  | cons d p =>
    obtain ⟨rfl, hbody⟩ := cons.inj hp
    rw [level_cons, ← add_assoc]
    exact h p r hbody

/-! ## `SubtypeUntil` -/

theorem wrapInt_of_lt {x : Int} (h0 : -2 ^ 31 ≤ x) (h : x < 2 ^ 31) : wrapInt x = x := by
  exact Int.bmod_eq_of_le (by omega) (by omega)

theorem SubtypeUntil.loop_spec (close : Char) (s : List Char) (l : Int) (n : Nat)
    (hn : n + s.length < 2 ^ 31) :
    (∃ body rest, s = body ++ close :: rest ∧ FirstClose l close body ∧
        loop close s l n = .ok ((n + body.length : Nat) : Int)) ∨
      (loop close s l n = .error endOfType ∧
        ∀ body rest, s = body ++ close :: rest → ¬ FirstClose l close body) := by
  induction s generalizing l n with
  | nil =>
    right
    refine ⟨rfl, ?_⟩
    intro body rest h
    simp at h
  | cons c s ih => ?_
  rw [length_cons] at hn
  by_cases hc : l = 0 ∧ c = close
  · left
    obtain ⟨rfl, rfl⟩ := hc
    refine ⟨[], s, rfl, FirstClose.nil, ?_⟩
    simp only [loop, and_self, if_true, length_nil, add_zero]
    rw [wrapInt_of_lt (by omega) (by omega)]
  have hstep : loop close (c :: s) l n = loop close s (l + levelStep c) (n + 1) := by
    simp only [loop, if_neg hc]
  rw [hstep]
  rcases ih (l + levelStep c) (n + 1) (by omega) with
    ⟨body, rest, rfl, hfirst, hloop⟩ | ⟨hloop, hnone⟩
  · left
    refine ⟨c :: body, rest, rfl, (firstClose_cons hc).mpr hfirst, ?_⟩
    rw [hloop, length_cons, add_assoc, add_comm 1]
  right
  refine ⟨hloop, ?_⟩
  intro body rest h
  cases body with
  | nil =>
    obtain ⟨rfl, -⟩ := cons.inj h
    rintro ⟨h0, -⟩
    exact hc ⟨by simpa using h0, rfl⟩
  | cons d body =>
    obtain ⟨rfl, hs⟩ := cons.inj h
    rw [firstClose_cons hc]
    exact hnone body rest hs

theorem skipSubtype_spec (close : Char) (s : List Char) (hs : s.length < 2 ^ 31) :
    (∃ body rest, s = body ++ close :: rest ∧ FirstClose 0 close body ∧
        skipSubtype s close = .ok (.within rest)) ∨
      (skipSubtype s close = .error endOfType ∧
        ∀ body rest, s = body ++ close :: rest → ¬ FirstClose 0 close body) := by
  rcases loop_spec close s 0 0 (by omega) with
    ⟨body, rest, rfl, hfirst, hloop⟩ | ⟨hloop, hnone⟩
  · left
    refine ⟨body, rest, rfl, hfirst, ?_⟩
    unfold skipSubtype SubtypeUntil
    rw [hloop]
    show advance (body ++ close :: rest) (((0 + body.length : Nat) : Int) + 1) = _
    have hdrop : (body ++ close :: rest).drop (body.length + 1) = rest := by
      simp
    have hnat : (((0 + body.length : Nat) : Int) + 1).toNat = body.length + 1 := by omega
    rw [advance, if_neg (by omega), hnat, hdrop]
  right
  refine ⟨?_, hnone⟩
  unfold skipSubtype SubtypeUntil
  rw [hloop]
  rfl

/-! ## Closed strings -/

def closerOf (c : Char) : Option Char :=
  if c = '[' then some ']' else if c = '{' then some '}' else if c = '(' then some ')'
  else none

inductive Closed : List Char → Prop where
  | nil : Closed []
  | plain {c : Char} {s : List Char} (hc : closerOf c = none) (hs : Closed s) :
      Closed (c :: s)
  | group {c close : Char} {body s : List Char} (hc : closerOf c = some close)
      (hbody : FirstClose 0 close body) (hs : Closed s) :
      Closed (c :: (body ++ close :: s))

variable {s : List Char}

theorem closed_plain (hc : closerOf c = none) : Closed (c :: s) ↔ Closed s := by
  refine ⟨?_, Closed.plain hc⟩
  intro h
  cases h with
  | plain _ hs => exact hs
  | group hc' _ _ => rw [hc] at hc'; cases hc'

theorem closed_group (hc : closerOf c = some close) (hbody : FirstClose 0 close body) :
    Closed (c :: (body ++ close :: s)) ↔ Closed s := by
  refine ⟨?_, Closed.group hc hbody⟩
  intro h
  generalize hw : c :: (body ++ close :: s) = w at h
  cases h with
  | nil => cases hw
  | plain hc' _ =>
    obtain ⟨rfl, -⟩ := cons.inj hw
    rw [hc] at hc'
    cases hc'
  | group hc' hbody' hs => ?_
  obtain ⟨rfl, hrest⟩ := cons.inj hw
  rw [hc] at hc'
  cases hc'
  rw [(hbody.unique hbody' hrest).2]
  exact hs

theorem not_closed_of_no_close (hc : closerOf c = some close)
    (hnone : ∀ body rest, s = body ++ close :: rest → ¬ FirstClose 0 close body) :
    ¬ Closed (c :: s) := by
  intro h
  cases h with
  | plain hc' _ => rw [hc] at hc'; cases hc'
  | group hc' hbody _ =>
    rw [hc] at hc'
    cases hc'
    exact hnone _ _ rfl hbody

def EndsInQualifier (s : List Char) : Prop := ∃ c, s.getLast? = some c ∧ isQualifier c = true

instance (s : List Char) : Decidable (EndsInQualifier s) :=
  decidable_of_iff (s.getLast?.any isQualifier = true) (by
    simp [EndsInQualifier, Option.any_eq_true])

theorem endsInQualifier_cons (hc : isQualifier c = false) :
    EndsInQualifier (c :: s) ↔ EndsInQualifier s := by
  unfold EndsInQualifier
  cases s with
  | nil => simp [hc]
  | cons d s => rw [getLast?_cons_cons]

theorem endsInQualifier_append {w : List Char} (hc : isQualifier c = false) :
    EndsInQualifier (w ++ c :: s) ↔ EndsInQualifier s := by
  rw [← endsInQualifier_cons (s := s) hc]
  unfold EndsInQualifier
  rw [getLast?_append_of_ne_nil _ (cons_ne_nil c s)]

/-- Neither property changes when characters are dropped that are neither brackets nor
qualifiers. -/
structure Alike (s r : List Char) : Prop where
  closed : Closed s ↔ Closed r
  ends : EndsInQualifier s ↔ EndsInQualifier r

theorem Alike.refl (s : List Char) : Alike s s := ⟨.rfl, .rfl⟩

variable {t : List Char}

theorem Alike.trans (h : Alike s t) (h' : Alike t r) : Alike s r :=
  ⟨h.closed.trans h'.closed, h.ends.trans h'.ends⟩

theorem Alike.cons (s : List Char) (hc : closerOf c = none) (hq : isQualifier c = false) :
    Alike (c :: s) s :=
  ⟨closed_plain hc, endsInQualifier_cons hq⟩

theorem Alike.group (s : List Char) (hc : closerOf c = some close)
    (hq : isQualifier close = false) (hbody : FirstClose 0 close body) :
    Alike (c :: (body ++ close :: s)) s :=
  ⟨closed_group hc hbody, endsInQualifier_append (w := c :: body) hq⟩

theorem closerOf_digit (h : c.isDigit = true) : closerOf c = none := by
  unfold closerOf
  split_ifs with h1 h2 h3
  · subst h1; exact absurd h (by decide)
  · subst h2; exact absurd h (by decide)
  · subst h3; exact absurd h (by decide)
  · rfl

theorem isQualifier_digit (h : c.isDigit = true) : isQualifier c = false := by
  by_contra hq
  simp only [Bool.not_eq_false, isQualifier, mem_cons, not_mem_nil, or_false,
    decide_eq_true_eq] at hq
  rcases hq with rfl | rfl | rfl | rfl | rfl | rfl | rfl <;> exact absurd h (by decide)

theorem Alike.skipDigits (s : List Char) : Alike s (skipDigits s) := by
  induction s with
  | nil => exact Alike.refl _
  | cons c s ih => ?_
  by_cases hc : c.isDigit = true
  · have hskip : TypeEncoding.skipDigits (c :: s) = TypeEncoding.skipDigits s := by
      simp [TypeEncoding.skipDigits, hc]
    rw [hskip]
    exact (Alike.cons s (closerOf_digit hc) (isQualifier_digit hc)).trans ih
  have hskip : TypeEncoding.skipDigits (c :: s) = c :: s := by
    simp [TypeEncoding.skipDigits, hc]
  rw [hskip]
  exact Alike.refl _

theorem Alike.skipOne (s : List Char) (hc : closerOf c = none) (hq : isQualifier c = false) :
    Alike s (skipOne c s) := by
  cases s with
  | nil => exact Alike.refl _
  | cons d s => ?_
  simp only [TypeEncoding.skipOne]
  split
  · rename_i hd
    subst hd
    exact Alike.cons s hc hq
  · exact Alike.refl _

theorem Alike.skipOffset (s : List Char) : Alike s (skipOffset s) :=
  (Alike.skipOne s (by decide) (by decide)).trans
    ((Alike.skipOne _ (by decide) (by decide)).trans (Alike.skipDigits _))

/-! ## One type -/

theorem closerOf_qualifier (hc : isQualifier c = true) : closerOf c = none := by
  simp only [isQualifier, mem_cons, not_mem_nil, or_false, decide_eq_true_eq] at hc
  rcases hc with rfl | rfl | rfl | rfl | rfl | rfl | rfl <;> decide

theorem closed_qualifiers (hs : ∀ c ∈ s, isQualifier c = true) : Closed s := by
  induction s with
  | nil => exact Closed.nil
  | cons c s ih =>
    exact Closed.plain (closerOf_qualifier (hs c (mem_cons_self ..)))
      (ih fun d hd => hs d (mem_cons_of_mem _ hd))

theorem levelStep_digit (h : c.isDigit = true) : levelStep c = 0 := by
  unfold levelStep
  split_ifs with h1 h2
  · rcases h1 with rfl | rfl | rfl <;> exact absurd h (by decide)
  · rcases h2 with rfl | rfl | rfl <;> exact absurd h (by decide)
  · rfl

theorem skipSubtype_digit (hc : c.isDigit = true) (hclose : close.isDigit = false)
    (hs : s.length + 1 < 2 ^ 31) :
    skipSubtype (c :: s) close = skipSubtype s close := by
  have hne : c ≠ close := by
    rintro rfl
    rw [hc] at hclose
    cases hclose
  have hfirst : ∀ body, FirstClose 0 close (c :: body) ↔ FirstClose 0 close body := by
    intro body
    rw [firstClose_cons (fun h => hne h.2), levelStep_digit hc, add_zero]
  rcases skipSubtype_spec close s (by omega) with
    ⟨body, rest, hsplit, hbody, hskip⟩ | ⟨hskip, hnone⟩
  · rcases skipSubtype_spec close (c :: s) (by simpa using hs) with
      ⟨body', rest', hsplit', hbody', hskip'⟩ | ⟨-, hnone'⟩
    · have heq : c :: body ++ close :: rest = body' ++ close :: rest' := by
        rw [← hsplit', hsplit]
        rfl
      rw [hskip, hskip', (((hfirst body).mpr hbody).unique hbody' heq).2]
    · exact absurd ((hfirst body).mpr hbody) (hnone' (c :: body) rest (by rw [hsplit]; rfl))
  rcases skipSubtype_spec close (c :: s) (by simpa using hs) with
    ⟨body', rest', hsplit', hbody', -⟩ | ⟨hskip', -⟩
  · cases body' with
    | nil => exact absurd (cons.inj hsplit').1 hne
    | cons d body' =>
      obtain ⟨rfl, hrest⟩ := cons.inj hsplit'
      exact absurd ((hfirst body').mp hbody') (hnone body' rest' hrest)
  · rw [hskip, hskip']

theorem skipSubtype_skipDigits (hclose : close.isDigit = false) (hs : s.length < 2 ^ 31) :
    skipSubtype (skipDigits s) close = skipSubtype s close := by
  induction s with
  | nil => rfl
  | cons c s ih => ?_
  rw [length_cons] at hs
  by_cases hc : c.isDigit = true
  · have hskip : skipDigits (c :: s) = skipDigits s := by simp [skipDigits, hc]
    rw [hskip, ih (by omega), skipSubtype_digit hc hclose hs]
  · have hskip : skipDigits (c :: s) = c :: s := by simp [skipDigits, hc]
    rw [hskip]

/-- What one call of `SkipFirstType` does. -/
inductive Skipped (s : List Char) : Except Halt Cursor → Prop where
  /-- Only qualifiers were left, and the pointer is behind the NUL. -/
  | qualifiers (hs : ∀ c ∈ s, isQualifier c = true) : Skipped s (.ok .past)
  /-- A type was skipped, and what is left is alike. -/
  | type {r : List Char} (hs : s ≠ []) (hr : Alike s r) : Skipped s (.ok (.within r))
  /-- A bracket is never closed. -/
  | fatal (hs : ¬ Closed s) : Skipped s (.error endOfType)

theorem Skipped.group (hc : closerOf c = some close) (hq : isQualifier close = false)
    (hs : s.length < 2 ^ 31) :
    Skipped (c :: s) (skipSubtype s close) := by
  rcases skipSubtype_spec close s hs with ⟨body, rest, rfl, hfirst, hskip⟩ | ⟨hskip, hnone⟩
  · rw [hskip]
    exact .type (cons_ne_nil _ _) (Alike.group rest hc hq hfirst)
  · rw [hskip]
    exact .fatal (not_closed_of_no_close hc hnone)

theorem Skipped.qualifier {result : Except Halt Cursor} (hc : isQualifier c = true)
    (h : Skipped s result) : Skipped (c :: s) result := by
  have hclosed : Closed (c :: s) ↔ Closed s := closed_plain (closerOf_qualifier hc)
  cases h with
  | qualifiers hs =>
    refine .qualifiers ?_
    intro d hd
    rcases mem_cons.mp hd with rfl | hd
    · exact hc
    · exact hs d hd
  | type hne hr =>
    refine .type (cons_ne_nil _ _) ⟨hclosed.trans hr.closed, ?_⟩
    rw [← hr.ends]
    obtain ⟨d, s, rfl⟩ := exists_cons_of_ne_nil hne
    unfold EndsInQualifier
    rw [getLast?_cons_cons]
  | fatal hs => exact .fatal (mt hclosed.mp hs)

theorem SkipFirstType_spec (s : List Char) (hs : s.length < 2 ^ 31) :
    Skipped s (SkipFirstType s) := by
  induction s with
  | nil => exact .qualifiers (by simp)
  | cons c s ih => ?_
  rw [length_cons] at hs
  have hs' : s.length < 2 ^ 31 := by omega
  unfold SkipFirstType
  split
  · rename_i hc
    exact (ih hs').qualifier hc
  rename_i hq
  replace hq : isQualifier c = false := by simpa using hq
  split
  · rename_i hc
    subst hc
    exact .type (cons_ne_nil _ _) ((Alike.cons s (by decide) hq).trans
      (Alike.skipOne s (by decide) (by decide)))
  split
  · rename_i hc
    subst hc
    rw [skipSubtype_skipDigits (by decide) hs']
    exact .group (by decide) (by decide) hs'
  split
  · rename_i hc
    subst hc
    exact .group (by decide) (by decide) hs'
  split
  · rename_i hc
    subst hc
    exact .group (by decide) (by decide) hs'
  rename_i h1 h2 h3
  refine .type (cons_ne_nil _ _) (Alike.cons s ?_ hq)
  rw [closerOf, if_neg h1, if_neg h2, if_neg h3]

/-! ## The readers -/

/-- The call returns, or halts with the fatal error of `SubtypeUntil`. -/
def Inside {α : Type} (result : Except Halt α) : Prop :=
  (∃ value, result = .ok value) ∨ result = .error endOfType

/-- The same, and a value that is returned satisfies `P`. -/
def InsideWith {α : Type} (P : α → Prop) (result : Except Halt α) : Prop :=
  (∃ value, result = .ok value ∧ P value) ∨ result = .error endOfType

variable {α : Type}

theorem InsideWith.inside {P : α → Prop} {result : Except Halt α}
    (h : InsideWith P result) : Inside result := by
  rcases h with ⟨value, hvalue, -⟩ | h
  · exact .inl ⟨value, hvalue⟩
  · exact .inr h

theorem InsideWith.ok {P : α → Prop} {value : α} (h : P value) :
    InsideWith P (.ok value) :=
  .inl ⟨value, rfl, h⟩

theorem InsideWith.bind {α β : Type} {P : α → Prop} {Q : β → Prop} {result : Except Halt α}
    {next : α → Except Halt β} (h : InsideWith P result)
    (hnext : ∀ value, P value → InsideWith Q (next value)) :
    InsideWith Q (result.bind next) := by
  rcases h with ⟨value, rfl, hvalue⟩ | rfl
  · exact hnext value hvalue
  · exact .inr rfl

def Sound (s : List Char) : Prop := ¬ (Closed s ∧ EndsInQualifier s)

theorem Alike.sound (h : Alike s r) : Sound s ↔ Sound r := by
  unfold Sound
  rw [h.closed, h.ends]

theorem endsInQualifier_qualifiers (hne : s ≠ []) (hs : ∀ c ∈ s, isQualifier c = true) :
    EndsInQualifier s :=
  ⟨s.getLast hne, getLast?_eq_getLast_of_ne_nil hne, hs _ (getLast_mem hne)⟩

variable (hs : s.length < 2 ^ 31)
include hs

theorem InsideWith.skipFirst {P : α → Prop} {next : List Char → Except Halt α} (hne : s ≠ [])
    (hsound : Sound s)
    (hnext : ∀ r, r.length < s.length → Sound r → InsideWith P (next r)) :
    InsideWith P ((SkipFirstType s).bind fun cursor => cursor.read.bind next) := by
  have hspec := SkipFirstType_spec s hs
  generalize hresult : SkipFirstType s = result at hspec
  cases hspec with
  | qualifiers hq =>
    exact absurd ⟨closed_qualifiers hq, endsInQualifier_qualifiers hne hq⟩ hsound
  | type _ hr => exact hnext _ (SkipFirstType_length_lt hresult) (hr.sound.mp hsound)
  | fatal _ => exact .inr rfl

theorem SkipFirstType_inside :
    InsideWith (fun _ => True) (SkipFirstType s) := by
  have hspec := SkipFirstType_spec s hs
  generalize SkipFirstType s = result at hspec
  cases hspec with
  | qualifiers _ | type _ _ => exact .ok trivial
  | fatal _ => exact .inr rfl

theorem countArguments_inside (hsound : Sound s) (nargs : Nat) :
    InsideWith (fun _ => True) (countArguments s nargs) := by
  -- by the length of what is left
  induction hk : s.length using Nat.strong_induction_on generalizing s nargs with
  | _ k ih =>
    by_cases hne : s = []
    · rw [hne, countArguments_nil]
      exact .ok trivial
    rw [countArguments_step hne]
    apply InsideWith.skipFirst hs hne hsound
    intro r hlt hr
    have hle := skipOffset_length_le r
    exact ih _ (by omega) (by omega) ((Alike.skipOffset r).sound.mp hr) _ rfl

omit hs

theorem seekArgument_inside (arg : Nat) (hs : s.length < 2 ^ 31) (hsound : Sound s) (nargs : Nat)
    (self_offset : Int) :
    InsideWith (fun found => found.1.length < 2 ^ 31 ∧ Sound found.1)
      (seekArgument arg s nargs self_offset) := by
  induction hk : s.length using Nat.strong_induction_on generalizing s nargs self_offset with
  | _ k ih =>
    by_cases hstop : s = [] ∨ nargs = arg
    · rw [seekArgument_stop hstop]
      exact .ok ⟨hs, hsound⟩
    rw [seekArgument_step hstop]
    apply InsideWith.skipFirst hs (fun h => hstop (.inl h)) hsound
    intro r hlt hr
    have hle := skipOffset_length_le r
    exact ih _ (by omega) (by omega) ((Alike.skipOffset r).sound.mp hr) _ _ rfl

theorem argumentAt_inside (arg : Nat) (hs : s.length < 2 ^ 31) (hsound : Sound s) (nargs : Nat)
    (self_offset : Int) :
    InsideWith (fun info => ∀ t ∈ info.type, t.length < 2 ^ 31)
      (argumentAt arg s nargs self_offset) := by
  have hsome : ∀ t ∈ some s, t.length < 2 ^ 31 := by
    intro t ht
    cases ht
    exact hs
  unfold argumentAt
  by_cases hne : s = []
  · rw [if_pos hne]
    exact .ok (by simp)
  rw [if_neg hne]
  by_cases harg : arg = 0
  · simp only [if_pos harg]
    exact (SkipFirstType_inside hs).bind fun _ _ => .ok hsome
  · simp only [if_neg harg]
    exact InsideWith.skipFirst hs hne hsound fun r _ _ => .ok hsome

variable (ht : t.length < 2 ^ 31)
include ht

theorem encoding_getArgumentInfo_inside (hne : t ≠ []) (hsound : Sound t)
    (arg : Nat) :
    InsideWith (fun info => ∀ s ∈ info.type, s.length < 2 ^ 31)
      (encoding_getArgumentInfo t arg) := by
  apply InsideWith.skipFirst ht hne hsound
  intro r hlt hr
  have hle := skipDigits_length_le r
  apply (seekArgument_inside arg (by omega) ((Alike.skipDigits r).sound.mp hr) 0 0).bind
  rintro ⟨s, nargs, self_offset⟩ ⟨hs, hsound⟩
  exact argumentAt_inside arg hs hsound nargs self_offset

theorem copyFirstType_inside :
    InsideWith (fun _ => True) (copyFirstType t) :=
  (SkipFirstType_inside ht).bind fun _ _ => .ok trivial

theorem encoding_copyArgumentType_inside (hne : t ≠ [])
    (hsound : Sound t) (index : Nat) :
    InsideWith (fun _ => True) (encoding_copyArgumentType (some t) index) := by
  apply (encoding_getArgumentInfo_inside ht hne hsound index).bind
  intro info hinfo
  cases htype : info.type with
  | none => exact .ok trivial
  | some s => exact (copyFirstType_inside (hinfo s htype)).bind fun _ _ => .ok trivial

omit ht

/-! ## The strings that are read past their end -/

include hs

theorem SkipFirstType_dangling {next : List Char → Except Halt α} (hclosed : Closed s)
    (hends : EndsInQualifier s)
    (hnext : ∀ r, r.length < s.length → Closed r → EndsInQualifier r →
      next r = .error .overread) :
    ((SkipFirstType s).bind fun cursor => cursor.read.bind next) = .error .overread := by
  have hspec := SkipFirstType_spec s hs
  generalize hresult : SkipFirstType s = result at hspec
  cases hspec with
  | qualifiers _ => rfl
  | type _ hr =>
    exact hnext _ (SkipFirstType_length_lt hresult) (hr.closed.mp hclosed) (hr.ends.mp hends)
  | fatal hnot => exact absurd hclosed hnot

theorem countArguments_overreads (hclosed : Closed s)
    (hends : EndsInQualifier s) (nargs : Nat) :
    countArguments s nargs = .error .overread := by
  induction hk : s.length using Nat.strong_induction_on generalizing s nargs with
  | _ k ih =>
    have hne : s ≠ [] := by
      rintro rfl
      obtain ⟨c, hc, -⟩ := hends
      cases hc
    rw [countArguments_step hne]
    apply SkipFirstType_dangling hs hclosed hends
    intro r hlt hr hre
    have hle := skipOffset_length_le r
    have halike := Alike.skipOffset r
    exact ih _ (by omega) (by omega) (halike.closed.mp hr) (halike.ends.mp hre) _ rfl

omit hs

theorem encoding_getNumberOfArguments_overreads (ht : t.length < 2 ^ 31)
    (h : t = [] ∨ (Closed t ∧ EndsInQualifier t)) :
    encoding_getNumberOfArguments t = .error .overread := by
  rcases h with rfl | ⟨hclosed, hends⟩
  · rfl
  apply SkipFirstType_dangling ht hclosed hends
  intro r hlt hr hre
  have hle := skipDigits_length_le r
  have halike := Alike.skipDigits r
  exact countArguments_overreads (by omega) (halike.closed.mp hr) (halike.ends.mp hre) 0

structure ReadsInside (t : List Char) : Prop where
  number : Inside (encoding_getNumberOfArguments t)
  size : Inside (encoding_getSizeOfArguments t)
  info : ∀ arg < 2 ^ 32, Inside (encoding_getArgumentInfo t arg)
  copyReturn : Inside (encoding_copyReturnType (some t))
  copyArgument : ∀ index < 2 ^ 32, Inside (encoding_copyArgumentType (some t) index)

/-- **The readers stay inside the string** exactly when it is not empty and either has a
bracket that is never closed or ends in a character that is no qualifier. -/
theorem encoding_reads_inside_iff (t : List Char) (ht : t.length < 2 ^ 31) :
    ReadsInside t ↔ t ≠ [] ∧ (¬ Closed t ∨ ¬ EndsInQualifier t) := by
  constructor
  · intro h
    by_contra hcond
    have hbad : t = [] ∨ (Closed t ∧ EndsInQualifier t) := by
      by_cases hne : t = []
      · exact .inl hne
      right
      by_contra hsound
      exact hcond ⟨hne, not_and_or.mp hsound⟩
    have hnumber := h.number
    rw [encoding_getNumberOfArguments_overreads ht hbad] at hnumber
    rcases hnumber with ⟨value, hvalue⟩ | hfatal
    · cases hvalue
    · cases hfatal
  rintro ⟨hne, hor⟩
  have hsound : Sound t := not_and_or.mpr hor
  refine ⟨?_, ?_, ?_, ?_, ?_⟩
  · apply InsideWith.inside (P := fun _ => True)
    apply InsideWith.skipFirst ht hne hsound
    intro r hlt hr
    have hle := skipDigits_length_le r
    exact countArguments_inside (by omega) ((Alike.skipDigits r).sound.mp hr) 0
  · apply InsideWith.inside (P := fun _ => True)
    exact InsideWith.skipFirst ht hne hsound fun r _ _ => .ok trivial
  · intro arg _
    exact (encoding_getArgumentInfo_inside ht hne hsound arg).inside
  · apply InsideWith.inside (P := fun _ => True)
    exact (copyFirstType_inside ht).bind fun _ _ => .ok trivial
  · intro index _
    exact (encoding_copyArgumentType_inside ht hne hsound index).inside

theorem method_string_is_read_inside : ReadsInside "v8@0:4".toList :=
  (encoding_reads_inside_iff "v8@0:4".toList (by decide)).mpr
    ⟨by decide, .inr (by decide)⟩

/-- The empty string, and a string whose last argument is only a pointer mark, are read
behind the NUL. -/
theorem dangling_pointer_is_overread :
    encoding_getNumberOfArguments [] = .error .overread ∧
      encoding_getSizeOfArguments [] = .error .overread ∧
      encoding_getNumberOfArguments "v8^".toList = .error .overread ∧
      ¬ ReadsInside "v8^".toList := by
  have hv : encoding_getNumberOfArguments "v8^".toList = .error .overread := by
    show countArguments ['^'] 0 = _
    rw [countArguments_step (by decide)]
    rfl
  refine ⟨rfl, rfl, hv, ?_⟩
  intro h
  have hnumber := h.number
  rw [hv] at hnumber
  rcases hnumber with ⟨value, hvalue⟩ | hfatal
  · cases hvalue
  · cases hfatal

end ObjcRuntime.TypeEncoding
