/-
THE ATTRIBUTE STRING OF A PROPERTY (`copyPropertyAttributeString`).

One loop adds up the length, a second one prints the attributes into the block, and
the last comma is overwritten at the end. The block that `malloc` returns is not
initialised, so a byte of it is an `Option Char`; a write outside of it is the halt
`overflow`.

`sprintf` returns an `int`; for 2^31 characters or more it fails. C does not say what
it has written by then, nor by how much its negative value moves the pointer backwards,
so the model stops there (`sprintfFails`). The build is one without `DEBUG`, which would
check the attributes first.
-/
import Mathlib.Data.List.Basic
import Mathlib.Tactic.Ring

namespace ObjcRuntime.PropertyAttributes

open List

/-! ## Attributes and the block -/

abbrev NUL : Char := '\x00'

/-- A C string, by the characters before its NUL. -/
abbrev CString := { s : List Char // NUL ∉ s }

/-- `objc_property_attribute_t`; the value may be NULL. -/
structure PropertyAttribute where
  name : CString
  value : Option CString
  deriving DecidableEq

inductive Halt where
  /-- A byte outside of the allocated block is written. -/
  | overflow
  /-- `sprintf` returns a negative value. -/
  | sprintfFails
  deriving DecidableEq

abbrev Block := List (Option Char)

/-- The block with the bytes `bytes` from `s` on. -/
def write (block : Block) (s : Nat) (bytes : List Char) : Block :=
  block.take s ++ (bytes.map some ++ block.drop (s + bytes.length))

/-- `s += sprintf(s, ...)` for the characters `text`: they are written with a NUL. -/
def sprintf (text : List Char) (block : Block) (s : Nat) : Except Halt (Block × Nat) :=
  if 2 ^ 31 ≤ text.length then .error .sprintfFails
  else if s + (text.length + 1) ≤ block.length then
    .ok (write block s (text ++ [NUL]), s + text.length)
  else .error .overflow

/-! ## The two loops -/

/-- What the first loop adds for one attribute, in `size_t`. -/
def addLength (len : Nat) (a : PropertyAttribute) : Nat :=
  match a.value with
  | none => len
  | some value =>
    let namelen := a.name.val.length
    -- long names get quoted
    let namelen := if namelen > 1 then namelen + 2 else namelen
    (len + (namelen + value.val.length + 1)) % 2 ^ 64

/-- `len` after the first loop. -/
def stringLength (attrs : List PropertyAttribute) : Nat := attrs.foldl addLength 0

/-- What is printed for one attribute: `"\"%s\"%s,"` or `"%s%s,"`. -/
def attributeText (name value : List Char) : List Char :=
  if name.length > 1 then '"' :: (name ++ '"' :: (value ++ [',']))
  else name ++ (value ++ [','])

def printAttributes : List PropertyAttribute → Block → Nat → Except Halt (Block × Nat)
  | [], block, s => .ok (block, s)
  | a :: attrs, block, s =>
    match a.value with
    | none => printAttributes attrs block s
    | some value => do
        let (block, s) ← sprintf (attributeText a.name.val value.val) block s
        printAttributes attrs block s

def copyPropertyAttributeString (attrs : List PropertyAttribute) : Except Halt Block :=
  if attrs.length = 0 then .ok [some NUL]
  else do
    let len := stringLength attrs
    let (block, s) ← printAttributes attrs (replicate ((len + 1) % 2 ^ 64) none) 0
    -- remove trailing ',' if any
    if s > 0 then return block.set (s - 1) (some NUL) else return block

/-! ## What is printed -/

def pieces (attrs : List PropertyAttribute) : List (List Char) :=
  attrs.filterMap fun a => a.value.map fun value => attributeText a.name.val value.val

def printed (attrs : List PropertyAttribute) : List Char := (pieces attrs).flatten

/-- Each printed attribute is shorter than what `sprintf` can count. -/
def Printable (attrs : List PropertyAttribute) : Prop :=
  ∀ a ∈ attrs, ∀ value ∈ a.value, (attributeText a.name.val value.val).length < 2 ^ 31

variable {a : PropertyAttribute}

theorem printed_cons_none (attrs : List PropertyAttribute) (h : a.value = none) :
    printed (a :: attrs) = printed attrs := by
  simp [printed, pieces, h]

theorem printed_cons_some {value : CString} (attrs : List PropertyAttribute)
    (h : a.value = some value) :
    printed (a :: attrs) = attributeText a.name.val value.val ++ printed attrs := by
  simp [printed, pieces, h]

variable {attrs : List PropertyAttribute}

theorem Printable.tail (h : Printable (a :: attrs)) : Printable attrs :=
  fun b hb => h b (mem_cons_of_mem _ hb)

theorem attributeText_length (name value : List Char) :
    (attributeText name value).length
      = (if name.length > 1 then name.length + 2 else name.length) + value.length + 1 := by
  unfold attributeText
  split <;> simp only [length_cons, length_append, length_nil] <;> omega

theorem attributeText_ne_nil (name value : List Char) : attributeText name value ≠ [] := by
  intro h
  have hlen := attributeText_length name value
  rw [h, length_nil] at hlen
  omega

theorem foldl_addLength (attrs : List PropertyAttribute) (len : Nat) (hlen : len < 2 ^ 64) :
    attrs.foldl addLength len = (len + (printed attrs).length) % 2 ^ 64 := by
  induction attrs generalizing len with
  | nil =>
    show len = (len + 0) % 2 ^ 64
    omega
  | cons a attrs ih => ?_
  rw [foldl_cons]
  cases hvalue : a.value with
  | none =>
    have hadd : addLength len a = len := by rw [addLength, hvalue]
    rw [hadd, ih len hlen, printed_cons_none attrs hvalue]
  | some value => ?_
  have hadd : addLength len a = (len + (attributeText a.name.val value.val).length) % 2 ^ 64 := by
    rw [addLength, hvalue, attributeText_length]
  rw [hadd, ih _ (Nat.mod_lt _ (by decide)), printed_cons_some attrs hvalue,
    length_append, Nat.mod_add_mod, Nat.add_assoc]

theorem Printable.length_le (h : Printable attrs) :
    (printed attrs).length ≤ attrs.length * 2 ^ 31 := by
  induction attrs with
  | nil => simp [printed, pieces]
  | cons a attrs ih => ?_
  have hle := ih h.tail
  rw [length_cons]
  cases hvalue : a.value with
  | none =>
    rw [printed_cons_none attrs hvalue]
    exact hle.trans (Nat.mul_le_mul_right _ (Nat.le_succ _))
  | some value =>
    have hpiece := h a (mem_cons_self ..) value hvalue
    rw [printed_cons_some attrs hvalue, length_append]
    omega

theorem stringLength_eq (h : Printable attrs) (hcount : attrs.length < 2 ^ 32) :
    stringLength attrs = (printed attrs).length ∧ (printed attrs).length + 1 < 2 ^ 64 := by
  have hle := h.length_le
  have hbound : (printed attrs).length + 1 < 2 ^ 64 := by omega
  refine ⟨?_, hbound⟩
  unfold stringLength
  rw [foldl_addLength attrs 0 (by decide), Nat.zero_add, Nat.mod_eq_of_lt (by omega)]

/-! ## The block after the second loop -/

/-- The bytes behind the text after `text` was printed: unchanged when nothing was, else
the NUL and what it did not reach. -/
def after (text : List Char) (tail : Block) : Block :=
  if text = [] then tail else some NUL :: tail.drop (text.length + 1)

theorem after_append {text more : List Char} (tail : Block) (h : text ≠ []) :
    after more (after text tail) = after (text ++ more) tail := by
  have htext : after text tail = some NUL :: tail.drop (text.length + 1) := if_neg h
  have hboth : after (text ++ more) tail = some NUL :: tail.drop ((text ++ more).length + 1) :=
    if_neg (by simp [h])
  rw [htext, hboth, after]
  by_cases hmore : more = []
  · rw [if_pos hmore, hmore, append_nil]
  rw [if_neg hmore, drop_succ_cons, drop_drop, length_append]
  congr 2
  omega

theorem sprintf_spec (done : List Char) {text : List Char} {tail : Block} (htext : text ≠ [])
    (hshort : text.length < 2 ^ 31) (hroom : text.length < tail.length) :
    sprintf text (done.map some ++ tail) done.length
      = .ok ((done ++ text).map some ++ after text tail, (done ++ text).length) := by
  have hfits : done.length + (text.length + 1) ≤ (done.map some ++ tail).length := by
    rw [length_append, length_map]
    omega
  have htake : (done.map some ++ tail).take done.length = done.map some := by
    simp
  have hdrop : (done.map some ++ tail).drop (done.length + (text ++ [NUL]).length)
      = tail.drop (text.length + 1) := by
    rw [← drop_drop]
    simp
  rw [sprintf, if_neg (by omega), if_pos hfits, write, htake, hdrop, after, if_neg htext,
    length_append]
  simp

theorem printAttributes_spec (h : Printable attrs) (done : List Char) (tail : Block)
    (hroom : (printed attrs).length < tail.length) :
    printAttributes attrs (done.map some ++ tail) done.length
      = .ok ((done ++ printed attrs).map some ++ after (printed attrs) tail,
          (done ++ printed attrs).length) := by
  induction attrs generalizing done tail with
  | nil => simp [printAttributes, printed, pieces, after]
  | cons a attrs ih => ?_
  rw [printAttributes]
  cases hvalue : a.value with
  | none =>
    rw [printed_cons_none attrs hvalue] at hroom ⊢
    exact ih h.tail done tail hroom
  | some value => ?_
  have hshort := h a (mem_cons_self ..) value hvalue
  have hne := attributeText_ne_nil a.name.val value.val
  rw [printed_cons_some attrs hvalue] at hroom ⊢
  show (sprintf (attributeText a.name.val value.val) _ _).bind _ = _
  generalize attributeText a.name.val value.val = text at hshort hne hroom ⊢
  rw [length_append] at hroom
  have hafter : (after text tail).length = tail.length - text.length := by
    rw [after, if_neg hne, length_cons, length_drop]
    omega
  have hstep := sprintf_spec done hne hshort (show text.length < tail.length by omega)
  have hrest := ih h.tail (done ++ text) (after text tail) (by omega)
  rw [after_append tail hne, append_assoc] at hrest
  rw [hstep]
  exact hrest

theorem printable_of_printAttributes {block block' : Block} {s s' : Nat}
    (h : printAttributes attrs block s = .ok (block', s')) : Printable attrs := by
  induction attrs generalizing block s with
  | nil => intro a ha; cases ha
  | cons a attrs ih => ?_
  intro b hb value hvalue
  rw [printAttributes] at h
  cases ha : a.value with
  | none =>
    rw [ha] at h
    rcases mem_cons.mp hb with rfl | hb
    · rw [ha] at hvalue
      cases hvalue
    · exact ih h b hb value hvalue
  | some v => ?_
  simp only [ha] at h
  unfold sprintf at h
  by_cases hlong : 2 ^ 31 ≤ (attributeText a.name.val v.val).length
  · rw [if_pos hlong] at h
    cases h
  rw [if_neg hlong] at h
  split at h
  · rcases mem_cons.mp hb with rfl | hb
    · rw [ha] at hvalue
      cases hvalue
      omega
    · exact ih h b hb value hvalue
  · cases h

/-! ## The block that is returned -/

theorem printed_eq_nil_iff (attrs : List PropertyAttribute) :
    printed attrs = [] ↔ ∀ a ∈ attrs, a.value = none := by
  induction attrs with
  | nil => simp [printed, pieces]
  | cons a attrs ih => ?_
  cases hvalue : a.value with
  | none => rw [printed_cons_none attrs hvalue, ih]; simp [hvalue]
  | some value =>
    rw [printed_cons_some attrs hvalue]
    simp [attributeText_ne_nil, hvalue]

theorem copyPropertyAttributeString_eq (h : Printable attrs) (hne : attrs ≠ [])
    (hcount : attrs.length < 2 ^ 32) :
    copyPropertyAttributeString attrs = .ok (if printed attrs = [] then [none]
          else ((printed attrs).dropLast ++ [NUL, NUL]).map some) := by
  obtain ⟨hlen, hbound⟩ := stringLength_eq h hcount
  have hloop := printAttributes_spec h [] (replicate ((printed attrs).length + 1) none) (by simp)
  simp only [map_nil, nil_append, length_nil] at hloop
  have hlength : attrs.length ≠ 0 := fun h0 => hne (length_eq_zero_iff.mp h0)
  rw [copyPropertyAttributeString, if_neg hlength]
  simp only [hlen, Nat.mod_eq_of_lt hbound, hloop]
  generalize printed attrs = text
  show (if text.length > 0 then _ else _) = _
  by_cases htext : text = []
  · subst htext
    rfl
  have hpos := length_pos_of_ne_nil htext
  rw [if_pos hpos, if_neg htext, after, if_neg htext]
  show Except.ok _ = Except.ok _
  congr 1
  -- the comma is the last character of the text
  obtain ⟨init, comma, rfl⟩ := eq_nil_or_concat text |>.resolve_left htext
  simp

/-- The block starts with a string and its NUL, and all their bytes were written. -/
def TerminatedInside (block : Block) : Prop :=
  ∃ text : List Char, (text ++ [NUL]).map some <+: block

theorem not_terminatedInside_unwritten : ¬ TerminatedInside [none] := by
  rintro ⟨text, hprefix⟩
  have hbyte := hprefix.subset (mem_map_of_mem (mem_append_right text (mem_singleton_self NUL)))
  simp at hbyte

theorem printable_of_copyPropertyAttributeString {block : Block}
    (hcopy : copyPropertyAttributeString attrs = .ok block) : Printable attrs := by
  by_cases hlength : attrs.length = 0
  · rw [length_eq_zero_iff.mp hlength]
    intro a ha
    cases ha
  rw [copyPropertyAttributeString, if_neg hlength] at hcopy
  cases hloop : printAttributes attrs (replicate ((stringLength attrs + 1) % 2 ^ 64) none) 0 with
  | error e =>
    simp only [hloop] at hcopy
    cases hcopy
  | ok found => exact printable_of_printAttributes hloop

def ReturnsTerminated (attrs : List PropertyAttribute) : Prop :=
  ∃ block, copyPropertyAttributeString attrs = .ok block ∧ TerminatedInside block

/-- **A terminated string is returned** exactly when every printed attribute is one that
`sprintf` can count and, unless there is no attribute at all, some value is not NULL. -/
theorem copyPropertyAttributeString_terminated_iff (attrs : List PropertyAttribute)
    (hcount : attrs.length < 2 ^ 32) :
    ReturnsTerminated attrs ↔
      Printable attrs ∧ (attrs = [] ∨ ∃ a ∈ attrs, a.value ≠ none) := by
  by_cases hne : attrs = []
  · subst hne
    refine ⟨fun _ => ⟨nofun, .inl rfl⟩, fun _ => ?_⟩
    exact ⟨[some NUL], rfl, [], prefix_refl _⟩
  have hexists : (∃ a ∈ attrs, a.value ≠ none) ↔ printed attrs ≠ [] := by
    rw [Ne, printed_eq_nil_iff]
    simp
  constructor
  · rintro ⟨block, hcopy, hterminated⟩
    have hprintable := printable_of_copyPropertyAttributeString hcopy
    refine ⟨hprintable, .inr (hexists.mpr ?_)⟩
    intro hnil
    rw [copyPropertyAttributeString_eq hprintable hne hcount, if_pos hnil] at hcopy
    cases hcopy
    exact not_terminatedInside_unwritten hterminated
  rintro ⟨hprintable, hor⟩
  have hprinted := hexists.mp (hor.resolve_left hne)
  refine ⟨_, copyPropertyAttributeString_eq hprintable hne hcount, (printed attrs).dropLast, ?_⟩
  rw [if_neg hprinted]
  exact ⟨[some NUL], by simp⟩

theorem readonly_string_is_terminated :
    ReturnsTerminated [⟨⟨['T'], by decide⟩, some ⟨"@\"NSString\"".toList, by decide⟩⟩,
      ⟨⟨['R'], by decide⟩, some ⟨[], by decide⟩⟩] :=
  (copyPropertyAttributeString_terminated_iff _ (by decide)).mpr
    ⟨by unfold Printable; decide, .inr ⟨_, mem_cons_self .., by decide⟩⟩

/-- One attribute without a value: the byte that is returned was never written. -/
theorem null_value_is_not_terminated :
    copyPropertyAttributeString [⟨⟨['R'], by decide⟩, none⟩] = .ok [none] ∧
      ¬ ReturnsTerminated [⟨⟨['R'], by decide⟩, none⟩] := by
  refine ⟨rfl, ?_⟩
  rintro ⟨block, hcopy, hterminated⟩
  cases hcopy
  exact not_terminatedInside_unwritten hterminated

end ObjcRuntime.PropertyAttributes
