/-
THE STRINGS OF THE TYPE-ENCODING GRAMMAR ARE READ BACK.

An `EncodedType` is a tree: qualifiers and pointers over objects, blocks, arrays,
structures, unions and basic types, nested to any depth. A `Method` is a return
type, a stack size and a list of arguments, each a type with its offset. The scanner
does not parse the trees, it counts brackets; a printed tree is `Neutral`, that is, a
count that starts at a level from zero on passes over it and comes back to that level.
-/
import ObjcRuntime.TypeEncoding.Reads

namespace ObjcRuntime.TypeEncoding

open List

/-! ## Trees and their strings -/

def isText (c : Char) : Bool := c ≠ '\x00' && levelStep c = 0

def isBasic (c : Char) : Bool :=
  isText c && !isQualifier c && c ≠ '@' && !c.isDigit

abbrev Text := { s : List Char // ∀ c ∈ s, isText c = true }

abbrev Digits := { s : List Char // ∀ c ∈ s, c.isDigit = true }

mutual

inductive EncodedType where
  | basic (c : { c : Char // isBasic c = true })
  | object
  | block
  /-- A qualifier or a pointer. -/
  | qualified (q : { c : Char // isQualifier c = true }) (type : EncodedType)
  | array (count : Digits) (type : EncodedType)
  /-- The name stands with what follows it up to the first member, `CGPoint=`. -/
  | struct (name : Text) (members : Members)
  | union (name : Text) (members : Members)

/-- The members of a structure or union, each with the text behind it: the name of the
next field, or the width of a bit-field. -/
inductive Members where
  | nil
  | cons (type : EncodedType) (text : Text) (rest : Members)

end

mutual

def EncodedType.print : EncodedType → List Char
  | .basic c => [c.val]
  | .object => ['@']
  | .block => ['@', '?']
  | .qualified q type => q.val :: type.print
  | .array count type => '[' :: (count.val ++ type.print ++ [']'])
  | .struct name members => '{' :: (name.val ++ members.print ++ ['}'])
  | .union name members => '(' :: (name.val ++ members.print ++ [')'])

def Members.print : Members → List Char
  | .nil => []
  | .cons type text rest => type.print ++ text.val ++ rest.print

end

/-- The number that digits denote, after the number `n`. -/
def decimalFrom (n : Nat) (digits : List Char) : Nat :=
  digits.foldl (fun n c => n * 10 + digitValue c) n

structure Decimal where
  digits : List Char
  nonempty : digits ≠ []
  allDigits : ∀ c ∈ digits, c.isDigit = true
  bounded : decimalFrom 0 digits < 2 ^ 31

def Decimal.value (d : Decimal) : Nat := decimalFrom 0 d.digits

structure Argument where
  type : EncodedType
  hint : Bool
  negative : Bool
  offset : Decimal

def Argument.printOffset (a : Argument) : List Char :=
  (if a.hint then ['+'] else []) ++ ((if a.negative then ['-'] else []) ++ a.offset.digits)

def Argument.print (a : Argument) : List Char := a.type.print ++ a.printOffset

def Argument.value (a : Argument) : Int :=
  if a.negative then -(a.offset.value : Int) else a.offset.value

def printArguments : List Argument → List Char
  | [] => []
  | a :: as => a.print ++ printArguments as

structure Method where
  returnType : EncodedType
  stackSize : Decimal
  arguments : List Argument

def Method.print (m : Method) : List Char :=
  m.returnType.print ++ (m.stackSize.digits ++ printArguments m.arguments)

/-! ## Printed types are neutral -/

/-- A count of brackets passes over `s` at every level from zero on. -/
def Neutral (s : List Char) : Prop :=
  ∀ (l : Int) (close : Char) (body : List Char), 0 ≤ l → levelStep close = -1 →
    (FirstClose l close (s ++ body) ↔ FirstClose l close body)

theorem Neutral.nil : Neutral [] := by
  intro l close body _ _
  rfl

theorem Neutral.append {s t : List Char} (hs : Neutral s) (ht : Neutral t) : Neutral (s ++ t) := by
  intro l close body hl hclose
  rw [append_assoc, hs l close _ hl hclose, ht l close _ hl hclose]

variable {c : Char}

theorem Neutral.char (hc : levelStep c = 0) : Neutral [c] := by
  intro l close body hl hclose
  have hne : c ≠ close := by
    rintro rfl
    omega
  rw [singleton_append, firstClose_cons (fun h => hne h.2), hc, add_zero]

variable {s : List Char}

theorem Neutral.chars (hs : ∀ c ∈ s, levelStep c = 0) : Neutral s := by
  induction s with
  | nil => exact Neutral.nil
  | cons c s ih =>
    exact (Neutral.char (hs c (mem_cons_self ..))).append
      (ih fun d hd => hs d (mem_cons_of_mem _ hd))

theorem Neutral.group {o e : Char} (ho : levelStep o = 1)
    (he : levelStep e = -1) (hs : Neutral s) : Neutral (o :: (s ++ [e])) := by
  intro l close body hl hclose
  have hne : o ≠ close := by
    rintro rfl
    omega
  rw [cons_append, append_assoc, firstClose_cons (fun h => hne h.2), ho,
    hs _ close _ (by omega) hclose, singleton_append,
    firstClose_cons (fun h => by omega), he]
  have hlevel : l + 1 + -1 = l := by ring
  rw [hlevel]

theorem isText_levelStep (h : isText c = true) : levelStep c = 0 := by
  simp only [isText, Bool.and_eq_true, decide_eq_true_eq] at h
  exact h.2

theorem isBasic_isText (h : isBasic c = true) : isText c = true := by
  simp only [isBasic, Bool.and_eq_true] at h
  exact h.1.1.1

theorem levelStep_qualifier (hc : isQualifier c = true) : levelStep c = 0 := by
  simp only [isQualifier, mem_cons, not_mem_nil, or_false, decide_eq_true_eq] at hc
  rcases hc with rfl | rfl | rfl | rfl | rfl | rfl | rfl <;> decide

theorem Neutral.text (s : Text) : Neutral s.val :=
  Neutral.chars fun c hc => isText_levelStep (s.property c hc)

theorem Neutral.digits (s : Digits) : Neutral s.val :=
  Neutral.chars fun c hc => levelStep_digit (s.property c hc)

mutual

/-- Induction over the tree: one case for each kind of type. -/
theorem EncodedType.neutral : ∀ e : EncodedType, Neutral e.print
  | .basic c => Neutral.char (isText_levelStep (isBasic_isText c.property))
  | .object => Neutral.char (by decide)
  | .block => Neutral.chars (by simp [EncodedType.print, levelStep])
  | .qualified q type =>
    (Neutral.char (levelStep_qualifier q.property)).append type.neutral
  | .array count type =>
    Neutral.group (by decide) (by decide) ((Neutral.digits count).append type.neutral)
  | .struct name members =>
    Neutral.group (by decide) (by decide) ((Neutral.text name).append members.neutral)
  | .union name members =>
    Neutral.group (by decide) (by decide) ((Neutral.text name).append members.neutral)

theorem Members.neutral : ∀ ms : Members, Neutral ms.print
  | .nil => Neutral.nil
  | .cons type text rest => (type.neutral.append (Neutral.text text)).append rest.neutral

end

/-! ## Skipping a printed type -/

theorem skipSubtype_neutral {body rest : List Char} {close : Char} (hbody : Neutral body)
    (hclose : levelStep close = -1) (hlen : (body ++ close :: rest).length < 2 ^ 31) :
    skipSubtype (body ++ close :: rest) close = .ok (.within rest) := by
  have hfirst : FirstClose 0 close body := by
    have h := hbody 0 close [] le_rfl hclose
    rw [append_nil] at h
    exact h.mpr FirstClose.nil
  rcases skipSubtype_spec close _ hlen with ⟨body', rest', hsplit, hfirst', hskip⟩ | ⟨-, hnone⟩
  · rw [hskip, (hfirst.unique hfirst' hsplit).2]
  · exact absurd hfirst (hnone body rest rfl)

theorem SkipFirstType_basic (hc : isBasic c = true) (rest : List Char) :
    SkipFirstType (c :: rest) = .ok (.within rest) := by
  have hlevel := isText_levelStep (isBasic_isText hc)
  simp only [isBasic, Bool.and_eq_true, Bool.not_eq_true', decide_eq_true_eq] at hc
  have hne : ∀ d : Char, levelStep d = 1 → c ≠ d := by
    rintro d hd rfl
    omega
  rw [SkipFirstType, if_neg (by simp [hc.1.1.2]), if_neg hc.1.2, if_neg (hne '[' (by decide)),
    if_neg (hne '{' (by decide)), if_neg (hne '(' (by decide))]

theorem SkipFirstType_print (e : EncodedType) (rest : List Char) (hrest : rest.head? ≠ some '?')
    (hlen : (e.print ++ rest).length < 2 ^ 31) :
    SkipFirstType (e.print ++ rest) = .ok (.within rest) := by
  match e with
  | .basic c => exact SkipFirstType_basic c.property rest
  | .object =>
    show Except.ok (Cursor.within (skipOne '?' rest)) = _
    cases rest with
    | nil => rfl
    | cons d rest =>
      have hd : d ≠ '?' := by simpa using hrest
      rw [skipOne, if_neg hd]
  | .block => rfl
  | .qualified q type =>
    have hlen' : (type.print ++ rest).length < 2 ^ 31 := by
      simp only [EncodedType.print, cons_append, length_cons] at hlen
      omega
    rw [EncodedType.print, cons_append, SkipFirstType, if_pos q.property]
    exact SkipFirstType_print type rest hrest hlen'
  | .array count type =>
    have hneutral := (Neutral.digits count).append type.neutral
    have hprint : (EncodedType.array count type).print ++ rest
        = '[' :: (count.val ++ type.print ++ ']' :: rest) := by
      simp [EncodedType.print]
    rw [hprint, length_cons] at hlen
    rw [hprint]
    show skipSubtype (skipDigits _) ']' = _
    rw [skipSubtype_skipDigits (by decide) (by omega)]
    exact skipSubtype_neutral hneutral (by decide) (by omega)
  | .struct name members =>
    have hneutral := (Neutral.text name).append members.neutral
    have hprint : (EncodedType.struct name members).print ++ rest
        = '{' :: (name.val ++ members.print ++ '}' :: rest) := by
      simp [EncodedType.print]
    rw [hprint, length_cons] at hlen
    rw [hprint]
    exact skipSubtype_neutral hneutral (by decide) (by omega)
  | .union name members =>
    have hneutral := (Neutral.text name).append members.neutral
    have hprint : (EncodedType.union name members).print ++ rest
        = '(' :: (name.val ++ members.print ++ ')' :: rest) := by
      simp [EncodedType.print]
    rw [hprint, length_cons] at hlen
    rw [hprint]
    exact skipSubtype_neutral hneutral (by decide) (by omega)

/-! ## Numbers and offsets -/

def NoDigit (rest : List Char) : Prop := ∀ c ∈ rest.head?, c.isDigit = false

theorem le_decimalFrom (n : Nat) (digits : List Char) : n ≤ decimalFrom n digits := by
  induction digits generalizing n with
  | nil => exact le_rfl
  | cons c digits ih =>
    have h := ih (n * 10 + digitValue c)
    show n ≤ decimalFrom (n * 10 + digitValue c) digits
    omega

variable {digits rest : List Char}

section

variable (hd : ∀ c ∈ digits, c.isDigit = true)

include hd

theorem skipDigits_append (hrest : NoDigit rest) : skipDigits (digits ++ rest) = rest := by
  unfold skipDigits
  rw [dropWhile_append_of_pos hd]
  cases rest with
  | nil => rfl
  | cons c rest => simp [hrest c rfl]

theorem readInt_append (hrest : NoDigit rest) (n : Nat) (hn : decimalFrom n digits < 2 ^ 31) :
    readInt n (digits ++ rest) = decimalFrom n digits := by
  induction digits generalizing n with
  | nil =>
    cases rest with
    | nil => rfl
    | cons c rest =>
      rw [nil_append, readInt, if_neg (by simp [hrest c rfl])]
      rfl
  | cons c digits ih => ?_
  have hle := le_decimalFrom (n * 10 + digitValue c) digits
  have hstep : decimalFrom n (c :: digits) = decimalFrom (n * 10 + digitValue c) digits := rfl
  have hwrap : wrapInt ((n : Int) * 10 + digitValue c) = ((n * 10 + digitValue c : Nat) : Int) := by
    rw [wrapInt_of_lt (by omega) (by omega)]
    push_cast
    rfl
  rw [cons_append, readInt, if_pos (hd c (mem_cons_self ..)), hwrap, hstep]
  exact ih (fun d h => hd d (mem_cons_of_mem _ h)) _ hn

theorem readUnsigned_append (hrest : NoDigit rest) (n : Nat) (hn : decimalFrom n digits < 2 ^ 31) :
    readUnsigned n (digits ++ rest) = decimalFrom n digits := by
  induction digits generalizing n with
  | nil =>
    cases rest with
    | nil => rfl
    | cons c rest =>
      rw [nil_append, readUnsigned, if_neg (by simp [hrest c rfl])]
      rfl
  | cons c digits ih => ?_
  have hle := le_decimalFrom (n * 10 + digitValue c) digits
  have hstep : decimalFrom n (c :: digits) = decimalFrom (n * 10 + digitValue c) digits := rfl
  rw [cons_append, readUnsigned, if_pos (hd c (mem_cons_self ..)), Nat.mod_eq_of_lt (by omega), hstep]
  exact ih (fun d h => hd d (mem_cons_of_mem _ h)) _ hn

end

theorem skipOne_of_head (h : s.head? ≠ some c) : skipOne c s = s := by
  cases s with
  | nil => rfl
  | cons d s =>
    have hd : d ≠ c := by simpa using h
    rw [skipOne, if_neg hd]

theorem skipOne_cons (c : Char) (s : List Char) : skipOne c (c :: s) = s := by
  simp [skipOne]

theorem Decimal.head (d : Decimal) (rest : List Char) :
    ∃ c, (d.digits ++ rest).head? = some c ∧ c.isDigit = true := by
  obtain ⟨c, s, hs⟩ := exists_cons_of_ne_nil d.nonempty
  refine ⟨c, by rw [hs]; rfl, d.allDigits c ?_⟩
  rw [hs]
  exact mem_cons_self ..

theorem Decimal.head_ne (d : Decimal) (rest : List Char) (hc : c.isDigit = false) :
    (d.digits ++ rest).head? ≠ some c := by
  obtain ⟨e, he, hdigit⟩ := d.head rest
  rw [he]
  intro h
  cases h
  rw [hdigit] at hc
  cases hc

theorem skipOne_printOffset (a : Argument) (rest : List Char) :
    skipOne '+' (a.printOffset ++ rest)
      = (if a.negative then ['-'] else []) ++ (a.offset.digits ++ rest) := by
  unfold Argument.printOffset
  rw [append_assoc, append_assoc]
  cases a.hint with
  | true => exact skipOne_cons '+' _
  | false => ?_
  apply skipOne_of_head
  cases a.negative with
  | true => simp
  | false => exact a.offset.head_ne rest (by decide)

variable {rest : List Char}

theorem skipOffset_print (a : Argument) (hrest : NoDigit rest) :
    skipOffset (a.printOffset ++ rest) = rest := by
  have hdigits := skipDigits_append a.offset.allDigits hrest
  unfold skipOffset
  rw [skipOne_printOffset]
  cases a.negative with
  | true =>
    show skipDigits (skipOne '-' ('-' :: (a.offset.digits ++ rest))) = rest
    rw [skipOne_cons, hdigits]
  | false =>
    show skipDigits (skipOne '-' (a.offset.digits ++ rest)) = rest
    rw [skipOne_of_head (a.offset.head_ne rest (by decide)), hdigits]

theorem Argument.value_bounds (a : Argument) : -2 ^ 31 < a.value ∧ a.value < 2 ^ 31 := by
  have h := a.offset.bounded
  unfold Argument.value Decimal.value
  split <;> omega

theorem readOffset_print (a : Argument) (hrest : NoDigit rest) :
    readOffset 0 (a.printOffset ++ rest) = a.value := by
  have hread := readInt_append a.offset.allDigits hrest 0 a.offset.bounded
  have hbounds := a.value_bounds
  unfold readOffset
  simp only [skipOne_printOffset]
  unfold Argument.value Decimal.value at *
  cases hneg : a.negative with
  | true =>
    simp only [if_true, singleton_append, head?_cons, skipOne_cons] at hbounds ⊢
    rw [show (0 : Int) = ((0 : Nat) : Int) from rfl, hread]
    exact wrapInt_of_lt (by omega) (by omega)
  | false =>
    simp only [Bool.false_eq_true, if_false, nil_append]
    rw [if_neg (a.offset.head_ne rest (by decide))]
    exact hread

/-! ## The loops over the arguments -/

theorem isBasic_noDigit (h : isBasic c = true) : c.isDigit = false := by
  simp only [isBasic, Bool.and_eq_true, Bool.not_eq_true'] at h
  exact h.2

theorem EncodedType.print_noDigit (e : EncodedType) (rest : List Char) :
    e.print ++ rest ≠ [] ∧ NoDigit (e.print ++ rest) := by
  cases e with
  | basic c =>
    refine ⟨cons_ne_nil _ _, ?_⟩
    rintro d ⟨⟩
    exact isBasic_noDigit c.property
  | qualified q type =>
    refine ⟨cons_ne_nil _ _, ?_⟩
    rintro d ⟨⟩
    by_contra hd
    have := isQualifier_digit (Bool.eq_true_of_not_eq_false hd)
    rw [q.property] at this
    cases this
  | object | block | array | struct | union =>
    refine ⟨cons_ne_nil _ _, ?_⟩
    rintro d ⟨⟩
    decide

theorem printArguments_noDigit (as : List Argument) : NoDigit (printArguments as) := by
  cases as with
  | nil => rintro d ⟨⟩
  | cons a as =>
    show NoDigit (a.type.print ++ a.printOffset ++ printArguments as)
    rw [append_assoc]
    exact (a.type.print_noDigit _).2

theorem Argument.printOffset_head (a : Argument) (rest : List Char) :
    (a.printOffset ++ rest).head? ≠ some '?' := by
  unfold Argument.printOffset
  cases a.hint with
  | true => simp
  | false =>
    cases a.negative with
    | true => simp
    | false => exact a.offset.head_ne rest (by decide)

theorem printArguments_cons (a : Argument) (as : List Argument) :
    printArguments (a :: as) = a.type.print ++ (a.printOffset ++ printArguments as) :=
  append_assoc ..

theorem printArguments_ne_nil (a : Argument) (as : List Argument) :
    printArguments (a :: as) ≠ [] := by
  rw [printArguments_cons]
  exact (a.type.print_noDigit _).1

variable {as : List Argument} {a : Argument}

theorem SkipFirstType_arguments (hlen : (printArguments (a :: as)).length < 2 ^ 31) :
    SkipFirstType (printArguments (a :: as))
      = .ok (.within (a.printOffset ++ printArguments as)) := by
  rw [printArguments_cons] at hlen ⊢
  exact SkipFirstType_print a.type _ (a.printOffset_head _) hlen

theorem printArguments_length_lt (a : Argument) (as : List Argument) :
    (printArguments as).length < (printArguments (a :: as)).length := by
  have hpos := length_pos_of_ne_nil a.offset.nonempty
  rw [printArguments_cons]
  simp only [Argument.printOffset, length_append]
  omega

theorem length_le_printArguments (as : List Argument) : as.length ≤ (printArguments as).length := by
  induction as with
  | nil => exact le_rfl
  | cons a as ih =>
    have := printArguments_length_lt a as
    rw [length_cons]
    omega

theorem printArguments_drop_length_le (as : List Argument) (k : Nat) :
    (printArguments (as.drop k)).length ≤ (printArguments as).length := by
  induction as generalizing k with
  | nil => simp
  | cons a as ih => ?_
  cases k with
  | zero => exact le_rfl
  | succ k => ?_
  have hlt := printArguments_length_lt a as
  have hle := ih k
  rw [drop_succ_cons]
  omega

theorem countArguments_print (as : List Argument) (hlen : (printArguments as).length < 2 ^ 31)
    (n : Nat) (hn : n + as.length < 2 ^ 32) :
    countArguments (printArguments as) n = .ok (n + as.length) := by
  induction as generalizing n with
  | nil => exact countArguments_nil n
  | cons a as ih => ?_
  have hlt := printArguments_length_lt a as
  rw [length_cons] at hn
  rw [countArguments_step (printArguments_ne_nil a as), SkipFirstType_arguments hlen]
  show countArguments (skipOffset (a.printOffset ++ printArguments as)) _ = _
  rw [skipOffset_print a (printArguments_noDigit as), Nat.mod_eq_of_lt (by omega),
    ih (by omega) (n + 1) (by omega), length_cons, add_assoc, add_comm 1]

theorem seekArgument_print (hlen : (printArguments as).length < 2 ^ 31)
    (k n : Nat) (hn : 0 < n) (hk : n + k < 2 ^ 32) (self_offset : Int) :
    seekArgument (n + k) (printArguments as) n self_offset
      = .ok (printArguments (as.drop k), n + min k as.length, self_offset) := by
  induction k generalizing as n with
  | zero =>
    rw [add_zero, seekArgument_stop (.inr rfl)]
    simp
  | succ k ih => ?_
  cases as with
  | nil =>
    rw [printArguments, seekArgument_stop (.inl rfl)]
    simp [printArguments]
  | cons a as => ?_
  have hlt := printArguments_length_lt a as
  have hgo : ¬ (printArguments (a :: as) = [] ∨ n = n + (k + 1)) := by
    rintro (h | h)
    · exact printArguments_ne_nil a as h
    · omega
  have hindex : n + (k + 1) = n + 1 + k := by omega
  rw [seekArgument_step hgo, SkipFirstType_arguments hlen]
  show seekArgument _ (skipOffset (a.printOffset ++ printArguments as)) _ _ = _
  rw [skipOffset_print a (printArguments_noDigit as), Nat.mod_eq_of_lt (by omega),
    if_neg (by omega), hindex, ih (by omega) (n + 1) (by omega) (by omega),
    drop_succ_cons, length_cons, Nat.add_min_add_right, add_assoc,
    add_comm 1]

def selfOffset (as : List Argument) : Int := (as.head?.map Argument.value).getD 0

theorem seekArgument_print_start
    (hlen : (printArguments as).length < 2 ^ 31) (arg : Nat) (harg : arg < 2 ^ 32) :
    seekArgument arg (printArguments as) 0 0 = .ok (printArguments (as.drop arg), min arg as.length,
          if arg = 0 then 0 else selfOffset as) := by
  cases arg with
  | zero =>
    rw [seekArgument_stop (.inr rfl)]
    simp
  | succ k => ?_
  cases as with
  | nil =>
    rw [printArguments, seekArgument_stop (.inl rfl)]
    simp [printArguments, selfOffset]
  | cons a as => ?_
  have hlt := printArguments_length_lt a as
  have hgo : ¬ (printArguments (a :: as) = [] ∨ 0 = k + 1) := by
    rintro (h | h)
    · exact printArguments_ne_nil a as h
    · omega
  rw [seekArgument_step hgo, SkipFirstType_arguments hlen]
  show seekArgument _ (skipOffset (a.printOffset ++ printArguments as)) _
    (if 0 = 0 then readOffset 0 (a.printOffset ++ printArguments as) else 0) = _
  rw [skipOffset_print a (printArguments_noDigit as), Nat.mod_eq_of_lt (by omega),
    if_pos rfl, readOffset_print a (printArguments_noDigit as), add_comm k 1,
    seekArgument_print (by omega) k 1 (by omega) (by omega), add_comm 1 k,
    drop_succ_cons, length_cons, Nat.add_min_add_right, add_comm 1,
    if_neg (by omega)]
  rfl

/-! ## The readers on a printed method -/

variable {m : Method}

theorem SkipFirstType_method (hlen : m.print.length < 2 ^ 31) :
    SkipFirstType m.print = .ok (.within (m.stackSize.digits ++ printArguments m.arguments)) :=
  SkipFirstType_print m.returnType _ (m.stackSize.head_ne _ (by decide)) hlen

theorem skipDigits_method (m : Method) :
    skipDigits (m.stackSize.digits ++ printArguments m.arguments) = printArguments m.arguments :=
  skipDigits_append m.stackSize.allDigits (printArguments_noDigit m.arguments)

theorem printArguments_length_le (m : Method) :
    (printArguments m.arguments).length ≤ m.print.length := by
  simp only [Method.print, length_append]
  omega

theorem encoding_getNumberOfArguments_print (hlen : m.print.length < 2 ^ 31) :
    encoding_getNumberOfArguments m.print = .ok m.arguments.length := by
  have hargs := printArguments_length_le m
  have hcount := length_le_printArguments m.arguments
  have hloop := countArguments_print m.arguments (by omega) 0 (by omega)
  unfold encoding_getNumberOfArguments
  rw [SkipFirstType_method hlen]
  show countArguments (skipDigits _) 0 = _
  rw [skipDigits_method, hloop, zero_add]

theorem encoding_getSizeOfArguments_print (hlen : m.print.length < 2 ^ 31) :
    encoding_getSizeOfArguments m.print = .ok m.stackSize.value := by
  unfold encoding_getSizeOfArguments
  rw [SkipFirstType_method hlen]
  show Except.ok (readUnsigned 0 _) = _
  rw [readUnsigned_append m.stackSize.allDigits (printArguments_noDigit _) 0 m.stackSize.bounded]
  rfl

theorem copyFirstType_print (e : EncodedType) (hrest : rest.head? ≠ some '?')
    (hlen : (e.print ++ rest).length < 2 ^ 31) :
    copyFirstType (e.print ++ rest) = .ok (e.print ++ ['\x00']) := by
  have hdistance : distanceTo (e.print ++ rest) (.within rest) = e.print.length := by
    simp [distanceTo]
  unfold copyFirstType
  rw [SkipFirstType_print e rest hrest hlen]
  show Except.ok (strncpy _ (distanceTo _ _) ++ _) = _
  rw [hdistance]
  simp [strncpy]

section

variable (hlen : m.print.length < 2 ^ 31)

include hlen

variable {i : Nat}

theorem encoding_getArgumentInfo_print (hi : i < 2 ^ 32) (ha : m.arguments[i]? = some a) :
    encoding_getArgumentInfo m.print i = .ok ⟨i, some (printArguments (m.arguments.drop i)),
          wrapInt (a.value - selfOffset m.arguments)⟩ := by
  have hargs := printArguments_length_le m
  obtain ⟨hlt, hget⟩ := List.getElem?_eq_some_iff.mp ha
  have hdrop : m.arguments.drop i = a :: m.arguments.drop (i + 1) := by
    rw [drop_eq_getElem_cons hlt, hget]
  have hlong := printArguments_drop_length_le m.arguments i
  have hskip : SkipFirstType (printArguments (m.arguments.drop i))
      = .ok (.within (a.printOffset ++ printArguments (m.arguments.drop (i + 1)))) := by
    rw [hdrop] at hlong ⊢
    exact SkipFirstType_arguments (by omega)
  have hne : printArguments (m.arguments.drop i) ≠ [] := by
    rw [hdrop]
    exact printArguments_ne_nil _ _
  unfold encoding_getArgumentInfo
  rw [SkipFirstType_method hlen]
  show (seekArgument i (skipDigits _) 0 0).bind _ = _
  rw [skipDigits_method, seekArgument_print_start (by omega) i hi]
  show argumentAt i (printArguments (m.arguments.drop i)) (min i m.arguments.length) _ = _
  rw [argumentAt, if_neg hne, hskip, min_eq_left (by omega)]
  by_cases h0 : i = 0
  · -- the first argument is at distance zero from itself
    subst h0
    have hself : selfOffset m.arguments = a.value := by
      rw [drop_zero] at hdrop
      rw [hdrop]
      rfl
    rw [hself, sub_self]
    rfl
  · simp only [if_neg h0]
    show Except.ok (ArgumentInfo.mk i _ (wrapInt (readOffset 0 _ - _))) = _
    rw [readOffset_print a (printArguments_noDigit _)]

theorem encoding_getArgumentInfo_beyond (hi : i < 2 ^ 32) (hbeyond : m.arguments.length ≤ i) :
    encoding_getArgumentInfo m.print i = .ok ⟨m.arguments.length, none, 0⟩ := by
  have hargs := printArguments_length_le m
  unfold encoding_getArgumentInfo
  rw [SkipFirstType_method hlen]
  show (seekArgument i (skipDigits _) 0 0).bind _ = _
  rw [skipDigits_method, seekArgument_print_start (by omega) i hi,
    drop_eq_nil_of_le hbeyond, min_eq_right hbeyond]
  rfl

theorem encoding_copyReturnType_print :
    encoding_copyReturnType (some m.print) = .ok (some (m.returnType.print ++ ['\x00'])) := by
  have hcopy := copyFirstType_print m.returnType
    (m.stackSize.head_ne (printArguments m.arguments) (by decide)) hlen
  show (copyFirstType (m.returnType.print ++ _)).bind _ = _
  rw [hcopy]
  rfl

theorem encoding_copyArgumentType_print (hi : i < 2 ^ 32) (ha : m.arguments[i]? = some a) :
    encoding_copyArgumentType (some m.print) i = .ok (some (a.type.print ++ ['\x00'])) := by
  have hargs := printArguments_length_le m
  have hlong := printArguments_drop_length_le m.arguments i
  obtain ⟨hlt, hget⟩ := List.getElem?_eq_some_iff.mp ha
  have hdrop : m.arguments.drop i = a :: m.arguments.drop (i + 1) := by
    rw [drop_eq_getElem_cons hlt, hget]
  unfold encoding_copyArgumentType
  simp only [encoding_getArgumentInfo_print hlen hi ha]
  show (copyFirstType (printArguments (m.arguments.drop i))).bind _ = _
  rw [hdrop, printArguments_cons] at hlong ⊢
  rw [copyFirstType_print a.type (a.printOffset_head _) (by omega)]
  rfl

theorem encoding_copyArgumentType_beyond (hi : i < 2 ^ 32) (hbeyond : m.arguments.length ≤ i) :
    encoding_copyArgumentType (some m.print) i = .ok none := by
  unfold encoding_copyArgumentType
  simp only [encoding_getArgumentInfo_beyond hlen hi hbeyond]
  rfl

end

structure ReadsBack (m : Method) : Prop where
  number : encoding_getNumberOfArguments m.print = .ok m.arguments.length
  size : encoding_getSizeOfArguments m.print = .ok m.stackSize.value
  returnType : encoding_copyReturnType (some m.print)
    = .ok (some (m.returnType.print ++ ['\x00']))
  argumentType : ∀ i < 2 ^ 32, ∀ a, m.arguments[i]? = some a →
    encoding_copyArgumentType (some m.print) i = .ok (some (a.type.print ++ ['\x00']))
  offset : ∀ i < 2 ^ 32, ∀ a self, m.arguments[i]? = some a → m.arguments[0]? = some self →
    encoding_getArgumentInfo m.print i
      = .ok ⟨i, some (printArguments (m.arguments.drop i)), a.value - self.value⟩
  beyond : ∀ i < 2 ^ 32, m.arguments.length ≤ i →
    encoding_copyArgumentType (some m.print) i = .ok none ∧
      encoding_getArgumentInfo m.print i = .ok ⟨m.arguments.length, none, 0⟩

theorem wrapInt_bounds (x : Int) : -2 ^ 31 ≤ wrapInt x ∧ wrapInt x < 2 ^ 31 := by
  have hle := Int.le_bmod (x := x) (m := 2 ^ 32) (by decide)
  have hlt := Int.bmod_lt (x := x) (m := 2 ^ 32) (by decide)
  unfold wrapInt
  omega

/-- **A printed method is read back** exactly when every offset is at a distance from the
first one that an `int` holds. -/
theorem encoding_reads_method_iff (m : Method) (hlen : m.print.length < 2 ^ 31) :
    ReadsBack m ↔
      ∀ a ∈ m.arguments, ∀ self ∈ m.arguments.head?,
        -2 ^ 31 ≤ a.value - self.value ∧ a.value - self.value < 2 ^ 31 := by
  have hargs := printArguments_length_le m
  have hcount := length_le_printArguments m.arguments
  have hself : ∀ self, m.arguments.head? = some self → selfOffset m.arguments = self.value := by
    intro self h
    rw [selfOffset, h]
    rfl
  constructor
  · intro h a ha self hhead
    obtain ⟨i, hi, hget⟩ := getElem_of_mem ha
    have hsome : m.arguments[i]? = some a := by rw [getElem?_eq_getElem hi, hget]
    have hoffset := h.offset i (by omega) a self hsome (by rw [← head?_eq_getElem?]; exact hhead)
    rw [encoding_getArgumentInfo_print hlen (by omega) hsome, hself self hhead] at hoffset
    have hvalue : wrapInt (a.value - self.value) = a.value - self.value := by
      simpa using hoffset
    rw [← hvalue]
    exact wrapInt_bounds _
  intro h
  refine ⟨encoding_getNumberOfArguments_print hlen, encoding_getSizeOfArguments_print hlen,
    encoding_copyReturnType_print hlen, ?_, ?_, ?_⟩
  · intro i hi a ha
    exact encoding_copyArgumentType_print hlen hi ha
  · intro i hi a self ha hzero
    rw [← head?_eq_getElem?] at hzero
    obtain ⟨h1, h2⟩ := h a (mem_of_getElem? ha) self hzero
    rw [encoding_getArgumentInfo_print hlen hi ha, hself self hzero, wrapInt_of_lt h1 h2]
  · intro i hi hbeyond
    exact ⟨encoding_copyArgumentType_beyond hlen hi hbeyond,
      encoding_getArgumentInfo_beyond hlen hi hbeyond⟩

/-! ## Two methods -/

def Decimal.ofDigits (digits : List Char)
    (h : digits ≠ [] ∧ (∀ c ∈ digits, c.isDigit = true) ∧ decimalFrom 0 digits < 2 ^ 31) :
    Decimal :=
  ⟨digits, h.1, h.2.1, h.2.2⟩

/-- The method `v0@-2147483647:2147483647`. -/
def farApart : Method where
  returnType := .basic ⟨'v', by decide⟩
  stackSize := .ofDigits ['0'] ⟨by decide, all_eq_true.mp rfl, by decide⟩
  arguments :=
    [⟨.object, false, true,
        .ofDigits "2147483647".toList ⟨by decide, all_eq_true.mp rfl, by decide⟩⟩,
      ⟨.basic ⟨':', by decide⟩, false, false,
        .ofDigits "2147483647".toList ⟨by decide, all_eq_true.mp rfl, by decide⟩⟩]

/-- The method `{P=dd}24@+0r^[3{S=}]-8`. -/
def nested : Method where
  returnType := .struct ⟨"P=".toList, all_eq_true.mp rfl⟩
    (.cons (.basic ⟨'d', by decide⟩) ⟨[], all_eq_true.mp rfl⟩
      (.cons (.basic ⟨'d', by decide⟩) ⟨[], all_eq_true.mp rfl⟩ .nil))
  stackSize := .ofDigits ['2', '4'] ⟨by decide, all_eq_true.mp rfl, by decide⟩
  arguments :=
    [⟨.object, true, false, .ofDigits ['0'] ⟨by decide, all_eq_true.mp rfl, by decide⟩⟩,
      ⟨.qualified ⟨'r', by decide⟩ (.qualified ⟨'^', by decide⟩
        (.array ⟨['3'], all_eq_true.mp rfl⟩ (.struct ⟨"S=".toList, all_eq_true.mp rfl⟩ .nil))),
        false, true, .ofDigits ['8'] ⟨by decide, all_eq_true.mp rfl, by decide⟩⟩]

theorem nested_is_read_back : ReadsBack nested :=
  (encoding_reads_method_iff nested (by decide)).mpr (by decide)

/-- The two offsets of `farApart` differ by 4294967294, and the `int` holds -2. -/
theorem far_offsets_wrap :
    farApart.print = "v0@-2147483647:2147483647".toList ∧
      encoding_getArgumentInfo farApart.print 1
        = .ok ⟨1, some ":2147483647".toList, -2⟩ ∧
      ¬ ReadsBack farApart := by
  have hinfo : encoding_getArgumentInfo farApart.print 1
      = .ok ⟨1, some ":2147483647".toList, -2⟩ := by
    rw [encoding_getArgumentInfo_print (m := farApart) (i := 1) (by decide) (by decide) rfl,
      Except.ok.injEq]
    decide +kernel
  refine ⟨by decide, hinfo, ?_⟩
  intro h
  have hoffset := h.offset 1 (by decide) _ _ rfl rfl
  rw [hinfo, Except.ok.injEq] at hoffset
  exact absurd (congrArg ArgumentInfo.offset hoffset) (by decide +kernel)

end ObjcRuntime.TypeEncoding
