/-
THE SCANNER OF METHOD TYPE STRINGS (`objc-typeencoding.mm`).

A `const char *` into the string is the list of the characters that are left
before the terminating NUL; the empty list is the pointer to the NUL itself.
`SkipFirstType` advances before it inspects the character, so it can also
return the pointer one byte BEHIND the NUL: `Cursor.past`. Every later read
through that pointer is the halt `overread`.

* `SkipFirstType`: past one type,
* `encoding_getNumberOfArguments`, `encoding_getSizeOfArguments`,
  `encoding_getArgumentInfo`, `encoding_copyReturnType`,
  `encoding_copyArgumentType`: the readers built on it

`unsigned` is reduced modulo 2^32, `int` is the balanced residue modulo 2^32
(`wrapInt`). The level of `SubtypeUntil` is never further from zero than the
distance scanned, which is what is converted to `int`, so the level is kept as an
integer.
-/
import Mathlib.Data.List.Basic
import Mathlib.Algebra.BigOperators.Group.List.Basic
import Mathlib.Tactic.Ring

namespace ObjcRuntime.TypeEncoding

/-! ## Pointers into the string -/

inductive Halt where
  /-- `_objc_fatal` with its text. -/
  | fatal (message : String)
  /-- A byte behind the terminating NUL is read. -/
  | overread
  /-- A distance of 2^31 or more became a negative `int`, and a pointer is moved
  backwards by it. -/
  | backwards
  deriving DecidableEq

/-- `Object: SubtypeUntil: end of type encountered prematurely`. -/
def endOfType : Halt :=
  .fatal "Object: SubtypeUntil: end of type encountered prematurely\n"

inductive Cursor where
  /-- On a character of the string, or on its NUL. -/
  | within (rest : List Char)
  /-- On the byte behind the NUL. -/
  | past
  deriving DecidableEq

def Cursor.read : Cursor → Except Halt (List Char)
  | .within rest => .ok rest
  | .past => .error .overread

/-- The value an `int` holds after `x` was stored in it. -/
def wrapInt (x : Int) : Int := x.bmod (2 ^ 32)

/-- `type + n` for the signed distance `n`. -/
def advance (type : List Char) (n : Int) : Except Halt Cursor :=
  if n < 0 then .error .backwards else .ok (.within (type.drop n.toNat))

/-- `while ((*type >= '0') && (*type <= '9')) type += 1;` -/
def skipDigits (type : List Char) : List Char :=
  type.dropWhile Char.isDigit

/-- `if (*type == c) type++;` -/
def skipOne (c : Char) : List Char → List Char
  | [] => []
  | d :: type => if d = c then type else d :: type

/-! ## One type -/

/-- What a character adds to the level of `SubtypeUntil`. -/
def levelStep (c : Char) : Int :=
  if c = ']' ∨ c = '}' ∨ c = ')' then -1
  else if c = '[' ∨ c = '{' ∨ c = '(' then 1
  else 0

/-- The loop of `SubtypeUntil`: `distance` is `type - head`. -/
def SubtypeUntil.loop (close : Char) : List Char → Int → Nat → Except Halt Int
  | [], _, _ => .error endOfType
  | c :: type, level, distance =>
    if level = 0 ∧ c = close then .ok (wrapInt distance)
    else loop close type (level + levelStep c) (distance + 1)

/-- The distance from `type` to the first `close` at level zero. -/
def SubtypeUntil (type : List Char) (close : Char) : Except Halt Int :=
  SubtypeUntil.loop close type 0 0

/-- `return type + SubtypeUntil (type, close) + 1;` -/
def skipSubtype (type : List Char) (close : Char) : Except Halt Cursor := do
  let distance ← SubtypeUntil type close
  advance type (distance + 1)

/-- The characters that stand before a type: bycopy, in, out, inout, const, oneway
and pointers. -/
def isQualifier (c : Char) : Bool :=
  c ∈ ['O', 'n', 'o', 'N', 'r', 'V', '^']

/-- One type is skipped. `*type++` also advances over the NUL, which is then taken
as a basic type. -/
def SkipFirstType : List Char → Except Halt Cursor
  | [] => .ok .past
  | c :: type =>
    if isQualifier c then SkipFirstType type
    -- objects, and blocks
    else if c = '@' then .ok (.within (skipOne '?' type))
    -- arrays
    else if c = '[' then skipSubtype (skipDigits type) ']'
    -- structures
    else if c = '{' then skipSubtype type '}'
    -- unions
    else if c = '(' then skipSubtype type ')'
    -- basic types
    else .ok (.within type)

theorem skipDigits_length_le (s : List Char) : (skipDigits s).length ≤ s.length :=
  (List.dropWhile_sublist _).length_le

theorem skipOne_length_le (c : Char) (s : List Char) : (skipOne c s).length ≤ s.length := by
  cases s with
  | nil => simp [skipOne]
  | cons d s =>
    simp only [skipOne]
    split <;> simp

variable {s : List Char}

theorem skipSubtype_length_le {r : List Char} {close : Char}
    (h : skipSubtype s close = .ok (.within r)) : r.length ≤ s.length := by
  unfold skipSubtype at h
  cases hd : SubtypeUntil s close with
  | error e => rw [hd] at h; cases h
  | ok n => ?_
  rw [hd] at h
  change advance s (n + 1) = _ at h
  unfold advance at h
  split at h
  · cases h
  · cases h
    simp

theorem SkipFirstType_length_lt {r : List Char} (h : SkipFirstType s = .ok (.within r)) :
    r.length < s.length := by
  induction s with
  | nil => cases h
  | cons c s ih => ?_
  have hone := skipOne_length_le '?' s
  have hdigits := skipDigits_length_le s
  unfold SkipFirstType at h
  simp only [List.length_cons]
  split at h
  · have := ih h
    omega
  split at h
  · cases h
    omega
  split at h
  · have := skipSubtype_length_le h
    omega
  split at h
  · have := skipSubtype_length_le h
    omega
  split at h
  · have := skipSubtype_length_le h
    omega
  · cases h
    omega

/-! ## The arguments -/

def skipOffset (s : List Char) : List Char :=
  skipDigits (skipOne '-' (skipOne '+' s))

theorem skipOffset_length_le (s : List Char) : (skipOffset s).length ≤ s.length :=
  (skipDigits_length_le _).trans ((skipOne_length_le _ _).trans (skipOne_length_le _ _))

/-- The loop of `encoding_getNumberOfArguments`. -/
def countArguments (typedesc : List Char) (nargs : Nat) : Except Halt Nat :=
  if typedesc = [] then .ok nargs
  else
    match h : SkipFirstType typedesc with
    | .error e => .error e
    | .ok .past => .error .overread
    | .ok (.within s) => countArguments (skipOffset s) ((nargs + 1) % 2 ^ 32)
termination_by typedesc.length
decreasing_by
  have h1 := SkipFirstType_length_lt h
  have h2 := skipOffset_length_le s
  omega

@[simp] theorem countArguments_nil (nargs : Nat) : countArguments [] nargs = .ok nargs := by
  rw [countArguments, if_pos rfl]

theorem countArguments_step (hne : s ≠ []) (nargs : Nat) :
    countArguments s nargs = (SkipFirstType s).bind fun cursor => cursor.read.bind fun r =>
        countArguments (skipOffset r) ((nargs + 1) % 2 ^ 32) := by
  rw [countArguments, if_neg hne]
  split <;> rename_i h <;> rw [h] <;> rfl

def encoding_getNumberOfArguments (typedesc : List Char) : Except Halt Nat := do
  -- the return type, then the stack size
  let cursor ← SkipFirstType typedesc
  let s ← cursor.read
  countArguments (skipDigits s) 0

/-- The value of an ASCII digit. -/
def digitValue (c : Char) : Nat := c.toNat - '0'.toNat

/-- `while (digit) stack_size = (stack_size * 10) + (*typedesc++ - '0');` -/
def readUnsigned (stack_size : Nat) : List Char → Nat
  | [] => stack_size
  | c :: s =>
    if c.isDigit then readUnsigned ((stack_size * 10 + digitValue c) % 2 ^ 32) s
    else stack_size

def encoding_getSizeOfArguments (typedesc : List Char) : Except Halt Nat := do
  let cursor ← SkipFirstType typedesc
  let s ← cursor.read
  return readUnsigned 0 s

/-- `while (digit) offset = offset * 10 + (*typedesc++ - '0');` -/
def readInt (offset : Int) : List Char → Int
  | [] => offset
  | c :: s =>
    if c.isDigit then readInt (wrapInt (offset * 10 + digitValue c)) s else offset

/-- The offset behind a type, added to what the variable held before: hint, sign and
digits; `skipOffset` is where the pointer stands afterwards. -/
def readOffset (offset : Int) (s : List Char) : Int :=
  let s := skipOne '+' s
  if s.head? = some '-' then wrapInt (-readInt offset (skipOne '-' s))
  else readInt offset s

/-- What `encoding_getArgumentInfo` returns and stores through `type` and `offset`. -/
structure ArgumentInfo where
  nargs : Nat
  type : Option (List Char)
  offset : Int
  deriving DecidableEq

/-- The loop of `encoding_getArgumentInfo`: where `typedesc` stands when it ends, with
`nargs` and `self_offset`. -/
def seekArgument (arg : Nat) (typedesc : List Char) (nargs : Nat) (self_offset : Int) :
    Except Halt (List Char × Nat × Int) :=
  if typedesc = [] ∨ nargs = arg then .ok (typedesc, nargs, self_offset)
  else
    match h : SkipFirstType typedesc with
    | .error e => .error e
    | .ok .past => .error .overread
    | .ok (.within s) =>
      -- only the offset of the first argument is kept
      seekArgument arg (skipOffset s) ((nargs + 1) % 2 ^ 32)
        (if nargs = 0 then readOffset self_offset s else self_offset)
termination_by typedesc.length
decreasing_by
  have h1 := SkipFirstType_length_lt h
  have h2 := skipOffset_length_le s
  omega

theorem seekArgument_stop {arg : Nat} {nargs : Nat} (h : s = [] ∨ nargs = arg) (self_offset : Int) :
    seekArgument arg s nargs self_offset = .ok (s, nargs, self_offset) := by
  rw [seekArgument, if_pos h]

theorem seekArgument_step {arg : Nat} {nargs : Nat} (h : ¬ (s = [] ∨ nargs = arg))
    (self_offset : Int) :
    seekArgument arg s nargs self_offset =
      (SkipFirstType s).bind fun cursor => cursor.read.bind fun r =>
        seekArgument arg (skipOffset r) ((nargs + 1) % 2 ^ 32)
          (if nargs = 0 then readOffset self_offset r else self_offset) := by
  rw [seekArgument, if_neg h]
  split <;> rename_i h <;> rw [h] <;> rfl

/-- What happens at the argument that was reached: the type behind it is skipped, and
for every argument but the first the offset is read. -/
def argumentAt (arg : Nat) (typedesc : List Char) (nargs : Nat) (self_offset : Int) :
    Except Halt ArgumentInfo :=
  if typedesc = [] then .ok ⟨nargs, none, 0⟩
  else do
    let cursor ← SkipFirstType typedesc
    if arg = 0 then return ⟨nargs, some typedesc, 0⟩
    else
      let s ← cursor.read
      return ⟨nargs, some typedesc, wrapInt (readOffset 0 s - self_offset)⟩

def encoding_getArgumentInfo (typedesc : List Char) (arg : Nat) :
    Except Halt ArgumentInfo := do
  -- the return type, then the stack size
  let cursor ← SkipFirstType typedesc
  let s ← cursor.read
  let (typedesc, nargs, self_offset) ← seekArgument arg (skipDigits s) 0 0
  argumentAt arg typedesc nargs self_offset

/-! ## Copies -/

/-- The `len` bytes that `strncpy` writes: the characters up to the NUL, then NULs. -/
def strncpy (t : List Char) (len : Nat) : List Char :=
  t.take len ++ List.replicate (len - t.length) '\x00'

/-- `end - t`. -/
def distanceTo (t : List Char) : Cursor → Nat
  | .within rest => t.length - rest.length
  | .past => t.length + 1

/-- The `len + 1` bytes of the block that receives the first type of `t`. -/
def copyFirstType (t : List Char) : Except Halt (List Char) := do
  let cursor ← SkipFirstType t
  return strncpy t (distanceTo t cursor) ++ ['\x00']

def encoding_copyReturnType : Option (List Char) → Except Halt (Option (List Char))
  | none => .ok none
  | some t => do
      let result ← copyFirstType t
      return some result

def encoding_copyArgumentType (t : Option (List Char)) (index : Nat) :
    Except Halt (Option (List Char)) :=
  match t with
  | none => .ok none
  | some t => do
      let info ← encoding_getArgumentInfo t index
      match info.type with
      | none => return none
      | some t =>
        let result ← copyFirstType t
        return some result

end ObjcRuntime.TypeEncoding
