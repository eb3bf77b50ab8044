/-
THE OPTIONS IN THE ENVIRONMENT.

objc-runtime.mm, `environ_init`, in a process that is not setuid or setgid.
The functions of libc do what their standard says; what OBJC_HELP and
OBJC_PRINT_OPTIONS print is left out.
-/
import Mathlib.Data.List.Infix
import Mathlib.Logic.Function.Basic

namespace ObjcRuntime

open List Function

/-! ## The function -/

/-- The characters before the NUL. -/
abbrev CString := List Char

def Settings : List CString := [
  "OBJC_PRINT_IMAGES", "OBJC_PRINT_IMAGE_TIMES", "OBJC_PRINT_LOAD_METHODS",
  "OBJC_PRINT_INITIALIZE_METHODS", "OBJC_PRINT_RESOLVED_METHODS", "OBJC_PRINT_CLASS_SETUP",
  "OBJC_PRINT_PROTOCOL_SETUP", "OBJC_PRINT_IVAR_SETUP", "OBJC_PRINT_VTABLE_SETUP",
  "OBJC_PRINT_VTABLE_IMAGES", "OBJC_PRINT_CACHE_SETUP", "OBJC_PRINT_FUTURE_CLASSES",
  "OBJC_PRINT_PREOPTIMIZATION", "OBJC_PRINT_CXX_CTORS", "OBJC_PRINT_EXCEPTIONS",
  "OBJC_PRINT_EXCEPTION_THROW", "OBJC_PRINT_ALT_HANDLERS", "OBJC_PRINT_REPLACED_METHODS",
  "OBJC_PRINT_DEPRECATION_WARNINGS", "OBJC_PRINT_POOL_HIGHWATER", "OBJC_PRINT_CUSTOM_RR",
  "OBJC_PRINT_CUSTOM_AWZ", "OBJC_PRINT_RAW_ISA", "OBJC_DEBUG_UNLOAD",
  "OBJC_DEBUG_FRAGILE_SUPERCLASSES", "OBJC_DEBUG_NIL_SYNC", "OBJC_DEBUG_NONFRAGILE_IVARS",
  "OBJC_DEBUG_ALT_HANDLERS", "OBJC_DEBUG_MISSING_POOLS", "OBJC_DEBUG_POOL_ALLOCATION",
  "OBJC_DEBUG_DUPLICATE_CLASSES", "OBJC_DEBUG_DONT_CRASH", "OBJC_DISABLE_VTABLES",
  "OBJC_DISABLE_PREOPTIMIZATION", "OBJC_DISABLE_TAGGED_POINTERS", "OBJC_DISABLE_TAG_OBFUSCATION",
  "OBJC_DISABLE_NONPOINTER_ISA", "OBJC_DISABLE_INITIALIZE_FORK_SAFETY"].map String.toList

/-- `0 == strncmp(s, text, strlen(text))`. -/
def startsWith (s text : CString) : Bool := text.isPrefixOf s

/-- `strchr`: the place of the character; `none` is NULL. -/
def strchr (s : CString) (c : Char) : Option Nat := s.findIdx? (· == c)

/-- The value of an entry NAME=value. -/
def valueOf (name entry : CString) : Option CString :=
  if startsWith entry (name ++ ['=']) then some (entry.drop (name.length + 1)) else none

def getenv (environ : List CString) (name : String) : Option CString :=
  environ.findSome? (valueOf name.toList)

structure EnvState where
  /-- The variables of the options, by their names. -/
  vars : CString → Bool
  maybeMallocDebugging : Bool

def mallocEntry (p : CString) : Bool :=
  startsWith p "Malloc".toList || startsWith p "DYLD".toList ||
    startsWith p "NSZombiesEnabled".toList

/-- One round of the loop; `none` is the read of `*value` where `value` is NULL. -/
def EnvState.readEntry (s : EnvState) (p : CString) : Option EnvState :=
  let s := { s with maybeMallocDebugging := s.maybeMallocDebugging || mallocEntry p }
  if startsWith p "OBJC_".toList = false then some s
  else if startsWith p "OBJC_HELP=".toList then some s
  else if startsWith p "OBJC_PRINT_OPTIONS=".toList then some s
  else (strchr p '=').map fun place =>
    let value := p.drop (place + 1)
    let opt := Settings.find? fun env => place + 1 == 1 + env.length && startsWith p env
    { s with vars := opt.elim s.vars fun env => update s.vars env (value == "YES".toList) }

def OBJC_DEBUG_POOL_ALLOCATION : CString := "OBJC_DEBUG_POOL_ALLOCATION".toList

/-- Malloc debugging, and OBJC_DEBUG_POOL_ALLOCATION is not set to something other than YES. -/
def debugPools (environ : List CString) : Bool :=
  ((getenv environ "MallocStackLogging").isSome ||
    (getenv environ "MallocStackLoggingNoCompact").isSome ||
    (getenv environ "NSZombiesEnabled").any (fun zombie =>
      "Yy".toList.any (zombie.head? == some ·)) ||
    (getenv environ "DYLD_INSERT_LIBRARIES").any fun insert => "libgmalloc".toList <:+: insert) &&
  (getenv environ "OBJC_DEBUG_POOL_ALLOCATION").all (· == "YES".toList)

/-- `environ_init`: the variables of the options afterwards. -/
def environ_init (vars : CString → Bool) (environ : List CString) : Option (CString → Bool) :=
  (environ.foldlM EnvState.readEntry ⟨vars, false⟩).map fun s =>
    if s.maybeMallocDebugging && debugPools environ then
      update s.vars OBJC_DEBUG_POOL_ALLOCATION true
    else s.vars

/-! ## One entry -/

variable {p name : CString} {s : EnvState}

theorem startsWith_iff {text : CString} : startsWith p text = true ↔ text <+: p :=
  isPrefixOf_iff_prefix

theorem settings_names : ∀ env ∈ Settings, '=' ∉ env ∧ "OBJC_".toList <+: env := by
  decide +kernel

theorem strchr_append {a b : CString} (ha : '=' ∉ a) :
    strchr (a ++ '=' :: b) '=' = some a.length := by
  have hnone : a.findIdx? (· == '=') = none :=
    findIdx?_eq_none_iff.mpr fun c hc => beq_eq_false_iff_ne.mpr fun heq => ha (heq ▸ hc)
  rw [strchr, findIdx?_append, hnone]
  simp [findIdx?_cons]

theorem valueOf_append {a b : CString} (hname : '=' ∉ name) (ha : '=' ∉ a) :
    valueOf name (a ++ '=' :: b) = if name = a then some b else none := by
  have hiff : startsWith (a ++ '=' :: b) (name ++ ['=']) = true ↔ name = a := by
    rw [startsWith_iff]
    constructor
    · rintro ⟨rest, heq⟩
      rw [append_assoc, singleton_append] at heq
      have hlen : some name.length = some a.length := by
        rw [← strchr_append hname, heq, strchr_append ha]
      exact (append_inj heq (Option.some.inj hlen)).1
    · rintro rfl
      exact ⟨b, by simp⟩
  unfold valueOf
  by_cases heq : name = a
  · rw [if_pos (hiff.mpr heq), if_pos heq, heq]
    simp
  · rw [if_neg (heq ∘ hiff.mp), if_neg heq]

/-- The entry has a '=' if its name starts with OBJC_. -/
def HasValue (p : CString) : Prop := startsWith p "OBJC_".toList = true → '=' ∈ p

theorem EnvState.readEntry_spec (hp : HasValue p) : ∃ s', s.readEntry p = some s' ∧
    s'.maybeMallocDebugging = (s.maybeMallocDebugging || mallocEntry p) ∧
    ∀ env ∈ Settings, s'.vars env = (valueOf env p).elim (s.vars env) (· == "YES".toList) := by
  unfold readEntry
  -- an entry that is passed over sets no option
  have hskip : (∀ env ∈ Settings, valueOf env p = none) → ∀ env ∈ Settings,
      s.vars env = (valueOf env p).elim (s.vars env) (· == "YES".toList) := by
    intro hnone env henv
    rw [hnone env henv, Option.elim_none]
  have hother : ∀ {a b : CString}, '=' ∉ a → a ∉ Settings → p = a ++ '=' :: b →
      ∀ env ∈ Settings, valueOf env p = none := by
    rintro a b ha hnot rfl env henv
    rw [valueOf_append (settings_names env henv).1 ha, if_neg]
    rintro rfl
    exact hnot henv
  split
  next hobjc =>
    refine ⟨_, rfl, rfl, hskip fun env henv => if_neg fun heq => ?_⟩
    have hpre := (settings_names env henv).2.trans ((prefix_append env ['=']).trans
      (startsWith_iff.mp heq))
    rw [startsWith_iff.mpr hpre] at hobjc
    cases hobjc
  rename_i hobjc
  split
  next hhelp =>
    obtain ⟨b, rfl⟩ := startsWith_iff.mp hhelp
    exact ⟨_, rfl, rfl,
      hskip (hother (a := "OBJC_HELP".toList) (by decide) (by decide +kernel) rfl)⟩
  split
  next hprint =>
    obtain ⟨b, rfl⟩ := startsWith_iff.mp hprint
    exact ⟨_, rfl, rfl,
      hskip (hother (a := "OBJC_PRINT_OPTIONS".toList) (by decide) (by decide +kernel) rfl)⟩
  obtain ⟨a, b, rfl, ha⟩ := eq_append_cons_of_mem (hp (Bool.of_not_eq_false hobjc))
  have hmatch : ∀ env : CString, (a.length + 1 == 1 + env.length
      && startsWith (a ++ '=' :: b) env) = true ↔ env = a := by
    intro env
    rw [Bool.and_eq_true, beq_iff_eq, startsWith_iff, prefix_iff_eq_take]
    constructor
    · rintro ⟨hlen, heq⟩
      rw [heq, take_left' (by omega)]
    · rintro rfl
      simp [Nat.add_comm]
  rw [strchr_append ha]
  refine ⟨_, rfl, rfl, fun env henv => ?_⟩
  rw [valueOf_append (settings_names env henv).1 ha]
  show (Option.elim (Settings.find? _) s.vars _) env = _
  cases hfound : Settings.find? fun env : CString => a.length + 1 == 1 + env.length
      && startsWith (a ++ '=' :: b) env with
  | none =>
    rw [if_neg fun heq => find?_eq_none.mp hfound env henv ((hmatch env).mpr heq)]
    rfl
  | some found => ?_
  have hsome := find?_some hfound
  obtain rfl := (hmatch found).mp hsome
  have hvalue : (found ++ '=' :: b).drop (found.length + 1) = b := by simp
  rw [Option.elim_some, hvalue, update_apply]
  split <;> rfl

theorem EnvState.readEntry_none (hp : ¬ HasValue p) : s.readEntry p = none := by
  simp only [HasValue, Classical.not_imp] at hp
  obtain ⟨hobjc, hno⟩ := hp
  have hnot : ∀ text : CString, '=' ∈ text → startsWith p text = false := by
    intro text htext
    rw [Bool.eq_false_iff]
    exact fun heq => hno ((startsWith_iff.mp heq).subset htext)
  have hchr : strchr p '=' = none :=
    findIdx?_eq_none_iff.mpr fun c hc => beq_eq_false_iff_ne.mpr fun heq => hno (heq ▸ hc)
  unfold readEntry
  simp only [hobjc, hnot "OBJC_HELP=".toList (by decide), hchr]
  rw [hnot _ (by decide)]
  rfl

/-! ## The whole environment -/

theorem foldlM_spec (environ : List CString) : ∀ s : EnvState, (∀ p ∈ environ, HasValue p) →
    ∃ s', environ.foldlM EnvState.readEntry s = some s' ∧
      s'.maybeMallocDebugging = (s.maybeMallocDebugging || environ.any mallocEntry) ∧
      ∀ env ∈ Settings, s'.vars env
        = (environ.filterMap (valueOf env)).getLast?.elim (s.vars env) (· == "YES".toList) := by
  induction environ with
  | nil =>
    intro s _
    exact ⟨s, rfl, by simp, fun env _ => rfl⟩
  | cons p environ ih => ?_
  intro s hall
  obtain ⟨mid, hmid, hmalloc, hvars⟩ := EnvState.readEntry_spec (s := s) (hall p mem_cons_self)
  obtain ⟨s', hrun, hmalloc', hvars'⟩ := ih mid fun q hq => hall q (mem_cons_of_mem _ hq)
  refine ⟨s', by rw [foldlM_cons, hmid]; exact hrun, ?_, fun env henv => ?_⟩
  · rw [hmalloc', hmalloc, any_cons, Bool.or_assoc]
  rw [hvars' env henv, hvars env henv]
  cases hvalue : valueOf env p with
  | none => rw [filterMap_cons_none hvalue, Option.elim_none]
  | some v => ?_
  rw [filterMap_cons_some hvalue, getLast?_cons, Option.elim_some, Option.elim_some]
  cases (environ.filterMap (valueOf env)).getLast? <;> rfl

theorem foldlM_none {environ : List CString} (hbad : ∃ p ∈ environ, ¬ HasValue p) :
    ∀ s : EnvState, environ.foldlM EnvState.readEntry s = none := by
  induction environ with
  | nil =>
    obtain ⟨p, hp, -⟩ := hbad
    cases hp
  | cons q environ ih => ?_
  intro s
  rw [foldlM_cons]
  by_cases hq : HasValue q
  · obtain ⟨mid, hmid, -⟩ := EnvState.readEntry_spec (s := s) hq
    rw [hmid]
    obtain ⟨p, hp, hnot⟩ := hbad
    refine ih ⟨p, ?_, hnot⟩ mid
    rcases mem_cons.mp hp with rfl | hp
    · exact absurd hq hnot
    · exact hp
  rw [EnvState.readEntry_none hq]
  rfl

/-- Each option is what its last occurrence says, or what it was; malloc debugging may set the one
for pools. -/
def SetAsAsked (vars : CString → Bool) (environ : List CString) (vars' : CString → Bool) : Prop :=
  ∀ env ∈ Settings, vars' env
    = ((environ.filterMap (valueOf env)).getLast?.elim (vars env) (· == "YES".toList) ||
      env == OBJC_DEBUG_POOL_ALLOCATION && environ.any mallocEntry && debugPools environ)

/-- **The options are as the environment says** exactly if no entry that starts with OBJC_ is
without a '='. -/
theorem options_are_set_iff (vars : CString → Bool) (environ : List CString) :
    (∃ vars', environ_init vars environ = some vars' ∧ SetAsAsked vars environ vars') ↔
      ∀ p ∈ environ, startsWith p "OBJC_".toList = true → '=' ∈ p := by
  unfold environ_init
  constructor
  · rintro ⟨vars', hrun, -⟩
    by_contra hbad
    simp only [not_forall] at hbad
    obtain ⟨p, hp, hno⟩ := hbad
    rw [foldlM_none ⟨p, hp, fun h => hno.elim fun hobjc hnot => hnot (h hobjc)⟩] at hrun
    cases hrun
  intro hall
  obtain ⟨s', hrun, hmalloc, hvars⟩ := foldlM_spec environ ⟨vars, false⟩ hall
  rw [hrun]
  refine ⟨_, rfl, fun env henv => ?_⟩
  rw [← hvars env henv]
  simp only [hmalloc, Bool.false_or, Bool.and_assoc]
  cases environ.any mallocEntry && debugPools environ with
  | false => simp
  | true => by_cases heq : env = OBJC_DEBUG_POOL_ALLOCATION <;> simp [heq]

theorem entry_without_value_is_fatal :
    environ_init (fun _ => false) ["OBJC_DEBUG".toList] = none := by
  decide +kernel

end ObjcRuntime
