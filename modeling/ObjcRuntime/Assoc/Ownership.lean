/-
WHO OWNS AN ASSOCIATED VALUE.

`objc_setAssociatedObject`, `objc_getAssociatedObject` and
`objc_removeAssociatedObjects` in any order. The run keeps the messages that
are sent to values; a stored value carries the number of the call that stored
it, so that a release names the acquisition it gives back.
-/
import ObjcRuntime.Assoc.Table

namespace ObjcRuntime

open Function List AList

/-! ## Policies and messages -/

/-- `objc_AssociationPolicy`. -/
inductive AssociationPolicy where
  | ASSIGN
  | RETAIN_NONATOMIC
  | COPY_NONATOMIC
  | RETAIN
  | COPY
  deriving DecidableEq

def AssociationPolicy.bits : AssociationPolicy → Nat
  | .ASSIGN => 0
  | .RETAIN_NONATOMIC => 1
  | .COPY_NONATOMIC => 3
  | .RETAIN => 769
  | .COPY => 771

def AssociationPolicy.owns : AssociationPolicy → Bool
  | .ASSIGN => false
  | _ => true

structure Acquired where
  value : ObjPtr
  call : Nat
  deriving DecidableEq

inductive AssocMessage where
  | retain (value : ObjPtr)
  | copy (value copied : ObjPtr)
  | release (acquired : Acquired)
  | autorelease (value : ObjPtr)
  deriving DecidableEq

def AssocMessage.netRetain (v : ObjPtr) : AssocMessage → Int
  | .retain value => if value = v then 1 else 0
  | .copy _ copied => if copied = v then 1 else 0
  | .release acquired => if acquired.value = v then -1 else 0
  | .autorelease value => if value = v then -1 else 0

/-- The messages of `acquireValue`. -/
def SetCall.acquireMessages (c : SetCall) : List AssocMessage :=
  if c.value = 0 then []
  else if c.policy % 256 = 1 then [.retain c.value]
  else if c.policy % 256 = 3 then [.copy c.value c.copied]
  else []

/-- The message of `releaseValue`. -/
def releaseMessages (a : ObjcAssociation Acquired) : List AssocMessage :=
  if a.retained then [.release a.value] else []

/-- `_object_get_associative_reference`: the value, and the messages to it. -/
def get_associative_reference (associations : AssociationsHashMap Acquired) (object : ObjPtr)
    (key : AssocKey) : ObjPtr × List AssocMessage :=
  match associations object with
  | none => (0, [])
  | some refs =>
    match refs.lookup key with
    | none => (0, [])
    | some entry =>
      let value := entry.value.value
      (value,
        -- OBJC_ASSOCIATION_GETTER_RETAIN and OBJC_ASSOCIATION_GETTER_AUTORELEASE
        (if entry.policy / 256 % 2 = 1 then [.retain value] else []) ++
          if value ≠ 0 ∧ entry.policy / 512 % 2 = 1 then [.autorelease value] else [])

/-! ## Runs -/

inductive AssocOp where
  | set (object : ObjPtr) (key : AssocKey) (value : ObjPtr) (policy : AssociationPolicy)
      (copied : ObjPtr)
  | get (object : ObjPtr) (key : AssocKey)
  | remove (object : ObjPtr)
  deriving DecidableEq

/-- The call of `_object_set_associative_reference`. -/
def AssocOp.setCall (object : ObjPtr) (key : AssocKey) (value : ObjPtr)
    (policy : AssociationPolicy) (copied : ObjPtr) : SetCall :=
  ⟨object, key, value, policy.bits, copied⟩

structure AssocRun where
  associations : AssociationsHashMap Acquired
  has_assoc : ObjPtr → Bool
  calls : Nat
  messages : List AssocMessage

namespace AssocRun

/-- `set_associative_reference` with the value numbered. -/
def assigned (r : AssocRun) (c : SetCall) : SetResult Acquired :=
  set_associative_reference r.associations c.object c.key
    (if c.new_value = 0 then none else some ⟨c.new_value, r.calls⟩) c.policy

def setAssociatedObject (r : AssocRun) (c : SetCall) : AssocRun where
  associations := (r.assigned c).associations
  has_assoc :=
    if (r.assigned c).first then update r.has_assoc c.object true else r.has_assoc
  calls := r.calls + 1
  messages := r.messages ++ c.acquireMessages ++ (r.assigned c).old.toList.flatMap releaseMessages

def getAssociatedObject (r : AssocRun) (object : ObjPtr) (key : AssocKey) : AssocRun :=
  { r with
    calls := r.calls + 1
    messages := r.messages ++ (get_associative_reference r.associations object key).2 }

/-- `hasAssociatedObjects` is always true of tagged pointers and of objects with a raw isa. -/
def removeAssociatedObjects (alwaysAssoc : ObjPtr → Bool) (r : AssocRun) (object : ObjPtr) :
    AssocRun :=
  if object ≠ 0 ∧ (alwaysAssoc object ∨ r.has_assoc object) then
    { r with
      associations := (remove_assocations r.associations object).1
      calls := r.calls + 1
      messages := r.messages ++ (remove_assocations r.associations object).2.flatMap releaseMessages }
  else { r with calls := r.calls + 1 }

def perform (alwaysAssoc : ObjPtr → Bool) (r : AssocRun) : AssocOp → AssocRun
  | .set object key value policy copied =>
    r.setAssociatedObject (AssocOp.setCall object key value policy copied)
  | .get object key => r.getAssociatedObject object key
  | .remove object => r.removeAssociatedObjects alwaysAssoc object

def initial : AssocRun := ⟨fun _ => none, fun _ => false, 0, []⟩

def run (alwaysAssoc : ObjPtr → Bool) (ops : List AssocOp) : AssocRun :=
  ops.foldl (perform alwaysAssoc) initial

def lookup (r : AssocRun) (object : ObjPtr) (key : AssocKey) : Option (ObjcAssociation Acquired) :=
  (r.associations object).bind fun refs => refs.lookup key

end AssocRun

def AssocOp.Proper : AssocOp → Prop
  | .set object _ value policy copied =>
    object ≠ 0 ∧ (value ≠ 0 → policy = .COPY ∨ policy = .COPY_NONATOMIC → copied ≠ 0)
  | _ => True

/-- The association that a set stores as the call number `n`; none for nil. -/
def AssocOp.stores (n : Nat) : AssocOp → Option (ObjPtr × AssocKey × ObjcAssociation Acquired)
  | .set object key value policy copied =>
    let value' := (AssocOp.setCall object key value policy copied).new_value
    if value' = 0 then none else some (object, key, ⟨policy.bits, ⟨value', n⟩⟩)
  | _ => none

/-- What the last set for the object and key stored, unless a nil set or a removal followed. The
last call comes first. -/
def lastStored : List AssocOp → ObjPtr → AssocKey → Option (ObjcAssociation Acquired)
  | [], _, _ => none
  | op :: earlier, o, k =>
    match op with
    | .set object key _ _ _ =>
      if o = object ∧ k = key then (op.stores earlier.length).map fun e => e.2.2
      else lastStored earlier o k
    | .get _ _ => lastStored earlier o k
    | .remove object => if o = object then none else lastStored earlier o k

/-! ## What a call does to the maps -/

section Maps

variable {V : Type} {associations : AssociationsHashMap V} {object : ObjPtr} {key : AssocKey}

theorem set_lookup (associations : AssociationsHashMap V) (object : ObjPtr) (key : AssocKey)
    (new_value : Option V) (policy : Nat) (o : ObjPtr) (k : AssocKey) :
    ((set_associative_reference associations object key new_value policy).associations o).bind
        (fun refs => refs.lookup k)
      = if o = object ∧ k = key then new_value.map fun v => ⟨policy, v⟩
        else (associations o).bind fun refs => refs.lookup k := by
  by_cases ho : o = object
  · subst ho
    unfold set_associative_reference
    cases new_value with
    | some v =>
      cases hrefs : associations o with
      | some refs =>
        simp only [update_self, Option.bind_some, true_and]
        by_cases hk : k = key
        · rw [if_pos hk, hk, lookup_insert]
          rfl
        · rw [if_neg hk, lookup_insert_ne hk]
      | none => ?_
      simp only [update_self, Option.bind_some, Option.bind_none, true_and]
      by_cases hk : k = key
      · rw [if_pos hk, hk, ← insert_empty, lookup_insert]
        rfl
      · rw [if_neg hk, ← insert_empty, lookup_insert_ne hk, lookup_empty]
    | none => ?_
    cases hrefs : associations o with
    | some refs =>
      simp only [true_and, Option.map_none]
      by_cases hk : k = key
      · subst hk
        cases hold : refs.lookup k with
        | some old => simp
        | none => simp [hrefs, hold]
      rw [if_neg hk]
      cases hold : refs.lookup key with
      | some old => simp [lookup_erase_ne hk]
      | none => simp [hrefs]
    | none => simp [hrefs]
  · rw [set_associations_other _ _ _ ho, if_neg fun h => ho h.1]

theorem set_old (new_value : Option V) (policy : Nat) :
    (set_associative_reference associations object key new_value policy).old
      = (associations object).bind fun refs => refs.lookup key := by
  unfold set_associative_reference
  cases new_value with
  | some v => cases associations object with
    | some refs | none => rfl
  | none => cases associations object with
    | some refs =>
      simp only [Option.bind_some]
      cases hold : refs.lookup key with
      | some old | none => rfl
    | none => rfl

theorem remove_lookup (o : ObjPtr) (k : AssocKey) :
    ((remove_assocations associations object).1 o).bind (fun refs => refs.lookup k)
      = if o = object then none else (associations o).bind fun refs => refs.lookup k := by
  by_cases ho : o = object
  · rw [if_pos ho, ho, remove_assocations_self]
    rfl
  · rw [if_neg ho, remove_assocations_other ho]

theorem mem_remove_elements {a : ObjcAssociation V} :
    a ∈ (remove_assocations associations object).2
      ↔ ∃ k, ((associations object).bind fun refs => refs.lookup k) = some a := by
  unfold remove_assocations
  cases associations object with
  | none => simp
  | some refs => ?_
  simp only [ObjectAssociationMap.elements, mem_map, mem_mergeSort, Option.bind_some]
  constructor
  · rintro ⟨⟨k, b⟩, hmem, rfl⟩
    exact ⟨k, mem_lookup_iff.mpr hmem⟩
  · rintro ⟨k, hk⟩
    exact ⟨⟨k, a⟩, mem_lookup_iff.mp hk, rfl⟩

theorem nodup_remove_elements {W : Type} (f : ObjcAssociation V → W)
    (hinj : ∀ k k' a a', ((associations object).bind fun refs => refs.lookup k) = some a →
      ((associations object).bind fun refs => refs.lookup k') = some a' → f a = f a' → k = k') :
    ((remove_assocations associations object).2.map f).Nodup := by
  unfold remove_assocations
  cases hrefs : associations object with
  | none => exact nodup_nil
  | some refs => ?_
  rw [hrefs] at hinj
  simp only [ObjectAssociationMap.elements, map_map]
  refine Nodup.map_on ?_ ?_
  · rintro ⟨k, a⟩ hx ⟨k', a'⟩ hx' hf
    have hl : refs.lookup k = some a := mem_lookup_iff.mpr (mem_mergeSort.mp hx)
    have hl' : refs.lookup k' = some a' := mem_lookup_iff.mpr (mem_mergeSort.mp hx')
    have hk : k = k' := hinj k k' a a' hl hl' hf
    subst hk
    obtain rfl : a = a' := Option.some.inj (hl.symm.trans hl')
    rfl
  · exact (mergeSort_perm _ _).nodup_iff.mpr refs.nodupKeys.nodup

end Maps

/-! ## What is stored, and what was released -/

def Issued (ops : List AssocOp) (o : ObjPtr) (k : AssocKey) (a : ObjcAssociation Acquired) : Prop :=
  ∃ op, ops[a.value.call]? = some op ∧ op.stores a.value.call = some (o, k, a)

variable {o : ObjPtr} {k : AssocKey} {a : ObjcAssociation Acquired} {ops : List AssocOp}

theorem Issued.append (h : Issued ops o k a) (op : AssocOp) : Issued (ops ++ [op]) o k a := by
  obtain ⟨op', hop, hstores⟩ := h
  refine ⟨op', ?_, hstores⟩
  rw [List.getElem?_append_left (List.getElem?_eq_some_iff.mp hop).1]
  exact hop

theorem Issued.call_lt (h : Issued ops o k a) : a.value.call < ops.length := by
  obtain ⟨_, hop, _⟩ := h
  exact (List.getElem?_eq_some_iff.mp hop).1

theorem Issued.unique {o' : ObjPtr} {k' : AssocKey}
    {a' : ObjcAssociation Acquired} (h : Issued ops o k a) (h' : Issued ops o' k' a')
    (heq : a.value.call = a'.value.call) : o = o' ∧ k = k' ∧ a = a' := by
  obtain ⟨op, hop, hs⟩ := h
  obtain ⟨op', hop', hs'⟩ := h'
  rw [← heq] at hop' hs'
  obtain rfl : op = op' := Option.some.inj (hop.symm.trans hop')
  have := Option.some.inj (hs.symm.trans hs')
  simpa only [Prod.mk.injEq] using this

variable {op : AssocOp}

theorem issued_append_iff :
    Issued (ops ++ [op]) o k a ↔ Issued ops o k a ∨
      (a.value.call = ops.length ∧ op.stores ops.length = some (o, k, a)) := by
  constructor
  · rintro ⟨op', hop, hs⟩
    rcases Nat.lt_trichotomy a.value.call ops.length with hlt | heq | hgt
    · rw [getElem?_append_left hlt] at hop
      exact .inl ⟨op', hop, hs⟩
    · rw [heq] at hop hs
      rw [getElem?_concat_length] at hop
      exact .inr ⟨heq, (Option.some.inj hop) ▸ hs⟩
    have := (List.getElem?_eq_some_iff.mp hop).1
    rw [length_append, length_singleton] at this
    omega
  rintro (h | ⟨heq, hs⟩)
  · exact h.append op
  · refine ⟨op, ?_, heq.symm ▸ hs⟩
    rw [heq, getElem?_concat_length]

namespace AssocRun

def Stored (r : AssocRun) (a : ObjcAssociation Acquired) : Prop :=
  ∃ o k, r.lookup o k = some a

/-- The state after the calls `ops`. -/
structure Inv (r : AssocRun) (ops : List AssocOp) : Prop where
  calls : r.calls = ops.length
  flagged : ∀ o, r.associations o ≠ none → o ≠ 0 ∧ r.has_assoc o = true
  stored : ∀ o k, r.lookup o k = lastStored ops.reverse o k
  issued : ∀ o k a, r.lookup o k = some a → Issued ops o k a
  /-- What is stored was not released, and what is not stored any more was released once. -/
  once : ∀ o k a, Issued ops o k a →
    (a.retained = true → r.Stored a → r.messages.count (.release a.value) = 0) ∧
      (a.retained = true → ¬ r.Stored a → r.messages.count (.release a.value) = 1)
  owned : ∀ v, .release v ∈ r.messages → ∃ o k a, Issued ops o k a ∧ a.retained = true ∧ a.value = v

theorem count_release_eq {l : List (ObjcAssociation Acquired)} (hnodup : (l.map (·.value)).Nodup)
    (v : Acquired) :
    (l.flatMap releaseMessages).count (.release v)
      = if ∃ a ∈ l, a.retained = true ∧ a.value = v then 1 else 0 := by
  have hmessages : l.flatMap releaseMessages
      = (l.filter (·.retained)).map fun a => AssocMessage.release a.value := by
    clear hnodup
    induction l with
    | nil => rfl
    | cons a l ih => ?_
    rw [flatMap_cons, ih, releaseMessages]
    by_cases ha : a.retained = true
    · rw [if_pos ha, filter_cons_of_pos ha]
      rfl
    · rw [if_neg ha, filter_cons_of_neg ha]
      rfl
  have hnodup' : (l.flatMap releaseMessages).Nodup := by
    rw [hmessages]
    have h1 : ((l.filter (·.retained)).map (·.value)).Nodup :=
      hnodup.sublist (filter_sublist.map _)
    have h2 := h1.map (f := AssocMessage.release) fun _ _ h => AssocMessage.release.inj h
    rwa [map_map] at h2
  have hmem : AssocMessage.release v ∈ l.flatMap releaseMessages
      ↔ ∃ a ∈ l, a.retained = true ∧ a.value = v := by
    rw [hmessages, mem_map]
    constructor
    · rintro ⟨a, ha, heq⟩
      exact ⟨a, (mem_filter.mp ha).1, (mem_filter.mp ha).2, AssocMessage.release.inj heq⟩
    · rintro ⟨a, ha, hr, rfl⟩
      exact ⟨a, mem_filter.mpr ⟨ha, hr⟩, rfl⟩
  split
  next h => exact count_eq_one_of_mem hnodup' (hmem.mpr h)
  next h => exact count_eq_zero.mpr fun hin => h (hmem.mp hin)

/-- **A step releases just what it breaks.** `broken` are the associations that are no longer
stored; every other one stays, and a new one is the one of this call. -/
theorem Inv.advance {r r' : AssocRun} (h : r.Inv ops)
    (other : List AssocMessage) (broken : List (ObjcAssociation Acquired))
    (hcalls : r'.calls = r.calls + 1)
    (hflagged : ∀ o, r'.associations o ≠ none → o ≠ 0 ∧ r'.has_assoc o = true)
    (hstored : ∀ o k, r'.lookup o k = lastStored (op :: ops.reverse) o k)
    (hmessages : r'.messages = r.messages ++ other ++ broken.flatMap releaseMessages)
    (hother : ∀ v, AssocMessage.release v ∉ other) (hnodup : (broken.map (·.value)).Nodup)
    (hbroken : ∀ a ∈ broken, r.Stored a) (hnot : ∀ a ∈ broken, ¬ r'.Stored a)
    (hkept : ∀ o k a, r.lookup o k = some a → a ∉ broken → r'.lookup o k = some a)
    (hnew : ∀ o k a, r'.lookup o k = some a →
      r.lookup o k = some a ∨ op.stores ops.length = some (o, k, a) ∧ a.value.call = ops.length)
    (hnewStored : ∀ o k a, op.stores ops.length = some (o, k, a) → r'.Stored a) :
    r'.Inv (ops ++ [op]) := by
  have hissued : ∀ a ∈ broken, ∃ o k, Issued ops o k a := by
    intro a ha
    obtain ⟨o, k, hl⟩ := hbroken a ha
    exact ⟨o, k, h.issued o k a hl⟩
  have hcount : ∀ v, r'.messages.count (.release v) = r.messages.count (.release v)
      + if ∃ a ∈ broken, a.retained = true ∧ a.value = v then 1 else 0 := by
    intro v
    rw [hmessages, count_append, count_append, count_release_eq hnodup,
      count_eq_zero.mpr (hother v), Nat.add_zero]
  refine ⟨by rw [hcalls, h.calls, length_append]; rfl, hflagged, ?_, ?_, ?_, ?_⟩
  · intro o k
    rw [hstored, reverse_append]
    rfl
  · intro o k a hl
    rcases hnew o k a hl with hold | ⟨hs, heq⟩
    · exact (h.issued o k a hold).append op
    · exact issued_append_iff.mpr (.inr ⟨heq, hs⟩)
  · intro o k a hi
    rcases issued_append_iff.mp hi with hold | ⟨heq, hs⟩
    · -- an earlier call: it is among the broken ones exactly when it is no longer stored
      have hmem : (∃ b ∈ broken, b.retained = true ∧ b.value = a.value) ↔
          a ∈ broken ∧ a.retained = true := by
        constructor
        · rintro ⟨b, hb, hr, heq⟩
          obtain ⟨o', k', hi'⟩ := hissued b hb
          obtain ⟨_, _, rfl⟩ := hi'.unique hold (by rw [heq])
          exact ⟨hb, hr⟩
        · rintro ⟨ha, hr⟩
          exact ⟨a, ha, hr, rfl⟩
      obtain ⟨hzero, hone⟩ := h.once o k a hold
      rw [hcount, if_congr hmem rfl rfl]
      constructor
      · rintro hr ⟨o', k', hl⟩
        have hb : a ∉ broken := fun hin => hnot a hin ⟨o', k', hl⟩
        rw [if_neg fun hin => hb hin.1, Nat.add_zero]
        refine hzero hr ?_
        rcases hnew o' k' a hl with hl' | ⟨_, heq⟩
        · exact ⟨o', k', hl'⟩
        · have := hold.call_lt
          omega
      intro hr hns
      by_cases hb : a ∈ broken
      · rw [if_pos ⟨hb, hr⟩, hzero hr (hbroken a hb)]
      rw [if_neg fun hin => hb hin.1, Nat.add_zero]
      refine hone hr ?_
      rintro ⟨o', k', hl⟩
      exact hns ⟨o', k', hkept o' k' a hl hb⟩
    -- this call: it is stored, and nothing with its number was released
    have hfresh : ∀ b o' k', Issued ops o' k' b → b.value ≠ a.value := by
      intro b o' k' hib hval
      have := hib.call_lt
      rw [hval, heq] at this
      omega
    have hzero : r'.messages.count (.release a.value) = 0 := by
      rw [hcount, if_neg, Nat.add_zero, count_eq_zero]
      · intro hin
        obtain ⟨o', k', b, hib, _, hval⟩ := h.owned a.value hin
        exact hfresh b o' k' hib hval
      rintro ⟨b, hb, _, hval⟩
      obtain ⟨o', k', hib⟩ := hissued b hb
      exact hfresh b o' k' hib hval
    exact ⟨fun _ _ => hzero, fun _ hns => absurd (hnewStored o k a hs) hns⟩
  · intro v hv
    rw [hmessages] at hv
    rcases mem_append.mp hv with hv | hv
    · rcases mem_append.mp hv with hv | hv
      · obtain ⟨o, k, a, hi, hr, hval⟩ := h.owned v hv
        exact ⟨o, k, a, hi.append op, hr, hval⟩
      · exact absurd hv (hother v)
    have hpos := count_pos_iff.mpr hv
    rw [count_release_eq hnodup] at hpos
    split at hpos
    next hex =>
      obtain ⟨a, ha, hr, hval⟩ := hex
      obtain ⟨o, k, hi⟩ := hissued a ha
      exact ⟨o, k, a, hi.append op, hr, hval⟩
    next => exact absurd hpos (Nat.lt_irrefl 0)

/-! ## The calls -/

variable {r : AssocRun} {ops : List AssocOp}

theorem lookup_setAssociatedObject (c : SetCall) (o : ObjPtr) (k : AssocKey) :
    (r.setAssociatedObject c).lookup o k = if o = c.object ∧ k = c.key then
          if c.new_value = 0 then none else some ⟨c.policy, ⟨c.new_value, r.calls⟩⟩
        else r.lookup o k := by
  have h := set_lookup r.associations c.object c.key
    (if c.new_value = 0 then none else some ⟨c.new_value, r.calls⟩) c.policy o k
  unfold lookup setAssociatedObject assigned
  rw [h]
  refine if_congr .rfl ?_ rfl
  split <;> rfl

theorem release_not_mem_acquireMessages (c : SetCall) (v : Acquired) :
    AssocMessage.release v ∉ c.acquireMessages := by
  unfold SetCall.acquireMessages
  split
  · simp
  split
  · simp
  split <;> simp

theorem Inv.set (h : r.Inv ops) {object : ObjPtr} {key : AssocKey} {value : ObjPtr}
    {policy : AssociationPolicy} {copied : ObjPtr} (hobject : object ≠ 0) :
    (r.setAssociatedObject (AssocOp.setCall object key value policy copied)).Inv
      (ops ++ [.set object key value policy copied]) := by
  generalize hc : AssocOp.setCall object key value policy copied = c
  have hobj : c.object = object := by rw [← hc]; rfl
  have hkey : c.key = key := by rw [← hc]; rfl
  have hpol : c.policy = policy.bits := by rw [← hc]; rfl
  have hold : (r.assigned c).old = r.lookup object key := by
    rw [assigned, set_old, hobj, hkey]
    rfl
  have hstores : ∀ n, (AssocOp.set object key value policy copied).stores n
      = if c.new_value = 0 then none else some (object, key, ⟨c.policy, ⟨c.new_value, n⟩⟩) := by
    intro n
    rw [AssocOp.stores, hc, hpol]
  have hself : ∀ o k a, r.lookup o k = some a → o = object ∧ k = key →
      (r.setAssociatedObject c).lookup o k ≠ some a := by
    rintro o k a hl ⟨rfl, rfl⟩ hl'
    rw [lookup_setAssociatedObject, if_pos ⟨hobj.symm, hkey.symm⟩] at hl'
    split at hl'
    next => cases hl'
    have hlt := (h.issued o k a hl).call_lt
    rw [← Option.some.inj hl', ← h.calls] at hlt
    exact absurd hlt (Nat.lt_irrefl _)
  refine h.advance c.acquireMessages (r.lookup object key).toList
    rfl ?_ ?_ ?_ (release_not_mem_acquireMessages c) ?_ ?_ ?_ ?_ ?_ ?_
  · intro o hne
    have hne' : (r.assigned c).associations o ≠ none := hne
    show o ≠ 0 ∧ (if (r.assigned c).first then update r.has_assoc c.object true
      else r.has_assoc) o = true
    by_cases ho : o = object
    · subst ho
      refine ⟨hobject, ?_⟩
      split
      next =>
        rw [hobj]
        exact update_self ..
      rename_i hfirst
      -- not the first association: there was a table, so the flag was set
      refine (h.flagged o ?_).2
      intro hnone
      rw [assigned, set_first_iff, hobj] at hfirst
      rw [assigned, hobj, Ne, set_associations_self] at hne'
      by_cases hz : c.new_value = 0
      · exact hne' ⟨hnone, by rw [if_pos hz]⟩
      · exact hfirst ⟨hnone, by rw [if_neg hz]; simp⟩
    have hsame : r.associations o ≠ none := by
      rw [assigned, hobj, set_associations_other _ _ _ ho] at hne'
      exact hne'
    obtain ⟨hzero, hflag⟩ := h.flagged o hsame
    refine ⟨hzero, ?_⟩
    split
    next =>
      rw [hobj, update_of_ne ho]
      exact hflag
    next => exact hflag
  · intro o k
    rw [lookup_setAssociatedObject, lastStored, hobj, hkey]
    refine if_congr .rfl ?_ (h.stored o k)
    rw [hstores, length_reverse, h.calls]
    split <;> rfl
  · show r.messages ++ c.acquireMessages ++ (r.assigned c).old.toList.flatMap releaseMessages = _
    rw [hold]
  · cases r.lookup object key with
    | none => exact nodup_nil
    | some a => exact nodup_singleton _
  · intro a ha
    exact ⟨object, key, Option.mem_toList.mp ha⟩
  · rintro a ha ⟨o, k, hl⟩
    have hl0 : r.lookup object key = some a := Option.mem_toList.mp ha
    by_cases hok : o = object ∧ k = key
    · obtain ⟨rfl, rfl⟩ := hok
      exact hself o k a hl0 ⟨rfl, rfl⟩ hl
    have hl' := hl
    rw [lookup_setAssociatedObject, hobj, hkey, if_neg hok] at hl'
    obtain ⟨h1, h2, _⟩ := (h.issued o k a hl').unique (h.issued object key a hl0) rfl
    exact hok ⟨h1, h2⟩
  · intro o k a hl hnot
    rw [lookup_setAssociatedObject, hobj, hkey, if_neg]
    · exact hl
    · rintro ⟨rfl, rfl⟩
      exact hnot (Option.mem_toList.mpr hl)
  · intro o k a hl
    rw [lookup_setAssociatedObject, hobj, hkey] at hl
    split at hl
    next hok =>
      obtain ⟨rfl, rfl⟩ := hok
      split at hl
      next => cases hl
      next hz =>
        right
        rw [hstores, if_neg hz, ← h.calls, Option.some.inj hl]
        exact ⟨rfl, by rw [← Option.some.inj hl]⟩
    next => exact .inl hl
  intro o k a hs
  rw [hstores] at hs
  split at hs
  next => cases hs
  rename_i hz
  refine ⟨object, key, ?_⟩
  rw [lookup_setAssociatedObject, if_pos ⟨hobj.symm, hkey.symm⟩, if_neg hz, h.calls]
  have := Option.some.inj hs
  simp only [Prod.mk.injEq] at this
  rw [this.2.2]

theorem Inv.unchanged (h : r.Inv ops) (op : AssocOp) (other : List AssocMessage)
    (hother : ∀ v, AssocMessage.release v ∉ other)
    (hstored : ∀ o k, lastStored (op :: ops.reverse) o k = r.lookup o k)
    (hstores : ∀ n, op.stores n = none) :
    ({ r with calls := r.calls + 1, messages := r.messages ++ other } : AssocRun).Inv
      (ops ++ [op]) := by
  refine h.advance other [] rfl h.flagged
    (fun o k => (hstored o k).symm) ?_ hother nodup_nil ?_ ?_ ?_ ?_ ?_
  · simp
  · intro a ha
    cases ha
  · intro a ha
    cases ha
  · exact fun o k a hl _ => hl
  · exact fun o k a hl => .inl hl
  intro o k a hs
  rw [hstores] at hs
  cases hs

theorem Inv.get (h : r.Inv ops) (object : ObjPtr) (key : AssocKey) :
    (r.getAssociatedObject object key).Inv (ops ++ [.get object key]) := by
  refine h.unchanged _ _ (fun v hv => ?_) (fun o k => (h.stored o k).symm) fun n => rfl
  unfold get_associative_reference at hv
  split at hv
  · cases hv
  split at hv
  · cases hv
  simp only [mem_append] at hv
  rcases hv with hv | hv
  · split at hv
    · simp at hv
    · cases hv
  split at hv
  · simp at hv
  · cases hv

theorem Inv.remove (h : r.Inv ops) (alwaysAssoc : ObjPtr → Bool) (object : ObjPtr) :
    (r.removeAssociatedObjects alwaysAssoc object).Inv (ops ++ [.remove object]) := by
  have hlookup : ∀ o k, lastStored (.remove object :: ops.reverse) o k
      = if o = object then none else r.lookup o k := by
    intro o k
    rw [lastStored, h.stored]
  unfold removeAssociatedObjects
  split
  next hok =>
    have hlookup' : ∀ (o : ObjPtr) (k : AssocKey),
        (((remove_assocations r.associations object).1 o).bind fun refs => refs.lookup k)
          = if o = object then none else r.lookup o k := fun o k => remove_lookup o k
    refine h.advance [] (remove_assocations r.associations object).2
      rfl ?_ ?_ ?_ ?_ ?_ ?_ ?_ ?_ ?_ ?_
    · intro o hne
      refine h.flagged o ?_
      intro hnone
      refine hne ?_
      by_cases ho : o = object
      · rw [ho]
        exact remove_assocations_self
      · exact (remove_assocations_other ho).trans hnone
    · intro o k
      rw [hlookup]
      exact hlookup' o k
    · simp
    · intro v hv
      cases hv
    · refine nodup_remove_elements _ fun k k' a a' hl hl' hval => ?_
      exact ((h.issued object k a hl).unique (h.issued object k' a' hl') (by rw [hval])).2.1
    · intro a ha
      obtain ⟨k, hk⟩ := mem_remove_elements.mp ha
      exact ⟨object, k, hk⟩
    · rintro a ha ⟨o, k, hl⟩
      obtain ⟨k', hk'⟩ := mem_remove_elements.mp ha
      have hl' := (hlookup' o k).symm.trans hl
      split at hl'
      next => cases hl'
      next ho => exact ho ((h.issued o k a hl').unique (h.issued object k' a hk') rfl).1
    · intro o k a hl hnot
      refine (hlookup' o k).trans ?_
      rw [if_neg]
      · exact hl
      · rintro rfl
        exact hnot (mem_remove_elements.mpr ⟨k, hl⟩)
    · intro o k a hl
      have hl' := (hlookup' o k).symm.trans hl
      split at hl'
      next => cases hl'
      next => exact .inl hl'
    · intro o k a hs
      cases hs
  rename_i hno
  -- the object is not marked, so it has no associations
  have hnone : r.associations object = none := by
    by_contra hsome
    obtain ⟨hzero, hflag⟩ := h.flagged object hsome
    exact hno ⟨hzero, .inr hflag⟩
  have hinv := h.unchanged (.remove object) [] nofun (fun o k => by
      rw [hlookup]
      split
      next ho => rw [ho, lookup, hnone]; rfl
      next => rfl) fun n => rfl
  simpa using hinv

theorem Inv.initial : initial.Inv [] where
  calls := rfl
  flagged := fun o hne => absurd rfl hne
  stored := fun _ _ => rfl
  issued := by
    intro o k a hl
    cases hl
  once := by
    rintro o k a ⟨op, hop, _⟩
    cases hop
  owned := by
    intro v hv
    cases hv

theorem Inv.perform (h : r.Inv ops) (alwaysAssoc : ObjPtr → Bool) (hop : op.Proper) :
    (r.perform alwaysAssoc op).Inv (ops ++ [op]) := by
  cases op with
  | set object key value policy copied => exact h.set hop.1
  | get object key => exact h.get object key
  | remove object => exact h.remove alwaysAssoc object

theorem Inv.run (alwaysAssoc : ObjPtr → Bool) (ops : List AssocOp) :
    (∀ op ∈ ops, op.Proper) → (run alwaysAssoc ops).Inv ops := by
  induction ops using reverseRecOn with
  | nil => exact fun _ => Inv.initial
  | append_singleton ops op ih => ?_
  intro hops
  have hrun : AssocRun.run alwaysAssoc (ops ++ [op])
      = (AssocRun.run alwaysAssoc ops).perform alwaysAssoc op := by
    rw [AssocRun.run, foldl_append]
    rfl
  rw [hrun]
  exact (ih fun o ho => hops o (mem_append_left _ ho)).perform alwaysAssoc
    (hops op (mem_append_right _ (mem_singleton_self _)))

end AssocRun

/-! ## Ownership -/

def AssocOp.Touches (o : ObjPtr) (k : AssocKey) : AssocOp → Prop
  | .set object key _ _ _ => o = object ∧ k = key
  | .get _ _ => False
  | .remove object => o = object

def heldValue (a : Option (ObjcAssociation Acquired)) : ObjPtr := (a.map fun a => a.value.value).getD 0

theorem AssociationPolicy.retained_bits (policy : AssociationPolicy) (v : Acquired) :
    (⟨policy.bits, v⟩ : ObjcAssociation Acquired).retained = policy.owns := by
  show decide (policy.bits % 2 = 1) = policy.owns
  cases policy <;> decide

theorem Issued.policy (h : Issued ops o k a) :
    ∃ policy : AssociationPolicy, a.policy = policy.bits := by
  obtain ⟨op, _, hs⟩ := h
  cases op with
  | set object key value policy copied =>
    unfold AssocOp.stores at hs
    simp only at hs
    split at hs
    · cases hs
    have := Option.some.inj hs
    simp only [Prod.mk.injEq] at this
    exact ⟨policy, by rw [← this.2.2]⟩
  | get object key | remove object => cases hs

theorem get_value (associations : AssociationsHashMap Acquired) (o : ObjPtr) (k : AssocKey) :
    (get_associative_reference associations o k).1
      = heldValue ((associations o).bind fun refs => refs.lookup k) := by
  unfold get_associative_reference
  cases associations o with
  | none => rfl
  | some refs => ?_
  simp only [Option.bind_some]
  cases refs.lookup k with
  | none | some entry => rfl

variable {r : AssocRun}

theorem AssocRun.Inv.get_net (h : r.Inv ops) (o : ObjPtr) (k : AssocKey) (v : ObjPtr) (hv : v ≠ 0) :
    ((get_associative_reference r.associations o k).2.map (AssocMessage.netRetain v)).sum = 0 := by
  have hpolicy : ∀ a, r.lookup o k = some a → ∃ policy : AssociationPolicy, a.policy = policy.bits :=
    fun a hl => (h.issued o k a hl).policy
  unfold lookup at hpolicy
  unfold get_associative_reference
  cases hrefs : r.associations o with
  | none => rfl
  | some refs => ?_
  rw [hrefs] at hpolicy
  simp only
  cases hl : refs.lookup k with
  | none => rfl
  | some entry => ?_
  obtain ⟨policy, hbits⟩ := hpolicy entry hl
  simp only [hbits]
  by_cases hval : entry.value.value = v
  · cases policy <;> simp [AssociationPolicy.bits, AssocMessage.netRetain, hval, hv]
  · cases policy <;> simp [AssociationPolicy.bits] <;>
      split <;> simp [AssocMessage.netRetain, hval]

theorem AssocRun.Inv.untouched (h : r.Inv ops)
    (alwaysAssoc : ObjPtr → Bool) (hop : op.Proper) (hnot : ¬ op.Touches o k) :
    (r.perform alwaysAssoc op).lookup o k = r.lookup o k := by
  rw [(h.perform alwaysAssoc hop).stored, reverse_append, h.stored]
  show lastStored (op :: ops.reverse) o k = _
  cases op with
  | set object key value policy copied | remove object => exact if_neg hnot
  | get object key => rfl

theorem AssocRun.Inv.count_release (h : r.Inv ops) {n : Nat}
    {object : ObjPtr} {key : AssocKey} {value : ObjPtr} {policy : AssociationPolicy}
    {copied v : ObjPtr} (hn : ops[n]? = some (.set object key value policy copied))
    (hv : (AssocOp.setCall object key value policy copied).new_value = v) (hne : v ≠ 0) :
    r.messages.count (.release ⟨v, n⟩)
      = if policy.owns = true ∧ r.lookup object key ≠ some ⟨policy.bits, ⟨v, n⟩⟩ then 1 else 0 := by
  have hissued : Issued ops object key ⟨policy.bits, ⟨v, n⟩⟩ := by
    refine ⟨_, hn, ?_⟩
    rw [AssocOp.stores]
    simp only [hv]
    rw [if_neg hne]
  obtain ⟨hzero, hone⟩ := h.once object key _ hissued
  rw [AssociationPolicy.retained_bits] at hzero hone
  have hstored : r.Stored ⟨policy.bits, ⟨v, n⟩⟩
      ↔ r.lookup object key = some ⟨policy.bits, ⟨v, n⟩⟩ := by
    constructor
    · rintro ⟨o, k, hl⟩
      obtain ⟨rfl, rfl, _⟩ := (h.issued o k _ hl).unique hissued rfl
      exact hl
    · exact fun hl => ⟨object, key, hl⟩
  rw [hstored] at hzero hone
  by_cases howns : policy.owns = true
  · by_cases hl : r.lookup object key = some ⟨policy.bits, ⟨v, n⟩⟩
    · rw [if_neg fun hc => hc.2 hl, hzero howns hl]
    · rw [if_pos ⟨howns, hl⟩, hone howns hl]
  rw [if_neg fun hc => howns hc.1, count_eq_zero]
  intro hin
  obtain ⟨o, k, a, hi, hr, hval⟩ := h.owned _ hin
  obtain ⟨_, _, rfl⟩ := hi.unique hissued (by rw [hval])
  rw [AssociationPolicy.retained_bits] at hr
  exact howns hr

/-- **Associated values are found, and owned.**  After every sequence of calls: a get returns what
the last set stored; the next call changes no pair that it does not name; the value of a set with a
retaining or copying policy has been released once if it is no longer associated and not at all
while it is, that of an assigning set not at all; nothing else was released; and a get leaves every
retain count as it was. -/
theorem associated_values_are_owned (alwaysAssoc : ObjPtr → Bool) (ops : List AssocOp)
    (hops : ∀ op ∈ ops, op.Proper) :
    (∀ o k, (get_associative_reference (AssocRun.run alwaysAssoc ops).associations o k).1
      = heldValue (lastStored ops.reverse o k)) ∧
    (∀ op : AssocOp, op.Proper → ∀ o k, ¬ op.Touches o k →
      (AssocRun.run alwaysAssoc (ops ++ [op])).lookup o k
        = (AssocRun.run alwaysAssoc ops).lookup o k) ∧
    (∀ n object key value policy copied v,
      ops[n]? = some (.set object key value policy copied) →
      (AssocOp.setCall object key value policy copied).new_value = v → v ≠ 0 →
      (AssocRun.run alwaysAssoc ops).messages.count (.release ⟨v, n⟩)
        = if policy.owns = true ∧
            (AssocRun.run alwaysAssoc ops).lookup object key ≠ some ⟨policy.bits, ⟨v, n⟩⟩
          then 1 else 0) ∧
    (∀ v, .release v ∈ (AssocRun.run alwaysAssoc ops).messages →
      ∃ object key value policy copied,
        ops[v.call]? = some (.set object key value policy copied) ∧
        (AssocOp.setCall object key value policy copied).new_value = v.value ∧ v.value ≠ 0 ∧
        policy.owns = true) ∧
    ∀ o k v, v ≠ 0 →
      ((get_associative_reference (AssocRun.run alwaysAssoc ops).associations o k).2.map
        (AssocMessage.netRetain v)).sum = 0 := by
  have h := AssocRun.Inv.run alwaysAssoc ops hops
  refine ⟨fun o k => ?_, fun op hop o k hnot => ?_, ?_, fun v hv => ?_, h.get_net⟩
  · rw [get_value, ← h.stored]
    rfl
  · have hrun : AssocRun.run alwaysAssoc (ops ++ [op])
        = (AssocRun.run alwaysAssoc ops).perform alwaysAssoc op := by
      rw [AssocRun.run, foldl_append]
      rfl
    rw [hrun]
    exact h.untouched alwaysAssoc hop hnot
  · intro n object key value policy copied v hn hv hne
    exact h.count_release hn hv hne
  obtain ⟨o, k, a, ⟨op, hop, hs⟩, hr, rfl⟩ := h.owned v hv
  cases op with
  | set object key value policy copied =>
    unfold AssocOp.stores at hs
    simp only at hs
    split at hs
    · cases hs
    next hne =>
    have heq := Option.some.inj hs
    simp only [Prod.mk.injEq] at heq
    have hvalue : (AssocOp.setCall object key value policy copied).new_value = a.value.value := by
      rw [← heq.2.2]
    rw [← heq.2.2, AssociationPolicy.retained_bits] at hr
    exact ⟨object, key, value, policy, copied, hop, hvalue, hvalue ▸ hne, hr⟩
  | get object key | remove object => cases hs

theorem replaced_value_is_released :
    (AssocRun.run (fun _ => false) [.set 10 1 20 .RETAIN 0, .set 10 1 30 .COPY 40]).messages.count
      (.release ⟨20, 0⟩) = 1 := by
  have h := (associated_values_are_owned (fun _ => false)
    [.set 10 1 20 .RETAIN 0, .set 10 1 30 .COPY 40] (by simp [AssocOp.Proper])).2.2.1
      0 10 1 20 .RETAIN 0 20 rfl rfl (by decide)
  rw [h, if_pos]
  exact ⟨rfl, by decide⟩

end ObjcRuntime
