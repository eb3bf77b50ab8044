/-
UNATTACHED CATEGORIES OF AN IMAGE THAT IS UNLOADED.

objc-runtime-new.mm, the category loop of `_read_images` and `_unload_image`.
A category waits in the table of unattached categories under its class, under
the metaclass, or under both. `_unload_image` looks for it under the class
only; the metaclasses of the image's own classes lose their whole list.
-/
import ObjcRuntime.Class.State
import ObjcRuntime.Lib.Transition

namespace ObjcRuntime

open Lib Function List Option

/-! ## Images and the table -/

/-- What the images of a program contain. `I` are the headers and `T` the categories. -/
structure ImageContents {C : Type} (K : ClassImage C) (I T : Type) where
  /-- `_getObjc2CategoryList` -/
  catlist : I → List T
  /-- The classes of `_getObjc2ClassList` and `_getObjc2NonlazyClassList`. -/
  classlist : I → List C
  hasCategoryClassProperties : I → Bool
  category : T → Category
  /-- `remapClass(cat->cls)`; nil for a weak-linked class that is missing. -/
  remapClass : T → Option C
  catlist_nodup : ∀ hi, (catlist hi).Nodup
  /-- A category lies in the data of one image. -/
  catlist_disjoint : ∀ hi hi' cat, cat ∈ catlist hi → cat ∈ catlist hi' → hi = hi'
  remapClass_isMeta : ∀ cat cls, remapClass cat = some cls → K.isMeta cls = false
  classlist_isMeta : ∀ hi, ∀ cls ∈ classlist hi, K.isMeta cls = false

/-- `loaded` is the list of headers. `catlist` is the list in the data of a loaded image, which
`_read_images` writes to. -/
structure CategoryTable (C I T : Type) where
  unattachedCategories : C → List (T × I)
  realized : C → Bool
  catlist : I → List (Option T)
  loaded : I → Bool

variable {C I T : Type} [DecidableEq C] [DecidableEq I] [DecidableEq T] {K : ClassImage C}

namespace CategoryTable

def empty : CategoryTable C I T := ⟨fun _ => [], fun _ => false, fun _ => [], fun _ => false⟩

def addUnattachedCategoryForClass (s : CategoryTable C I T) (cat : T) (cls : C) (hi : I) :
    CategoryTable C I T :=
  { s with unattachedCategories :=
      update s.unattachedCategories cls (s.unattachedCategories cls ++ [(cat, hi)]) }

def removeUnattachedCategoryForClass (s : CategoryTable C I T) (cat : T) (cls : C) :
    CategoryTable C I T :=
  { s with
    unattachedCategories := update s.unattachedCategories cls
      ((s.unattachedCategories cls).eraseP fun entry => decide (entry.1 = cat)) }

/-- `unattachedCategoriesForClass` and `removeAllUnattachedCategoriesForClass`. -/
def removeAllUnattachedCategoriesForClass (s : CategoryTable C I T) (cls : C) :
    CategoryTable C I T :=
  { s with unattachedCategories := update s.unattachedCategories cls [] }

/-- One half of the body of the category loop; `remethodizeClass` takes the list of the class. -/
def discoverFor (s : CategoryTable C I T) (cat : T) (cls : C) (hi : I) : CategoryTable C I T :=
  if s.realized cls then
    (s.addUnattachedCategoryForClass cat cls hi).removeAllUnattachedCategoriesForClass cls
  else s.addUnattachedCategoryForClass cat cls hi

/-- The body of the category loop of `_read_images`. -/
def discover (images : ImageContents K I T) (hi : I) (s : CategoryTable C I T) (cat : T) :
    CategoryTable C I T :=
  match images.remapClass cat with
  | none => { s with catlist := update s.catlist hi (s.catlist hi ++ [none]) }
  | some cls =>
    let s₁ := { s with catlist := update s.catlist hi (s.catlist hi ++ [some cat]) }
    let s₂ :=
      if (images.category cat).instanceMethods.isSome ∨ (images.category cat).protocols ∨
          (images.category cat).instanceProperties then
        s₁.discoverFor cat cls hi
      else s₁
    if (images.category cat).classMethods.isSome ∨ (images.category cat).protocols ∨
        (images.hasCategoryClassProperties hi ∧ (images.category cat).classProperties) then
      s₂.discoverFor cat (K.isa cls) hi
    else s₂

/-- The image is mapped, and `_read_images` discovers its categories. -/
def loadImage (images : ImageContents K I T) (s : CategoryTable C I T) (hi : I) :
    CategoryTable C I T :=
  (images.catlist hi).foldl (discover images hi)
    { s with
      loaded := update s.loaded hi true
      catlist := update s.catlist hi [] }

/-- The class or metaclass is realized; `methodizeClass` reads the categories and attaches them. -/
def realize (s : CategoryTable C I T) (cls : C) : CategoryTable C I T :=
  ({ s with realized := update s.realized cls true }
    ).removeAllUnattachedCategoriesForClass cls

/-- The first loop of `_unload_image`, for one entry of the list. -/
def removeCategory (images : ImageContents K I T) (s : CategoryTable C I T) (entry : Option T) :
    CategoryTable C I T :=
  match entry with
  | none => s
  | some cat =>
    match images.remapClass cat with
    | none => s
    | some cls => s.removeUnattachedCategoryForClass cat cls

/-- `detach_class` and `free_class`, of the metaclass and of the class. -/
def detachClass (K : ClassImage C) (s : CategoryTable C I T) (cls : C) : CategoryTable C I T :=
  { (s.removeAllUnattachedCategoriesForClass (K.isa cls)).removeAllUnattachedCategoriesForClass cls
    with realized := update (update s.realized (K.isa cls) false) cls false }

def unloadImage (images : ImageContents K I T) (s : CategoryTable C I T) (hi : I) :
    CategoryTable C I T :=
  let s₁ := (s.catlist hi).foldl (removeCategory images) s
  { (images.classlist hi).foldl (detachClass K) s₁ with
    loaded := update s.loaded hi false }

end CategoryTable

inductive ImageAction (C I : Type) where
  | load (hi : I)
  | realize (cls : C)
  | unload (hi : I)

def imageSystem (images : ImageContents K I T) :
    System (CategoryTable C I T) (ImageAction C I) where
  init := fun s => s = .empty
  step := fun s a =>
    match a with
    | .load hi => if s.loaded hi then none else some (s.loadImage images hi)
    | .realize cls => some (s.realize cls)
    | .unload hi => if s.loaded hi then some (s.unloadImage images hi) else none

/-! ## The table and its invariant -/

variable {images : ImageContents K I T} {s : CategoryTable C I T}

def OnlyLoaded (s : CategoryTable C I T) : Prop :=
  ∀ k cat hi, (cat, hi) ∈ s.unattachedCategories k → s.loaded hi = true

structure TableOK (images : ImageContents K I T) (s : CategoryTable C I T) : Prop where
  attached : ∀ k, s.realized k = true → s.unattachedCategories k = []
  entries : ∀ k cat hi, (cat, hi) ∈ s.unattachedCategories k →
    cat ∈ images.catlist hi ∧ ∃ cls, images.remapClass cat = some cls ∧ (k = cls ∨ k = K.isa cls)
  nodup : ∀ k, ((s.unattachedCategories k).map Prod.fst).Nodup

def Listed (images : ImageContents K I T) (s : CategoryTable C I T) : Prop :=
  ∀ hi, s.loaded hi = true → ∀ cat ∈ images.catlist hi, images.remapClass cat ≠ none →
    some cat ∈ s.catlist hi

omit [DecidableEq C] in
theorem isa_ne_of_nonMeta {c : C} (hc : K.isMeta c = false) : K.isa c ≠ c := by
  intro h
  have hmeta := K.isa_isMeta c
  rw [h, hc] at hmeta
  cases hmeta

section

omit [DecidableEq I] [DecidableEq T]

theorem unattached_discoverFor (s : CategoryTable C I T) (cat : T) (k : C) (hi : I) :
    (s.discoverFor cat k hi).unattachedCategories = update s.unattachedCategories k
          (if s.realized k then [] else s.unattachedCategories k ++ [(cat, hi)]) := by
  unfold CategoryTable.discoverFor CategoryTable.addUnattachedCategoryForClass
    CategoryTable.removeAllUnattachedCategoriesForClass
  split
  · exact update_idem _ _ _
  · rfl

theorem discoverFor_frame (s : CategoryTable C I T) (cat : T) (k : C) (hi : I) :
    (s.discoverFor cat k hi).realized = s.realized ∧ (s.discoverFor cat k hi).catlist = s.catlist ∧
      (s.discoverFor cat k hi).loaded = s.loaded := by
  unfold CategoryTable.discoverFor CategoryTable.addUnattachedCategoryForClass
    CategoryTable.removeAllUnattachedCategoriesForClass
  split <;> exact ⟨rfl, rfl, rfl⟩

variable {cat : T}

theorem mem_discoverFor {hi : I} {k k' : C} {entry : T × I}
    (hin : entry ∈ (s.discoverFor cat k hi).unattachedCategories k') :
    entry ∈ s.unattachedCategories k' ∨ k' = k ∧ entry = (cat, hi) := by
  rw [unattached_discoverFor, update_apply] at hin
  grind

end

/-! ## Loading -/

variable {hi : I}

omit [DecidableEq I] [DecidableEq T] in
theorem TableOK.discoverFor (h : TableOK images s) {cls k : C}
    (hcat : cat ∈ images.catlist hi) (hcls : images.remapClass cat = some cls)
    (hk : k = cls ∨ k = K.isa cls) (hnew : ∀ hi', (cat, hi') ∉ s.unattachedCategories k) :
    TableOK images (s.discoverFor cat k hi) := by
  have hframe := (discoverFor_frame s cat k hi).1
  refine ⟨fun k' hk' => ?_, fun k' cat' hi' hin => ?_, fun k' => ?_⟩
  · rw [hframe] at hk'
    have hnil := h.attached k' hk'
    rw [unattached_discoverFor, update_apply]
    split
    next heq => rw [← heq, if_pos hk']
    next => exact hnil
  · rcases mem_discoverFor hin with hold | ⟨rfl, heq⟩
    · exact h.entries k' cat' hi' hold
    · cases heq
      exact ⟨hcat, cls, hcls, hk⟩
  have hold := h.nodup k'
  rw [unattached_discoverFor, update_apply]
  split
  next heq =>
    subst heq
    split
    next => exact nodup_nil
    rw [map_append, nodup_append]
    refine ⟨hold, nodup_singleton _, fun a ha b hb => ?_⟩
    obtain ⟨⟨a', hi'⟩, hin, rfl⟩ := mem_map.mp ha
    rw [mem_singleton.mp hb]
    rintro rfl
    exact hnew hi' hin
  next => exact hold

omit [DecidableEq T] in
theorem TableOK.discover (h : TableOK images s) (hcat : cat ∈ images.catlist hi)
    (hnew : ∀ k hi', (cat, hi') ∉ s.unattachedCategories k) :
    TableOK images (s.discover images hi cat) ∧
      (∀ k entry, entry ∈ (s.discover images hi cat).unattachedCategories k →
        entry ∈ s.unattachedCategories k ∨ entry = (cat, hi)) := by
  unfold CategoryTable.discover
  cases hcls : images.remapClass cat with
  | none => exact ⟨{ h with }, fun k entry hin => .inl hin⟩
  | some cls => ?_
  simp only
  generalize hs1 : ({ s with catlist := update s.catlist hi (s.catlist hi ++ [some cat]) }
    : CategoryTable C I T) = s₁
  have h1 : TableOK images s₁ := hs1 ▸ { h with }
  have htab1 : s₁.unattachedCategories = s.unattachedCategories := hs1 ▸ rfl
  generalize hs2 : (if (images.category cat).instanceMethods.isSome = true ∨
      (images.category cat).protocols = true ∨
      (images.category cat).instanceProperties = true then s₁.discoverFor cat cls hi
    else s₁) = s₂
  -- after the first half the category may be under its class, not under the metaclass
  have h2 : TableOK images s₂ ∧ (∀ k entry, entry ∈ s₂.unattachedCategories k →
      entry ∈ s.unattachedCategories k ∨ k = cls ∧ entry = (cat, hi)) := by
    rw [← hs2]
    split
    · refine ⟨h1.discoverFor hcat hcls (.inl rfl) fun hi' => htab1 ▸ hnew cls hi', ?_⟩
      intro k entry hin
      rw [← htab1]
      exact mem_discoverFor hin
    · exact ⟨h1, fun k entry hin => .inl (htab1 ▸ hin)⟩
  have hmeta : ∀ hi', (cat, hi') ∉ s₂.unattachedCategories (K.isa cls) := by
    intro hi' hin
    rcases h2.2 _ _ hin with hold | ⟨heq, _⟩
    · exact hnew _ hi' hold
    · exact isa_ne_of_nonMeta (images.remapClass_isMeta cat cls hcls) heq
  split
  · refine ⟨h2.1.discoverFor hcat hcls (.inr rfl) hmeta, fun k entry hin => ?_⟩
    rcases mem_discoverFor hin with hold | ⟨_, heq⟩
    · exact (h2.2 k entry hold).imp_right fun h => h.2
    · exact .inr heq
  · exact ⟨h2.1, fun k entry hin => (h2.2 k entry hin).imp_right fun h => h.2⟩

omit [DecidableEq T] in
theorem discover_frame (images : ImageContents K I T) (s : CategoryTable C I T) (hi : I) (cat : T) :
    (s.discover images hi cat).realized = s.realized ∧
      (s.discover images hi cat).loaded = s.loaded ∧
      (s.discover images hi cat).catlist = update s.catlist hi
        (s.catlist hi ++ [(images.remapClass cat).map fun _ => cat]) := by
  unfold CategoryTable.discover
  cases images.remapClass cat with
  | none => exact ⟨rfl, rfl, rfl⟩
  | some cls =>
    simp only
    split <;> split <;> simp [discoverFor_frame]

omit [DecidableEq T] in
theorem TableOK.discoverAll (hi : I) (cats : List T) : ∀ {s : CategoryTable C I T},
    TableOK images s → (∀ cat ∈ cats, cat ∈ images.catlist hi) → cats.Nodup →
      (∀ cat ∈ cats, ∀ k hi', (cat, hi') ∉ s.unattachedCategories k) →
      TableOK images (cats.foldl (CategoryTable.discover images hi) s) ∧
        ∀ k entry, entry ∈ (cats.foldl (CategoryTable.discover images hi) s).unattachedCategories k →
          entry ∈ s.unattachedCategories k ∨ entry.2 = hi := by
  induction cats with
  | nil => intro s h _ _ _; exact ⟨h, fun k entry hin => .inl hin⟩
  | cons cat cats ih => ?_
  intro s h hlist hnodup hnew
  obtain ⟨hfresh, hnodup'⟩ := nodup_cons.mp hnodup
  obtain ⟨h1, hadd⟩ := h.discover (hlist cat mem_cons_self) (hnew cat mem_cons_self)
  have hnew1 : ∀ cat' ∈ cats, ∀ k hi',
      (cat', hi') ∉ (s.discover images hi cat).unattachedCategories k := by
    intro cat' hcat' k hi' hin
    rcases hadd k _ hin with hold | heq
    · exact hnew cat' (mem_cons_of_mem cat hcat') k hi' hold
    · cases heq
      exact hfresh hcat'
  obtain ⟨h2, hadd2⟩ :=
    ih h1 (fun c hc => hlist c (mem_cons_of_mem cat hc)) hnodup' hnew1
  refine ⟨h2, fun k entry hin => ?_⟩
  rcases hadd2 k entry hin with hmid | heq
  · exact (hadd k entry hmid).imp_right (congrArg Prod.snd)
  · exact .inr heq

omit [DecidableEq T] in
theorem discoverAll_frame (images : ImageContents K I T) (hi : I) (cats : List T) :
    ∀ s : CategoryTable C I T,
    (cats.foldl (CategoryTable.discover images hi) s).loaded = s.loaded ∧
      (cats.foldl (CategoryTable.discover images hi) s).catlist = update s.catlist hi
        (s.catlist hi ++ cats.map fun cat => (images.remapClass cat).map fun _ => cat) := by
  induction cats with
  | nil => intro s; simp
  | cons cat cats ih => ?_
  intro s
  obtain ⟨hloaded, hcatlist⟩ := ih (s.discover images hi cat)
  obtain ⟨_, hloaded1, hcatlist1⟩ := discover_frame images s hi cat
  rw [foldl_cons, hloaded, hcatlist, hloaded1, hcatlist1]
  simp

/-- The invariant of the runs in which `OnlyLoaded` holds. -/
structure TableInv (images : ImageContents K I T) (s : CategoryTable C I T) : Prop where
  table : TableOK images s
  listed : Listed images s

omit [DecidableEq T] in
theorem TableInv.loadImage (h : TableInv images s) (honly : OnlyLoaded s)
    (hhi : ¬ s.loaded hi = true) :
    TableInv images (s.loadImage images hi) ∧ OnlyLoaded (s.loadImage images hi) := by
  have hnew : ∀ cat ∈ images.catlist hi, ∀ k hi', (cat, hi') ∉ s.unattachedCategories k := by
    intro cat hcat k hi' hin
    have hsame := images.catlist_disjoint hi' hi cat (h.table.entries k cat hi' hin).1 hcat
    exact hhi (hsame ▸ honly k cat hi' hin)
  obtain ⟨hloaded, hcatlist⟩ := discoverAll_frame images hi (images.catlist hi) { s with
      loaded := update s.loaded hi true
      catlist := update s.catlist hi [] }
  have htable0 : TableOK images { s with
      loaded := update s.loaded hi true
      catlist := update s.catlist hi [] } :=
    ⟨h.table.attached, h.table.entries, h.table.nodup⟩
  obtain ⟨htable, hadd⟩ := htable0.discoverAll hi (images.catlist hi) (fun _ => id)
    (images.catlist_nodup hi) hnew
  refine ⟨⟨htable, fun hi' hhi' cat hcat hcls => ?_⟩, fun k cat hi' hin => ?_⟩
  · unfold CategoryTable.loadImage at hhi' ⊢
    rw [hloaded] at hhi'
    rw [hcatlist]
    simp only [update_self, nil_append, update_idem] at hhi' ⊢
    rw [update_apply] at hhi' ⊢
    split
    next heq =>
      subst heq
      obtain ⟨cls, hcls⟩ := ne_none_iff_exists'.mp hcls
      exact mem_map.mpr ⟨cat, hcat, by rw [hcls]; rfl⟩
    next hne =>
      rw [if_neg hne] at hhi'
      exact h.listed hi' hhi' cat hcat hcls
  unfold CategoryTable.loadImage
  rw [hloaded]
  simp only [update_apply]
  split
  next => rfl
  next hne =>
    rcases hadd k _ hin with hold | heq
    · exact honly k cat hi' hold
    · exact absurd heq hne

omit [DecidableEq I] in
theorem TableInv.realize (h : TableInv images s) (cls : C) : TableInv images (s.realize cls) := by
  refine ⟨⟨fun k hk => ?_, fun k cat hi hin => ?_, fun k => ?_⟩, h.listed⟩
  · have := h.table.attached k
    simp only [CategoryTable.realize, CategoryTable.removeAllUnattachedCategoriesForClass,
      update_apply] at hk ⊢
    grind
  · refine h.table.entries k cat hi ?_
    simp only [CategoryTable.realize, CategoryTable.removeAllUnattachedCategoriesForClass,
      update_apply] at hin
    grind
  have := h.table.nodup k
  simp only [CategoryTable.realize, CategoryTable.removeAllUnattachedCategoriesForClass,
    update_apply]
  grind

/-! ## Unloading -/

omit [DecidableEq I] in
theorem mem_eraseP_fst {l : List (T × I)} (hnodup : (l.map Prod.fst).Nodup) (entry : T × I) :
    entry ∈ l.eraseP (fun e => decide (e.1 = cat)) ↔ entry ∈ l ∧ entry.1 ≠ cat := by
  induction l with
  | nil => simp
  | cons e l ih =>
    by_cases he : e.1 = cat <;> grind

omit [DecidableEq I] in
theorem mem_removeUnattachedCategoryForClass (h : TableOK images s) (cat : T) (cls : C) :
    TableOK images (s.removeUnattachedCategoryForClass cat cls) ∧
      ∀ k entry, entry ∈ (s.removeUnattachedCategoryForClass cat cls).unattachedCategories k ↔
        entry ∈ s.unattachedCategories k ∧ ¬ (entry.1 = cat ∧ k = cls) := by
  have htab : ∀ k, (s.removeUnattachedCategoryForClass cat cls).unattachedCategories k
      = if k = cls then (s.unattachedCategories k).eraseP fun e => decide (e.1 = cat)
        else s.unattachedCategories k := by
    intro k
    simp only [CategoryTable.removeUnattachedCategoryForClass, update_apply]
    split
    next heq => rw [heq]
    next => rfl
  have hmem : ∀ k entry,
      entry ∈ (s.removeUnattachedCategoryForClass cat cls).unattachedCategories k ↔
        entry ∈ s.unattachedCategories k ∧ ¬ (entry.1 = cat ∧ k = cls) := by
    intro k entry
    rw [htab]
    split
    next heq =>
      rw [mem_eraseP_fst (h.nodup k)]
      simp [heq]
    next hne => simp [hne]
  refine ⟨⟨fun k hk => ?_, fun k c hi hin => ?_, fun k => ?_⟩, hmem⟩
  · rw [htab, h.attached k hk]
    exact ite_self _
  · exact h.entries k c hi ((hmem k _).mp hin).1
  rw [htab]
  split
  · exact (h.nodup k).sublist (eraseP_sublist.map _)
  · exact h.nodup k

omit [DecidableEq I] in
theorem mem_removeCategory (h : TableOK images s) (entry : Option T) :
    TableOK images (s.removeCategory images entry) ∧
      (s.removeCategory images entry).catlist = s.catlist ∧
      ∀ k e, e ∈ (s.removeCategory images entry).unattachedCategories k ↔
        e ∈ s.unattachedCategories k ∧ ¬ (some e.1 = entry ∧ images.remapClass e.1 = some k) := by
  cases entry with
  | none => exact ⟨h, rfl, by simp [CategoryTable.removeCategory]⟩
  | some cat => ?_
  simp only [CategoryTable.removeCategory, some.injEq]
  cases hcls : images.remapClass cat with
  | none =>
    refine ⟨h, rfl, fun k e => ⟨fun hin => ⟨hin, ?_⟩, fun hin => hin.1⟩⟩
    rintro ⟨rfl, hk⟩
    rw [hcls] at hk
    cases hk
  | some cls => ?_
  obtain ⟨h', hmem⟩ := mem_removeUnattachedCategoryForClass h cat cls
  refine ⟨h', rfl, fun k e => (hmem k e).trans ?_⟩
  refine and_congr_right fun _ => not_congr (and_congr_right fun heq => ?_)
  rw [heq, hcls, some.injEq]
  exact eq_comm

omit [DecidableEq I] in
theorem mem_removeCategories (cats : List (Option T)) : ∀ {s : CategoryTable C I T},
    TableOK images s → TableOK images (cats.foldl (CategoryTable.removeCategory images) s) ∧
      (cats.foldl (CategoryTable.removeCategory images) s).catlist = s.catlist ∧
      ∀ k entry,
        entry ∈ (cats.foldl (CategoryTable.removeCategory images) s).unattachedCategories k ↔
          entry ∈ s.unattachedCategories k ∧
            ¬ (some entry.1 ∈ cats ∧ images.remapClass entry.1 = some k) := by
  induction cats with
  | nil => intro s h; exact ⟨h, rfl, by simp⟩
  | cons entry cats ih => ?_
  intro s h
  obtain ⟨h1, hcatlist, hmem⟩ := mem_removeCategory h entry
  obtain ⟨h2, hcatlist2, hmem2⟩ := ih h1
  refine ⟨h2, hcatlist2.trans hcatlist, fun k e => ?_⟩
  rw [foldl_cons, hmem2, hmem, mem_cons]
  tauto

omit [DecidableEq I] [DecidableEq T] in
theorem mem_detachClasses (classes : List C) : ∀ {s : CategoryTable C I T}, TableOK images s →
      TableOK images (classes.foldl (CategoryTable.detachClass K) s) ∧
      (classes.foldl (CategoryTable.detachClass K) s).catlist = s.catlist ∧
      ∀ k entry, entry ∈ (classes.foldl (CategoryTable.detachClass K) s).unattachedCategories k ↔
          entry ∈ s.unattachedCategories k ∧ ¬ (∃ cls ∈ classes, k = cls ∨ k = K.isa cls) := by
  induction classes with
  | nil => intro s h; exact ⟨h, rfl, by simp⟩
  | cons cls classes ih => ?_
  intro s h
  have htab : ∀ k, (s.detachClass K cls).unattachedCategories k
      = if k = cls ∨ k = K.isa cls then [] else s.unattachedCategories k := by
    intro k
    simp only [CategoryTable.detachClass, CategoryTable.removeAllUnattachedCategoriesForClass,
      update_apply]
    grind
  have h1 : TableOK images (s.detachClass K cls) := by
    refine ⟨fun k hk => ?_, fun k cat hi hin => ?_, fun k => ?_⟩
    · have hold := h.attached k
      simp only [CategoryTable.detachClass, update_apply] at hk
      grind
    · rw [htab] at hin
      split at hin
      next => cases hin
      next => exact h.entries k cat hi hin
    rw [htab]
    split
    · exact nodup_nil
    · exact h.nodup k
  obtain ⟨h2, hcatlist2, hmem2⟩ := ih h1
  refine ⟨h2, hcatlist2, fun k e => ?_⟩
  grind

def NoForeignMetaclass (images : ImageContents K I T) (s : CategoryTable C I T) (hi : I) : Prop :=
  ∀ cat ∈ images.catlist hi, ∀ cls, images.remapClass cat = some cls →
    (cat, hi) ∈ s.unattachedCategories (K.isa cls) → cls ∈ images.classlist hi

theorem TableInv.unloadImage (h : TableInv images s) (honly : OnlyLoaded s)
    (hhi : s.loaded hi = true) :
    TableInv images (s.unloadImage images hi) ∧
      (OnlyLoaded (s.unloadImage images hi) ↔ NoForeignMetaclass images s hi) := by
  obtain ⟨h1, hcatlist1, hmem1⟩ := mem_removeCategories (s.catlist hi) h.table
  obtain ⟨h2, hcatlist2, hmem2⟩ := mem_detachClasses (images.classlist hi) h1
  have hloaded : ∀ hi', (s.unloadImage images hi).loaded hi' = true →
      hi' ≠ hi ∧ s.loaded hi' = true := by
    intro hi' hl
    simp only [CategoryTable.unloadImage, update_apply] at hl
    split at hl
    next => cases hl
    next hne => exact ⟨hne, hl⟩
  refine ⟨⟨{ h2 with }, fun hi' hl cat hcat hcls => ?_⟩, ?_⟩
  · show some cat ∈ ((images.classlist hi).foldl (CategoryTable.detachClass K) _).catlist hi'
    rw [hcatlist2, hcatlist1]
    exact h.listed hi' (hloaded hi' hl).2 cat hcat hcls
  constructor
  · intro hafter cat hcat cls hcls hin
    by_contra hforeign
    have hmeta := images.remapClass_isMeta cat cls hcls
    -- the first loop looked under the class, the second at other metaclasses
    have hleft : (cat, hi) ∈ (s.unloadImage images hi).unattachedCategories (K.isa cls) := by
      refine (hmem2 _ _).mpr ⟨(hmem1 _ _).mpr ⟨hin, fun hboth => ?_⟩, ?_⟩
      · have heq : cls = K.isa cls := some.inj (hcls.symm.trans hboth.2)
        exact isa_ne_of_nonMeta hmeta heq.symm
      rintro ⟨c, hc, heq | heq⟩
      · have hnot := K.isa_isMeta cls
        rw [heq, images.classlist_isMeta hi c hc] at hnot
        cases hnot
      · exact hforeign (K.isa_inj cls c hmeta (images.classlist_isMeta hi c hc) heq ▸ hc)
    exact (hloaded hi (hafter _ cat hi hleft)).1 rfl
  intro hnone k cat hi' hin
  obtain ⟨hmid, hother⟩ := (hmem2 _ _).mp hin
  obtain ⟨hbefore, hkept⟩ := (hmem1 _ _).mp hmid
  have hold := honly k cat hi' hbefore
  simp only [CategoryTable.unloadImage, update_apply]
  split
  next heq =>
    subst heq
    obtain ⟨hcat, cls, hcls, rfl | rfl⟩ := h.table.entries k cat hi' hbefore
    · refine absurd ⟨h.listed hi' hhi cat hcat ?_, hcls⟩ hkept
      rw [hcls]
      exact some_ne_none _
    · exact absurd ⟨cls, hnone cat hcat cls hcls hbefore, .inr rfl⟩ hother
  next => exact hold

/-! ## Runs -/

def UnloadsClean (images : ImageContents K I T) (s : CategoryTable C I T) : ImageAction C I → Prop
  | .unload hi => NoForeignMetaclass images s hi
  | _ => True

/-- **No category of an unloaded image is left in the table**, under any key and in any state of
the run, exactly when every unload is of an image that has no category recorded under the metaclass
of another image's class. -/
theorem unloaded_categories_are_gone_iff (images : ImageContents K I T)
    (calls : List (ImageAction C I)) :
    (imageSystem images).AllStates OnlyLoaded .empty calls ↔
      (imageSystem images).AllSteps (UnloadsClean images) .empty calls := by
  have hempty : TableInv images (CategoryTable.empty : CategoryTable C I T) :=
    ⟨⟨fun _ _ => rfl, fun _ _ _ h => (by cases h), fun _ => nodup_nil⟩,
      fun _ h => (by cases h)⟩
  have hstep : ∀ s a s', TableInv images s → OnlyLoaded s → (imageSystem images).step s a = some s' →
      TableInv images s' ∧ (OnlyLoaded s' ↔ UnloadsClean images s a) := by
    intro s a s' h honly hs
    cases a with
    | load hi =>
      obtain ⟨hhi, ⟨⟩⟩ := ite_none_left_eq_some.mp hs
      obtain ⟨h', honly'⟩ := h.loadImage honly hhi
      exact ⟨h', fun _ => trivial, fun _ => honly'⟩
    | realize cls =>
      cases hs
      refine ⟨h.realize cls, fun _ => trivial, fun _ k cat hi hin => honly k cat hi ?_⟩
      simp only [CategoryTable.realize, CategoryTable.removeAllUnattachedCategoriesForClass,
        update_apply] at hin
      split at hin
      next => cases hin
      next => exact hin
    | unload hi =>
      obtain ⟨hhi, ⟨⟩⟩ := ite_none_right_eq_some.mp hs
      exact h.unloadImage honly hhi
  exact System.allStates_iff_allSteps (TableInv images)
    (fun s a s' h honly hs _ => (hstep s a s' h honly hs).1)
    (fun s a s' h honly hs => (hstep s a s' h honly hs).2) calls hempty
    nofun

/-- The root class is in the image `true`; the image `false` has a category with class methods
on it. -/
def categoryImages : ImageContents (starImage Empty (fun _ => none) fun _ => false) Bool Unit where
  catlist := fun hi => if hi then [] else [()]
  classlist := fun hi => if hi then [(none, false)] else []
  hasCategoryClassProperties := fun _ => false
  category := fun _ => ⟨none, some [], false, false, false⟩
  remapClass := fun _ => some (none, false)
  catlist_nodup := by decide
  catlist_disjoint := by decide
  remapClass_isMeta := fun _ cls h => some.inj h ▸ rfl
  classlist_isMeta := fun hi cls h => by
    cases hi with
    | false => cases h
    | true => rw [mem_singleton.mp h]; rfl

/-- **The category stays under the metaclass** after its image is unloaded, and is read when the
class is realized. -/
theorem unloaded_category_is_left :
    ((imageSystem categoryImages).runFrom (fun _ => True) .empty
        [.load true, .load false, .unload false]).map
      (fun s => (s.loaded false, s.realized (none, true), s.unattachedCategories (none, true)))
      = some (false, false, [((), false)]) := by
  decide +kernel

end ObjcRuntime
