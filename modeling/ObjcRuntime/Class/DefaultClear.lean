/-
WHERE THE DEFAULT FLAGS ARE CLEARED.

The invariant of the two flags. A class has a flag only when its superclass
has it, up to NSObject, and when none of its own method lists has such a
selector; NSObject has it only while none of its own implementations was
written. Clearing a flag in a whole subtree keeps all of this.

* `setHasCustom_spec`: `setHasCustomRR` clears the subtree,
* `scanLists_spec`, `updateCustomRR_AWZ_spec`, `addSubclass_flags`: the
  three places that clear.
-/
import ObjcRuntime.Class.DefaultFlags

namespace ObjcRuntime

open Lib Function MethodList DefaultFlags

variable {C : Type}

/-! ## Selectors in method lists -/

def MethodList.names (mlist : MethodList) : List SEL := mlist.methods.map Method.name

def Clean (k : DefaultFlag) (mlists : List MethodList) : Prop :=
  ∀ names ∈ mlists.map MethodList.names, ∀ sel ∈ names, k.isSelector sel = false

theorem MethodList.implements_iff (mlist : MethodList) (sel : SEL) :
    mlist.implements sel = true ↔ sel ∈ mlist.names := by
  rw [implements, findMethodInSortedMethodList_eq, List.findIdx?_isSome]
  simp [names]

theorem DefaultFlag.methodListImplements_iff (k : DefaultFlag) (mlist : MethodList) :
    k.methodListImplements mlist = true ↔ ∃ sel ∈ mlist.names, k.isSelector sel = true := by
  cases k with
  | rr =>
    simp only [methodListImplements, methodListImplementsRR, isSelector, isRRSelector,
      Bool.or_eq_true, implements_iff, beq_iff_eq]
    constructor
    · rintro (((((((h | h) | h) | h) | h) | h) | h) | h) <;> exact ⟨_, h, by simp⟩
    · rintro ⟨sel, h, (((((((rfl | rfl) | rfl) | rfl) | rfl) | rfl) | rfl) | rfl)⟩ <;> simp [h]
  | awz => ?_
  simp only [methodListImplements, methodListImplementsAWZ, isSelector, isAWZSelector,
    Bool.or_eq_true, implements_iff, beq_iff_eq]
  constructor
  · rintro (h | h) <;> exact ⟨_, h, by simp⟩
  · rintro ⟨sel, h, (rfl | rfl)⟩ <;> simp [h]

theorem clean_iff (k : DefaultFlag) (mlists : List MethodList) :
    Clean k mlists ↔ ∀ mlist ∈ mlists, k.methodListImplements mlist = false := by
  unfold Clean
  rw [List.forall_mem_map]
  refine forall₂_congr fun mlist _ => ?_
  rw [← Bool.not_eq_true, k.methodListImplements_iff]
  simp only [not_exists, not_and, Bool.not_eq_true]

theorem clean_of_any {k : DefaultFlag} {mlists : List MethodList}
    (h : mlists.any k.methodListImplements = false) : Clean k mlists := by
  rw [clean_iff]
  intro mlist hin
  rw [List.any_eq_false] at h
  exact Bool.not_eq_true _ ▸ h mlist hin

theorem not_isAWZSelector_of_isRRSelector {sel : SEL} (h : isRRSelector sel = true) :
    isAWZSelector sel = false := by
  simp only [isRRSelector, Bool.or_eq_true, beq_iff_eq] at h
  rcases h with (((((((rfl | rfl) | rfl) | rfl) | rfl) | rfl) | rfl) | rfl) <;> decide

theorem names_setImpAt (mlists : List MethodList) (place : MethodPlace) (imp : IMP) :
    (setImpAt mlists place imp).map names = mlists.map names :=
  map_modify_of_eq _ _ (fun mlist => map_name_modify imp mlist.methods place.2) mlists place.1

/-! ## The invariant -/

/-- The lists that have to be without such selectors: not NSObject's own. -/
def scannedLists [DecidableEq C] (K : NSObjectImage C) (s : ClassState C) (k : DefaultFlag) (c : C) :
    List MethodList :=
  if c = K.special k then categoryMethodLists K.toClassImage s c else s.methods c

variable [DecidableEq C] {K : NSObjectImage C} {s s' : ClassState C} {F F' : DefaultFlags C}
  {k : DefaultFlag} {except : C → Prop}

/-- All but what was written. `except` are classes that get a new superclass. -/
structure DefaultBase (K : NSObjectImage C) (s : ClassState C) (except : C → Prop)
    (F : DefaultFlags C) (k : DefaultFlag) : Prop where
  live : ∀ c, F.hasDefault k c = true → s.realized c = true ∧
    s.isInitialized K.toClassImage c = true ∧ K.isMeta c = k.ofMeta
  up : ∀ c, ¬ except c → F.hasDefault k c = true → c = K.special k ∨
    ∃ p, s.superclass c = some p ∧ F.hasDefault k p = true
  clean : ∀ c, F.hasDefault k c = true → Clean k (scannedLists K s k c)
  swizzled : F.swizzled k = true → F.hasDefault k (K.special k) = false

/-- NSObject does not have the flag, and cannot get it. -/
def NeverDefault (K : NSObjectImage C) (s : ClassState C) (F : DefaultFlags C) (k : DefaultFlag) :
    Prop :=
  F.swizzled k = true ∨
    s.isInitialized K.toClassImage (K.special k) = true ∧ F.hasDefault k (K.special k) = false

structure DefaultInv (K : NSObjectImage C) (s : ClassState C) (F : DefaultFlags C)
    (k : DefaultFlag) : Prop extends DefaultBase K s (fun _ => False) F k where
  written : F.written k = true → NeverDefault K s F k

structure Lowered (F F' : DefaultFlags C) : Prop where
  hasDefault : ∀ k c, F'.hasDefault k c = true → F.hasDefault k c = true
  swizzled : ∀ k, F.swizzled k = true → F'.swizzled k = true
  written : F'.written = F.written

omit [DecidableEq C] in
theorem Lowered.refl (F : DefaultFlags C) : Lowered F F := ⟨fun _ _ => id, fun _ => id, rfl⟩

omit [DecidableEq C] in
theorem Lowered.trans {F₁ F₂ F₃ : DefaultFlags C} (h : Lowered F₁ F₂) (h' : Lowered F₂ F₃) :
    Lowered F₁ F₃ :=
  ⟨fun k c hc => h.hasDefault k c (h'.hasDefault k c hc),
    fun k hk => h'.swizzled k (h.swizzled k hk), h'.written.trans h.written⟩

omit [DecidableEq C] in
theorem Lowered.custom {c : C} (h : Lowered F F') (hcustom : F.hasDefault k c = false) :
    F'.hasDefault k c = false := by
  cases hd : F'.hasDefault k c with
  | false => rfl
  | true =>
    rw [h.hasDefault k c hd] at hcustom
    cases hcustom

omit [DecidableEq C] in
theorem NeverDefault.lowered (h : NeverDefault K s F k) (hl : Lowered F F') :
    NeverDefault K s F' k := by
  rcases h with h | ⟨hinit, hcustom⟩
  · exact .inl (hl.swizzled k h)
  · exact .inr ⟨hinit, hl.custom hcustom⟩

/-! ## Clearing a subtree -/

/-- The flag is cleared in the subtree of `cls`, if the class has it. -/
structure Cleared (s : ClassState C) (k : DefaultFlag) (cls : C) (F F' : DefaultFlags C) : Prop where
  hasDefault : ∀ c, F'.hasDefault k c = true ↔
    F.hasDefault k c = true ∧ ¬ (F.hasDefault k cls = true ∧ Under s.superclass c cls)
  other : ∀ k', k' ≠ k → F'.hasDefault k' = F.hasDefault k'
  swizzled : F'.swizzled = F.swizzled
  written : F'.written = F.written

variable {cls : C}

omit [DecidableEq C] in
theorem Cleared.custom (h : Cleared s k cls F F') : F'.hasDefault k cls = false := by
  cases hd : F'.hasDefault k cls with
  | false => rfl
  | true =>
    obtain ⟨hold, hnot⟩ := (h.hasDefault cls).mp hd
    exact absurd ⟨hold, Under.refl _ _⟩ hnot

omit [DecidableEq C] in
theorem Cleared.lowered (h : Cleared s k cls F F') : Lowered F F' := by
  refine ⟨fun k' c hc => ?_, fun k' hk => h.swizzled ▸ hk, h.written⟩
  by_cases hk : k' = k
  · rw [hk] at hc ⊢
    exact ((h.hasDefault c).mp hc).1
  · rwa [h.other k' hk] at hc

theorem DefaultBase.cleared {k' : DefaultFlag} (h : DefaultBase K s except F k')
    (hc : Cleared s k cls F F') : DefaultBase K s except F' k' := by
  have hl := hc.lowered
  refine ⟨fun c hd => h.live c (hl.hasDefault k' c hd), fun c hex hd => ?_,
    fun c hd => h.clean c (hl.hasDefault k' c hd),
    fun hs => hl.custom (h.swizzled (hc.swizzled ▸ hs))⟩
  by_cases hk : k' = k
  · subst hk
    obtain ⟨hold, hnot⟩ := (hc.hasDefault c).mp hd
    refine (h.up c hex hold).imp_right fun ⟨p, hp, hpd⟩ => ⟨p, hp, ?_⟩
    exact (hc.hasDefault p).mpr ⟨hpd, fun hboth => hnot ⟨hboth.1, Under.head hp hboth.2⟩⟩
  · rw [hc.other k' hk] at hd ⊢
    exact h.up c hex hd

variable [Fintype C]

section

variable (htree : TreeInv K.toClassImage s)

include htree

theorem setHasCustom_spec (h : DefaultBase K s except F k)
    (hrun : setHasCustom K s k F cls = some F') : Cleared s k cls F F' := by
  unfold setHasCustom at hrun
  split at hrun
  next hcustom =>
    cases hrun
    refine ⟨fun c => ⟨fun hd => ⟨hd, fun hboth => ?_⟩, fun hd => hd.1⟩, fun _ _ => rfl, rfl, rfl⟩
    rw [hboth.1] at hcustom
    cases hcustom
  rename_i hnot
  have hcls : F.hasDefault k cls = true := by
    cases hd : F.hasDefault k cls with
    | true => rfl
    | false => exact absurd hd hnot
  obtain ⟨⟨count, vs⟩, hwalk, rfl⟩ := Option.map_eq_some_iff.mp hrun
  obtain ⟨rank, hrank⟩ := htree.shape.ranked
  obtain ⟨vs', moves, hnodup, hmem, hmoves, hspec⟩ := htree.growing.placed.foreach_spec hrank
    ⟨(h.live cls hcls).1, id⟩
  have hlen := hnodup.length_le_card
  have hcard := K.toClassImage.card_lt_unreasonableClassCount
  rw [hspec _ (by omega), Option.some_inj, Prod.mk.injEq] at hwalk
  obtain ⟨_, rfl⟩ := hwalk
  refine ⟨fun c => ?_, fun k' hk => ?_, rfl, rfl⟩
  · simp only [clear, update_self, Bool.and_eq_true, Bool.not_eq_true',
      Bool.and_eq_false_iff, Bool.or_eq_false_iff, decide_eq_false_iff_not, hmem, hcls, true_and]
    refine and_congr_right fun hd => ?_
    obtain ⟨hreal, hinit, _⟩ := h.live c hd
    simp only [hreal, hinit, Bool.true_eq_false, and_false, or_false, not_false_eq_true, and_true]
  · simp only [clear, update_of_ne hk]

theorem setHasCustom_keeps
    (h : ∀ k, DefaultBase K s except F k) (hrun : setHasCustom K s k F cls = some F') :
    (∀ k, DefaultBase K s except F' k) ∧ Cleared s k cls F F' :=
  have hc := setHasCustom_spec htree (h k) hrun
  ⟨fun k' => (h k').cleared hc, hc⟩

theorem setHasCustom_when (h : ∀ k, DefaultBase K s except F k) {found : Bool}
    (hrun : (if found then setHasCustom K s k F cls else some F) = some F') :
    (∀ k, DefaultBase K s except F' k) ∧ Lowered F F' ∧
      F'.hasDefault k cls = (F.hasDefault k cls && !found) ∧
      (∀ k', k' ≠ k → F'.hasDefault k' = F.hasDefault k') ∧ (found = false → F' = F) := by
  cases found with
  | true =>
    obtain ⟨h', hc⟩ := setHasCustom_keeps htree h hrun
    rw [Bool.not_true, Bool.and_false]
    exact ⟨h', hc.lowered, hc.custom, hc.other, nofun⟩
  | false =>
    cases hrun
    rw [Bool.not_false, Bool.and_true]
    exact ⟨h, .refl _, rfl, fun _ _ => rfl, fun _ => rfl⟩

theorem scanLists_spec (mlists : List MethodList) :
    ∀ {F : DefaultFlags C}, (∀ k, DefaultBase K s except F k) →
      scanLists K s cls (F.hasDefault .rr cls) (F.hasDefault .awz cls) F mlists
        = some F' →
      (∀ k, DefaultBase K s except F' k) ∧ Lowered F F' ∧
        ∀ k, F'.hasDefault k cls = true → Clean k mlists := by
  induction mlists with
  | nil =>
    intro F h hrun
    cases hrun
    exact ⟨h, .refl _, nofun⟩
  | cons mlist mlists ih => ?_
  intro F h hrun
  rw [scanLists] at hrun
  simp only at hrun
  split at hrun
  next => cases hrun
  rename_i F₁ hrr
  obtain ⟨h1, hl1, hself1, hother1, _⟩ := setHasCustom_when htree h hrr
  split at hrun
  next => cases hrun
  rename_i F₂ hawz
  have hsame : F₁.hasDefault .awz cls = F.hasDefault .awz cls := by
    rw [hother1 .awz (by decide)]
  rw [← hsame] at hawz hrun
  obtain ⟨h2, hl2, hself2, hother2, _⟩ := setHasCustom_when htree h1 hawz
  have hscan : (F.hasDefault .rr cls && !(F.hasDefault .rr cls && methodListImplementsRR mlist))
      = F₂.hasDefault .rr cls := by
    rw [hother2 .rr (by decide), hself1]
  rw [hscan, ← hself2] at hrun
  obtain ⟨h', hl', hclean⟩ := ih h2 hrun
  refine ⟨h', (hl1.trans hl2).trans hl', fun k hd => ?_⟩
  -- the flag was kept, so this list did not have the selector either
  have hnot : k.methodListImplements mlist = false := by
    have hd2 := hl'.hasDefault k cls hd
    cases k with
    | rr =>
      rw [hother2 .rr (by decide), hself1, Bool.and_eq_true, Bool.not_eq_true',
        Bool.and_eq_false_iff] at hd2
      exact hd2.2.resolve_left fun hf => by rw [hd2.1] at hf; cases hf
    | awz =>
      rw [hself2, Bool.and_eq_true, Bool.not_eq_true', Bool.and_eq_false_iff] at hd2
      exact hd2.2.resolve_left fun hf => by rw [hd2.1] at hf; cases hf
  rw [clean_iff]
  intro mlist' hin
  rcases List.mem_cons.mp hin with rfl | hin
  · exact hnot
  · exact (clean_iff k mlists).mp (hclean k hd) mlist' hin

end

variable {owner : C}

theorem updateCustom_spec (htree : TreeInv K.toClassImage s) (h : ∀ k, DefaultBase K s except F k)
    {cls : Option C} (hrun : updateCustom K s k F cls owner = some F') :
    (∀ k, DefaultBase K s except F' k) ∧ Lowered F F' ∧
      (owner = K.special k → NeverDefault K s F' k) := by
  unfold updateCustom at hrun
  split at hrun
  next halready =>
    cases hrun
    exact ⟨h, .refl F, fun _ => halready.symm⟩
  rename_i hnot
  split at hrun
  next =>
    split at hrun
    next hinit =>
      obtain ⟨h', hc⟩ := setHasCustom_keeps htree h hrun
      exact ⟨h', hc.lowered, fun _ => .inr ⟨hinit, hc.custom⟩⟩
    rename_i hinit
    -- `setInitialized` will see that NSObject was changed
    cases hrun
    refine ⟨fun k' => ⟨(h k').live, (h k').up, (h k').clean, fun hs => ?_⟩,
      ⟨fun _ _ => id, fun k' hs => ?_, rfl⟩, fun _ => .inl (update_self _ _ _)⟩
    · replace hs : update F.swizzled k true k' = true := hs
      by_cases hk : k' = k
      · subst hk
        show F.hasDefault k' (K.special k') = false
        cases hd : F.hasDefault k' (K.special k') with
        | false => rfl
        | true => exact absurd ((h k').live _ hd).2.1 hinit
      · rw [update_of_ne hk] at hs
        exact (h k').swizzled hs
    show update F.swizzled k true k' = true
    rw [update_apply]
    split
    · rfl
    · exact hs
  next howner =>
    cases hrun
    exact ⟨h, .refl F, fun heq => absurd (.inr heq) howner⟩

theorem updateCustomRR_AWZ_spec (htree : TreeInv K.toClassImage s)
    (h : ∀ k, DefaultBase K s except F k) {cls : Option C} {name : SEL} {Q : DefaultFlag → Prop}
    (hwritten : ∀ k, F.written k = true →
      NeverDefault K s F k ∨ (owner = K.special k ∧ k.isSelector name = true) ∨ Q k)
    (hrun : F.updateCustomRR_AWZ K s cls owner name = some F') :
    (∀ k, DefaultBase K s except F' k) ∧ Lowered F F' ∧
      ∀ k, F'.written k = true → NeverDefault K s F' k ∨ Q k := by
  -- the half for the kind of the selector
  have hhalf : ∀ k0 : DefaultFlag, (∀ k : DefaultFlag, k.isSelector name = true → k = k0) →
      updateCustom K s k0 F cls owner = some F' →
      (∀ k, DefaultBase K s except F' k) ∧ Lowered F F' ∧
        ∀ k, F'.written k = true → NeverDefault K s F' k ∨ Q k := by
    intro k0 hkind hrun
    obtain ⟨h', hl, hnever⟩ := updateCustom_spec htree h hrun
    refine ⟨h', hl, fun k hk => ?_⟩
    rw [hl.written] at hk
    rcases hwritten k hk with hn | ⟨howner, hsel⟩ | hQ
    · exact .inl (hn.lowered hl)
    · obtain rfl := hkind k hsel
      exact .inl (hnever howner)
    · exact .inr hQ
  unfold updateCustomRR_AWZ at hrun
  split at hrun
  next hrr =>
    refine hhalf .rr (fun k hsel => ?_) hrun
    cases k with
    | rr => rfl
    | awz =>
      have : isAWZSelector name = true := hsel
      rw [not_isAWZSelector_of_isRRSelector hrr] at this
      cases this
  rename_i hrr
  split at hrun
  next hawz =>
    refine hhalf .awz (fun k hsel => ?_) hrun
    cases k with
    | rr => exact absurd hsel hrr
    | awz => rfl
  rename_i hawz
  cases hrun
  refine ⟨h, .refl F, fun k hk => ?_⟩
  rcases hwritten k hk with hn | ⟨_, hsel⟩ | hQ
  · exact .inl hn
  · cases k with
    | rr => exact absurd hsel hrr
    | awz => exact absurd hsel hawz
  · exact .inr hQ

omit [Fintype C] in
theorem DefaultInv.noteWritten (h : DefaultInv K s F k) (owner : C) (name : SEL) :
    DefaultBase K s (fun _ => False) (F.noteWritten K owner name) k :=
  { h with }

omit [Fintype C] in
theorem written_noteWritten {name : SEL} (h : (F.noteWritten K owner name).written k = true) :
    F.written k = true ∨ owner = K.special k ∧ k.isSelector name = true := by
  simpa [noteWritten] using h

theorem addSubclass_flags (htree : TreeInv K.toClassImage s) {supercls subcls : C}
    (h : ∀ k, DefaultBase K s (fun c => except c ∨ c = subcls) F k)
    (hsuper : s.superclass subcls = some supercls)
    (hrun : F.addSubclass K s supercls subcls = some F') :
    (∀ k, DefaultBase K s except F' k) ∧ Lowered F F' := by
  -- one flag: the class loses it unless the superclass has it
  have hone : ∀ (k : DefaultFlag) (F F₁ : DefaultFlags C),
      (∀ k, DefaultBase K s (fun c => except c ∨ c = subcls) F k) →
      (if F.hasDefault k supercls then some F else setHasCustom K s k F subcls) = some F₁ →
      (∀ k, DefaultBase K s (fun c => except c ∨ c = subcls) F₁ k) ∧ Lowered F F₁ ∧
        (F₁.hasDefault k subcls = true → F₁.hasDefault k supercls = true) ∧
        ∀ k', k' ≠ k → F₁.hasDefault k' = F.hasDefault k' := by
    intro k F F₁ h hrun
    have hrun' : (if !F.hasDefault k supercls then setHasCustom K s k F subcls
        else some F) = some F₁ := by
      rw [← hrun]
      cases F.hasDefault k supercls with
      | true | false => rfl
    obtain ⟨h', hl, hself, hother, hsame⟩ := setHasCustom_when htree h hrun'
    refine ⟨h', hl, fun hd => ?_, hother⟩
    rw [hself, Bool.not_not, Bool.and_eq_true] at hd
    rw [hsame (by rw [hd.2, Bool.not_true])]
    exact hd.2
  unfold addSubclass at hrun
  split at hrun
  next => cases hrun
  rename_i F₁ hrr
  obtain ⟨h1, hl1, hself1, hother1⟩ := hone .rr F F₁ h hrr
  obtain ⟨h2, hl2, hself2, hother2⟩ := hone .awz F₁ F' h1 hrun
  refine ⟨fun k => ⟨(h2 k).live, fun c hex hd => ?_, (h2 k).clean, (h2 k).swizzled⟩,
    hl1.trans hl2⟩
  by_cases hc : c = subcls
  · refine .inr ⟨supercls, hc ▸ hsuper, ?_⟩
    rw [hc] at hd
    cases k with
    | rr =>
      rw [hother2 .rr (by decide)] at hd ⊢
      exact hself1 hd
    | awz => exact hself2 hd
  · exact (h2 k).up c (fun hp => hp.elim hex hc) hd

end ObjcRuntime
