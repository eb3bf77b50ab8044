/-
THE CALLS AND THE DEFAULT FLAGS.

Each call is safe once it clears where it adds something. NSObject's own list
is the last of its lists; it is compared with the one that NSObject was
compiled with.

* `FlagsInv.attach`, `FlagsInv.setImplementation`, `FlagsInv.setSuperclass` —
  the calls that clear,
* `FlagsInv.setInitialized`: the call that sets.
-/
import ObjcRuntime.Class.DefaultClear

namespace ObjcRuntime

open Lib Function List Option ClassState FlaggedState ClassImage DefaultFlags

variable {C : Type} [DecidableEq C] {K : NSObjectImage C} {s s' : ClassState C}
  {F F' : DefaultFlags C} {k : DefaultFlag}

/-! ## Changes to the method lists -/

structure Rewritten (methods : C → List MethodList) (s s' : ClassState C) : Prop where
  links : s'.links = s.links
  realized : s'.realized = s.realized
  initialized : s'.initialized = s.initialized
  methods : s'.methods = methods

variable {methods : C → List MethodList}

omit [DecidableEq C] in
theorem Rewritten.superclass (h : Rewritten methods s s') :
    s'.superclass = s.superclass := congrArg Links.parent h.links

theorem Rewritten.of_flushCaches [Fintype C] {K : ClassImage C} {cls : Option C}
    (h : flushCaches K { s with methods := methods } cls = some s') :
    Rewritten methods s s' := by
  cases cls with
  | none =>
    obtain ⟨vs, _, rfl⟩ := map_eq_some_iff.mp h
    exact ⟨rfl, rfl, rfl, rfl⟩
  | some cls =>
    obtain ⟨r, _, rfl⟩ := map_eq_some_iff.mp h
    exact ⟨rfl, rfl, rfl, rfl⟩

theorem map_names_scannedLists (K : NSObjectImage C) (s : ClassState C) (k : DefaultFlag) (c : C) :
    (scannedLists K s k c).map MethodList.names = if c = K.special k ∧ K.baseMethods c ≠ none then
          ((s.methods c).map MethodList.names).dropLast
        else (s.methods c).map MethodList.names := by
  unfold scannedLists categoryMethodLists
  by_cases hc : c = K.special k
  · cases hbase : K.baseMethods c with
    | none => simp only [hc, if_true, or_true, ne_eq, not_true_eq_false, and_false, if_false]
    | some list => ?_
    have hown : c = K.special k ∧ some list ≠ none := ⟨hc, some_ne_none list⟩
    rw [if_pos hc, if_pos hown]
    by_cases hnil : s.methods c = []
    · rw [if_pos (.inl hnil), hnil]
      rfl
    · rw [if_neg fun h => h.elim hnil (some_ne_none list), map_dropLast]
  · rw [if_neg hc, if_neg fun h => hc h.1]

theorem clean_scannedLists_congr {c : C}
    (hnames : (s'.methods c).map MethodList.names = (s.methods c).map MethodList.names) :
    Clean k (scannedLists K s' k c) ↔ Clean k (scannedLists K s k c) := by
  unfold Clean
  rw [map_names_scannedLists, map_names_scannedLists, hnames]

variable {mlists : List MethodList}

theorem clean_scannedLists_append {c : C} (hmethods : s'.methods c = mlists ++ s.methods c)
    (hbase : K.baseMethods c ≠ none → s.methods c ≠ []) (hadded : Clean k mlists)
    (h : Clean k (scannedLists K s k c)) : Clean k (scannedLists K s' k c) := by
  unfold Clean at h ⊢
  rw [map_names_scannedLists] at h ⊢
  rw [hmethods, map_append]
  intro names hin
  split at hin
  next hspecial =>
    rw [if_pos hspecial] at h
    have hne : (s.methods c).map MethodList.names ≠ [] := by
      simpa using hbase hspecial.2
    rw [dropLast_append_of_ne_nil hne, mem_append] at hin
    exact hin.elim (hadded names) (h names)
  next hspecial =>
    rw [if_neg hspecial] at h
    rw [mem_append] at hin
    exact hin.elim (hadded names) (h names)

omit [DecidableEq C] in
theorem isInitialized_congr {K : ClassImage C} (h : s'.initialized = s.initialized) :
    s'.isInitialized K = s.isInitialized K := by
  funext c
  unfold isInitialized
  rw [h]

theorem DefaultInv.carry (h : DefaultInv K s F k) (hsuper : s'.superclass = s.superclass)
    (hrealized : ∀ c, s.realized c = true → s'.realized c = true)
    (hinitialized : s'.initialized = s.initialized)
    (hclean : ∀ c, F.hasDefault k c = true → Clean k (scannedLists K s' k c)) :
    DefaultInv K s' F k := by
  have hinit : s'.isInitialized K.toClassImage = s.isInitialized K.toClassImage :=
    isInitialized_congr hinitialized
  refine ⟨⟨fun c hd => ?_, fun c hex hd => ?_, hclean, h.swizzled⟩, fun hw => ?_⟩
  · obtain ⟨hreal, hi, hmeta⟩ := h.live c hd
    exact ⟨hrealized c hreal, hinit ▸ hi, hmeta⟩
  · rw [hsuper]
    exact h.up c hex hd
  unfold NeverDefault
  rw [hinit]
  exact h.written hw

/-! ## NSObject's own list -/

def MethodList.ofKind (mlist : MethodList) (k : DefaultFlag) : List Method :=
  mlist.methods.filter fun m => k.isSelector m.name

/-- The list is NSObject's own as it was compiled, as far as the kind goes, unless such a method
was written. -/
def Kept (K : NSObjectImage C) (F : DefaultFlags C) (c : C) (mlist : MethodList) : Prop :=
  ∀ k, c = K.special k → F.written k = false → ∀ list, K.baseMethods c = some list →
    mlist.ofKind k = (fixupMethodList list).ofKind k

/-- A class without its methods has none; later its own list is the last one, and `R` holds of
it. -/
structure BaseInv (K : ClassImage C) (R : C → MethodList → Prop) (s : ClassState C)
    (pending : C → Prop) : Prop where
  raw : ∀ c, s.realized c = false ∨ pending c → s.methods c = []
  based : ∀ c list, s.realized c = true → ¬ pending c → K.baseMethods c = some list →
    ∃ mlist, (s.methods c).getLast? = some mlist ∧ R c mlist

section

variable {R : C → MethodList → Prop} {pending : C → Prop}

omit [DecidableEq C] in
theorem BaseInv.ne_nil {K : ClassImage C} (h : BaseInv K R s fun _ => False) {cls : C}
    (hcls : s.realized cls = true) (hbase : K.baseMethods cls ≠ none) : s.methods cls ≠ [] := by
  obtain ⟨list, hlist⟩ := ne_none_iff_exists'.mp hbase
  obtain ⟨mlist, hlast, _⟩ := h.based cls list hcls id hlist
  intro hnil
  rw [hnil] at hlast
  cases hlast

theorem BaseInv.mark {K : ClassImage C} (h : BaseInv K R s pending) {cls : C}
    (hcls : s.realized cls = false) : BaseInv K R (s.mark cls) fun c => pending c ∨ c = cls := by
  have hreal : ∀ c, c ≠ cls → (s.mark cls).realized c = s.realized c :=
    fun c hc => update_of_ne hc _ _
  refine ⟨fun c hc => ?_, fun c list hc hnot => ?_⟩
  · show s.methods c = []
    by_cases heq : c = cls
    · exact h.raw c (.inl (heq ▸ hcls))
    · rw [hreal c heq] at hc
      exact h.raw c (hc.imp_right fun hp => hp.resolve_right heq)
  · rw [hreal c fun heq => hnot (.inr heq)] at hc
    exact h.based c list hc fun hp => hnot (.inl hp)

theorem BaseInv.attach {K : ClassImage C} (h : BaseInv K R s fun _ => False) {cls : C}
    (hcls : s.realized cls = true)
    (hs' : Rewritten (update s.methods cls (mlists ++ s.methods cls)) s s') :
    BaseInv K R s' fun _ => False := by
  refine ⟨fun c hc => ?_, fun c list hc hnot hlist => ?_⟩
  · rw [hs'.realized] at hc
    have hne : c ≠ cls := by
      rintro rfl
      rw [hcls] at hc
      exact hc.elim nofun id
    rw [hs'.methods, update_of_ne hne]
    exact h.raw c hc
  rw [hs'.realized] at hc
  obtain ⟨mlist, hlast, hR⟩ := h.based c list hc hnot hlist
  refine ⟨mlist, ?_, hR⟩
  rw [hs'.methods]
  by_cases heq : c = cls
  · subst heq
    rw [update_self, getLast?_append, hlast, some_or]
  · rwa [update_of_ne heq]

end

variable {cls : C}

theorem methodizeClass_methods [Fintype C]
    {K : ClassImage C} (h : s.methodizeClass K cls = some s') :
    ∃ added, s'.methods cls
      = added ++ (((K.baseMethods cls).map fixupMethodList).toList ++ s.methods cls) := by
  have hbase : (s.attachBaseMethods K cls).methods cls
      = ((K.baseMethods cls).map fixupMethodList).toList ++ s.methods cls := by
    rw [attachBaseMethods]
    cases K.baseMethods cls with
    | none => rfl
    | some list => exact update_self _ _ _
  rw [← hbase]
  rw [methodizeClass] at h
  generalize s.attachBaseMethods K cls = s1 at h ⊢
  -- the bonus method is found, or gets a list of its own
  have hbonus : ∀ r, s1.addBonusMethod K cls = some r →
      ∃ bonus, r.2.methods cls = bonus ++ s1.methods cls := by
    intro r hr
    rw [addBonusMethod] at hr
    split at hr
    next =>
      obtain ⟨-, hr⟩ := ite_none_right_eq_some.mp hr
      split at hr
      next =>
        cases hr
        exact ⟨[], rfl⟩
      obtain ⟨s2, hflush, rfl⟩ := map_eq_some_iff.mp hr
      exact ⟨_, (congrFun (Rewritten.of_flushCaches hflush).methods cls).trans
        (update_self _ _ _)⟩
    cases hr
    exact ⟨[], rfl⟩
  split at h
  next => cases h
  rename_i s2 hr
  obtain ⟨bonus, hmethods⟩ := hbonus _ hr
  cases h
  refine ⟨categoryLists K cls (s2.unattachedCategories cls) ++ bonus, ?_⟩
  rw [append_assoc, ← hmethods]
  exact update_self _ _ _

theorem BaseInv.realizeClass [Fintype C] {K : ClassImage C} {R : C → MethodList → Prop}
    (h : BaseInv K R s fun _ => False) (htree : TreeInv K s)
    (hR : ∀ c list, K.baseMethods c = some list → R c (fixupMethodList list))
    (hrun : s.realizeClass K (Fintype.card C + 1) cls = some s') :
    BaseInv K R s' fun _ => False := by
  refine htree.realizeClass_induct (P := fun s pending => BaseInv K R s pending)
    ⟨fun s pending cls _ hcls h => h.mark hcls, ?_⟩ h hrun
  intro s pending cls s1 s2 hl h hlink hmethodize hm
  obtain ⟨_, _, hreal, hmethods⟩ := hl.link hlink
  have hreal2 : s2.realized = s.realized := hm.realized.trans hreal
  have hother : ∀ c, c ≠ cls → s2.methods c = s.methods c := by
    intro c hc
    rw [hm.methods c hc, hmethods]
  refine ⟨fun c hc => ?_, fun c list hc hnot hlist => ?_⟩
  · rw [hreal2] at hc
    have hne : c ≠ cls := by
      rintro rfl
      rw [hl.realized] at hc
      exact hc.elim Bool.noConfusion hl.not_pending
    rw [hother c hne]
    exact h.raw c (hc.imp_right .inl)
  rw [hreal2] at hc
  by_cases heq : c = cls
  · subst heq
    obtain ⟨added, hadded⟩ := methodizeClass_methods hmethodize
    rw [hmethods, h.raw c (.inr (.inr rfl)), hlist] at hadded
    refine ⟨_, ?_, hR c list hlist⟩
    rw [hadded, append_nil]
    exact getLast?_concat
  · rw [hother c heq]
    exact h.based c list hc (fun hp => hp.elim hnot heq) hlist

/-! ## Writing an implementation -/

/-- A method of the class `owner` gets a new implementation. -/
def writeImp (methods : C → List MethodList) (owner : C) (place : MethodPlace) (imp : IMP) :
    C → List MethodList :=
  update methods owner (setImpAt (methods owner) place imp)

section

theorem map_names_writeImp (methods : C → List MethodList) (owner : C) (place : MethodPlace)
    (imp : IMP) (c : C) : (writeImp methods owner place imp c).map MethodList.names
      = (methods c).map MethodList.names := by
  by_cases heq : c = owner
  · subst heq
    rw [writeImp, update_self, names_setImpAt]
  · rw [writeImp, update_of_ne heq]

theorem nameAt_eq (mlists : List MethodList) (place : MethodPlace) :
    nameAt mlists place
      = ((mlists.map MethodList.names)[place.1]?).bind fun names => names[place.2]? := by
  rw [nameAt, getElem?_map, bind_map]
  congr 1
  funext mlist
  show _ = (mlist.methods.map Method.name)[place.2]?
  rw [getElem?_map]

theorem nameAt_writeImp (methods : C → List MethodList) (owner : C) (place : MethodPlace)
    (imp : IMP) (c : C) (place' : MethodPlace) :
    nameAt (writeImp methods owner place imp c) place' = nameAt (methods c) place' := by
  rw [nameAt_eq, nameAt_eq, map_names_writeImp]

theorem nameAt_eq_none_iff (mlists : List MethodList) (place : MethodPlace) :
    nameAt mlists place = none ↔ impAt mlists place = none := by
  simp only [nameAt, impAt, bind_eq_none_iff, map_eq_none_iff]

variable {place : MethodPlace} {imp : IMP}

theorem exists_nameAt (h : impAt mlists place = some imp) :
    ∃ name, nameAt mlists place = some name := by
  apply ne_none_iff_exists'.mp
  intro hnone
  rw [(nameAt_eq_none_iff mlists place).mp hnone] at h
  cases h

variable {name : SEL}

theorem exists_impAt (h : nameAt mlists place = some name) :
    ∃ imp, impAt mlists place = some imp := by
  apply ne_none_iff_exists'.mp
  intro hnone
  rw [(nameAt_eq_none_iff mlists place).mpr hnone] at h
  cases h

theorem filter_modify_of_not {α : Type} (p : α → Bool) (g : α → α) (hpg : ∀ a, p (g a) = p a) :
    ∀ (l : List α) (j : Nat), (∀ a, l[j]? = some a → p a = false) →
      (l.modify j g).filter p = l.filter p := by
  intro l
  induction l with
  | nil => intro j _; simp
  | cons a l ih => ?_
  intro j hj
  cases j with
  | zero =>
    have ha := hj a rfl
    rw [modify_zero_cons, filter_cons_of_neg (by rw [hpg, ha]; exact Bool.false_ne_true),
      filter_cons_of_neg (by rw [ha]; exact Bool.false_ne_true)]
  | succ j =>
    rw [modify_succ_cons, filter_cons, filter_cons, ih j hj]

theorem getLast?_setImpAt {mlist : MethodList} (hlast : mlists.getLast? = some mlist)
    (place : MethodPlace) (imp : IMP) :
    ∃ mlist', (setImpAt mlists place imp).getLast? = some mlist' ∧
      ∀ k, (∀ name, nameAt mlists place = some name → k.isSelector name = false) →
        mlist'.ofKind k = mlist.ofKind k := by
  rw [getLast?_eq_getElem?] at hlast ⊢
  rw [setImpAt, length_modify, getElem?_modify, hlast]
  by_cases heq : place.1 = mlists.length - 1
  · refine ⟨mlist.setImp place.2 imp, by simp [heq], fun k hk => ?_⟩
    refine filter_modify_of_not (fun m => k.isSelector m.name) (fun m => { m with imp := imp })
      (fun _ => rfl) mlist.methods place.2 fun m hm => ?_
    refine hk m.name ?_
    rw [nameAt, heq, hlast, bind_some, hm, map_some]
  · exact ⟨mlist, by simp [heq], fun _ _ => rfl⟩

variable (h : BaseInv K.toClassImage (Kept K F) s fun _ => False)
include h

theorem BaseInv.writeImp {owner : C}
    (hname : nameAt (s.methods owner) place = some name)
    (hs' : Rewritten (writeImp s.methods owner place imp) s s') :
    BaseInv K.toClassImage (Kept K (F.noteWritten K owner name)) s' fun _ => False := by
  have hwritten : ∀ k, (F.noteWritten K owner name).written k = false →
      F.written k = false ∧ (owner = K.special k → k.isSelector name = false) := by
    intro k hk
    have hk' : (F.written k || (decide (owner = K.special k) && k.isSelector name)) = false := hk
    rw [Bool.or_eq_false_iff, Bool.and_eq_false_iff, decide_eq_false_iff_not] at hk'
    exact ⟨hk'.1, fun howner => hk'.2.resolve_left fun hne => hne howner⟩
  refine ⟨fun c hc => ?_, fun c list hc hnot hlist => ?_⟩
  · rw [hs'.realized] at hc
    have hnames := map_names_writeImp s.methods owner place imp c
    rw [h.raw c hc, map_nil, map_eq_nil_iff] at hnames
    rw [hs'.methods, hnames]
  rw [hs'.realized] at hc
  obtain ⟨mlist, hlast, hkept⟩ := h.based c list hc hnot hlist
  rw [hs'.methods]
  by_cases heq : c = owner
  · subst heq
    obtain ⟨mlist', hlast', hsame⟩ := getLast?_setImpAt hlast place imp
    refine ⟨mlist', ?_, fun k hspecial hk list' hlist' => ?_⟩
    · rwa [ObjcRuntime.writeImp, update_self]
    obtain ⟨hold, hsel⟩ := hwritten k hk
    rw [hsame k fun name' hname' => ?_]
    · exact hkept k hspecial hold list' hlist'
    · rw [← some.inj (hname.symm.trans hname')]
      exact hsel hspecial
  · refine ⟨mlist, ?_, fun k hspecial hk => hkept k hspecial (hwritten k hk).1⟩
    rwa [ObjcRuntime.writeImp, update_of_ne heq]

omit [DecidableEq C] in
theorem BaseInv.lowered
    (hwritten : F'.written = F.written) : BaseInv K.toClassImage (Kept K F') s fun _ => False := by
  unfold Kept at h ⊢
  rw [hwritten]
  exact h

end

/-! ## The calls keep the invariant -/

structure FlagsInv (K : NSObjectImage C) (s : ClassState C) (F : DefaultFlags C) : Prop where
  base : BaseInv K.toClassImage (Kept K F) s fun _ => False
  flags : ∀ k, DefaultInv K s F k

theorem FlagsInv.rewritten (hbase : BaseInv K.toClassImage (Kept K F) s' fun _ => False)
    (h : ∀ k, DefaultInv K s F k) (hs' : Rewritten methods s s')
    (hnames : ∀ c, (methods c).map MethodList.names = (s.methods c).map MethodList.names) :
    FlagsInv K s' F := by
  refine ⟨hbase, fun k => (h k).carry hs'.superclass (fun c hc => hs'.realized ▸ hc)
    hs'.initialized fun c hd => ?_⟩
  rw [clean_scannedLists_congr (hs'.methods ▸ hnames c)]
  exact (h k).clean c hd

theorem FlagsInv.attach [Fintype C] (h : FlagsInv K s F) (htree : TreeInv K.toClassImage s)
    (hcls : s.realized cls = true) (hprepare : F.prepareMethodLists K s cls mlists = some F')
    (hs' : Rewritten (update s.methods cls (mlists ++ s.methods cls)) s s') :
    FlagsInv K s' F' := by
  obtain ⟨hflags, hl, hclean⟩ := scanLists_spec htree mlists
    (fun k => (h.flags k).toDefaultBase) hprepare
  refine ⟨(h.base.attach hcls hs').lowered hl.written, fun k => ?_⟩
  have hinv : DefaultInv K s F' k :=
    ⟨hflags k, fun hw => ((h.flags k).written (hl.written ▸ hw)).lowered hl⟩
  refine hinv.carry hs'.superclass (fun c hc => hs'.realized ▸ hc) hs'.initialized fun c hd => ?_
  by_cases heq : c = cls
  · subst heq
    have hmethods : s'.methods c = mlists ++ s.methods c := by
      rw [hs'.methods, update_self]
    exact clean_scannedLists_append hmethods (h.base.ne_nil hcls) (hclean k hd) (hinv.clean c hd)
  · rw [clean_scannedLists_congr (s := s)]
    · exact hinv.clean c hd
    · rw [hs'.methods, update_of_ne heq]

theorem FlagsInv.realizeClass [Fintype C] (h : FlagsInv K s F) (htree : TreeInv K.toClassImage s)
    (hrun : s.realizeClass K.toClassImage (Fintype.card C + 1) cls = some s') :
    FlagsInv K s' F := by
  obtain ⟨s1, hrun1, hgrown, _, _⟩ := htree.realizeClass cls
  obtain rfl : s1 = s' := some.inj (hrun1.symm.trans hrun)
  refine ⟨h.base.realizeClass htree (fun c list hlist k _ _ list' hlist' => ?_) hrun,
    fun k => (h.flags k).carry hgrown.superclass hgrown.realized hgrown.initialized fun c hd => ?_⟩
  · rw [some.inj (hlist.symm.trans hlist')]
  rw [clean_scannedLists_congr (s := s)]
  · exact (h.flags k).clean c hd
  · rw [hgrown.methods c ((h.flags k).live c hd).1]

section

variable {s s' : FlaggedState C} (h : FlagsInv K s.classes s.flags)
  (htree : TreeInv K.toClassImage s.classes)

include h htree

theorem FlagsInv.setImplementation [Fintype C] {cls : Option C} {owner : C} {place : MethodPlace}
    (hrun : s._method_setImplementation K cls owner place imp = some s') :
    FlagsInv K s'.classes s'.flags := by
  obtain ⟨r, hr, hrun⟩ := bind_eq_some_iff.mp hrun
  rw [ClassState._method_setImplementation] at hr
  split at hr
  next hnone =>
    cases hr
    rw [(nameAt_eq_none_iff _ place).mpr hnone] at hrun
    cases hrun
    exact h
  rename_i old hold
  obtain ⟨name, hname⟩ := exists_nameAt hold
  rw [hname] at hrun
  simp only at hrun
  split at hr
  next himp =>
    rw [if_pos himp] at hrun
    cases hr
    cases hrun
    exact h
  rename_i himp
  rw [if_neg himp] at hrun
  obtain ⟨s1, hflush, rfl⟩ := map_eq_some_iff.mp hr
  obtain ⟨F', hupdate, rfl⟩ := map_eq_some_iff.mp hrun
  have hs1 : Rewritten (writeImp s.classes.methods owner place imp) s.classes s1 :=
    .of_flushCaches hflush
  obtain ⟨hflags, hl, hnever⟩ := updateCustomRR_AWZ_spec (Q := fun _ => False) htree
    (fun k => (h.flags k).noteWritten owner name)
    (fun k hk => (written_noteWritten hk).imp (h.flags k).written Or.inl) hupdate
  exact .rewritten ((h.base.writeImp hname hs1).lowered hl.written)
    (fun k => ⟨hflags k, fun hk => (hnever k hk).resolve_right id⟩) hs1
    (map_names_writeImp _ owner place imp)

theorem FlagsInv.exchangeImplementations [Fintype C]
    {owner1 owner2 : C} {place1 place2 : MethodPlace}
    (hrun : s.method_exchangeImplementations K owner1 place1 owner2 place2 = some s') :
    FlagsInv K s'.classes s'.flags := by
  obtain ⟨classes, hr, hrun⟩ := bind_eq_some_iff.mp hrun
  rw [ClassState.method_exchangeImplementations] at hr
  split at hr
  next imp1 imp2 himp1 himp2 =>
    -- there is a method at both places
    obtain ⟨name1, hname1⟩ := exists_nameAt himp1
    obtain ⟨name2, hname2⟩ := exists_nameAt himp2
    rw [hname1, hname2] at hrun
    obtain ⟨F₁, hfirst, hrun⟩ := bind_eq_some_iff.mp hrun
    obtain ⟨F₂, hsecond, rfl⟩ := map_eq_some_iff.mp hrun
    -- the flags
    have hnoted : ∀ k, DefaultBase K s.classes (fun _ => False)
        ((s.flags.noteWritten K owner1 name1).noteWritten K owner2 name2) k := fun k =>
      ⟨(h.flags k).live, (h.flags k).up, (h.flags k).clean, (h.flags k).swizzled⟩
    obtain ⟨hflags1, hl1, hnever1⟩ := updateCustomRR_AWZ_spec
      (Q := fun k => owner2 = K.special k ∧ k.isSelector name2 = true) htree hnoted
      (fun k hk => (written_noteWritten hk).elim
        (fun hk => (written_noteWritten hk).imp (h.flags k).written Or.inl)
        fun hk => Or.inr (Or.inr hk)) hfirst
    obtain ⟨hflags2, hl2, hnever2⟩ := updateCustomRR_AWZ_spec (Q := fun _ => False) htree hflags1
      (fun k hk => (hnever1 k (hl1.written ▸ hk)).imp_right Or.inl) hsecond
    -- the methods
    have hs1 : Rewritten (writeImp s.classes.methods owner1 place1 imp2) s.classes
        { s.classes with methods := writeImp s.classes.methods owner1 place1 imp2 } :=
      ⟨rfl, rfl, rfl, rfl⟩
    have hs2 : Rewritten (writeImp (writeImp s.classes.methods owner1 place1 imp2) owner2 place2
        imp1) s.classes classes := .of_flushCaches hr
    have hs12 : Rewritten (writeImp (writeImp s.classes.methods owner1 place1 imp2) owner2 place2
        imp1) { s.classes with methods := writeImp s.classes.methods owner1 place1 imp2 } classes :=
      { hs2 with }
    have hbase := (h.base.writeImp hname1 hs1).writeImp
      ((nameAt_writeImp _ owner1 place1 imp2 owner2 place2).trans hname2) hs12
    refine .rewritten (hbase.lowered ((hl1.trans hl2).written))
      (fun k => ⟨hflags2 k, fun hk => (hnever2 k hk).resolve_right id⟩) hs2 fun c => ?_
    rw [map_names_writeImp, map_names_writeImp]
  rename_i hnone
  cases hr
  -- one of the places has no method, and nothing happens
  split at hrun
  next name1 name2 hname1 hname2 =>
    obtain ⟨imp1, himp1⟩ := exists_impAt hname1
    obtain ⟨imp2, himp2⟩ := exists_impAt hname2
    exact absurd himp2 (hnone imp1 imp2 himp1)
  cases hrun
  exact h

theorem FlagsInv.addMethod [Fintype C] {replace : Bool}
    (hrun : s.addMethod K cls name imp replace = some s') : FlagsInv K s'.classes s'.flags := by
  unfold FlaggedState.addMethod at hrun
  split at hrun
  next place hplace =>
    split at hrun
    next => exact h.setImplementation htree hrun
    rename_i hnot
    obtain ⟨r, hr, rfl⟩ := map_eq_some_iff.mp hrun
    obtain ⟨hreal, hr⟩ := ite_none_right_eq_some.mp hr
    rw [hplace] at hr
    simp only at hr
    rw [if_neg fun hreplace => hnot ⟨hreplace, hreal⟩] at hr
    cases hr
    exact h
  rename_i hplace
  obtain ⟨r, hr, hrun⟩ := bind_eq_some_iff.mp hrun
  obtain ⟨F', hprepare, rfl⟩ := map_eq_some_iff.mp hrun
  obtain ⟨hreal, hr⟩ := ite_none_right_eq_some.mp hr
  rw [hplace] at hr
  obtain ⟨s1, hflush, rfl⟩ := map_eq_some_iff.mp hr
  exact h.attach htree hreal hprepare (.of_flushCaches hflush)

theorem FlagsInv.discoverCategoryFor [Fintype C] {cat : Category}
    (hrun : s.discoverCategoryFor K cat cls = some s') : FlagsInv K s'.classes s'.flags := by
  obtain ⟨classes, hr, hrun⟩ := bind_eq_some_iff.mp hrun
  unfold ClassState.discoverCategoryFor at hr
  split at hrun
  next hreal =>
    obtain ⟨F', hprepare, rfl⟩ := map_eq_some_iff.mp hrun
    rw [if_pos (show (s.classes.addUnattachedCategoryForClass cat cls).realized cls = true
      from hreal), remethodizeClass, attachCategories] at hr
    have hunattached : (s.classes.addUnattachedCategoryForClass cat cls).unattachedCategories cls
        = s.classes.unattachedCategories cls ++ [cat] := update_self _ _ _
    rw [hunattached] at hr
    refine h.attach htree hreal hprepare ?_
    split at hr
    next =>
      obtain ⟨hlinks, hrealized, hinitialized, hmethods⟩ := Rewritten.of_flushCaches hr
      exact ⟨hlinks, hrealized, hinitialized, hmethods⟩
    cases hr
    exact ⟨rfl, rfl, rfl, rfl⟩
  rename_i hreal
  cases hrun
  rw [if_neg (show ¬ (s.classes.addUnattachedCategoryForClass cat cls).realized cls = true
    from hreal)] at hr
  cases hr
  have hsame : Rewritten s.classes.methods s.classes
      (s.classes.addUnattachedCategoryForClass cat cls) := ⟨rfl, rfl, rfl, rfl⟩
  exact .rewritten ⟨h.base.raw, h.base.based⟩ h.flags hsame fun _ => rfl

theorem FlagsInv.setSuperclass [Fintype C] {newSuper : C}
    (hrun : s.setSuperclass K cls newSuper = some s') : FlagsInv K s'.classes s'.flags := by
  obtain ⟨hmovable, hrun⟩ := ite_none_right_eq_some.mp hrun
  obtain ⟨r, hr, hrun⟩ := bind_eq_some_iff.mp hrun
  obtain ⟨F₁, hfirst, hrun⟩ := bind_eq_some_iff.mp hrun
  obtain ⟨F₂, hsecond, rfl⟩ := map_eq_some_iff.mp hrun
  have hm := movable_iff htree hmovable
  obtain ⟨r', hr', htree', hsuper, hrealized, hinitialized, hmethods, _⟩ := htree.setSuperclass hm
  obtain rfl : r' = r := some.inj (hr'.symm.trans hr)
  have hisa : r'.2.superclass (K.isa cls) = some (K.isa newSuper) := by
    rw [hsuper, moved, update_self]
  have hcls : r'.2.superclass cls = some newSuper := by
    rw [hsuper, moved, update_of_ne (K.ne_isa hm.cls_class cls), update_self]
  have hinit : r'.2.isInitialized K.toClassImage = s.classes.isInitialized K.toClassImage :=
    isInitialized_congr hinitialized
  -- in the new tree, all but the two classes have the flags of their superclasses
  have hmoved : ∀ k, DefaultBase K r'.2 (fun c => c = K.isa cls ∨ c = cls) s.flags k := by
    intro k
    refine ⟨fun c hd => ?_, fun c hex hd => ?_, fun c hd => ?_, (h.flags k).swizzled⟩
    · rw [hrealized, hinit]
      exact (h.flags k).live c hd
    · rw [hsuper, moved, update_of_ne fun he => hex (.inl he),
        update_of_ne fun he => hex (.inr he)]
      exact (h.flags k).up c id hd
    · rw [clean_scannedLists_congr (s := s.classes) (by rw [hmethods])]
      exact (h.flags k).clean c hd
  obtain ⟨hflags1, hl1⟩ := addSubclass_flags htree' hmoved hcls hfirst
  have hmeta : ∀ k, DefaultBase K r'.2 (fun c => False ∨ c = K.isa cls) F₁ k := fun k =>
    ⟨(hflags1 k).live, fun c hex => (hflags1 k).up c fun he => hex (.inr he),
      (hflags1 k).clean, (hflags1 k).swizzled⟩
  obtain ⟨hflags2, hl2⟩ := addSubclass_flags htree' hmeta hisa hsecond
  have hl := hl1.trans hl2
  refine ⟨?_, fun k => ⟨hflags2 k, fun hk => ?_⟩⟩
  · have hbase : BaseInv K.toClassImage (Kept K s.flags) r'.2 fun _ => False := by
      refine ⟨fun c hc => ?_, fun c list hc => ?_⟩
      · rw [hrealized] at hc
        rw [hmethods]
        exact h.base.raw c hc
      rw [hrealized] at hc
      rw [hmethods]
      exact h.base.based c list hc
    exact hbase.lowered hl.written
  · have hnever := ((h.flags k).written (hl.written ▸ hk)).lowered hl
    unfold NeverDefault at hnever ⊢
    rwa [hinit]

end

/-! ## `setInitialized` -/

/-- What `setInitialized` finds before it sets a flag. -/
structure MayDefault (K : NSObjectImage C) (s : ClassState C) (F : DefaultFlags C)
    (k : DefaultFlag) (cls : C) : Prop where
  not_swizzled : F.swizzled k = false
  up : cls = K.special k ∨ ∃ p, s.superclass cls = some p ∧ F.hasDefault k p = true
  clean : Clean k (scannedLists K s k cls)

section

theorem mayDefault_of_metaCustomAWZ {metacls : C}
    (h : F.metaCustomAWZ K s metacls = some false) : MayDefault K s F .awz metacls := by
  unfold metaCustomAWZ at h
  split at h
  next => cases h
  rename_i hswizzled
  have hswizzled := Bool.eq_false_iff.mpr hswizzled
  split at h
  next heq =>
    refine ⟨hswizzled, .inl heq, ?_⟩
    rw [scannedLists, if_pos (show metacls = K.special .awz from heq)]
    exact clean_of_any (some.inj h)
  rename_i hne
  split at h
  next => cases h
  rename_i supercls hsuper
  split at h
  next hdefault =>
    refine ⟨hswizzled, .inr ⟨supercls, hsuper, hdefault⟩, ?_⟩
    rw [scannedLists, if_neg (show ¬ metacls = K.special .awz from hne)]
    exact clean_of_any (some.inj h)
  next => cases h

theorem mayDefault_of_clsCustomRR (h : F.clsCustomRR K s cls = false) :
    MayDefault K s F .rr cls := by
  unfold clsCustomRR at h
  rw [Bool.or_eq_false_iff] at h
  obtain ⟨hswizzled, h⟩ := h
  split at h
  next heq =>
    refine ⟨hswizzled, .inl heq, ?_⟩
    rw [scannedLists, if_pos (show cls = K.special .rr from heq)]
    exact clean_of_any h
  rename_i hne
  split at h
  next => cases h
  rename_i supercls hsuper
  split at h
  next hdefault =>
    refine ⟨hswizzled, .inr ⟨supercls, hsuper, hdefault⟩, ?_⟩
    rw [scannedLists, if_neg (show ¬ cls = K.special .rr from hne)]
    exact clean_of_any h
  next => cases h

theorem setDefault_cases {custom : Bool} {target : C}
    (hmay : custom = false → MayDefault K s F k target)
    (hF' : (if custom then F else F.setDefault k target) = F') :
    (F'.hasDefault k = F.hasDefault k ∨
      F'.hasDefault k = update (F.hasDefault k) target true ∧ MayDefault K s F k target) ∧
    (∀ k', k' ≠ k → F'.hasDefault k' = F.hasDefault k') ∧ F'.swizzled = F.swizzled ∧
      F'.written = F.written := by
  subst hF'
  cases custom with
  | true => exact ⟨.inl rfl, fun _ _ => rfl, rfl, rfl⟩
  | false => ?_
  refine ⟨.inr ⟨?_, hmay rfl⟩, fun k' hk => ?_, rfl, rfl⟩
  · show update F.hasDefault k _ k = _
    rw [update_self]
  · show update F.hasDefault k _ k' = _
    rw [update_of_ne hk]

theorem isInitialized_setInitialized {K : ClassImage C} {c : C} :
    (s.setInitialized K cls).isInitialized K c = true ↔
      K.getMeta c = K.getMeta cls ∨ s.isInitialized K c = true := by
  show update s.initialized (K.getMeta cls) true (K.getMeta c) = true ↔
    _ ∨ s.initialized (K.getMeta c) = true
  by_cases heq : K.getMeta c = K.getMeta cls <;> simp [heq]

theorem DefaultInv.setInitialized (h : DefaultInv K s F k) {target : C}
    (htarget : K.getMeta target = K.getMeta cls) (hmeta : K.isMeta target = k.ofMeta)
    (hrealized : s.realized target = true)
    (hbefore : s.isInitialized K.toClassImage target = false)
    (hset : F'.hasDefault k = F.hasDefault k ∨
      F'.hasDefault k = update (F.hasDefault k) target true ∧ MayDefault K s F k target)
    (hswizzled : F'.swizzled k = F.swizzled k) (hwritten : F'.written k = F.written k) :
    DefaultInv K (s.setInitialized K.toClassImage cls) F' k := by
  have hmono : ∀ c, F.hasDefault k c = true → F'.hasDefault k c = true := by
    intro c hd
    rcases hset with heq | ⟨heq, _⟩
    · rwa [heq]
    rw [heq, update_apply]
    split
    · rfl
    · exact hd
  -- a class that has the flag had it before, or it is the one
  have hcases : ∀ c, F'.hasDefault k c = true →
      F.hasDefault k c = true ∨ c = target ∧ MayDefault K s F k target := by
    intro c hd
    rcases hset with heq | ⟨heq, hmay⟩
    · exact .inl (heq ▸ hd)
    by_cases hc : c = target
    · exact .inr ⟨hc, hmay⟩
    · rw [heq, update_of_ne hc] at hd
      exact .inl hd
  have hcustom : F.hasDefault k (K.special k) = false →
      (K.special k = target → ¬ MayDefault K s F k target) →
      F'.hasDefault k (K.special k) = false := by
    intro hold hnot
    apply Bool.eq_false_iff.mpr
    intro hd
    rcases hcases _ hd with hd | ⟨heq, hmay⟩
    · rw [hold] at hd
      cases hd
    · exact hnot heq hmay
  refine ⟨⟨fun c hd => ?_, fun c hex hd => ?_, fun c hd => ?_, fun hs => ?_⟩, fun hw => ?_⟩
  · rcases hcases c hd with hold | ⟨rfl, _⟩
    · obtain ⟨hreal, hinit, hm⟩ := h.live c hold
      exact ⟨hreal, isInitialized_setInitialized.mpr (.inr hinit), hm⟩
    · exact ⟨hrealized, isInitialized_setInitialized.mpr (.inl htarget), hmeta⟩
  · have hup : c = K.special k ∨ ∃ p, s.superclass c = some p ∧ F.hasDefault k p = true := by
      rcases hcases c hd with hold | ⟨rfl, hmay⟩
      · exact h.up c hex hold
      · exact hmay.up
    exact hup.imp_right fun ⟨p, hp, hpd⟩ => ⟨p, hp, hmono p hpd⟩
  · show Clean k (scannedLists K s k c)
    rcases hcases c hd with hold | ⟨rfl, hmay⟩
    · exact h.clean c hold
    · exact hmay.clean
  · rw [hswizzled] at hs
    refine hcustom (h.swizzled hs) fun _ hmay => ?_
    rw [hmay.not_swizzled] at hs
    cases hs
  rw [hwritten] at hw
  rcases h.written hw with hs | ⟨hinit, hold⟩
  · exact .inl (hswizzled ▸ hs)
  refine .inr ⟨isInitialized_setInitialized.mpr (.inr hinit), hcustom hold fun heq _ => ?_⟩
  rw [heq, hbefore] at hinit
  cases hinit

end

theorem FlagsInv.setInitialized [Fintype C]
    {s s' : FlaggedState C} (h : FlagsInv K s.classes s.flags)
    (htree : TreeInv K.toClassImage s.classes) (hrun : s.setInitialized K cls = some s') :
    FlagsInv K s'.classes s'.flags := by
  obtain ⟨hguard, hrun⟩ := ite_none_right_eq_some.mp hrun
  obtain ⟨hclass, hrealized, hbefore, _⟩ := hguard
  obtain ⟨F', hset, rfl⟩ := map_eq_some_iff.mp hrun
  unfold DefaultFlags.setInitialized at hset
  split at hset
  next => cases hset
  rename_i custom hcustom
  have hgetMeta : K.getMeta (K.isa cls) = K.getMeta cls := by
    rw [getMeta, getMeta, if_pos (K.isa_isMeta cls), hclass]
    rfl
  simp only [some_inj] at hset
  -- the flag of the metaclass, then that of the class
  generalize hF1 : (if custom = true then s.flags
    else s.flags.setDefault .awz (K.isa cls)) = F₁ at hset
  obtain ⟨hawz, hother, hswizzled, hwritten⟩ := setDefault_cases
    (fun heq => mayDefault_of_metaCustomAWZ (heq ▸ hcustom)) hF1
  obtain ⟨hrr', hother', hswizzled', hwritten'⟩ := setDefault_cases mayDefault_of_clsCustomRR hset
  have hrr : F₁.hasDefault .rr = s.flags.hasDefault .rr := hother .rr (by decide)
  have hawz' : F'.hasDefault .awz = F₁.hasDefault .awz := hother' .awz (by decide)
  refine ⟨?_, fun k => ?_⟩
  · have hbase : BaseInv K.toClassImage (Kept K s.flags)
        (s.classes.setInitialized K.toClassImage cls) fun _ => False :=
      ⟨h.base.raw, h.base.based⟩
    exact hbase.lowered (hwritten'.trans hwritten)
  cases k with
  | rr =>
    refine (h.flags .rr).setInitialized rfl hclass hrealized hbefore ?_
      (by rw [hswizzled', hswizzled]) (by rw [hwritten', hwritten])
    rw [hrr] at hrr'
    refine hrr'.imp_right fun ⟨heq, hmay⟩ => ⟨heq, ?_, ?_, hmay.clean⟩
    · rw [← hswizzled]
      exact hmay.not_swizzled
    · rw [← hrr]
      exact hmay.up
  | awz => ?_
  have hbefore' : s.classes.isInitialized K.toClassImage (K.isa cls) = false := by
    unfold isInitialized at hbefore ⊢
    rwa [hgetMeta]
  refine (h.flags .awz).setInitialized hgetMeta (K.isa_isMeta cls)
    (htree.growing.isa cls hrealized fun hf => hf) hbefore' (hawz' ▸ hawz)
    (by rw [hswizzled', hswizzled]) (by rw [hwritten', hwritten])

end ObjcRuntime
