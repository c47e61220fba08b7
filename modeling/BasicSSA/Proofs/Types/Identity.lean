import BasicSSA.Proofs.Types.Spelling

/-!
# The identity of types

Array, pointer and generic types and type parameters are made once for each spelling. So a catalog
gives one type to two requests whenever their parts are shown alike, be they the same types or not.

## Main definitions

* `Catalog.Reaches`: catalogs that come from another by operations with proper names;
* `Catalog.Tidy`: what holds of all catalogs that come from the initial one;
* `Catalog.Keeps`: what later catalogs keep of a catalog.

## Main results

* `Catalog.answer_eq_iff`: two requests get one type exactly when they are spelled alike;
* `Catalog.arrayOf_collision`: arrays of two different types that are one type.
-/

namespace BasicSSA

/-- A request for a type that is made once. -/
inductive Request where
  | array (element : TypeId) (rank : Nat)
  | pointer (target : TypeId)
  | generic (name : String) (args : List TypeId)
  | parameter (name : String)

/-- The types in a type. -/
def TypeShape.parts : TypeShape → List TypeId
  | array element _ => [element]
  | pointer target => [target]
  | generic args => args
  | _ => []

/-- What is said about a type once and for all. -/
structure TypeInfo.Alike (i j : TypeInfo) : Prop where
  name : i.name = j.name
  shape : i.shape = j.shape
  text : i.text = j.text

namespace Catalog

def Has (c : Catalog) (t : TypeId) : Prop :=
  t.index < c.types.size

instance (c : Catalog) (t : TypeId) : Decidable (c.Has t) :=
  inferInstanceAs (Decidable (t.index < c.types.size))

/-! ### Requests -/

/-- The type that is asked for; none if a generic type has no definition. -/
def answer (c : Catalog) : Request → Option (Catalog × TypeId)
  | .array element rank => some (c.arrayOf element rank)
  | .pointer target => some (c.pointerTo target)
  | .generic name args => c.genericOf name args
  | .parameter name => some (c.parameter name)

/-- A request is about types of the catalog, and names type parameters properly. -/
def Allows (c : Catalog) : Request → Prop
  | .array element _ => c.Has element
  | .pointer target => c.Has target
  | .generic _ args => ∀ t ∈ args, c.Has t
  | .parameter name => isName name

/-- How a request is spelled. -/
def spelling? (c : Catalog) : Request → Option Spelling
  | .array element rank => some (.array (max rank 1) (c.text element))
  | .pointer target => some (.pointer (c.text target))
  | .generic name args =>
    (c.find? name).map fun definition => .generic (c.name definition) (args.map c.text)
  | .parameter name => some (.parameter (foldCase name))

/-- How a type of a name and a shape is spelled. -/
def spells? (c : Catalog) (name : String) : TypeShape → Option Spelling
  | .array element rank => some (.array rank (c.text element))
  | .pointer target => some (.pointer (c.text target))
  | .generic args => some (.generic name (args.map c.text))
  | .parameter => some (.parameter (foldCase name))
  | _ => none

/-- How a type of the catalog is spelled: its rank, and its element type, target or arguments as
they are shown. -/
def spelled? (c : Catalog) (t : TypeId) : Option Spelling :=
  c.spells? (c.name t) (c.shape t)

/-! ### Operations -/

/-- An operation on a catalog, with a proper name for what it names. -/
inductive Step : Catalog → Catalog → Prop
  | define : isName n → c.define n kind = some (c', t) → Step c c'
  | defineAlias : c.Has t → c.defineAlias n t = some c' → Step c c'
  | setBase : Step c (c.setBase t u)
  | addInterface : Step c (c.addInterface t u)
  | setMember : Step c (c.setMember t n member)
  | answer : c.Allows r → c.answer r = some (c', t) → Step c c'

/-- The second catalog comes from the first one by operations. -/
inductive Reaches (c : Catalog) : Catalog → Prop
  | refl : Reaches c c
  | step : Reaches c c' → Step c' c'' → Reaches c c''

variable {c c' : Catalog}

/-! ### What stays -/

/-- What later catalogs keep. -/
structure Keeps (c c' : Catalog) : Prop where
  size : c.types.size ≤ c'.types.size
  info : ∀ t, c.Has t → (c'.info t).Alike (c.info t)
  find : ∀ n t, c.find? n = some t → c'.find? n = some t
  made : ∀ k t, c.made.lookup k = some t → c'.made.lookup k = some t

namespace Keeps

theorem refl : Keeps c c where
  size := Nat.le_refl _
  info _ _ := ⟨rfl, rfl, rfl⟩
  find _ _ h := h
  made _ _ h := h

section

variable (h : Keeps c c')

include h

theorem has (ht : c.Has t) : c'.Has t :=
  Nat.lt_of_lt_of_le ht h.size

theorem trans (h' : Keeps c' c'') : Keeps c c'' where
  size := Nat.le_trans h.size h'.size
  info t ht :=
    have first := h.info t ht
    have second := h'.info t (h.has ht)
    ⟨second.name.trans first.name, second.shape.trans first.shape, second.text.trans first.text⟩
  find n t hn := h'.find n t (h.find n t hn)
  made k t hk := h'.made k t (h.made k t hk)

theorem text (ht : c.Has t) : c'.text t = c.text t :=
  (h.info t ht).text

theorem name (ht : c.Has t) : c'.name t = c.name t :=
  (h.info t ht).name

theorem shape (ht : c.Has t) : c'.shape t = c.shape t :=
  (h.info t ht).shape

theorem spells (hparts : ∀ u ∈ i.parts, c.Has u) :
    c'.spells? n i = c.spells? n i := by
  cases i with
  | array element rank => simp [spells?, h.text (hparts element (by simp [TypeShape.parts]))]
  | pointer target => simp [spells?, h.text (hparts target (by simp [TypeShape.parts]))]
  | generic args =>
    have hargs : args.map c'.text = args.map c.text :=
      List.map_congr_left fun u hu => h.text (hparts u hu)
    simp [spells?, hargs]
  | _ => rfl

end

end Keeps

/-- A type that is kept under a text has the spelling of that text. -/
structure Entry (c : Catalog) (k : String) (t : TypeId) : Prop where
  has : c.Has t
  parts : ∀ u ∈ (c.shape t).parts, c.Has u
  spelled : ∃ s, c.spelled? t = some s ∧ s.Proper ∧ s.key = k

theorem Entry.keep (h : Entry c k t) (hk : Keeps c c') : Entry c' k t := by
  obtain ⟨s, hs, hproper, hkey⟩ := h.spelled
  refine ⟨hk.has h.has, fun u hu => hk.has (h.parts u (hk.shape h.has ▸ hu)), s, ?_, hproper, hkey⟩
  rw [spelled?, hk.name h.has, hk.shape h.has, hk.spells h.parts]
  exact hs

/-- What holds of a catalog at all times. -/
structure Tidy (c : Catalog) : Prop where
  title : ∀ t, c.Has t → IsTitle (c.name t)
  text : ∀ t, c.Has t → Nested 1 (c.text t).toList
  named : ∀ e ∈ c.named, c.Has e.2
  aliases : ∀ e ∈ c.aliases, c.Has e.2
  made : ∀ e ∈ c.made, c.Entry e.1 e.2

theorem mem_of_lookup {l : List (String × α)} (h : l.lookup k = some a) : (k, a) ∈ l := by
  obtain ⟨l₁, l₂, rfl, -⟩ := List.lookup_eq_some_iff.mp h
  simp

theorem find?_eq : c.find? n = (c.named.lookup (foldCase n)).or (c.aliases.lookup (foldCase n)) :=
  Option.orElse_eq_or

theorem Tidy.find (h : c.Tidy) (ht : c.find? n = some t) : c.Has t := by
  rw [find?_eq] at ht
  obtain hn | ⟨-, ha⟩ := Option.or_eq_some_iff.mp ht
  · exact h.named _ (mem_of_lookup hn)
  · exact h.aliases _ (mem_of_lookup ha)

/-! ### Operations keep a catalog tidy -/

section Added

theorem has_add : (c.add i).1.Has t ↔ c.Has t ∨ t = (c.add i).2 := by
  cases t
  simp [Has, Catalog.add]
  omega

theorem info_add (h : c.Has t) : (c.add i).1.info t = c.info t := by
  have hne : t.index ≠ c.types.size := Nat.ne_of_lt h
  simp [Catalog.add, info, Array.getElem?_push, hne]

theorem info_add_self : (c.add i).1.info (c.add i).2 = i := by
  simp [Catalog.add, info]

/-- The catalog has one more type than before. -/
structure Adds (c : Catalog) (i : TypeInfo) (c' : Catalog) : Prop where
  types : c'.types = (c.add i).1.types
  find : ∀ n t, c.find? n = some t → c'.find? n = some t
  made : ∀ k t, c.made.lookup k = some t → c'.made.lookup k = some t

theorem Adds.keeps (h : Adds c i c') : Keeps c c' where
  size := by simp [h.types, Catalog.add]
  info t ht := by
    have hinfo : c'.info t = c.info t := by rw [Catalog.info, h.types]; exact info_add ht
    exact hinfo ▸ ⟨rfl, rfl, rfl⟩
  find := h.find
  made := h.made

theorem Adds.info (h : Adds c i c') : c'.info (c.add i).2 = i := by
  rw [Catalog.info, h.types]
  exact info_add_self

theorem Adds.has (h : Adds c i c') : c'.Has t ↔ c.Has t ∨ t = (c.add i).2 := by
  rw [Has, h.types]
  exact has_add

theorem Adds.tidy (h : Adds c i c') (hc : c.Tidy) (htitle : IsTitle i.name)
    (htext : Nested 1 i.text.toList) (hnamed : ∀ e ∈ c'.named, e ∈ c.named ∨ e.2 = (c.add i).2)
    (haliases : c'.aliases = c.aliases) (hmade : ∀ e ∈ c'.made, e ∈ c.made ∨ c'.Entry e.1 e.2) :
    c'.Tidy where
  title t ht := by
    obtain ht | rfl := h.has.mp ht
    · exact h.keeps.name ht ▸ hc.title t ht
    · rwa [Catalog.name, h.info]
  text t ht := by
    obtain ht | rfl := h.has.mp ht
    · exact h.keeps.text ht ▸ hc.text t ht
    · rwa [Catalog.text, h.info]
  named e he := h.has.mpr ((hnamed e he).imp_left (hc.named e))
  aliases e he := h.keeps.has (hc.aliases e (haliases ▸ he))
  made e he := (hmade e he).elim (fun he => (hc.made e he).keep h.keeps) fun hnew => hnew

end Added

theorem lookup_cons_of_none {l : List (String × α)} (hk : l.lookup k = none)
    (ha : l.lookup k' = some a) : ((k, b) :: l).lookup k' = some a := by
  have hne : k' ≠ k := by
    rintro rfl
    rw [hk] at ha
    cases ha
  rw [List.lookup_cons, beq_false_of_ne hne, ha]

theorem find?_entry (hfree : c.find? n = none) (h : c.find? m = some t)
    (hc : c'.named = (foldCase n, u) :: c.named ∧ c'.aliases = c.aliases ∨
      c'.named = c.named ∧ c'.aliases = (foldCase n, u) :: c.aliases) : c'.find? m = some t := by
  have hne : (foldCase m == foldCase n) = false := by
    refine beq_false_of_ne fun he => ?_
    rw [find?_eq, he, ← find?_eq, hfree] at h
    cases h
  obtain ⟨hnamed, haliases⟩ | ⟨hnamed, haliases⟩ := hc <;>
    rw [find?_eq, hnamed, haliases, List.lookup_cons, hne, ← h, find?_eq]

theorem adds_named (hfree : c.find? n = none) :
    Adds c i { (c.add i).1 with named := (foldCase n, (c.add i).2) :: (c.add i).1.named } :=
  ⟨rfl, fun _ _ h => find?_entry hfree h (.inl ⟨rfl, rfl⟩), fun _ _ h => h⟩

theorem adds_made (hk : c.made.lookup k = none) :
    Adds c i { (c.add i).1 with made := (k, (c.add i).2) :: (c.add i).1.made } :=
  ⟨rfl, fun _ _ h => h, fun _ _ h => lookup_cons_of_none hk h⟩

theorem define_tidy (hc : c.Tidy) (hn : isName n) (h : c.define n kind = some (c', t)) :
    c'.Tidy ∧ Keeps c c' := by
  unfold Catalog.define at h
  split at h
  · cases h
  · rename_i hfree
    obtain ⟨shape, -, h⟩ := Option.map_eq_some_iff.mp h
    cases h
    have hfree : c.find? n = none := by simpa using hfree
    refine ⟨(adds_named hfree).tidy hc (isTitle_of_isName hn) ?_ ?_ rfl fun e he => .inl he,
      (adds_named hfree).keeps⟩
    · dsimp only
      split
      · exact (isTitle_of_isName hn).nested.genericText (by simp)
      · exact (isTitle_of_isName hn).nested
    · exact fun e he => (List.mem_cons.mp he).elim (fun he => .inr (he ▸ rfl)) .inl

theorem defineAlias_tidy (hc : c.Tidy) (ht : c.Has t) (h : c.defineAlias n t = some c') :
    c'.Tidy ∧ Keeps c c' := by
  unfold Catalog.defineAlias at h
  split at h
  · cases h
  · rename_i hfree
    cases h
    have hfree : c.find? n = none := by simpa using hfree
    have hkeeps : Keeps c { c with aliases := (foldCase n, t) :: c.aliases } :=
      { Keeps.refl with find := fun m u hm => find?_entry hfree hm (.inr ⟨rfl, rfl⟩) }
    refine ⟨⟨hc.title, hc.text, hc.named, ?_, fun e he => (hc.made e he).keep hkeeps⟩, hkeeps⟩
    intro e he
    obtain rfl | he := List.mem_cons.mp he
    · exact ht
    · exact hc.aliases e he

theorem keeps_modify (hf : ∀ i, (f i).Alike i) : Keeps c (c.modify t f) where
  size := by simp [Catalog.modify]
  info u hu := by
    simp only [Catalog.modify, info, Array.getD_eq_getD_getElem?, Array.getElem?_modify,
      Array.getElem?_eq_getElem hu]
    split
    · exact hf _
    · exact ⟨rfl, rfl, rfl⟩
  find _ _ h := h
  made _ _ h := h

theorem modify_tidy (hc : c.Tidy) (hf : ∀ i, (f i).Alike i) :
    (c.modify t f).Tidy ∧ Keeps c (c.modify t f) := by
  have hkeeps : Keeps c (c.modify t f) := keeps_modify hf
  have hhas (u : TypeId) (hu : (c.modify t f).Has u) : c.Has u := by
    simpa [Has, Catalog.modify] using hu
  refine ⟨⟨fun u hu => ?_, fun u hu => ?_, fun e he => hkeeps.has (hc.named e he),
    fun e he => hkeeps.has (hc.aliases e he), fun e he => (hc.made e he).keep hkeeps⟩, hkeeps⟩
  · exact hkeeps.name (hhas u hu) ▸ hc.title u (hhas u hu)
  · exact hkeeps.text (hhas u hu) ▸ hc.text u (hhas u hu)

/-! ### Answers -/

/-- A type that may be made under a spelling. -/
structure Fits (c : Catalog) (i : TypeInfo) (s : Spelling) : Prop where
  title : IsTitle i.name
  text : Nested 1 i.text.toList
  parts : ∀ u ∈ i.shape.parts, c.Has u
  spells : c.spells? i.name i.shape = some s
  proper : s.Proper

/-- The type under a spelling has that spelling, be it a new one or not. -/
theorem make_tidy (hc : c.Tidy) (hi : Fits c i s) (h : c.make s.key i = (c', t)) :
    (c'.Tidy ∧ Keeps c c') ∧ c'.made.lookup s.key = some t ∧ c'.spelled? t = some s := by
  unfold Catalog.make at h
  cases hk : c.made.lookup s.key with
  | some u =>
    rw [hk] at h
    cases h
    obtain ⟨s', hs', hproper, hkey⟩ := (hc.made _ (mem_of_lookup hk)).spelled
    exact ⟨⟨hc, .refl⟩, hk, Spelling.key_injective hproper hi.proper hkey ▸ hs'⟩
  | none =>
    rw [hk] at h
    cases h
    have hadds := adds_made (i := i) hk
    have hspelled : spelled? { (c.add i).1 with made := (s.key, (c.add i).2) :: (c.add i).1.made }
        (c.add i).2 = some s := by
      rw [spelled?, name, shape, hadds.info, hadds.keeps.spells hi.parts, hi.spells]
    refine ⟨⟨hadds.tidy hc hi.title hi.text (fun e he => .inl he) rfl fun e he => ?_, hadds.keeps⟩,
      List.lookup_cons_self, hspelled⟩
    obtain rfl | he := List.mem_cons.mp he
    · refine .inr ⟨hadds.has.mpr (.inr rfl), fun u hu => ?_, s, hspelled, hi.proper, rfl⟩
      rw [shape, hadds.info] at hu
      exact hadds.keeps.has (hi.parts u hu)
    · exact .inl he

/-- Every answer is made under the spelling of its request. -/
theorem answer_make (hc : c.Tidy) (hr : c.Allows r) (h : c.answer r = some (c', t)) :
    ∃ s i, c.spelling? r = some s ∧ Fits c i s ∧ c.make s.key i = (c', t) := by
  cases r with
  | array element rank =>
    refine ⟨_, _, rfl, ?_, Option.some.inj h⟩
    exact ⟨(hc.title _ hr).array, (hc.text _ hr).arrayText _,
      by simpa [TypeShape.parts, Allows] using hr, rfl, trivial⟩
  | pointer target =>
    refine ⟨_, _, rfl, ?_, Option.some.inj h⟩
    exact ⟨hc.title _ hr, (hc.text _ hr).pointerText,
      by simpa [TypeShape.parts, Allows] using hr, rfl, trivial⟩
  | generic n args =>
    obtain ⟨definition, hdef, h⟩ := Option.bind_eq_some_iff.mp h
    have hargs : ∀ s ∈ args.map c.text, Nested 1 s.toList := by
      intro s hs
      obtain ⟨t, ht, rfl⟩ := List.mem_map.mp hs
      exact hc.text t (hr t ht)
    have htitle := hc.title _ (hc.find hdef)
    refine ⟨.generic (c.name definition) (args.map c.text), _, by simp [spelling?, hdef], ?_,
      Option.some.inj h⟩
    exact ⟨htitle, htitle.nested.genericText hargs, hr, rfl, htitle, hargs⟩
  | parameter n =>
    refine ⟨_, _, rfl, ?_, Option.some.inj h⟩
    have htitle := isTitle_of_isName hr
    exact ⟨htitle, htitle.nested, by simp [TypeShape.parts], rfl, trivial⟩

theorem answer_tidy (hc : c.Tidy) (hr : c.Allows r) (h : c.answer r = some (c', t)) :
    (c'.Tidy ∧ Keeps c c') ∧ ∃ s, c.spelling? r = some s ∧ c'.made.lookup s.key = some t ∧
      c'.spelled? t = some s := by
  obtain ⟨s, i, hs, hi, hmake⟩ := answer_make hc hr h
  obtain ⟨htidy, hmade, hspelled⟩ := make_tidy hc hi hmake
  exact ⟨htidy, s, hs, hmade, hspelled⟩

theorem Step.tidy (h : Step c c') (hc : c.Tidy) : c'.Tidy ∧ Keeps c c' := by
  cases h with
  | define hn h => exact define_tidy hc hn h
  | defineAlias ht h => exact defineAlias_tidy hc ht h
  | setBase => exact modify_tidy hc fun _ => ⟨rfl, rfl, rfl⟩
  | addInterface => exact modify_tidy hc fun _ => ⟨rfl, rfl, rfl⟩
  | setMember => exact modify_tidy hc fun _ => ⟨rfl, rfl, rfl⟩
  | answer hr h => exact (answer_tidy hc hr h).1

theorem Reaches.tidy (h : Reaches c c') (hc : c.Tidy) : c'.Tidy ∧ Keeps c c' := by
  induction h with
  | refl => exact ⟨hc, .refl⟩
  | step _ hstep ih =>
    obtain ⟨htidy, hkeeps⟩ := ih
    obtain ⟨htidy, hkeeps'⟩ := hstep.tidy htidy
    exact ⟨htidy, hkeeps.trans hkeeps'⟩

theorem tidy_initial : initial.Tidy := by
  have htitle (t : TypeId) (ht : initial.Has t) : IsTitle (initial.name t) := by
    have h : ∀ k : Fin 10, isName (initial.name ⟨k⟩) := by decide
    exact isTitle_of_isName (h ⟨t.index, ht⟩)
  have htext (t : TypeId) (ht : initial.Has t) : initial.text t = initial.name t := by
    have h : ∀ k : Fin 10, initial.text ⟨k⟩ = initial.name ⟨k⟩ := by decide
    exact h ⟨t.index, ht⟩
  refine ⟨htitle, fun t ht => htext t ht ▸ (htitle t ht).nested, ?_, by simp [initial],
    by simp [initial]⟩
  have hnamed : ∀ e ∈ initial.named, e.2.index < 10 := by decide
  exact hnamed

/-- A request that is made again is spelled as before. -/
theorem Keeps.spelling (h : Keeps c c') (hr : c.Allows r) (hs : c.spelling? r = some s)
    (hc : c.Tidy) : c'.spelling? r = some s := by
  cases r with
  | array element rank => rwa [spelling?, h.text hr]
  | pointer target => rwa [spelling?, h.text hr]
  | generic n args =>
    obtain ⟨definition, hdef, rfl⟩ := Option.map_eq_some_iff.mp hs
    have hargs : args.map c'.text = args.map c.text :=
      List.map_congr_left fun t ht => h.text (hr t ht)
    simp [spelling?, h.find _ _ hdef, h.name (hc.find hdef), hargs]
  | parameter n => exact hs

/-- Whatever happens between two requests, they get one type exactly when their parts are shown
alike. The type has the rank that was asked for, and parts that are shown as those that were asked
for. A request that is made again gets its type again. -/
theorem answer_eq_iff {r r' : Request} (hc : Reaches initial c) (hr : c.Allows r)
    (h : c.answer r = some (d, t)) (hd : Reaches d c') (hr' : c'.Allows r')
    (h' : c'.answer r' = some (d', t')) :
    (t' = t ↔ c'.spelling? r' = c.spelling? r) ∧ d'.spelled? t' = c'.spelling? r' ∧
      (r' = r → t' = t) := by
  obtain ⟨htidy, -⟩ := hc.tidy tidy_initial
  obtain ⟨⟨hdtidy, hcd⟩, s, hs, hmade, hspelled⟩ := answer_tidy htidy hr h
  obtain ⟨htidy', hkeeps⟩ := hd.tidy hdtidy
  obtain ⟨⟨-, hkeeps'⟩, s', hs', hmade', hspelled'⟩ := answer_tidy htidy' hr' h'
  have hentry := hdtidy.made _ (mem_of_lookup hmade)
  have hlater := hkeeps.trans hkeeps'
  have hiff : t' = t ↔ c'.spelling? r' = c.spelling? r := by
    rw [hs, hs']
    constructor
    · rintro rfl
      rw [← hspelled, ← hspelled', spelled?, spelled?, hlater.name hentry.has,
        hlater.shape hentry.has, hlater.spells hentry.parts]
    · rintro ⟨⟩
      exact Option.some.inj (hmade'.symm.trans (hlater.made _ _ hmade))
  refine ⟨hiff, hspelled'.trans hs'.symm, ?_⟩
  rintro rfl
  exact hiff.mpr (((hcd.trans hkeeps).spelling hr hs htidy).trans hs.symm)

/-- An array of no dimensions is one of one dimension. -/
theorem arrayOf_noDims :
    ((initial.arrayOf .integer 0).1.arrayOf .integer 1).2 = (initial.arrayOf .integer 0).2 := by
  have hallows : initial.Allows (.array .integer 0) := by
    change initial.Has .integer
    decide
  have hallows' : (initial.arrayOf .integer 0).1.Allows (.array .integer 1) := by
    change (initial.arrayOf .integer 0).1.Has .integer
    decide
  refine (answer_eq_iff .refl hallows rfl .refl hallows' rfl).1.mpr ?_
  decide

/-- Parts that are shown alike need not be the same: of a class and a type parameter of one name,
and the arrays of them, the latter are one type, with the class as its element type. -/
theorem arrayOf_collision :
    let cls := (initial.define "T" .cls).getD (initial, .object)
    let param := cls.1.parameter "T"
    let first := param.1.arrayOf cls.2 1
    let second := first.1.arrayOf param.2 1
    cls.2 ≠ param.2 ∧ second.2 = first.2 ∧ second.1.element second.2 = some cls.2 := by
  decide +kernel

end Catalog

end BasicSSA
