import BasicSSA.Types.Conversion
import BasicSSA.Proofs.Types.Lineage

/-!
# The order of types

Among types without type parameters, whose generic types come from classes and interfaces, a type
takes the values of another one if it is the same, if it is `Object`, if the other one is the type
of `Nothing`, if a number widens, if the elements of arrays fit, or by inheritance. That is an order.

## Main definitions

* `Catalog.Plain`: types without type parameters, whose generic types come from classes and
  interfaces;
* `Catalog.Converts`: when a type takes the values of another one.

## Main results

* `Catalog.Lawful.isAssignable_iff`: what `isAssignable` decides for plain types;
* `Catalog.Converts.trans`, `Catalog.Converts.antisymm`: it is an order.
-/

namespace BasicSSA

namespace Catalog

/-- A type without type parameters in it, whose generic types come from classes and interfaces. -/
inductive Plain (c : Catalog) : TypeId → Prop
  | intro : c.isParameter t = false →
    (∀ args, c.shape t = .generic args →
      ∃ b, c.base t = some b ∧ (c.shape b = .cls ∨ c.shape b = .interface)) →
    (∀ u ∈ (c.shape t).parts, Plain c u) → Plain c t

/-- A type takes the values of another one. -/
inductive Converts (c : Catalog) : (target source : TypeId) → Prop
  | refl : Converts c t t
  | object : c.isVoid s = false → Converts c .object s
  | nothing : c.isReference t = true → Converts c t .nothing
  | widen : widens t s = true → Converts c t s
  | array : c.shape t = .array a n → c.shape s = .array b n → c.isReference a = true →
    c.isReference b = true → Converts c a b → Converts c t s
  | inherit : c.inherits t s = true → Converts c t s

variable {c : Catalog} {t : TypeId}

theorem Plain.not_parameter (h : c.Plain t) : c.isParameter t = false := by
  cases h
  assumption

theorem Plain.generic (h : c.Plain t) (hs : c.shape t = .generic args) :
    ∃ b, c.base t = some b ∧ (c.shape b = .cls ∨ c.shape b = .interface) := by
  cases h with
  | intro _ hg _ => exact hg args hs

theorem Plain.part (h : c.Plain t) (hu : u ∈ (c.shape t).parts) : c.Plain u := by
  cases h with
  | intro _ _ hp => exact hp u hu

/-! ### Basic types -/

theorem has_of_shape (h : c.shape t = i) (hi : i ≠ .primitive) : c.Has t := by
  by_contra hnot
  have hsize : c.types.size ≤ t.index := Nat.not_lt.mp hnot
  rw [shape, info, Array.getD_eq_getD_getElem?, Array.getElem?_eq_none hsize] at h
  exact hi h.symm

namespace Lawful

section

variable (hc : c.Lawful)

include hc

theorem shape_initial (ht : initial.Has t) : c.shape t = initial.shape t :=
  (hc.start t ht).2.1.shape

theorem initial_of_isBasic (ht : c.Has t) (hs : (c.shape t).isBasic = true) :
    initial.Has t := by
  by_contra hnot
  rw [hc.later t ht hnot] at hs
  cases hs

theorem shape_eq_null : c.shape t = .null ↔ t = .nothing := by
  constructor
  · intro h
    have hi := hc.initial_of_isBasic (has_of_shape h (by simp)) (by rw [h]; rfl)
    have hall : ∀ k : Fin 10, initial.shape ⟨k⟩ = .null → (⟨k⟩ : TypeId) = .nothing := by decide
    exact hall ⟨t.index, hi⟩ ((hc.shape_initial hi).symm.trans h)
  · rintro rfl
    exact hc.shape_initial (by decide)

theorem shape_object : c.shape .object = .cls :=
  hc.shape_initial (by decide)

theorem shape_of_isNumeric (h : t.isNumeric = true) : c.shape t = .primitive := by
  have hcases : t = .integer ∨ t = .long ∨ t = .single ∨ t = .double := by
    simpa [TypeId.isNumeric, TypeId.isIntegral, TypeId.isFloating, or_assoc] using h
  rcases hcases with rfl | rfl | rfl | rfl <;> exact hc.shape_initial (by decide)

end

/-! ### Inheritance -/

theorem shape_of_mem_bases (hc : c.Lawful) (hs : c.shape s = .cls) (hu : u ∈ c.bases s) :
    c.shape u = .cls := by
  have hl := hc.bases (has_of_shape hs (by simp))
  generalize c.bases s = l at hl hu
  induction hl with
  | last => exact List.mem_singleton.mp hu ▸ hs
  | next hb _ ih =>
    obtain rfl | hu := List.mem_cons.mp hu
    · exact hs
    · refine ih ?_ hu
      have hd := (hc.base hb).2
      rwa [Derives, show (c.info _).shape = .cls from hs] at hd

theorem inherits_iff : c.inherits t s = true ↔ ∃ u ∈ c.bases s,
    c.base u = some t ∨ c.shape t = .interface ∧ t ∈ (c.info u).interfaces := by
  simp [inherits]

section

variable (hc : c.Lawful)

include hc

theorem not_inherits (hs : c.Has s) (hb : c.base s = none)
    (hi : (c.info s).interfaces = []) : c.inherits t s = false := by
  rw [Bool.eq_false_iff]
  intro h
  obtain ⟨u, hu, h⟩ := inherits_iff.mp h
  rw [(hc.bases hs).unique (.last hb)] at hu
  cases List.mem_singleton.mp hu
  simp [hb, hi] at h

/-- Which types have bases. -/
theorem kind_of_base (hb : c.base t = some u) :
    (c.shape t).kind = .cls ∨ (c.shape t).kind = .array ∨ (c.shape t).kind = .generic := by
  have hd := (hc.base hb).2
  unfold Derives at hd
  rw [shape]
  split at hd
  all_goals simp_all [TypeShape.kind]

theorem base_eq_none (hcls : (c.shape t).kind ≠ .cls)
    (harray : (c.shape t).kind ≠ .array) (hgeneric : (c.shape t).kind ≠ .generic) :
    c.base t = none := by
  by_contra hne
  obtain ⟨b, hb⟩ := Option.ne_none_iff_exists'.mp hne
  rcases hc.kind_of_base hb with h | h | h
  · exact hcls h
  · exact harray h
  · exact hgeneric h

theorem base_of_interface (h : c.shape t = .interface) : c.base t = none :=
  hc.base_eq_none (by simp [h, TypeShape.kind]) (by simp [h, TypeShape.kind])
    (by simp [h, TypeShape.kind])

theorem interfaces_eq_nil (ht : c.Has t) (hcls : (c.shape t).kind ≠ .cls)
    (hgeneric : (c.shape t).kind ≠ .generic) : (c.info t).interfaces = [] := by
  refine List.eq_nil_iff_forall_not_mem.mpr fun u hu => ?_
  exact ((hc.accepts t ht).interfaces u hu).2.elim hcls hgeneric

theorem shape_of_inherits (hs : c.Has s) (hp : c.Plain s)
    (h : c.inherits t s = true) : c.shape t = .cls ∨ c.shape t = .interface := by
  cases hb : c.base s with
  | none =>
    obtain ⟨u, hu, h | ⟨hi, -⟩⟩ := inherits_iff.mp h
    · rw [(hc.bases hs).unique (.last hb)] at hu
      simp [List.mem_singleton.mp hu, hb] at h
    · exact .inr hi
  | some b =>
    obtain ⟨hbhas, hd⟩ := hc.base hb
    have hshape : c.shape b = .cls ∨ c.shape b = .interface := by
      unfold Derives at hd
      split at hd
      · exact .inl hd
      · exact .inl (hd ▸ hc.shape_object)
      · rename_i args hargs
        obtain ⟨b', hb', hshape⟩ := hp.generic hargs
        cases Option.some.inj (hb.symm.trans hb')
        exact hshape
      · exact hd.elim
    obtain ⟨u, hu, hut | ⟨hi, -⟩⟩ := inherits_iff.mp h
    · rw [(hc.bases hs).unique (.next hb (hc.bases hbhas))] at hu
      obtain rfl | hu := List.mem_cons.mp hu
      · exact Option.some.inj (hb.symm.trans hut) ▸ hshape
      · rcases hshape with hcls | hinterface
        · exact .inl (hc.shape_of_mem_bases hcls (hc.mem_bases hbhas hu hut))
        · rw [(hc.bases hbhas).unique (.last (hc.base_of_interface hinterface))] at hu
          simp [List.mem_singleton.mp hu, hc.base_of_interface hinterface] at hut
    · exact .inr hi

theorem not_inherits_interface (hs : c.shape s = .interface) :
    c.inherits t s = false := by
  have hhas : c.Has s := has_of_shape hs (by simp)
  exact hc.not_inherits hhas (hc.base_of_interface hs)
    (hc.interfaces_eq_nil hhas (by simp [hs, TypeShape.kind]) (by simp [hs, TypeShape.kind]))

theorem inherits_trans (hs : c.Has s) (h : c.inherits t s = true)
    (h' : c.inherits u t = true) : c.inherits u s = true := by
  obtain ⟨v, hv, hvt | ⟨hi, -⟩⟩ := inherits_iff.mp h
  · have ht := hc.mem_bases hs hv hvt
    obtain ⟨w, hw, hwu⟩ := inherits_iff.mp h'
    exact inherits_iff.mpr ⟨w, (hc.bases_suffix hs ht).subset hw, hwu⟩
  · rw [hc.not_inherits_interface hi] at h'
    cases h'

/-- Two types that inherit each other are one: each lineage ends in the other one. -/
theorem inherits_antisymm (hs : c.Has s) (ht : c.Has t)
    (h : c.inherits t s = true) (h' : c.inherits s t = true) : s = t := by
  obtain ⟨v, hv, hvt | ⟨hi, -⟩⟩ := inherits_iff.mp h
  · obtain ⟨w, hw, hws | ⟨hi, -⟩⟩ := inherits_iff.mp h'
    · have hts := hc.bases_suffix hs (hc.mem_bases hs hv hvt)
      have hst := hc.bases_suffix ht (hc.mem_bases ht hw hws)
      have heq := hts.eq_of_length (Nat.le_antisymm hts.length_le hst.length_le)
      exact (hc.bases hs).head_unique (heq ▸ hc.bases ht)
    · rw [hc.not_inherits_interface hi] at h
      cases h
  · rw [hc.not_inherits_interface hi] at h'
    cases h'

end

end Lawful

/-! ### Arrays of arrays -/

/-- Whether a type takes the values of another one, with another rule for the elements of arrays. -/
def takes (c : Catalog) (elements : TypeId → TypeId → Bool) (target source : TypeId) : Bool :=
  if target = source then true
  else if c.isParameter target || c.isParameter source then true
  else if target = .object then !c.isVoid source
  else if c.shape source = .null then c.isReference target
  else if target.isNumeric && source.isNumeric then widens target source
  else
    match c.shape target, c.shape source with
    | .array a m, .array b n =>
      m = n && (a = b || (c.isReference a && c.isReference b && elements a b))
    | .pointer a, .pointer b => a = b
    | .generic as, .generic bs => c.base target = c.base source && c.argsFit as bs
    | _, _ => c.inherits target source

theorem takes_congr
    (h : ∀ a n b, c.shape t = .array a n → f a b = g a b) : c.takes f t s = c.takes g t s := by
  unfold takes
  split <;> try rfl
  split <;> try rfl
  split <;> try rfl
  split <;> try rfl
  split <;> try rfl
  split <;> try rfl
  rename_i ht hs
  rw [h _ _ _ ht]

theorem takes_cases (h : c.takes f t s = true) :
    t = s ∨ c.isParameter t = true ∨ c.isParameter s = true ∨
    (t = .object ∧ c.isVoid s = false) ∨ (c.shape s = .null ∧ c.isReference t = true) ∨
    widens t s = true ∨
    (∃ a b n, c.shape t = .array a n ∧ c.shape s = .array b n ∧
      (a = b ∨ c.isReference a = true ∧ c.isReference b = true ∧ f a b = true)) ∨
    (∃ a, c.shape t = .pointer a ∧ c.shape s = .pointer a) ∨
    (∃ as bs, c.shape t = .generic as ∧ c.shape s = .generic bs ∧ c.base t = c.base s ∧
      c.argsFit as bs = true) ∨
    c.inherits t s = true := by
  unfold takes at h
  split at h
  · exact .inl ‹_›
  split at h
  · rename_i hp
    rcases Bool.or_eq_true_iff.mp hp with hp | hp <;> simp [hp]
  split at h
  · simp_all
  split at h
  · simp_all
  split at h
  · simp_all
  split at h
  · rename_i a m b n hta hsb
    simp only [Bool.and_eq_true, Bool.or_eq_true, decide_eq_true_eq] at h
    obtain ⟨rfl, h⟩ := h
    refine .inr (.inr (.inr (.inr (.inr (.inr (.inl ⟨a, b, m, hta, hsb, ?_⟩))))))
    simpa [and_assoc] using h
  · rename_i a b hta hsb
    cases of_decide_eq_true h
    exact .inr (.inr (.inr (.inr (.inr (.inr (.inr (.inl ⟨a, hta, hsb⟩)))))))
  · rename_i as bs hta hsb
    simp only [Bool.and_eq_true, decide_eq_true_eq] at h
    exact .inr (.inr (.inr (.inr (.inr (.inr (.inr (.inr (.inl ⟨as, bs, hta, hsb, h⟩))))))))
  · simp [h]

theorem Lawful.isAssignableAux_eq (hc : c.Lawful) (hm : t.index < m)
    (hn : t.index < n) : c.isAssignableAux m t s = c.isAssignableAux n t s := by
  induction m generalizing n s t with
  | zero => exact absurd hm (Nat.not_lt_zero _)
  | succ m ih =>
    cases n with
    | zero => exact absurd hn (Nat.not_lt_zero _)
    | succ n =>
      refine takes_congr fun a k b ha => ?_
      have hlt := hc.parts t (has_of_shape ha (by simp)) a (by simp [ha, TypeShape.parts])
      exact ih (by omega) (by omega)

/-- The bound on the nesting of arrays is never reached. -/
theorem Lawful.isAssignable_eq (hc : c.Lawful) (ht : c.Has t) :
    c.isAssignable t s = c.takes c.isAssignable t s := by
  refine takes_congr fun a k b ha => ?_
  have hlt := hc.parts t ht a (by simp [ha, TypeShape.parts])
  have hsize : t.index < c.types.size := ht
  exact hc.isAssignableAux_eq (by omega) (by omega)

/-! ### What plain types take -/

/-- The numeric types are numbered from the narrowest to the widest. -/
theorem widens_iff : widens t s = true ↔ s.index < t.index ∧ t.index ≤ 3 := by
  obtain ⟨i⟩ := t
  obtain ⟨j⟩ := s
  simp only [widens, TypeId.isIntegral, TypeId.integer, TypeId.long, TypeId.single, TypeId.double,
    TypeId.mk.injEq, Bool.or_eq_true, Bool.and_eq_true, decide_eq_true_eq]
  omega

theorem isNumeric_iff : t.isNumeric = true ↔ t.index ≤ 3 := by
  obtain ⟨i⟩ := t
  simp only [TypeId.isNumeric, TypeId.isIntegral, TypeId.isFloating, TypeId.integer, TypeId.long,
    TypeId.single, TypeId.double, TypeId.mk.injEq, Bool.or_eq_true, decide_eq_true_eq]
  omega

theorem isNumeric_of_widens (h : widens t s = true) : t.isNumeric = true ∧ s.isNumeric = true := by
  rw [widens_iff] at h
  rw [isNumeric_iff, isNumeric_iff]
  omega

theorem argsFit_eq (has : ∀ a ∈ as, c.isParameter a = false)
    (hbs : ∀ b ∈ bs, c.isParameter b = false) (h : c.argsFit as bs = true) : as = bs := by
  induction as generalizing bs with
  | nil =>
    cases bs with
    | nil => rfl
    | cons => simp [argsFit] at h
  | cons a as ih =>
    cases bs with
    | nil => simp [argsFit] at h
    | cons b bs =>
      obtain ⟨ha, has⟩ := List.forall_mem_cons.mp has
      obtain ⟨hb, hbs⟩ := List.forall_mem_cons.mp hbs
      simp only [argsFit, ha, hb, Bool.or_false, Bool.and_eq_true, decide_eq_true_eq] at h
      rw [h.1, ih has hbs h.2]

namespace Lawful

section

variable (hc : c.Lawful)

include hc

/-- Types that are made once are told by what they are made of. -/
theorem eq_of_spelled (hs : c.Has s) (ht : c.Has t)
    (h : c.spelled? t = c.spelled? s) (hmade : (c.spelled? s).isSome = true) : t = s := by
  obtain ⟨k, hk⟩ := Option.isSome_iff_exists.mp hmade
  exact Option.some.inj ((hc.kept t k ht (h.trans hk)).symm.trans (hc.kept s k hs hk))

/-- A type that takes the values of another one does so by one of the rules. -/
theorem converts_of_isAssignable (ht : c.Has t) (hs : c.Has s)
    (hpt : c.Plain t) (hps : c.Plain s) (h : c.isAssignable t s = true) : c.Converts t s := by
  induction hpt generalizing s with
  | @intro t hpar hgen hparts ih =>
    rw [hc.isAssignable_eq ht] at h
    rcases takes_cases h with rfl | hp | hp | ⟨rfl, hv⟩ | ⟨hn, href⟩ | hw |
      ⟨a, b, n, hta, hsb, hab⟩ | ⟨a, hta, hsa⟩ | ⟨as, bs, hta, hsb, hbase, hfit⟩ | hi
    · exact .refl
    · simp [hpar] at hp
    · simp [hps.not_parameter] at hp
    · exact .object hv
    · exact hc.shape_eq_null.mp hn ▸ .nothing href
    · exact .widen hw
    · have ha : a ∈ (c.shape t).parts := by simp [hta, TypeShape.parts]
      have hb : b ∈ (c.shape s).parts := by simp [hsb, TypeShape.parts]
      rcases hab with rfl | ⟨hra, hrb, hab⟩
      · have hspelled : c.spelled? t = c.spelled? s := by simp [spelled?, hta, hsb, spells?]
        rw [hc.eq_of_spelled hs ht hspelled (by simp [spelled?, hsb, spells?])]
        exact .refl
      · exact .array hta hsb hra hrb
          (ih a ha (hc.has_of_part ht ha) (hc.has_of_part hs hb) (hps.part hb) hab)
    · have hspelled : c.spelled? t = c.spelled? s := by simp [spelled?, hta, hsa, spells?]
      rw [hc.eq_of_spelled hs ht hspelled (by simp [spelled?, hsa, spells?])]
      exact .refl
    · have has : as = bs := by
        refine argsFit_eq (fun a ha => (hparts a ?_).not_parameter)
          (fun b hb => (hps.part ?_).not_parameter) hfit
        · simpa [hta, TypeShape.parts] using ha
        · simpa [hsb, TypeShape.parts] using hb
      subst has
      have hname : c.name t = c.name s := by
        obtain ⟨d, hd, -⟩ := hps.generic hsb
        have hnt := (hc.base (hbase.trans hd)).2
        have hns := (hc.base hd).2
        simp only [Derives, show (c.info t).shape = .generic as from hta] at hnt
        simp only [Derives, show (c.info s).shape = .generic as from hsb] at hns
        exact hnt.symm.trans hns
      have hspelled : c.spelled? t = c.spelled? s := by simp [spelled?, hta, hsb, spells?, hname]
      rw [hc.eq_of_spelled hs ht hspelled (by simp [spelled?, hsb, spells?])]
      exact .refl
    · exact .inherit hi

/-- A type that takes the values of a numeric type is no narrower one, and not `Char`. -/
theorem narrows_not (ht : c.Has t) (hs : s.isNumeric = true)
    (h : c.isAssignable t s = true) : t ≠ .char ∧ (t.isNumeric = true → s.index ≤ t.index) := by
  have hshape := hc.shape_of_isNumeric hs
  have hindex := isNumeric_iff.mp hs
  have hinitial : initial.Has s := Nat.lt_of_le_of_lt hindex (by decide)
  rw [hc.isAssignable_eq ht] at h
  rcases takes_cases h with rfl | hp | hp | ⟨rfl, -⟩ | ⟨hn, -⟩ | hw | ⟨_, _, _, -, hsb, -⟩ |
    ⟨_, -, hsa⟩ | ⟨_, _, -, hsb, -⟩ | hi
  · exact ⟨(by rintro rfl; cases hs), fun _ => Nat.le_refl _⟩
  · have hparam : c.shape t = .parameter := of_decide_eq_true hp
    refine ⟨?_, fun hn => ?_⟩
    · rintro rfl
      cases (hc.shape_initial (by decide)).symm.trans hparam
    · cases (hc.shape_of_isNumeric hn).symm.trans hparam
  · cases hshape.symm.trans (of_decide_eq_true hp)
  · exact ⟨by decide, nofun⟩
  · cases hshape.symm.trans hn
  · have hlt := widens_iff.mp hw
    refine ⟨?_, fun _ => Nat.le_of_lt hlt.1⟩
    rintro rfl
    exact absurd hlt.2 (by decide)
  · cases hshape.symm.trans hsb
  · cases hshape.symm.trans hsa
  · cases hshape.symm.trans hsb
  · obtain ⟨hhas, -, hbase, hnone⟩ := hc.start s hinitial
    rw [hc.not_inherits hhas hbase hnone] at hi
    cases hi

theorem isAssignable_of_widens (ht : c.Has t) (h : widens t s = true) :
    c.isAssignable t s = true := by
  obtain ⟨hnt, hns⟩ := isNumeric_of_widens h
  have hobject : t ≠ .object := by
    rintro rfl
    simpa [hc.shape_object] using hc.shape_of_isNumeric hnt
  simp [hc.isAssignable_eq ht, takes, hobject, hc.shape_of_isNumeric hns, hnt, hns, h]

theorem isAssignable_of_array (hta : c.shape t = .array a n) (hsb : c.shape s = .array b n) (ha : c.isReference a = true)
    (hb : c.isReference b = true) (h : c.isAssignable a b = true) : c.isAssignable t s = true := by
  have hobject : t ≠ .object := by
    rintro rfl
    simp [hc.shape_object] at hta
  have hnumeric : t.isNumeric ≠ true := fun hn => by simp [hc.shape_of_isNumeric hn] at hta
  rw [hc.isAssignable_eq (has_of_shape hta (by simp)), takes]
  simp [hobject, hnumeric, hta, hsb, ha, hb, h]

theorem isBasic_of_inherits (hs : c.Has s) (h : c.inherits t s = true) :
    (c.shape s).isBasic = false := by
  rw [Bool.eq_false_iff]
  intro hbasic
  obtain ⟨-, -, hb, hi⟩ := hc.start s (hc.initial_of_isBasic hs hbasic)
  rw [hc.not_inherits hs hb hi] at h
  cases h

theorem isAssignable_of_inherits (ht : c.Has t) (hs : c.Has s) (hps : c.Plain s)
    (h : c.inherits t s = true) : c.isAssignable t s = true := by
  have hbasic := hc.isBasic_of_inherits hs h
  have hnull : c.shape s ≠ .null := by
    intro hn
    simp [hn, TypeShape.isBasic] at hbasic
  have hvoid : c.isVoid s = false := by
    rw [isVoid, decide_eq_false_iff_not]
    intro hv
    simp [hv, TypeShape.isBasic] at hbasic
  have hnumeric : s.isNumeric ≠ true := by
    intro hn
    simp [hc.shape_of_isNumeric hn, TypeShape.isBasic] at hbasic
  rw [hc.isAssignable_eq ht, takes]
  rcases hc.shape_of_inherits hs hps h with hcls | hinterface
  · simp [hcls, hnull, hvoid, hnumeric, h]
  · simp [hinterface, hnull, hvoid, hnumeric, h]

/-- All rules hold of plain types. -/
theorem isAssignable_of_converts (ht : c.Has t) (hs : c.Has s)
    (hps : c.Plain s) (h : c.Converts t s) : c.isAssignable t s = true := by
  induction h with
  | refl => simp [hc.isAssignable_eq ht, takes]
  | object hv => simp [hc.isAssignable_eq ht, takes, hv]
  | nothing href =>
    have hnull := hc.shape_eq_null.mpr (rfl : TypeId.nothing = .nothing)
    simp [hc.isAssignable_eq ht, takes, href, hnull, isVoid]
  | widen hw => exact hc.isAssignable_of_widens ht hw
  | @array t a n s b hta hsb hra hrb _ ih =>
    have ha : a ∈ (c.shape t).parts := by simp [hta, TypeShape.parts]
    have hb : b ∈ (c.shape s).parts := by simp [hsb, TypeShape.parts]
    exact hc.isAssignable_of_array hta hsb hra hrb
      (ih (hc.has_of_part ht ha) (hc.has_of_part hs hb) (hps.part hb))
  | inherit hi => exact hc.isAssignable_of_inherits ht hs hps hi

theorem isAssignable_iff (ht : c.Has t) (hs : c.Has s) (hpt : c.Plain t)
    (hps : c.Plain s) : c.isAssignable t s = true ↔ c.Converts t s :=
  ⟨hc.converts_of_isAssignable ht hs hpt hps, hc.isAssignable_of_converts ht hs hps⟩

theorem shape_nothing : c.shape .nothing = .null :=
  hc.shape_eq_null.mpr rfl

theorem not_inherits_object : c.inherits t .object = false := by
  obtain ⟨hhas, -, hb, hi⟩ := hc.start .object (by decide)
  exact hc.not_inherits hhas hb hi

theorem inherits_array (hs : c.shape s = .array a n)
    (h : c.inherits t s = true) : t = .object := by
  have hhas : c.Has s := has_of_shape hs (by simp)
  cases hb : c.base s with
  | none =>
    have hi := hc.interfaces_eq_nil hhas (by simp [hs, TypeShape.kind]) (by simp [hs, TypeShape.kind])
    rw [hc.not_inherits hhas hb hi] at h
    cases h
  | some b =>
    have hd := (hc.base hb).2
    simp only [Derives, show (c.info s).shape = .array a n from hs] at hd
    subst hd
    have hi := hc.interfaces_eq_nil hhas (by simp [hs, TypeShape.kind]) (by simp [hs, TypeShape.kind])
    obtain ⟨hhas', -, hb', hi'⟩ := hc.start .object (by decide)
    obtain ⟨u, hu, hut⟩ := inherits_iff.mp h
    rw [(hc.bases hhas).unique (.next hb (.last hb'))] at hu
    obtain rfl | hu := List.mem_cons.mp hu
    · rcases hut with hut | ⟨-, hut⟩
      · exact Option.some.inj (hut.symm.trans hb)
      · simp [hi] at hut
    · cases List.mem_singleton.mp hu
      simp [hb', hi'] at hut

/-- Only `Void` takes nothing else and fits nowhere else. -/
theorem isVoid_of_converts (hs : c.Has s) (h : c.Converts t s)
    (ht : c.isVoid t = false) : c.isVoid s = false := by
  cases h with
  | refl => exact ht
  | object hv => exact hv
  | nothing => simp [isVoid, hc.shape_nothing]
  | widen hw => simp [isVoid, hc.shape_of_isNumeric (isNumeric_of_widens hw).2]
  | array _ hsb => simp [isVoid, hsb]
  | inherit hi =>
    have hbasic := hc.isBasic_of_inherits hs hi
    rw [isVoid, decide_eq_false_iff_not]
    intro hv
    simp [hv, TypeShape.isBasic] at hbasic

theorem not_isReference_of_isNumeric (h : t.isNumeric = true) :
    c.isReference t = false := by
  have hne : t ≠ .string := by
    rintro rfl
    revert h
    decide
  simp [isReference, hc.shape_of_isNumeric h, hne]

/-- The type of `Nothing` takes only `Nothing`. -/
theorem eq_nothing_of_converts (hs : c.Has s) (hps : c.Plain s)
    (h : c.Converts .nothing s) : s = .nothing := by
  generalize ht : TypeId.nothing = t at h
  cases h with
  | refl => exact rfl
  | object => cases ht
  | nothing => exact ht
  | widen hw =>
    rw [widens_iff, ← ht] at hw
    exact absurd hw.2 (by decide)
  | array hta => simp [← ht, hc.shape_nothing] at hta
  | inherit hi => simpa [← ht, hc.shape_nothing] using hc.shape_of_inherits hs hps hi

/-- `Object` fits only `Object`. -/
theorem eq_object_of_converts (h : c.Converts t .object) : t = .object := by
  generalize hs : TypeId.object = s at h
  cases h with
  | refl => rfl
  | object => exact hs
  | nothing => cases hs
  | widen hw =>
    rw [widens_iff, ← hs] at hw
    exact absurd hw (by simp [TypeId.object]; omega)
  | array _ hsb => simp [← hs, hc.shape_object] at hsb
  | inherit hi => simp [← hs, hc.not_inherits_object] at hi

end

end Lawful

/-! ### The order -/

namespace Converts

section

variable (hc : c.Lawful) (hs : c.Has s) (hps : c.Plain s) (ht : c.Has t) (hpt : c.Plain t)
  (h : c.Converts t s)

include hc hs hps ht hpt h

theorem trans (h' : c.Converts u t) : c.Converts u s := by
  induction h' generalizing s with
  | refl => exact h
  | object hv => exact .object (hc.isVoid_of_converts hs h hv)
  | nothing href => exact hc.eq_nothing_of_converts hs hps h ▸ .nothing href
  | @widen u t hw =>
    obtain ⟨-, hn⟩ := isNumeric_of_widens hw
    have hshape := hc.shape_of_isNumeric hn
    cases h with
    | refl => exact .widen hw
    | object => simp [hc.shape_object] at hshape
    | nothing href => simp [hc.not_isReference_of_isNumeric hn] at href
    | widen hw' =>
      refine .widen (widens_iff.mpr ?_)
      rw [widens_iff] at hw hw'
      omega
    | array hta => simp [hshape] at hta
    | inherit hi => simpa [hshape] using hc.shape_of_inherits hs hps hi
  | @array u a n t b hua htb hra hrb hab ih =>
    cases h with
    | refl => exact .array hua htb hra hrb hab
    | object => simp [hc.shape_object] at htb
    | nothing => exact .nothing (by simp [isReference, hua])
    | widen hw => simp [hc.shape_of_isNumeric (isNumeric_of_widens hw).1] at htb
    | @array _ b' n' _ e htb' hse hrb' hre hbe =>
      cases htb.symm.trans htb'
      have hb : b ∈ (c.shape t).parts := by simp [htb, TypeShape.parts]
      have he : e ∈ (c.shape s).parts := by simp [hse, TypeShape.parts]
      exact .array hua hse hra hre (ih (hc.has_of_part hs he) (hps.part he) (hc.has_of_part ht hb)
        (hpt.part hb) hbe)
    | inherit hi => simpa [htb] using hc.shape_of_inherits hs hps hi
  | @inherit u t hi =>
    cases h with
    | refl => exact .inherit hi
    | object => simp [hc.not_inherits_object] at hi
    | nothing =>
      refine .nothing ?_
      rcases hc.shape_of_inherits ht hpt hi with hu | hu <;> simp [isReference, hu]
    | widen hw =>
      have hbasic := hc.isBasic_of_inherits ht hi
      simp [hc.shape_of_isNumeric (isNumeric_of_widens hw).1, TypeShape.isBasic] at hbasic
    | array hta hsb =>
      rw [hc.inherits_array hta hi]
      exact .object (by simp [isVoid, hsb])
    | inherit hi' => exact .inherit (hc.inherits_trans hs hi' hi)

theorem antisymm (h' : c.Converts s t) : t = s := by
  induction h with
  | refl => rfl
  | object => exact (hc.eq_object_of_converts h').symm
  | nothing => exact hc.eq_nothing_of_converts ht hpt h'
  | @widen t s hw =>
    obtain ⟨hnt, hns⟩ := isNumeric_of_widens hw
    cases h' with
    | refl => rfl
    | object => simpa [hc.shape_object] using hc.shape_of_isNumeric hns
    | nothing => simpa [hc.shape_nothing] using hc.shape_of_isNumeric hnt
    | widen hw' =>
      rw [widens_iff] at hw hw'
      omega
    | array hsa => simp [hc.shape_of_isNumeric hns] at hsa
    | inherit hi => simpa [hc.shape_of_isNumeric hns] using hc.shape_of_inherits ht hpt hi
  | @array t a n s b hta hsb _ _ hab ih =>
    cases h' with
    | refl => rfl
    | object => simp [hc.shape_object] at hsb
    | nothing => simp [hc.shape_nothing] at hta
    | widen hw => simp [hc.shape_of_isNumeric (isNumeric_of_widens hw).1] at hsb
    | array hsb' hta' _ _ hba =>
      cases hsb.symm.trans hsb'
      cases hta.symm.trans hta'
      have ha : a ∈ (c.shape t).parts := by simp [hta, TypeShape.parts]
      have hb : b ∈ (c.shape s).parts := by simp [hsb, TypeShape.parts]
      cases ih (hc.has_of_part hs hb) (hps.part hb) (hc.has_of_part ht ha) (hpt.part ha) hba
      exact hc.eq_of_spelled hs ht (by simp [spelled?, hta, hsb, spells?])
        (by simp [spelled?, hsb, spells?])
    | inherit hi => simpa [hsb] using hc.shape_of_inherits ht hpt hi
  | @inherit t s hi =>
    cases h' with
    | refl => rfl
    | object => simp [hc.not_inherits_object] at hi
    | nothing => simpa [hc.shape_nothing] using hc.shape_of_inherits hs hps hi
    | widen hw =>
      have hbasic := hc.isBasic_of_inherits hs hi
      simp [hc.shape_of_isNumeric (isNumeric_of_widens hw).1, TypeShape.isBasic] at hbasic
    | array _ hta => simpa [hta] using hc.shape_of_inherits hs hps hi
    | inherit hi' => exact (hc.inherits_antisymm hs ht hi hi').symm

end

end Converts

end Catalog

end BasicSSA
