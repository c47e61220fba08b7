import BasicSSA.Proofs.Analysis.Hierarchy

/-!
# Common types

The common type of two types takes the values of both, and it does not matter which of the two comes
first. If one of them takes the values of the other, it is that one. Otherwise it is the nearest base
that they share, or `Object`.

## Main results

* `Catalog.Lawful.sharedBase_comm`: the first base of one type that is a base of the other one is
  found from either side;
* `Catalog.Lawful.common_of_isAssignable`: a type that takes the values of another one is their
  common type.
-/

namespace BasicSSA

namespace Catalog

variable {c : Catalog}

/-! ### Shared bases -/

theorem Lineage.of_append (h : c.Lineage t (l ++ u :: r)) : c.Lineage u (u :: r) := by
  induction l generalizing t with
  | nil =>
    cases h with
    | last hb => exact .last hb
    | next hb h => exact .next hb h
  | cons v l ih =>
    rw [List.cons_append] at h
    generalize hm : l ++ u :: r = m at h
    cases h with
    | last => simp at hm
    | next _ h => exact ih (hm ▸ h)

namespace Lawful

theorem inherits_of_mem_bases (hc : c.Lawful) (hs : c.Has s) (ht : t ∈ c.bases s) (hne : t ≠ s) :
    c.inherits t s = true := by
  have hl := hc.bases hs
  -- The bases are kept, since the type before `t` has to be one of them.
  suffices h : ∀ {r l}, c.Lineage r l → (∀ u ∈ l, u ∈ c.bases s) → t ∈ l → t ≠ r →
      c.inherits t s = true from h hl (fun _ h => h) ht hne
  intro r l hl hsub ht hne
  induction hl with
  | last => exact absurd (List.mem_singleton.mp ht) hne
  | @next r b l hb hl ih =>
    have ht := (List.mem_cons.mp ht).resolve_left hne
    by_cases htb : t = b
    · exact inherits_iff.mpr ⟨r, hsub r (List.mem_cons_self ..), .inl (htb ▸ hb)⟩
    · exact ih (fun u hu => hsub u (List.mem_cons_of_mem _ hu)) ht htb

/-- The first base that two types share comes before all others that they share. -/
theorem mem_bases_of_find? (hc : c.Lawful) (hs : c.Has s)
    (h : (c.bases s).find? (c.bases t).contains = some u) (hvs : v ∈ c.bases s)
    (hvt : v ∈ c.bases t) : v ∈ c.bases u := by
  obtain ⟨-, before, after, heq, hbefore⟩ := List.find?_eq_some_iff_append.mp h
  have hu : u ∈ c.bases s := by simp [heq]
  have hl := hc.bases hs
  rw [heq] at hl hvs
  rw [(hc.bases (hc.has_of_mem_bases hs hu)).unique hl.of_append]
  rcases List.mem_append.mp hvs with hv | hv
  · have hnot := hbefore v hv
    simp [hvt] at hnot
  · exact hv

/-- The first base of a type that another one has too is the same from either side. -/
theorem sharedBase_comm (hc : c.Lawful) (hs : c.Has s) (ht : c.Has t) :
    (c.bases s).find? (c.bases t).contains = (c.bases t).find? (c.bases s).contains := by
  cases h : (c.bases s).find? (c.bases t).contains with
  | none =>
    refine (List.find?_eq_none.mpr fun u hu hmem => ?_).symm
    exact List.find?_eq_none.mp h u (by simpa using hmem) (by simpa using hu)
  | some u =>
    have hus : u ∈ c.bases s := List.mem_of_find?_eq_some h
    have hut : u ∈ c.bases t := by simpa using List.find?_some h
    cases h' : (c.bases t).find? (c.bases s).contains with
    | none => exact absurd (by simpa using hus) (List.find?_eq_none.mp h' u hut)
    | some v =>
      have hvt : v ∈ c.bases t := List.mem_of_find?_eq_some h'
      have hvs : v ∈ c.bases s := by simpa using List.find?_some h'
      have hu := hc.has_of_mem_bases hs hus
      have hv := hc.has_of_mem_bases hs hvs
      -- Each is a base of the other one.
      have huv := hc.bases_suffix hu (hc.mem_bases_of_find? hs h hvs hvt)
      have hvu := hc.bases_suffix hv (hc.mem_bases_of_find? ht h' hut hus)
      have heq := huv.eq_of_length (Nat.le_antisymm huv.length_le hvu.length_le)
      rw [(hc.bases hu).head_unique (heq ▸ hc.bases hv)]

end Lawful

/-! ### Numbers -/

theorem wider_eq (hs : s.isNumeric = true) (ht : t.isNumeric = true) :
    wider s t = if s.index < t.index then t else s := by
  have hall : ∀ m n : Fin 4, wider ⟨m⟩ ⟨n⟩ = if m.1 < n.1 then ⟨n⟩ else ⟨m⟩ := by decide
  rw [isNumeric_iff] at hs ht
  exact hall ⟨s.index, by omega⟩ ⟨t.index, by omega⟩

theorem widens_or_widens (hs : s.isNumeric = true) (ht : t.isNumeric = true) (hne : s ≠ t) :
    widens s t = true ∨ widens t s = true := by
  rw [isNumeric_iff] at hs ht
  rw [widens_iff, widens_iff]
  have hidx : s.index ≠ t.index := fun h => hne (by cases s; cases t; cases h; rfl)
  omega

/-! ### Common types -/

namespace Lawful

variable (hc : c.Lawful) (hs : c.Has s) (hps : c.Plain s) (ht : c.Has t) (hpt : c.Plain t)

include hc hs hps ht hpt

/-- A type that takes the values of another one is their common type, as first and as second. -/
theorem common_of_isAssignable (h : c.isAssignable t s = true) :
    c.common t s = t ∧ c.common s t = t := by
  by_cases heq : t = s
  · subst heq
    simp [common]
  have hne : s ≠ t := fun h => heq h.symm
  have hback : c.isAssignable s t ≠ true := fun h' => by
    rw [hc.isAssignable_iff ht hs hpt hps] at h
    rw [hc.isAssignable_iff hs ht hps hpt] at h'
    exact heq (h.antisymm hc hs hps ht hpt h')
  by_cases hn : t.isNumeric = true ∧ s.isNumeric = true
  · obtain ⟨hnt, hns⟩ := hn
    have hw : widens t s = true := (widens_or_widens hnt hns heq).resolve_right fun hw =>
      hback (hc.isAssignable_of_widens hs hw)
    have hlt := (widens_iff.mp hw).1
    simp [common, heq, hne, hnt, hns, wider_eq, hlt, Nat.lt_asymm hlt]
  · have hn' : ¬(s.isNumeric = true ∧ t.isNumeric = true) := fun h => hn h.symm
    constructor <;> simp [common, heq, hne, hn, hn', h, hback]

/-- If neither type takes the values of the other one, the first shared base is their common type. -/
theorem common_of_not_isAssignable (h : c.isAssignable t s ≠ true) (h' : c.isAssignable s t ≠ true) :
    c.common t s = ((c.bases t).find? (c.bases s).contains).getD .object := by
  have hrefl : t ≠ s := by
    rintro rfl
    exact h ((hc.isAssignable_iff ht ht hpt hpt).mpr .refl)
  have hn : ¬(t.isNumeric = true ∧ s.isNumeric = true) := by
    rintro ⟨hnt, hns⟩
    rcases widens_or_widens hnt hns hrefl with hw | hw
    · exact h (hc.isAssignable_of_widens ht hw)
    · exact h' (hc.isAssignable_of_widens hs hw)
  simp [common, hrefl, hn, h, h']

theorem common_comm : c.common s t = c.common t s := by
  by_cases h : c.isAssignable t s = true
  · obtain ⟨h₁, h₂⟩ := hc.common_of_isAssignable hs hps ht hpt h
    rw [h₁, h₂]
  by_cases h' : c.isAssignable s t = true
  · obtain ⟨h₁, h₂⟩ := hc.common_of_isAssignable ht hpt hs hps h'
    rw [h₁, h₂]
  · rw [hc.common_of_not_isAssignable hs hps ht hpt h h',
      hc.common_of_not_isAssignable ht hpt hs hps h' h, hc.sharedBase_comm hs ht]

/-- The common type takes the values of the second type. With `common_comm`, also of the first. -/
theorem isAssignable_common (hv : c.isVoid s = false) :
    c.Has (c.common t s) ∧ c.isAssignable (c.common t s) s = true := by
  by_cases h : c.isAssignable t s = true
  · rw [(hc.common_of_isAssignable hs hps ht hpt h).1]
    exact ⟨ht, h⟩
  by_cases h' : c.isAssignable s t = true
  · rw [(hc.common_of_isAssignable ht hpt hs hps h').2]
    exact ⟨hs, (hc.isAssignable_iff hs hs hps hps).mpr .refl⟩
  rw [hc.common_of_not_isAssignable hs hps ht hpt h h']
  cases hfind : (c.bases t).find? (c.bases s).contains with
  | none =>
    have hobject := (hc.start .object (by decide)).1
    exact ⟨hobject, hc.isAssignable_of_converts hobject hs hps (.object hv)⟩
  | some u =>
    have hut : u ∈ c.bases t := List.mem_of_find?_eq_some hfind
    have hus : u ∈ c.bases s := by simpa using List.find?_some hfind
    have hu := hc.has_of_mem_bases ht hut
    refine ⟨hu, hc.isAssignable_of_inherits hu hs hps (hc.inherits_of_mem_bases hs hus ?_)⟩
    -- A type that is a base of the other one would take its values.
    rintro rfl
    refine h' (hc.isAssignable_of_inherits hs ht hpt (hc.inherits_of_mem_bases ht hut ?_))
    rintro rfl
    exact h ((hc.isAssignable_iff ht ht hpt hpt).mpr .refl)

end Lawful

end Catalog

/-- Among the plain types of an analysed program, the common type of two types other than `Void` is
the same in either order and takes the values of both, and it is one of the two if that one takes the
values of the other. -/
theorem common_symm_upperBound (p : Program Loc) (t s : (analyze p).types.PlainType)
    (ht : (analyze p).types.isVoid t.1 = false) (hs : (analyze p).types.isVoid s.1 = false) :
    (analyze p).types.common t.1 s.1 = (analyze p).types.common s.1 t.1 ∧
      (analyze p).types.Has ((analyze p).types.common t.1 s.1) ∧
      (analyze p).types.isAssignable ((analyze p).types.common t.1 s.1) t.1 = true ∧
      (analyze p).types.isAssignable ((analyze p).types.common t.1 s.1) s.1 = true ∧
      ((analyze p).types.isAssignable t.1 s.1 = true → (analyze p).types.common t.1 s.1 = t.1) ∧
      ((analyze p).types.isAssignable s.1 t.1 = true → (analyze p).types.common t.1 s.1 = s.1) := by
  have hc := analyze_lawful p
  generalize (analyze p).types = c at t s hc
  obtain ⟨t, hht, hpt⟩ := t
  obtain ⟨s, hhs, hps⟩ := s
  have hcomm := hc.common_comm hht hpt hhs hps
  refine ⟨hcomm, (hc.isAssignable_common hhs hps hht hpt hs).1, ?_,
    (hc.isAssignable_common hhs hps hht hpt hs).2, ?_, ?_⟩
  · rw [hcomm]
    exact (hc.isAssignable_common hht hpt hhs hps ht).2
  · exact fun h => (hc.common_of_isAssignable hhs hps hht hpt h).1
  · exact fun h => (hc.common_of_isAssignable hht hpt hhs hps h).2

theorem Catalog.Plain.of_class {c : Catalog} (h : c.shape t = .cls) : c.Plain t := by
  refine .intro ?_ ?_ ?_
  · simp [isParameter, h]
  · simp [h]
  · simp [h, TypeShape.parts]

/-- Two classes with one base. -/
def siblings : Program Loc :=
  [.cls {} { name := "A" } [], .cls {} { name := "B", base := "A" } [],
    .cls {} { name := "C", base := "A" } []]

/-- The common type of two classes is their base, which takes the values of both. -/
theorem siblings_common : (analyze siblings).isAccepted = true ∧
    (["A", "B", "C"].map (analyze siblings).types.find?) = [some ⟨10⟩, some ⟨11⟩, some ⟨12⟩] ∧
    (analyze siblings).types.common ⟨11⟩ ⟨12⟩ = ⟨10⟩ ∧
    (analyze siblings).types.common ⟨12⟩ ⟨11⟩ = ⟨10⟩ ∧
    (analyze siblings).types.isAssignable ⟨10⟩ ⟨11⟩ = true ∧
    (analyze siblings).types.isAssignable ⟨10⟩ ⟨12⟩ = true := by
  have hshape : ∀ t ∈ [⟨11⟩, ⟨12⟩], (analyze siblings).types.shape t = .cls := by decide +kernel
  have hplain : ∀ t ∈ [⟨11⟩, ⟨12⟩], (analyze siblings).types.Has t ∧
      (analyze siblings).types.Plain t := fun t ht =>
    ⟨Catalog.has_of_shape (hshape t ht) (by simp), .of_class (hshape t ht)⟩
  have hvoid : ∀ t ∈ [⟨11⟩, ⟨12⟩], (analyze siblings).types.isVoid t = false := fun t ht => by
    simp [Catalog.isVoid, hshape t ht]
  have hcommon : (analyze siblings).types.common ⟨11⟩ ⟨12⟩ = ⟨10⟩ := by decide +kernel
  obtain ⟨hcomm, -, hb, hc, -⟩ := common_symm_upperBound siblings ⟨⟨11⟩, hplain _ (by simp)⟩
    ⟨⟨12⟩, hplain _ (by simp)⟩ (hvoid _ (by simp)) (hvoid _ (by simp))
  rw [hcommon] at hcomm hb hc
  exact ⟨by decide +kernel, by decide +kernel, hcommon, hcomm.symm, hb, hc⟩

end BasicSSA
