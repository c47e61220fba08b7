import BasicSSA.Types.Catalog
import Mathlib.Algebra.Ring.Int.Defs

/-!
# Spellings of types

A type that is made of others is kept under a text of its parts. The text tells what the type was
made of, up to how the parts are shown.

## Main definitions

* `Nested`: texts whose brackets match and whose commas stand inside of brackets;
* `Spelling`: what a type is made of, its parts as they are shown.

## Main results

* `Spelling.key_injective`: different spellings have different texts.
-/

namespace BasicSSA

/-! ### Brackets -/

/-- How many brackets a character opens. -/
def bracket (c : Char) : Int :=
  if c = '(' ∨ c = '[' then 1 else if c = ')' ∨ c = ']' then -1 else 0

/-- How many brackets a text leaves open. -/
def depth (cs : List Char) : Int :=
  (cs.map bracket).sum

@[simp] theorem depth_nil : depth [] = 0 := rfl

@[simp] theorem depth_cons : depth (c :: cs) = bracket c + depth cs := by
  simp [depth]

@[simp] theorem depth_append : depth (cs ++ ds) = depth cs + depth ds := by
  simp [depth]

/-- The commas of a text stand in at least `n` brackets. -/
def CommasIn (n : Int) (cs : List Char) : Prop :=
  ∀ p q, cs = p ++ ',' :: q → n ≤ depth p

/-- The brackets of a text match, and its commas stand in at least `n` of them. -/
structure Nested (n : Int) (cs : List Char) : Prop where
  depth : depth cs = 0
  commas : CommasIn n cs

theorem CommasIn.of_not_mem (h : ',' ∉ cs) : CommasIn n cs := by
  rintro p q rfl
  simp at h

theorem CommasIn.append (hcs : Nested n cs) (hds : CommasIn n ds) : CommasIn n (cs ++ ds) := by
  intro p q hpq
  obtain ⟨as, rfl, has⟩ | ⟨bs, rfl, hbs⟩ := List.append_eq_append_iff.mp hpq
  · have := hds as q has
    rw [depth_append, hcs.depth]
    omega
  · obtain ⟨rfl, hq⟩ | ⟨bs', rfl, -⟩ := List.cons_eq_append_iff.mp hbs
    · rw [List.append_nil] at hcs
      exact hcs.depth ▸ hds [] q hq
    · exact hcs.commas p bs' rfl

namespace Nested

theorem nil : Nested n [] :=
  ⟨rfl, .of_not_mem (by simp)⟩

theorem mono (h : Nested n cs) (hmn : m ≤ n) : Nested m cs :=
  ⟨h.depth, fun p q hp => Int.le_trans hmn (h.commas p q hp)⟩

theorem append (hcs : Nested n cs) (hds : Nested n ds) : Nested n (cs ++ ds) :=
  ⟨by rw [depth_append, hcs.depth, hds.depth]; rfl, .append hcs hds.commas⟩

theorem of_plain (h : ∀ c ∈ cs, bracket c = 0 ∧ c ≠ ',') : Nested n cs := by
  refine ⟨?_, .of_not_mem fun hc => (h ',' hc).2 rfl⟩
  induction cs with
  | nil => rfl
  | cons c cs ih =>
    rw [depth_cons, (h c List.mem_cons_self).1, ih fun d hd => h d (List.mem_cons_of_mem c hd)]
    rfl

theorem enclose (h : Nested n cs) (ho : bracket o = 1) (hc : bracket c = -1) :
    Nested (n + 1) (o :: (cs ++ [c])) := by
  have hend : CommasIn n (cs ++ [c]) :=
    .append h (.of_not_mem fun hmem => by simp [← List.eq_of_mem_singleton hmem, bracket] at hc)
  refine ⟨by simp [h.depth, ho, hc], fun p q hpq => ?_⟩
  obtain ⟨rfl, hq⟩ | ⟨p', rfl, hp'⟩ := List.cons_eq_append_iff.mp hpq
  · simp [← (List.cons.inj hq).1, bracket] at ho
  · have := hend p' q hp'
    rw [depth_cons, ho]
    omega

theorem comma : Nested 0 [','] := by
  refine ⟨rfl, fun p q hp => ?_⟩
  obtain ⟨rfl, -⟩ | ⟨p', rfl, hp⟩ := List.cons_eq_append_iff.mp hp
  · exact Int.le_refl 0
  · simp at hp

theorem commas_replicate (k : Nat) : Nested 0 (List.replicate k ',') := by
  induction k with
  | zero => exact nil
  | succ k ih => exact comma.append ih

theorem joined (h : ∀ t ∈ ts, Nested 1 t.toList) :
    Nested 0 (joinWith ", " ts).toList := by
  have hsep : Nested 0 [',', ' '] := comma.append (of_plain (by simp [bracket]))
  fun_induction joinWith ", " ts with
  | case1 => exact nil
  | case2 t => exact (h t List.mem_cons_self).mono (by decide)
  | case3 t rest hrest ih =>
    rw [String.toList_append, String.toList_append]
    exact (((h t List.mem_cons_self).mono (by decide)).append hsep).append
      (ih fun u hu => h u (List.mem_cons_of_mem t hu))

end Nested

/-! ### Separators -/

/-- A separator splits a text in one way if no part goes on behind it. -/
theorem split_unique (h : as ++ c :: rs = bs ++ c :: ss)
    (has : ∀ q, bs ≠ as ++ c :: q) (hbs : ∀ q, as ≠ bs ++ c :: q) : as = bs ∧ rs = ss := by
  obtain ⟨ds, rfl, hds⟩ | ⟨ds, rfl, hds⟩ := List.append_eq_append_iff.mp h
  · obtain ⟨rfl, hrest⟩ | ⟨ds', rfl, -⟩ := List.cons_eq_append_iff.mp hds
    · exact ⟨by simp, by simpa using hrest.symm⟩
    · exact absurd rfl (has ds')
  · obtain ⟨rfl, hrest⟩ | ⟨ds', rfl, -⟩ := List.cons_eq_append_iff.mp hds
    · exact ⟨by simp, by simpa using hrest⟩
    · exact absurd rfl (hbs ds')

theorem split_of_not_mem (h : as ++ c :: rs = bs ++ c :: ss)
    (has : c ∉ as) (hbs : c ∉ bs) : as = bs ∧ rs = ss :=
  split_unique h (by rintro q rfl; simp at hbs) (by rintro q rfl; simp at has)

theorem split_of_nested {as bs rs ss : List Char} (h : as ++ ',' :: rs = bs ++ ',' :: ss)
    (has : Nested 1 as) (hbs : Nested 1 bs) : as = bs ∧ rs = ss := by
  refine split_unique h (fun q hq => ?_) fun q hq => ?_
  · have := hbs.commas as q hq
    rw [has.depth] at this
    omega
  · have := has.commas bs q hq
    rw [hbs.depth] at this
    omega

/-- Texts are told from the text in which a comma ends each of them. -/
theorem ended_injective {ts us : List String} (hts : ∀ t ∈ ts, Nested 1 t.toList)
    (hus : ∀ u ∈ us, Nested 1 u.toList)
    (h : String.join (ts.map (· ++ ",")) = String.join (us.map (· ++ ","))) : ts = us := by
  have hcons (t : String) (ts : List String) : (String.join ((t :: ts).map (· ++ ","))).toList =
      t.toList ++ ',' :: (String.join (ts.map (· ++ ","))).toList := by
    simp [String.join_cons]
  induction ts generalizing us with
  | nil =>
    cases us with
    | nil => rfl
    | cons u us =>
      have h := congrArg String.toList h
      rw [hcons] at h
      simp [String.join] at h
  | cons t ts ih =>
    cases us with
    | nil =>
      have h := congrArg String.toList h
      rw [hcons] at h
      simp [String.join] at h
    | cons u us =>
      have h := congrArg String.toList h
      rw [hcons, hcons] at h
      obtain ⟨htu, hrest⟩ :=
        split_of_nested h (hts t List.mem_cons_self) (hus u List.mem_cons_self)
      rw [String.toList_inj.mp htu, ih (fun v hv => hts v (List.mem_cons_of_mem t hv))
        (fun v hv => hus v (List.mem_cons_of_mem u hv)) (String.toList_inj.mp hrest)]

/-! ### Names -/

/-- Whether a text is a name as programs write it. -/
def isName (s : String) : Bool :=
  s.toList.head?.any isWordStart && s.toList.all isWordChar

/-- The name of a type: one that was written, with brackets behind it for an array. -/
structure IsTitle (s : String) : Prop where
  start : s.toList.head?.any isWordStart = true
  nested : Nested 1 s.toList
  noParen : '(' ∉ s.toList

theorem bracket_of_isWordChar (h : isWordChar c) : bracket c = 0 ∧ c ≠ ',' := by
  refine ⟨?_, by rintro rfl; cases h⟩
  have hne : c ≠ '(' ∧ c ≠ '[' ∧ c ≠ ')' ∧ c ≠ ']' := by
    refine ⟨?_, ?_, ?_, ?_⟩ <;> rintro rfl <;> cases h
  simp [bracket, hne]

theorem isTitle_of_isName (h : isName s) : IsTitle s := by
  simp only [isName, Bool.and_eq_true, List.all_eq_true] at h
  exact ⟨h.1, .of_plain fun c hc => bracket_of_isWordChar (h.2 c hc), fun hc => by cases h.2 _ hc⟩

theorem IsTitle.start_append (h : IsTitle s) (cs : List Char) :
    (s.toList ++ cs).head?.any isWordStart = true := by
  have hstart := h.start
  rw [List.head?_append]
  cases hs : s.toList.head? with
  | none => simp [hs] at hstart
  | some c => simpa [hs] using hstart

theorem IsTitle.array (h : IsTitle s) : IsTitle (s ++ "[]") := by
  refine ⟨?_, ?_, by simpa using h.noParen⟩ <;> rw [String.toList_append]
  · exact h.start_append _
  · exact h.nested.append (Nested.enclose (n := 0) .nil (by decide) (by decide))

/-! ### Texts of types -/

theorem Nested.arrayText (h : Nested 1 s.toList) (k : Nat) :
    Nested 1 (s ++ "[" ++ repeatChar ',' k ++ "]").toList := by
  have hrank := (Nested.commas_replicate k).enclose (o := '[') (c := ']') (by decide) (by decide)
  simpa [repeatChar, List.append_assoc] using h.append hrank

theorem Nested.pointerText (h : Nested 1 s.toList) :
    Nested 1 ("Pointer To " ++ s).toList := by
  rw [String.toList_append]
  exact (of_plain (by simp [bracket])).append h

theorem Nested.genericText (h : Nested 1 s.toList)
    (hts : ∀ t ∈ ts, Nested 1 t.toList) : Nested 1 (genericText s ts).toList := by
  have hof : Nested 0 "Of ".toList := of_plain (by simp [bracket])
  have hargs := (hof.append (joined hts)).enclose (o := '(') (c := ')') (by decide) (by decide)
  simpa [BasicSSA.genericText, List.append_assoc] using h.append hargs

/-! ### Spellings -/

/-- What a type is made of, its parts as they are shown. -/
inductive Spelling where
  | array (rank : Nat) (element : String)
  | pointer (target : String)
  | generic (definition : String) (args : List String)
  | parameter (name : String)
  deriving DecidableEq

namespace Spelling

/-- The text under which a type is kept. -/
def key : Spelling → String
  | array rank element => "[" ++ toString rank ++ "]" ++ element
  | pointer target => "^" ++ target
  | generic definition args => definition ++ "(Of " ++ String.join (args.map (· ++ ","))
  | parameter name => "'" ++ name

/-- The parts of a generic type are shown as types are. -/
def Proper : Spelling → Prop
  | generic definition args => IsTitle definition ∧ ∀ t ∈ args, Nested 1 t.toList
  | _ => True

def isGeneric : Spelling → Bool
  | generic .. => true
  | _ => false

/-- Only the text of a generic type starts with a name. -/
theorem start_key (h : Proper s) : s.key.toList.head?.any isWordStart = s.isGeneric := by
  cases s with
  | generic definition args =>
    rw [key, String.toList_append, String.toList_append, List.append_assoc]
    exact h.1.start_append _
  | array | pointer | parameter =>
    simp [key, isGeneric]
    decide

theorem array_key_inj (h : (array m e).key = (array n e').key) : m = n ∧ e = e' := by
  have h := congrArg String.toList h
  simp only [key, String.toList_append, List.append_assoc] at h
  have hdigits (n : Nat) : ']' ∉ (toString n).toList := fun hmem => by
    cases Nat.isDigit_of_mem_toDigits (b := 10) (n := n) (by decide) (by decide)
      (by simpa [toString, Nat.repr] using hmem)
  obtain ⟨hrank, helement⟩ := split_of_not_mem (List.cons.inj h).2 (hdigits m) (hdigits n)
  refine ⟨?_, String.toList_inj.mp helement⟩
  have hnumber := congrArg (Nat.ofDigitChars 10 · 0) hrank
  simpa [toString, Nat.repr, Nat.ofDigitChars_ten_toDigits] using hnumber

theorem generic_key_inj (hd : IsTitle d) (hd' : IsTitle d') (hts : ∀ t ∈ ts, Nested 1 t.toList)
    (hus : ∀ u ∈ us, Nested 1 u.toList) (h : (generic d ts).key = (generic d' us).key) :
    d = d' ∧ ts = us := by
  have h := congrArg String.toList h
  simp only [key, String.toList_append, List.append_assoc] at h
  obtain ⟨hname, hargs⟩ := split_of_not_mem h hd.noParen hd'.noParen
  have hargs : (String.join (ts.map (· ++ ","))).toList = (String.join (us.map (· ++ ","))).toList := by
    simpa using hargs
  exact ⟨String.toList_inj.mp hname, ended_injective hts hus (String.toList_inj.mp hargs)⟩

/-- Different spellings have different texts: the first character tells the kind, and brackets keep
the parts apart. -/
theorem key_injective (hs : Proper s) (hs' : Proper s') (h : s.key = s'.key) : s = s' := by
  have hkind : s.isGeneric = s'.isGeneric := by rw [← start_key hs, h, start_key hs']
  cases s with
  | array m e =>
    cases s' with
    | array n e' =>
      obtain ⟨rfl, rfl⟩ := array_key_inj h
      rfl
    | generic => cases hkind
    | pointer | parameter => simp [key, String.ext_iff] at h
  | pointer t =>
    cases s' with
    | pointer t' => simpa [key, String.ext_iff] using h
    | generic => cases hkind
    | array | parameter => simp [key, String.ext_iff] at h
  | generic d ts =>
    cases s' with
    | generic d' us =>
      obtain ⟨rfl, rfl⟩ := generic_key_inj hs.1 hs'.1 hs.2 hs'.2 h
      rfl
    | array | pointer | parameter => cases hkind
  | parameter n =>
    cases s' with
    | parameter n' => simpa [key, String.ext_iff] using h
    | generic => cases hkind
    | array | pointer => simp [key, String.ext_iff] at h

end Spelling

end BasicSSA
