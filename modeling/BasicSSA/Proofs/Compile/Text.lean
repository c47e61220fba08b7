import BasicSSA.Compile

/-!
# Texts and their modules
-/

namespace BasicSSA

open IL (Module)

/-- Tokens are parsed as a program that analysis accepts, and the program is lowered to a module. -/
structure Translates (tokens : List Token) (name : String) (p : Program Loc) (m : Module) : Prop where
  parsed : parse tokens = .ok p
  accepted : (analyze p).isAccepted = true
  lowered : lower (analyze p) name = .ok m

/-- The program that a text is accepted as. -/
def accepted? (file : Nat) (text : String) : Option (Program Loc) :=
  ((tokenize text file).toOption.bind fun tokens => (parse tokens).toOption).filter
    fun p => (analyze p).isAccepted

/-- The module that a text is lowered to. -/
def module? (file : Nat) (name text : String) : Option Module :=
  (accepted? file text).bind fun p => (lower (analyze p) name).toOption

theorem toOption_eq_some {x : Except ε α} {a : α} :
    x.toOption = some a ↔ x = .ok a := by
  cases x <;> simp [Except.toOption]

theorem accepted?_eq_some (h : accepted? file text = some p) :
    ∃ tokens, tokenize text file = .ok tokens ∧ parse tokens = .ok p ∧
      (analyze p).isAccepted = true := by
  simp only [accepted?, Option.filter_eq_some_iff, Option.bind_eq_some_iff, toOption_eq_some] at h
  obtain ⟨⟨tokens, htokens, hp⟩, ha⟩ := h
  exact ⟨tokens, htokens, hp, ha⟩

/-- What is found in the module of a text is found in that of an accepted program. -/
theorem exists_of_module? (h : (module? file name text).map g = some a) :
    ∃ tokens p m, accepted? file text = some p ∧ tokenize text file = .ok tokens ∧
      Translates tokens name p m ∧ g m = a := by
  obtain ⟨m, hm, ha⟩ := Option.map_eq_some_iff.mp h
  obtain ⟨p, hp, hl⟩ := Option.bind_eq_some_iff.mp hm
  obtain ⟨tokens, htokens, hparse, haccepted⟩ := accepted?_eq_some hp
  exact ⟨tokens, p, m, hp, htokens, ⟨hparse, haccepted, toOption_eq_some.mp hl⟩, ha⟩

end BasicSSA
