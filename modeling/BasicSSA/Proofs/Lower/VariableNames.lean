import BasicSSA.Proofs.Lower.Exits

/-!
# Names of the variables of procedures

The variables of a procedure get names of their own, whatever names the source gives them, and so do
the object of a method and the index of a `For Each` loop. The number behind a name is the first one
that makes it a name that is not in use.
-/

namespace BasicSSA

open Lower

/-- A procedure of an accepted program declares its variables in order. -/
theorem inOrder_of_accepted (hp : parse tokens = .ok p) (ha : (analyze p).isAccepted = true)
    (hr : r ∈ (analyze p).routines) :
    ∃ hi, Declaration.InOrder 0 hi (r.declarations (analyze p).env.tree) := by
  obtain ⟨hitem, hbody⟩ := Analysis.item_of_routine hr
  have hscoped := analyze_scoped (named_of_parse hp) (formed_of_parse hp) ha _ hitem
  obtain ⟨-, -, scope, -, -, ⟨hi, hi'⟩, -⟩ := hscoped _ hbody
  refine ⟨hi, ?_⟩
  rw [Routine.declarations]
  cases r.owner <;> exact hi'

/-- No two variables of a procedure have the same name, whatever the case of its letters, and a
function lists no name twice. What the procedure declares is listed under its name. The other names
that are listed, such as that of the object of a method, are the names of no variable. Where a number
is put behind a name, it is the first one whose name is not in use. -/
theorem lower_names_apart {i : Nat} {r : Routine} (hp : parse tokens = .ok p)
    (ha : (analyze p).isAccepted = true) (hl : lower (analyze p) name = .ok m)
    (hr : (analyze p).routines[i]? = some r) :
    (∀ (n : Names) base k, n.isUsed (Names.numbered base (n.freeNumber base k)) = false ∧
      k ≤ n.freeNumber base k ∧
      ∀ j, k ≤ j → j < n.freeNumber base k → n.isUsed (Names.numbered base j) = true) ∧
    ∃ f s t, m.functions[i]? = some f ∧
      procedure (analyze p).env r.procedure r.name r.owner s = .ok ((), t) ∧
      t.builder.function = some f ∧
      (∀ x y a b, t.names.varNames.lookup x = some a → t.names.varNames.lookup y = some b →
        x ≠ y → foldCase a ≠ foldCase b) ∧
      (f.slotNames.map foldCase).Nodup ∧
      (∀ a ∈ f.slotNames, (∃ x, t.names.varNames.lookup x = some a) ∨
        ∀ x b, t.names.varNames.lookup x = some b → foldCase b ≠ foldCase a) ∧
      (∀ x, .new x ∈ r.procedure.declarations (analyze p).env.tree →
        ∃ a ∈ f.slotNames, t.names.varNames.lookup x = some a) ∧
      (r.owner.isSome = true → "Me" ∈ f.slotNames ∧
        ∀ x b, t.names.varNames.lookup x = some b → foldCase b ≠ foldCase "Me") := by
  refine ⟨fun n base k => ⟨n.isUsed_freeNumber base k, Names.isUsed_of_lt_freeNumberAux _ k⟩, ?_⟩
  obtain ⟨hi, hi'⟩ := inOrder_of_accepted hp ha (List.mem_of_getElem? hr)
  obtain ⟨f, _, hf, x, H, -, -, -, -, ⟨-, s, t, hrun, hfunction, hlists⟩, -⟩ := lower_implements hl hr
  have hapart := hlists hi hi'
  refine ⟨f, s, t, hf, hrun, hfunction, fun x y a b hx hy hne he => hne ?_, hapart.nodup,
    hapart.owned, fun x hx => hapart.declared x (List.mem_append_right _ hx), fun ho => ?_⟩
  · exact hapart.distinct x y a b hx hy he
  · obtain ⟨x, hx⟩ := Option.isSome_iff_exists.mp ho
    exact hapart.own "Me" (by simp [Routine.declarations, hx])

/-- A method with variables whose names it has to change, and one with a name like a changed one. -/
def shadowedNames : String :=
  "Class C\nSub M(x_1 As Integer, x As Integer, a[] As Integer)\nFor Each e In a\n" ++
    "Dim X As Integer = e\nNext\nEnd Sub\nEnd Class\n"

theorem lower_names_apart_shadowed : ∃ p m r f, ∃ t : LowerState, accepted? 1 shadowedNames = some p ∧
    lower (analyze p) "main" = .ok m ∧ (analyze p).routines[0]? = some r ∧
    m.functions[0]? = some f ∧ t.builder.function = some f ∧
    f.slotNames = ["Me", "x_1", "x", "a", "e", "__idx", "X_2"] ∧
    (∀ x, .new x ∈ r.procedure.declarations (analyze p).env.tree →
      ∃ a ∈ f.slotNames, t.names.varNames.lookup x = some a) ∧
    ∀ x y a b, t.names.varNames.lookup x = some a → t.names.varNames.lookup y = some b →
      x ≠ y → foldCase a ≠ foldCase b := by
  have hroutines : (accepted? 1 shadowedNames).map (fun p => (analyze p).routines.length) = some 1 := by
    decide +kernel
  have hslots : (module? 1 "main" shadowedNames).map (fun m => m.functions.map (·.slotNames)) =
      some [["Me", "x_1", "x", "a", "e", "__idx", "X_2"]] := by
    decide +kernel
  obtain ⟨tokens, p, m, hp, -, h, hnames⟩ := exists_of_module? hslots
  rw [hp, Option.map_some, Option.some.injEq] at hroutines
  have hr : (analyze p).routines[0]? = some ((analyze p).routines[0]) := List.getElem?_eq_getElem _
  obtain ⟨-, f, _, t, hf, -, hfunction, hdistinct, -, -, hdeclared, -⟩ :=
    lower_names_apart h.parsed h.accepted h.lowered hr
  refine ⟨p, m, _, f, t, hp, h.lowered, hr, hf, hfunction, ?_, hdeclared, hdistinct⟩
  have hfirst : (m.functions.map (·.slotNames))[0]? = some f.slotNames := by simp [hf]
  rw [hnames] at hfirst
  exact (Option.some.inj hfirst).symm

end BasicSSA
