import BasicSSA.Proofs.Compile.Outcome

/-!
# Where `Exit` leads

The loops that analysis finds around an `Exit` are the loops that lowering keeps on its stack: the
code of an accepted program lies so that each `Exit` of a loop goes on where the innermost loop of
its kind ends.
-/

namespace BasicSSA

open Lower

/-- The functions of a module are those of its procedures, in order. -/
theorem lower_implements {i : Nat} (h : lower a name = .ok m)
    (hr : a.routines[i]? = some r) :
    ∃ f π, m.functions[i]? = some f ∧ Implements π a.env m.globals f r := by
  obtain ⟨fs, init, hfs, -, hall, -⟩ := (lower_ok h (keeps_anything _ _)).functions
  obtain ⟨f, hf, himp⟩ := hall i r hr
  refine ⟨f, _, ?_, himp⟩
  rw [hfs, List.getElem?_append_left (List.getElem?_eq_some_iff.mp hf).1]
  exact hf

/-- The code of a procedure lies in its function as its body says. -/
theorem lower_carriesOut {i : Nat} (h : lower a name = .ok m)
    (hr : a.routines[i]? = some r) :
    ∃ f x H, m.functions[i]? = some f ∧ f.name = r.name ∧ r.procedure.info.symbol = some x ∧
      CarriesOut m.globals (bodyPlace a.env x r.owner) f H r.body := by
  obtain ⟨f, _, hf, x, H, hx, -, hname, -, -, -, hcarry⟩ := lower_implements h hr
  exact ⟨f, x, H, hf, hname, hx, hcarry⟩

/-- Lowering finds a loop for each `Exit` of an accepted program. The blocks of a function hold the
code of the statements of its procedure, each once, and the code lies as the statements are nested:
an `Exit` jumps to the block where the innermost loop of its kind ends. -/
theorem lower_exits (hp : parse tokens = .ok p) (ha : (analyze p).isAccepted = true) :
    (∀ kind, lower (analyze p) name ≠ .error (.outsideLoop kind)) ∧
    ∀ m, lower (analyze p) name = .ok m → ∀ (i : Nat) r, (analyze p).routines[i]? = some r →
      ∃ f x H e, m.functions[i]? = some f ∧ f.name = r.name ∧ r.procedure.info.symbol = some x ∧
        (∀ k < f.blocks.length,
          LaidOut m.globals (bodyPlace (analyze p).env x r.owner) (f.block k) (H k)) ∧
        (Stmt.actionsList r.body).Perm ((List.range f.blocks.length).flatMap (H.actions ·)) ∧
        Stmt.LiesList f H r.body [] 0 e := by
  constructor
  · intro kind herror
    have hproceeds := Lower.lower_proceeds name
      (analyze_scoped (named_of_parse hp) (formed_of_parse hp) ha)
    rw [herror] at hproceeds
    exact hproceeds
  · intro m hm i r hr
    obtain ⟨f, x, H, hf, hname, hx, hcarry⟩ := lower_carriesOut hm hr
    obtain ⟨e, hlies⟩ := hcarry.lies
    exact ⟨f, x, H, e, hf, hname, hx, hcarry.laid, hcarry.actions, hlies⟩

/-- Three loops, and statements that leave each of them from within the others. -/
def nestedLoops : String :=
  "Sub S(n As Integer)\nFor i = 1 To n\nDo\nWhile n > i\nIf n = 7 Then Exit For\n" ++
    "Select Case n\nCase 1\nExit Do\nCase Else\nExit While\nEnd Select\nEnd While\nLoop\nNext\n" ++
    "End Sub\n"

theorem lower_exits_nested : ∃ p m r f H e, accepted? 1 nestedLoops = some p ∧
    lower (analyze p) "main" = .ok m ∧ (analyze p).routines[0]? = some r ∧
    m.functions[0]? = some f ∧ f.blocks.length = 16 ∧
    (Stmt.actionsList r.body).Perm ((List.range f.blocks.length).flatMap (H.actions ·)) ∧
    Stmt.LiesList f H r.body [] 0 e := by
  have hroutines : (accepted? 1 nestedLoops).map (fun p => (analyze p).routines.length) = some 1 := by
    decide +kernel
  have hblocks : (module? 1 "main" nestedLoops).map (fun m =>
      m.functions.map (·.blocks.length)) = some [16] := by
    decide +kernel
  obtain ⟨tokens, p, m, hp, -, h, hlen⟩ := exists_of_module? hblocks
  rw [hp, Option.map_some, Option.some.injEq] at hroutines
  have hr : (analyze p).routines[0]? = some ((analyze p).routines[0]) := List.getElem?_eq_getElem _
  obtain ⟨f, -, H, e, hf, -, -, -, hactions, hlies⟩ :=
    (lower_exits h.parsed h.accepted).2 m h.lowered 0 _ hr
  refine ⟨p, m, _, f, H, e, hp, h.lowered, hr, hf, ?_, hactions, hlies⟩
  have hfirst : (m.functions.map (·.blocks.length))[0]? = some f.blocks.length := by simp [hf]
  rw [hlen] at hfirst
  exact (Option.some.inj hfirst).symm

end BasicSSA
