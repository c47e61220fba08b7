import BasicSSA.Proofs.Lower.Exits
import BasicSSA.Proofs.Lower.Written.Program

/-!
# How often calls are lowered

Code is made from each part of an expression once, with three exceptions. The target of `++`, `--` or
of an operation with an assignment is read and written, and what it is made of is lowered for both.
The object of a member that belongs to no object is not lowered, and nothing is lowered where the
address of a procedure is taken.
-/

namespace BasicSSA

open IL (Instr)

open Lower

/-- The calls of code do not depend on the results of its instructions. -/
theorem filterMap_call?_anonymous (code : List Instr) :
    (code.map Instr.anonymous).filterMap Instr.call? = code.filterMap Instr.call? := by
  rw [List.filterMap_map]
  rfl

/-- The blocks of a function hold the code of the statements of its procedure, each once. The code of
a statement calls the procedures that the statement calls, each as often as the parts of the
statement are lowered, and beside them only functions of the runtime. -/
theorem lower_calls {p : Program Loc} {i : Nat} {r : Routine}
    (ha : (analyze p).isAccepted = true) (hl : lower (analyze p) name = .ok m)
    (hr : (analyze p).routines[i]? = some r) :
    ∃ f x, ∃ H : SourceMap, m.functions[i]? = some f ∧ f.name = r.name ∧
      r.procedure.info.symbol = some x ∧
      (∀ k < f.blocks.length,
        LaidOut m.globals (bodyPlace (analyze p).env x r.owner) (f.block k) (H k)) ∧
      (Stmt.actionsList r.body).Perm ((List.range f.blocks.length).flatMap (H.actions ·)) ∧
      ∀ k < f.blocks.length, ∀ piece ∈ H k, (analyze p).env.Serves
        ((analyze p).env.actionCalls piece.action) (piece.code.filterMap Instr.call?) := by
  obtain ⟨f, x, H, hf, hname, hx, hcarry⟩ := lower_carriesOut hl hr
  refine ⟨f, x, H, hf, hname, hx, hcarry.laid, hcarry.actions, fun k hk piece hpiece => ?_⟩
  have hready := (analyze_settled ha).ready hl
  rw [(lower_ok hl hready.keeps).globals] at hcarry
  have haccounts := (hcarry.accounts (analyze_settled ha) hready.names (List.mem_of_getElem? hr) hx
    hk hpiece).2
  exact filterMap_call?_anonymous piece.code ▸ haccounts.serves

/-- A call in the target of an operation with an assignment. -/
def steppedElement : String :=
  "Function F() As Integer\nReturn 0\nEnd Function\nSub S(a[] As Integer)\na[F()] += 1\nEnd Sub\n"

theorem lower_calls_stepped : ∃ p m r f, ∃ H : SourceMap, accepted? 1 steppedElement = some p ∧
    lower (analyze p) "main" = .ok m ∧ (analyze p).routines[1]? = some r ∧
    m.functions[1]? = some f ∧
    (Stmt.actionsList r.body).Perm ((List.range f.blocks.length).flatMap (H.actions ·)) ∧
    ∀ k < f.blocks.length, ∀ piece ∈ H k, (analyze p).env.Serves
      ((analyze p).env.actionCalls piece.action) (piece.code.filterMap Instr.call?) := by
  have hroutines : (accepted? 1 steppedElement).map (fun p => (analyze p).routines.length) =
      some 2 := by
    decide +kernel
  have hmodule : (module? 1 "main" steppedElement).map (·.functions.length) = some 2 := by
    decide +kernel
  obtain ⟨tokens, p, m, hp, -, h, -⟩ := exists_of_module? hmodule
  rw [hp, Option.map_some, Option.some.injEq] at hroutines
  have hr : (analyze p).routines[1]? = some ((analyze p).routines[1]) := List.getElem?_eq_getElem _
  obtain ⟨f, -, H, hf, -, -, -, hactions, hcalls⟩ := lower_calls h.accepted h.lowered hr
  exact ⟨p, m, _, f, H, hp, h.lowered, hr, hf, hactions, hcalls⟩

/-- The element is computed twice, once to read it and once to write it, and so the function is called
twice although the statement has one call. -/
theorem steppedElement_calls_twice : (module? 1 "main" steppedElement).map (fun m =>
      m.functions.map fun f => f.blocks.map fun b => b.instrs.filterMap (·.call?.map (·.1))) =
    some [[[]], [[some "F", some "F"]]] := by
  decide +kernel

end BasicSSA
