import BasicSSA.IL.Module

/-!
# Printing modules

An instruction that lacks an operand or a label has no text.
-/

namespace BasicSSA.IL

def valuesText (vs : List Value) : String :=
  joinWith ", " (vs.map Value.text)

def phiText? : List Value → List String → Option (List String)
  | [], _ => some []
  | _ :: _, [] => none
  | v :: vs, l :: ls => do
    let rest ← phiText? vs ls
    some (("[" ++ v.text ++ ", " ++ l ++ "]") :: rest)

def casesText? : List Value → List String → Option (List String)
  | _, [] => some []
  | [], _ :: _ => none
  | v :: vs, l :: ls => do
    let rest ← casesText? vs ls
    some ((v.text ++ ": " ++ l) :: rest)

def Instr.argsText? (i : Instr) : Option String :=
  match i.op with
  | .call => some (" @" ++ i.name ++ "(" ++ valuesText i.operands ++ ")")
  | .newObj => some (" " ++ i.name ++ "(" ++ valuesText i.operands ++ ")")
  | .alloca => some (" " ++ i.name)
  | .load => some (" " ++ i.type.text ++ ", " ++ valuesText i.operands)
  | .cast => some (" " ++ valuesText i.operands ++ " to " ++ i.type.text)
  | .fieldLoad => some (" " ++ valuesText i.operands ++ ", " ++ i.name)
  | .fieldStore =>
    match i.operands with
    | object :: value :: _ => some (" " ++ object.text ++ ", " ++ i.name ++ ", " ++ value.text)
    | _ => none
  | .phi => do
    let parts ← phiText? i.operands i.labels
    some (if parts.isEmpty then "" else " " ++ joinWith ", " parts)
  | .br =>
    match i.labels with
    | target :: _ => some (" " ++ target)
    | _ => none
  | .cbr =>
    match i.operands, i.labels with
    | cond :: _, yes :: no :: _ => some (" " ++ cond.text ++ ", " ++ yes ++ ", " ++ no)
    | _, _ => none
  | .switch =>
    match i.operands, i.labels with
    | v :: values, default :: labels => do
      let cases ← casesText? values labels
      some (" " ++ v.text ++ ", " ++ default ++ " [" ++ joinWith ", " cases ++ "]")
    | _, _ => none
  | _ => some (if i.operands.isEmpty then "" else " " ++ valuesText i.operands)

def Instr.text? (i : Instr) : Option String := do
  let args ← i.argsText?
  let result := i.result.elim "" fun v => v.text ++ " = "
  some ("  " ++ result ++ i.op.text ++ args ++ "\n")

/-- The texts of a list one after the other, if all its elements have one. -/
def concatText? {α : Type} (f : α → Option String) (xs : List α) : Option String :=
  (xs.mapM f).map String.join

def Block.text? (b : Block) : Option String := do
  let body ← concatText? Instr.text? b.instrs
  some (b.label ++ ":\n" ++ body)

def Slot.text (s : Slot) : String :=
  s.name ++ ": " ++ s.type.text

/-- The parameters enter a function at version 0. -/
def paramText (s : Slot) : String :=
  (Value.var s.name 0 s.type).text ++ ": " ++ s.type.text

def Function.text? (f : Function) : Option String := do
  let body ← concatText? Block.text? f.blocks
  let returnText := if f.returnType.isVoid then "" else " -> " ++ f.returnType.text
  let localsText := String.join (f.locals.map fun s => "  local %" ++ s.text ++ "\n")
  some ("func @" ++ f.name ++ "(" ++ joinWith ", " (f.params.map paramText) ++ ")" ++ returnText ++
    " \x7b\n" ++ localsText ++ body ++ "\x7d\n")

def Global.text (g : Global) : String :=
  (if g.isConstant then "const @" else "global @") ++ g.name ++ ": " ++ g.type.text ++
    g.init.elim "" (fun v => " = " ++ v.text) ++ "\n"

def ClassLayout.text (c : ClassLayout) : String :=
  "class " ++ c.name ++ (if c.base.isEmpty then "" else " : " ++ c.base) ++ " \x7b\n" ++
    String.join (c.fields.map fun s => "  field " ++ s.text ++ "\n") ++
    String.join (c.methods.map fun m => "  method @" ++ m ++ "\n") ++ "\x7d\n"

/-- The text of a module, if every instruction has one. -/
def Module.text? (m : Module) : Option String := do
  let functions ← concatText? (fun f => do return "\n" ++ (← Function.text? f)) m.functions
  some ("module " ++ m.name ++ "\n" ++ (if m.globals.isEmpty then "" else "\n") ++
    String.join (m.globals.map Global.text) ++
    String.join (m.classes.map fun c => "\n" ++ c.text) ++ functions)

end BasicSSA.IL
