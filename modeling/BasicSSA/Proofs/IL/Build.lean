import BasicSSA.IL.Builder

/-!
# What the steps of a builder do

A step of a builder as a function of the builder before it.
-/

namespace BasicSSA.IL

/-- The temporary that an instruction defines. -/
def Instr.temp? (i : Instr) : Option Nat :=
  match i.result with
  | some (.temp t _) => some t
  | _ => none

/-- The temporaries that instructions define. -/
def temps (is : List Instr) : List Nat :=
  is.filterMap Instr.temp?

theorem temps_append (is js : List Instr) : temps (is ++ js) = temps is ++ temps js :=
  List.filterMap_append ..

namespace Build

variable (b : Builder)

theorem run_bind (x : Build α) (f : α → Build β) : (x >>= f).run.run b =
    match x.run.run b with
    | (.ok a, b) => (f a).run.run b
    | (.error e, b) => (.error e, b) := by
  show (match x.run.run b with | (r, b) => (ExceptT.bindCont f r).run b) = _
  rcases x.run.run b with ⟨_ | _, _⟩ <;> rfl

theorem run_addGlobal (g : Global) : (addGlobal g).run.run b =
    if (b.finished.global? g.name).isSome then (.error (.duplicateGlobal g.name), b)
    else (.ok (), { b with finished.globals := b.finished.globals ++ [g] }) := by
  show (if (b.finished.global? g.name).isSome = true then _ else _ : Build Unit).run.run _ = _
  split <;> rfl

theorem run_startFunction (name : String) (type : Ty) (params : List Slot) :
    (startFunction name type params).run.run b =
      if name.isEmpty then (.error .emptyFunctionName, b)
      else (.ok (), { finished := b.module,
                      function := some { name, returnType := type, params } }) := by
  show (if name.isEmpty = true then _ else _ : Build Unit).run.run _ = _
  split <;> rfl

theorem run_addBlock (l : String) : (addBlock l).run.run b =
    match b.function with
    | none => (.error .noFunction, b)
    | some f =>
      if l.isEmpty then (.error .emptyLabel, b)
      else if f.hasBlock l then (.error (.duplicateLabel l f.name), b)
      else (.ok f.blocks.length,
        b.modifyFunction fun f => { f with blocks := f.blocks ++ [{ label := l }] }) := by
  show (match b.function with | none => _ | some f => _ : Build Nat).run.run _ = _
  cases b.function with
  | none => rfl
  | some f =>
    dsimp only
    split
    · rfl
    · split <;> rfl

theorem run_addBlockTo (k : Nat) (l : String) : (addBlockTo k l).run.run b =
    match b.finished.functions[k]? with
    | none => (.error .noFunction, b)
    | some f =>
      if l.isEmpty then (.error .emptyLabel, b)
      else if f.hasBlock l then (.error (.duplicateLabel l f.name), b)
      else (.ok (), { b with finished.functions := b.finished.functions.modify k fun f =>
        { f with blocks := f.blocks ++ [{ label := l }] } }) := by
  show (match b.finished.functions[k]? with | none => _ | some f => _ : Build Unit).run.run _ = _
  cases b.finished.functions[k]? with
  | none => rfl
  | some f =>
    dsimp only
    split
    · rfl
    · split <;> rfl

theorem run_append (i : Instr) : (append i).run.run b =
    match b.block? with
    | none => (.error .noBlock, b)
    | some block =>
      if block.isTerminated then (.error (.afterTerminator block.label), b)
      else (.ok (), b.modifyBlock fun block => { block with instrs := block.instrs ++ [i] }) := by
  show (match b.block? with | none => _ | some block => _ : Build Unit).run.run _ = _
  cases b.block? with
  | none => rfl
  | some block =>
    dsimp only
    split <;> rfl

theorem run_renameResult (temp target : Value) : (renameResult temp target).run.run b =
    match b.block?.bind (·.instrs.getLast?) with
    | none => (.ok false, b)
    | some last =>
      if canRename temp target last then
        (.ok true, b.modifyBlock fun block =>
          { block with instrs := block.instrs.dropLast ++ [{ last with result := some target }] })
      else (.ok false, b) := by
  show (match b.block?.bind (·.instrs.getLast?) with
    | none => _ | some last => _ : Build Bool).run.run _ = _
  cases b.block?.bind (·.instrs.getLast?) with
  | none => rfl
  | some last =>
    dsimp only
    split <;> rfl

end Build

end BasicSSA.IL
