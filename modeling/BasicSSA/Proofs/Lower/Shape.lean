import BasicSSA.Proofs.Lower.Walk

/-!
# The shape of the code of statements

Which pieces of code a statement is made into, and how they lie in a function: the blocks where the
code of a statement starts and ends, and those where it goes from there.

## Main definitions

* `Stmt.leaves`: a statement never comes to its end. What follows it is not made into code.
* `Stmt.actions`: what the pieces of code of a statement do, in the order in which they are made.
* `Stmt.Lies`: the code of a statement lies in a function, and `Exit` leads out of the innermost loop
  of its kind.
-/

namespace BasicSSA

open IL (Function)

/-- The values that the arms of a `Select` are chosen by. -/
def Case.tests {α : Type} : Case α → List (Expr α)
  | .values _ vs _ => vs
  | .otherwise .. => []

/-- How `Exit` names the loop that it leaves. -/
def ExitKind.isLoop : ExitKind → Bool
  | .sub | .function => false
  | .forLoop | .doLoop | .whileLoop => true

/-- What is known of a piece of lowering: whether it leaves its block for good, what its pieces of
code do, and how they lie in a function, from one block to another. -/
structure Shape where
  leaves : Bool
  actions : List Action
  Lies : Function → SourceMap → LoopStack → Nat → Nat → Prop

namespace Shape

/-- A piece of code before others. -/
def after (a : Action) (Λ : Shape) : Shape where
  leaves := Λ.leaves
  actions := a :: Λ.actions
  Lies f H ls k e := (∃ n, H.Does k n a) ∧ Λ.Lies f H ls k e

/-- A statement without statements in it. -/
def simple (s : Stmt Note) (leaves : Bool) : Shape where
  leaves
  actions := [.simple s]
  Lies _ H _ k e := e = k ∧ ∃ n, H.Does k n (.simple s)

end Shape

namespace Stmt

mutual

/-- A statement that never comes to its end. -/
def leaves : Stmt Note → Bool
  | .return_ .. | .exit .. => true
  | .withBlock _ _ b => leavesList b
  | _ => false

def leavesList : List (Stmt Note) → Bool
  | [] => false
  | s :: ss => s.leaves || leavesList ss

end

mutual

/-- What the pieces of code of a statement do, in the order in which they are made. -/
def actions : Stmt Note → List Action
  | .ifThen _ c b e => .test c :: (actionsList b ++ actionsElse e)
  | .select _ e cs => .subject e :: ((cs.flatMap Case.tests).map (.caseTest e) ++ actionsCases cs)
  | .forLoop i v a z s b =>
    let self : Stmt Note := .forLoop i v a z s b
    .start self :: .inRange self :: (actionsList b ++ [.next self])
  | .forEach i v t e b =>
    let self : Stmt Note := .forEach i v t e b
    .start self :: .inRange self :: .element self :: (actionsList b ++ [.next self])
  | .whileLoop _ c b => .test c :: actionsList b
  | .doLoop _ none b => actionsList b
  | .doLoop _ (some t) b =>
    if t.atTop then .test t.cond :: actionsList b else actionsList b ++ [.test t.cond]
  | .tryCatch _ b cs none => actionsList b ++ actionsCatches cs
  | .tryCatch _ b cs (some l) => actionsList b ++ actionsCatches cs ++ actionsList l
  | .withBlock _ e b => .subject e :: actionsList b
  | s => [.simple s]

def actionsList : List (Stmt Note) → List Action
  | [] => []
  | s :: ss => s.actions ++ if s.leaves then [] else actionsList ss

def actionsElse : Else Note → List Action
  | .nothing => []
  | .block b => actionsList b
  | .elseIf _ c b e => .test c :: (actionsList b ++ actionsElse e)

def actionsCases : List (Case Note) → List Action
  | [] => []
  | .values _ _ b :: cs | .otherwise _ b :: cs => actionsList b ++ actionsCases cs

def actionsCatches : List (Catch Note) → List Action
  | [] => []
  | .mk i _ _ b :: cs => .caught i :: (actionsList b ++ actionsCatches cs)

end

end Stmt

section

variable (f : Function) (H : SourceMap)

/-- Code that starts in the block `k` goes on at the block `next`, unless it leaves. -/
def Arm (leaves : Bool) (lies : Nat → Nat → Prop) (k next : Nat) : Prop :=
  ∃ e, lies k e ∧ (leaves = false → ∃ n, Jumps f H e n next)

def Shape.Arm (Λ : Shape) (loops : LoopStack) : Nat → Nat → Prop :=
  BasicSSA.Arm f H Λ.leaves (Λ.Lies f H loops)

/-- A loop with its end in the block `e`. Its test, if it has one, leads to the body and to the
end. -/
def Encloses (kind : ExitKind) (test : Option Action) (isWhile : Bool) (leaves : Bool)
    (lies : LoopStack → Nat → Nat → Prop) (loops : LoopStack) (e : Nat) : Prop :=
  ∃ frame cond k, frame.kind = kind ∧ frame.leave = e ∧
    (∀ a, test = some a → H.Does cond 0 a ∧
      Branches f H cond 1 (if isWhile then k else e) (if isWhile then e else k)) ∧
    Arm f H leaves (lies (frame :: loops)) k frame.next

/-- A loop around code. -/
def Shape.loop (kind : ExitKind) (test : Option Action) (isWhile : Bool) (actions : List Action)
    (Λ : Shape) : Shape where
  leaves := false
  actions
  Lies f H ls _ e := Encloses f H kind test isWhile Λ.leaves (Λ.Lies f H) ls e

namespace Stmt

mutual

/-- The code of a statement starts in one block and ends in another. The loops around it are known
by the blocks where they end. -/
def Lies : Stmt Note → LoopStack → Nat → Nat → Prop
  | .ifThen _ c b es, ls, k, e => (∃ n, H.Does k n (.test c)) ∧
    (∃ j, Arm f H (leavesList b) (LiesList b ls) j e) ∧ LiesElse es ls e
  | .select _ v cs, ls, k, e => (∃ n, H.Does k n (.subject v)) ∧ LiesCases cs ls e
  | .forLoop i v a z s b, ls, k, e =>
    let self : Stmt Note := .forLoop i v a z s b
    (∃ n, H.Does k n (.start self)) ∧
      Encloses f H .forLoop (some (.inRange self)) true (leavesList b) (LiesList b) ls e
  | .forEach i v t x b, ls, k, e =>
    let self : Stmt Note := .forEach i v t x b
    (∃ n, H.Does k n (.start self)) ∧
      Encloses f H .forLoop (some (.inRange self)) true (leavesList b)
        (fun ls k e => (∃ n, H.Does k n (.element self)) ∧ LiesList b ls k e) ls e
  | .whileLoop _ c b, ls, _, e =>
    Encloses f H .whileLoop (some (.test c)) true (leavesList b) (LiesList b) ls e
  | .doLoop _ t b, ls, _, e =>
    Encloses f H .doLoop (t.map fun t => .test t.cond) (t.all (·.isWhile)) (leavesList b)
      (LiesList b) ls e
  | .tryCatch _ b cs none, ls, _, e =>
    (∃ j, Arm f H (leavesList b) (LiesList b ls) j e) ∧ LiesCatches cs ls e
  | .tryCatch _ b cs (some l), ls, _, e => ∃ last,
    (∃ j, Arm f H (leavesList b) (LiesList b ls) j last) ∧ LiesCatches cs ls last ∧
      Arm f H (leavesList l) (LiesList l ls) last e
  | .withBlock _ v b, ls, k, e => (∃ n, H.Does k n (.subject v)) ∧ LiesList b ls k e
  | .exit i kind, ls, k, e => e = k ∧ ∃ n, H.Does k n (.simple (.exit i kind)) ∧
    (kind.isLoop = true → ∃ frame, ls.innermost? kind = some frame ∧
      Jumps f H k (n + 1) frame.leave)
  | s, _, k, e => e = k ∧ ∃ n, H.Does k n (.simple s)

/-- The code of a statement starts where that of the one before it ends. -/
def LiesList : List (Stmt Note) → LoopStack → Nat → Nat → Prop
  | [], _, k, e => e = k
  | s :: ss, ls, k, e =>
    ∃ j, Lies s ls k j ∧ if s.leaves then e = j else LiesList ss ls j e

def LiesElse : Else Note → LoopStack → Nat → Prop
  | .nothing, _, _ => True
  | .block b, ls, e => ∃ j, Arm f H (leavesList b) (LiesList b ls) j e
  | .elseIf _ c b es, ls, e => (∃ k n, H.Does k n (.test c)) ∧
    (∃ j, Arm f H (leavesList b) (LiesList b ls) j e) ∧ LiesElse es ls e

def LiesCases : List (Case Note) → LoopStack → Nat → Prop
  | [], _, _ => True
  | .values _ _ b :: cs, ls, e | .otherwise _ b :: cs, ls, e =>
    (∃ j, Arm f H (leavesList b) (LiesList b ls) j e) ∧ LiesCases cs ls e

def LiesCatches : List (Catch Note) → LoopStack → Nat → Prop
  | [], _, _ => True
  | .mk i _ _ b :: cs, ls, e =>
    (∃ j, Arm f H (leavesList b)
      (fun k e => (∃ n, H.Does k n (.caught i)) ∧ LiesList b ls k e) j e) ∧ LiesCatches cs ls e

end

end Stmt

end

namespace Stmt

def shape (s : Stmt Note) : Shape :=
  ⟨s.leaves, s.actions, fun f H => s.Lies f H⟩

def shapeList (ss : List (Stmt Note)) : Shape :=
  ⟨leavesList ss, actionsList ss, fun f H => LiesList f H ss⟩

end Stmt

end BasicSSA
