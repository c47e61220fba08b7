import BasicSSA.Analysis.State
import BasicSSA.Syntax.Stmt

/-!
# The structured reading of statements

What a run of statements does, read off their structure. An oracle answers each test from what was
done up to it. A loop runs for a number of rounds at most; a run that needs more is cut.
-/

namespace BasicSSA

/-- What a run does. -/
inductive Action where
  /-- A statement without statements in it. -/
  | simple (s : Stmt Note)
  /-- The subject of a `Select` or the object of a `With` is computed. -/
  | subject (e : Expr Note)
  | test (e : Expr Note)
  /-- The subject of a `Select` is compared with a value. -/
  | caseTest (subject e : Expr Note)
  /-- A `For` or `For Each` loop computes its bounds. -/
  | start (s : Stmt Note)
  /-- A `For` or `For Each` loop tests whether it goes on. -/
  | inRange (s : Stmt Note)
  /-- A `For Each` loop gives its variable the next element. -/
  | element (s : Stmt Note)
  /-- A `For` or `For Each` loop moves on to its next round. -/
  | next (s : Stmt Note)
  /-- The variable of a `Catch` is set. No run does this. -/
  | caught (i : Note)

/-- What a run has done so far. -/
abbrev Trace := List Action

/-- The answer to the test that was done last. -/
abbrev Oracle := Trace → Bool

/-- How a run of statements ends: by reaching their end, by leaving a loop, by ending the procedure,
or for want of rounds. -/
inductive Outcome where
  | normal
  | leave (kind : ExitKind)
  | stop
  | cut
  deriving DecidableEq, Repr

/-- A way to go on with a run. -/
abbrev Reading := Trace → Trace × Outcome

namespace Reading

def give (o : Outcome) : Reading := fun t => (t, o)

/-- Does nothing. -/
def skip : Reading := give .normal

def act (a : Action) : Reading := fun t => (t ++ [a], .normal)

def andThen (x y : Reading) : Reading := fun t =>
  match x t with
  | (t, .normal) => y t
  | r => r

/-- Does a test, and then one thing or another. -/
def ask (o : Oracle) (a : Action) (yes no : Reading) : Reading := fun t =>
  if o (t ++ [a]) then yes (t ++ [a]) else no (t ++ [a])

/-- Goes on after a loop that was left. -/
def catching (kind : ExitKind) (x : Reading) : Reading := fun t =>
  match x t with
  | (t, .leave k) => (t, if k = kind then .normal else .leave k)
  | r => r

/-- Does one round after the other; a round is told how to go on with the next. -/
def rounds (round : Reading → Reading) : Nat → Reading
  | 0 => give .cut
  | n + 1 => round (rounds round n)

/-- A loop that `Exit` may leave. -/
def loop (kind : ExitKind) (fuel : Nat) (round : Reading → Reading) : Reading :=
  catching kind (rounds round fuel)

/-- Tests the subject against one value after the other. -/
def askAny (o : Oracle) (subject : Expr Note) (hit miss : Reading) : List (Expr Note) → Reading
  | [] => miss
  | e :: es => ask o (.caseTest subject e) hit (askAny o subject hit miss es)

/-- The test of a `Do` loop. -/
def askLoop (o : Oracle) (t : LoopTest Note) (again : Reading) : Reading :=
  if t.isWhile then ask o (.test t.cond) again skip else ask o (.test t.cond) skip again

end Reading

/-- What `Exit` does. -/
def ExitKind.outcome : ExitKind → Outcome
  | .sub | .function => .stop
  | kind => .leave kind

namespace Stmt

open Reading

section

variable (o : Oracle) (fuel : Nat)

mutual

/-- A run of a statement. -/
def reading : Stmt Note → Reading
  | .ifThen _ c b e => ask o (.test c) (readingList b) (readingElse e)
  | .select _ e cs =>
    (act (.subject e)).andThen (readingCases e ((readingDefault cs).getD skip) cs)
  | .forLoop i v a z s b =>
    let self : Stmt Note := .forLoop i v a z s b
    (act (.start self)).andThen <| loop .forLoop fuel fun again =>
      ask o (.inRange self) ((readingList b).andThen ((act (.next self)).andThen again)) skip
  | .forEach i v t e b =>
    let self : Stmt Note := .forEach i v t e b
    (act (.start self)).andThen <| loop .forLoop fuel fun again =>
      ask o (.inRange self)
        (((act (.element self)).andThen (readingList b)).andThen ((act (.next self)).andThen again))
        skip
  | .whileLoop _ c b =>
    loop .whileLoop fuel fun again => ask o (.test c) ((readingList b).andThen again) skip
  | .doLoop _ none b => loop .doLoop fuel fun again => (readingList b).andThen again
  | .doLoop _ (some t) b =>
    loop .doLoop fuel fun again =>
      if t.atTop then askLoop o t ((readingList b).andThen again)
      else (readingList b).andThen (askLoop o t again)
  | .tryCatch _ b _ none => readingList b
  | .tryCatch _ b _ (some l) => (readingList b).andThen (readingList l)
  | .withBlock _ e b => (act (.subject e)).andThen (readingList b)
  | .return_ i e => (act (.simple (.return_ i e))).andThen (give .stop)
  | .exit i k => (act (.simple (.exit i k))).andThen (give k.outcome)
  | .throw i e => act (.simple (.throw i e))
  | .assign i t op e => act (.simple (.assign i t op e))
  | .expr i e => act (.simple (.expr i e))
  | .var d => act (.simple (.var d))
  | .const d => act (.simple (.const d))

/-- A run of statements in order. -/
def readingList : List (Stmt Note) → Reading
  | [] => skip
  | s :: ss => s.reading.andThen (readingList ss)

/-- A run of what follows the first arm of an `If`. -/
def readingElse : Else Note → Reading
  | .nothing => skip
  | .block b => readingList b
  | .elseIf _ c b e => ask o (.test c) (readingList b) (readingElse e)

/-- A run of the arms of a `Select`: that of the first value that is hit, or else another run. -/
def readingCases (subject : Expr Note) (miss : Reading) : List (Case Note) → Reading
  | [] => miss
  | .values _ vs b :: cs => askAny o subject (readingList b) (readingCases subject miss cs) vs
  | .otherwise .. :: cs => readingCases subject miss cs

/-- A run of the last `Case Else`. -/
def readingDefault : List (Case Note) → Option Reading
  | [] => none
  | .values .. :: cs => readingDefault cs
  | .otherwise _ b :: cs => readingDefault cs <|> some (readingList b)

end

/-- A run of the body of a procedure, which ends with the body. -/
def run (body : List (Stmt Note)) : Reading :=
  (readingList o fuel body).andThen (give .stop)

end

end Stmt

end BasicSSA
