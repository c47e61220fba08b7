import BasicSSA.Diagnostic
import BasicSSA.Scope.Symbol

/-!
# What analysis finds wrong

A problem names types by their texts.
-/

namespace BasicSSA

inductive Problem where
  -- Names
  | undefinedName (name : String)
  | meOutsideClass
  | duplicate (what name : String)
  | duplicateInScope (what name : String)
  | unknownType (name : String)
  | unknownBase (name : String)
  | unknownInterface (name : String)
  | unknownExtended (name : String)
  | withRequired (member : String)
  | noMemberIn (container member : String)
  | noMember (type member : String)
  -- Types that do not fit
  | notClass (name : String)
  | notInterface (name : String)
  | selfInheritance (name : String)
  | initMismatch (value target : String)
  | defaultMismatch (value param : String)
  | constantMismatch (value declared : String)
  | assignMismatch (value target : String)
  | returnMismatch (value expected : String)
  | caseMismatch (value subject : String)
  | elementMismatch (element target : String)
  | cannotInfer (name : String)
  | newInterface (type : String)
  | notEnumerable
  -- Operands
  | arithmeticOperands (op : String)
  | integerDivision
  | concatOperands
  | orderOperands (op : String)
  | logicalOperands (op : String)
  | incomparable (left right : String)
  | unaryOperand (op : String)
  | notOperand
  | stepOperand (op : String)
  | compoundOperands (op : String)
  | derefOperand (type : String)
  -- Assignments
  | assignToConstant (name : String)
  | assignTo (kind name : String)
  | missingInitializer (name : String)
  | missingConstant (name : String)
  -- Calls
  | notCallable (name : String)
  | argumentCount (callee : String) (expected got : Nat)
  | argumentType (number : Nat) (value param : String)
  -- Arrays
  | notArray (type : String)
  | indexType (type : String)
  | indexCount (expected got : Nat)
  -- Control flow
  | condition (what type : String)
  | loopBound (what type : String)
  | loopVariable (name type : String)
  | exitOutside (kind : String)
  | returnOutside
  | returnFromSub
  | missingReturn (type : String)
  | internal (message : String)
  deriving DecidableEq, Repr

namespace Problem

def code : Problem → String
  | undefinedName _ | meOutsideClass => "B2001"
  | assignToConstant _ => "B2002"
  | notClass _ | notInterface _ | selfInheritance _ | initMismatch .. | defaultMismatch ..
  | constantMismatch .. | assignMismatch .. | returnMismatch .. | caseMismatch ..
  | elementMismatch .. | cannotInfer _ | newInterface _ | notEnumerable => "B2003"
  | arithmeticOperands _ | integerDivision | concatOperands | orderOperands _ | logicalOperands _
  | unaryOperand _ | notOperand | stepOperand _ | compoundOperands _ | derefOperand _
  | assignTo .. => "B2004"
  | argumentCount .. => "B2005"
  | argumentType .. => "B2006"
  | notArray _ | indexType _ | indexCount .. => "B2007"
  | withRequired _ | noMemberIn .. | noMember .. => "B2008"
  | returnOutside | returnFromSub => "B2009"
  | missingReturn _ => "B2010"
  | duplicate .. | duplicateInScope .. => "B2011"
  | missingInitializer _ | missingConstant _ => "B2012"
  | unknownType _ | unknownBase _ | unknownInterface _ | unknownExtended _ => "B2013"
  | condition .. => "B2014"
  | incomparable .. => "B2015"
  | notCallable _ => "B2016"
  | loopBound .. | loopVariable .. | exitOutside _ => "B2017"
  | internal _ => "B9000"

/-- A program with warnings only is accepted. -/
def severity : Problem → Severity
  | notEnumerable | condition .. | incomparable .. => .warning
  | _ => .error

def quoted (s : String) : String :=
  "'" ++ s ++ "'"

def message : Problem → String
  | undefinedName name => "Undefined identifier " ++ quoted name
  | meOutsideClass => "'Me' is only valid inside a class"
  | duplicate what name => what ++ " " ++ quoted name ++ " is already defined"
  | duplicateInScope what name =>
    what ++ " " ++ quoted name ++ " is already defined in this scope"
  | unknownType name => "Unknown type " ++ quoted name
  | unknownBase name => "Unknown base class " ++ quoted name
  | unknownInterface name => "Unknown interface " ++ quoted name
  | unknownExtended name => "Cannot extend unknown type " ++ quoted name
  | withRequired member =>
    "Member access '." ++ member ++ "' requires an enclosing With block"
  | noMemberIn container member =>
    quoted container ++ " does not have a member " ++ quoted member
  | noMember type member =>
    "Type " ++ quoted type ++ " does not have a member " ++ quoted member
  | notClass name => quoted name ++ " is not a class"
  | notInterface name => quoted name ++ " is not an interface"
  | selfInheritance name => "Class " ++ quoted name ++ " cannot inherit from itself"
  | initMismatch value target =>
    "Cannot assign value of type " ++ quoted value ++ " to variable of type " ++ quoted target
  | defaultMismatch value param =>
    "Default value type " ++ quoted value ++ " is not compatible with parameter type " ++
      quoted param
  | constantMismatch value declared =>
    "Constant value type " ++ quoted value ++ " is not compatible with declared type " ++
      quoted declared
  | assignMismatch value target =>
    "Cannot assign value of type " ++ quoted value ++ " to " ++ quoted target
  | returnMismatch value expected =>
    "Cannot return type " ++ quoted value ++ " from function expecting " ++ quoted expected
  | caseMismatch value subject =>
    "Case value type " ++ quoted value ++ " is not compatible with select expression type " ++
      quoted subject
  | elementMismatch element target =>
    "Cannot assign array element type " ++ quoted element ++ " to loop variable of type " ++
      quoted target
  | cannotInfer name => "Cannot infer type for variable " ++ quoted name
  | newInterface type => "Cannot create an instance of interface " ++ quoted type
  | notEnumerable => "For Each requires an array or enumerable collection"
  | arithmeticOperands op => "Arithmetic operator " ++ quoted op ++ " requires numeric operands"
  | integerDivision => "Integer division requires integral operands"
  | concatOperands => "Operator '&' requires at least one string operand"
  | orderOperands op => "Comparison operator " ++ quoted op ++ " requires numeric operands"
  | logicalOperands op => "Logical operator " ++ quoted op ++ " requires Boolean operands"
  | incomparable left right =>
    "Comparing incompatible types " ++ quoted left ++ " and " ++ quoted right
  | unaryOperand op => "Unary " ++ quoted op ++ " requires numeric operand"
  | notOperand => "Logical NOT requires Boolean operand"
  | stepOperand op => "Operator " ++ quoted op ++ " requires numeric operand"
  | compoundOperands op => "Operator " ++ quoted op ++ " requires numeric operands"
  | derefOperand type => "Cannot dereference non-pointer type " ++ quoted type
  | assignToConstant name => "Cannot assign to constant " ++ quoted name
  | assignTo kind name => "Cannot assign to " ++ kind ++ " " ++ quoted name
  | missingInitializer name => "Auto variable " ++ quoted name ++ " must have an initializer"
  | missingConstant name => "Constant " ++ quoted name ++ " must have a value"
  | notCallable name => quoted name ++ " is not a function or subroutine"
  | argumentCount callee expected got =>
    "Function " ++ quoted callee ++ " expects " ++ toString expected ++ " arguments, got " ++
      toString got
  | argumentType number value param =>
    "Argument " ++ toString number ++ ": cannot convert from " ++ quoted value ++ " to " ++
      quoted param
  | notArray type => "Cannot index non-array type " ++ quoted type
  | indexType type => "Array index must be an integer type, got " ++ quoted type
  | indexCount expected got =>
    "Array expects " ++ toString expected ++ " indices, got " ++ toString got
  | condition what type => what ++ " should be Boolean, got " ++ quoted type
  | loopBound what type =>
    "For loop " ++ what ++ " value must be numeric, got " ++ quoted type
  | loopVariable name type =>
    "For loop variable " ++ quoted name ++ " must be numeric, got " ++ quoted type
  | exitOutside kind => "Exit " ++ kind ++ " is only valid inside a " ++ kind
  | returnOutside => "Return statement outside of function"
  | returnFromSub => "Cannot return a value from a subroutine"
  | missingReturn type => "Function must return a value of type " ++ quoted type
  | internal message => "Internal error: " ++ message

end Problem

/-- A problem at a position. The length is the number of characters to mark. -/
structure Finding where
  problem : Problem
  loc : Loc
  length : Nat := 0
  deriving DecidableEq, Repr

def Finding.isError (f : Finding) : Bool :=
  f.problem.severity = .error

def Finding.diagnostic (f : Finding) : Diagnostic :=
  { severity := f.problem.severity, code := some f.problem.code, message := f.problem.message,
    loc := f.loc, length := f.length }

end BasicSSA
