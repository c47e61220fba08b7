import BasicSSA.Parser.Basic

/-!
# Parsing written types
-/

namespace BasicSSA.Parser

/-- Whether a list of types or type parameters in parentheses follows. -/
def atOf : Parser Bool := do
  return (← isAt (.mark .leftParen)) && (← peekSecond).kind = .keyword .of

/-- A type with at most `fuel` types nested in one another. -/
def typeRefAux : (fuel : Nat) → Parser TypeRef
  | 0 => outOfFuel
  | fuel + 1 => do
    let loc := (← peek).loc
    if ← accept (.keyword .pointer) then
      expect (.keyword .to_) "'To' after 'Pointer'"
      let target ← typeRefAux fuel
      return target.toPointer loc
    else
      let name ← dottedName "type name"
      let args ←
        if ← atOf then
          let _ ← consume
          let _ ← consume
          let args ← commaSeparated (typeRefAux fuel)
          expect (.mark .rightParen) "')' after type arguments"
          pure args
        else pure []
      let isNullable ← accept (.mark .question)
      return .mk name args isNullable false [] loc

/-- A written type: `Pointer To T`, `Name`, `Name(Of A, B)`, `T?`. -/
def typeRef : Parser TypeRef := do
  typeRefAux ((← get).length + 1)

/-- Type parameters `(Of T, U)`, if they are written. -/
def typeParams : Parser (List String) := do
  if ← atOf then
    let _ ← consume
    let _ ← consume
    let names ← commaSeparated (identifier "type parameter")
    expect (.mark .rightParen) "')' after type parameters"
    return names
  else return []

end BasicSSA.Parser
