/-!
# Operations of the intermediate language
-/

namespace BasicSSA.IL

inductive Opcode where
  | add | sub | mul | div | idiv | mod | concat | and | or
  | neg | not
  | cmpEq | cmpNe | cmpLt | cmpLe | cmpGt | cmpGe
  | call | alloca | load | store | gep | cast | assign | phi | fieldLoad | fieldStore | newObj
  | br | cbr | switch | ret
  deriving DecidableEq, Inhabited, Repr

namespace Opcode

def all : List Opcode :=
  [add, sub, mul, div, idiv, mod, concat, and, or, neg, not, cmpEq, cmpNe, cmpLt, cmpLe, cmpGt,
   cmpGe, call, alloca, load, store, gep, cast, assign, phi, fieldLoad, fieldStore, newObj, br, cbr,
   switch, ret]

def text : Opcode → String
  | add => "add"
  | sub => "sub"
  | mul => "mul"
  | div => "div"
  | idiv => "idiv"
  | mod => "mod"
  | concat => "concat"
  | and => "and"
  | or => "or"
  | neg => "neg"
  | not => "not"
  | cmpEq => "cmp eq"
  | cmpNe => "cmp ne"
  | cmpLt => "cmp lt"
  | cmpLe => "cmp le"
  | cmpGt => "cmp gt"
  | cmpGe => "cmp ge"
  | call => "call"
  | alloca => "alloca"
  | load => "load"
  | store => "store"
  | gep => "gep"
  | cast => "cast"
  | assign => "assign"
  | phi => "phi"
  | fieldLoad => "field.load"
  | fieldStore => "field.store"
  | newObj => "new"
  | br => "br"
  | cbr => "cbr"
  | switch => "switch"
  | ret => "ret"

def ofText? (s : String) : Option Opcode :=
  all.find? (·.text = s)

def isTerminator : Opcode → Bool
  | br | cbr | switch | ret => true
  | _ => false

def isBinary : Opcode → Bool
  | add | sub | mul | div | idiv | mod | concat | and | or => true
  | _ => false

def isUnary : Opcode → Bool
  | neg | not => true
  | _ => false

def isCompare : Opcode → Bool
  | cmpEq | cmpNe | cmpLt | cmpLe | cmpGt | cmpGe => true
  | _ => false

end Opcode

end BasicSSA.IL
