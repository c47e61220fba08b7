import BasicSSA.Scope.Tree

/-!
# Built-in procedures
-/

namespace BasicSSA

structure Builtin where
  name : String
  /-- The name of the type that it returns; none for a subroutine. -/
  returnType : Option String
  params : List String
  /-- The function of the runtime that does the work. -/
  runtime : String
  deriving DecidableEq, Repr

namespace Builtin

def all : List Builtin :=
  [{ name := "Print", returnType := none, params := ["Object"], runtime := "rt_print" },
   { name := "PrintLine", returnType := none, params := ["Object"], runtime := "rt_println" },
   { name := "Len", returnType := some "Integer", params := ["String"], runtime := "rt_len" },
   { name := "ToString", returnType := some "String", params := ["Object"],
     runtime := "rt_to_string" },
   { name := "Sqrt", returnType := some "Double", params := ["Double"], runtime := "rt_sqrt" },
   { name := "Abs", returnType := some "Double", params := ["Double"], runtime := "rt_abs" },
   { name := "Input", returnType := some "String", params := [], runtime := "rt_input" }]

/-- The built-in procedure of a name, taken without regard to case. -/
def find? (name : String) : Option Builtin :=
  all.find? fun b => sameName b.name name

def symbol (types : Catalog) (b : Builtin) : Symbol :=
  let returnType := b.returnType.elim (some .void) types.find?
  { name := b.name, kind := if b.returnType.isSome then .function else .subroutine,
    type := returnType, returnType, isBuiltin := true,
    params := b.params.zipIdx.map fun (type, i) =>
      { name := "arg" ++ toString i, type := types.find? type } }

def register (types : Catalog) (tree : ScopeTree) (scope : ScopeId) : ScopeTree :=
  all.foldl (fun tree b => ((tree.define scope (b.symbol types)).map (·.1)).getD tree) tree

end Builtin

end BasicSSA
