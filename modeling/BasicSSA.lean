import BasicSSA.Analysis.Declare
import BasicSSA.Analysis.Expr
import BasicSSA.Analysis.Problem
import BasicSSA.Analysis.Remark
import BasicSSA.Analysis.State
import BasicSSA.Analysis.Stmt
import BasicSSA.Builtin
import BasicSSA.CommandLine
import BasicSSA.Compile
import BasicSSA.Diagnostic
import BasicSSA.Flow.Dominance
import BasicSSA.Flow.Frontier
import BasicSSA.Flow.Graph
import BasicSSA.IL.Builder
import BasicSSA.IL.Module
import BasicSSA.IL.Opcode
import BasicSSA.IL.Phi
import BasicSSA.IL.Printer
import BasicSSA.IL.Value
import BasicSSA.IL.Verifier
import BasicSSA.Loc
import BasicSSA.Lower.Constant
import BasicSSA.Lower.Expr
import BasicSSA.Lower.Loops
import BasicSSA.Lower.Names
import BasicSSA.Lower.Program
import BasicSSA.Lower.State
import BasicSSA.Lower.Stmt
import BasicSSA.Main
import BasicSSA.Number.Binary
import BasicSSA.Number.Decimal
import BasicSSA.Number.General
import BasicSSA.Parser.Basic
import BasicSSA.Parser.Decl
import BasicSSA.Parser.Expr
import BasicSSA.Parser.Stmt
import BasicSSA.Parser.TypeRef
import BasicSSA.Path
import BasicSSA.Proofs.Analysis.Bodies
import BasicSSA.Proofs.Analysis.Course
import BasicSSA.Proofs.Analysis.Course.Program
import BasicSSA.Proofs.Analysis.Course.Types
import BasicSSA.Proofs.Analysis.Course.Visit
import BasicSSA.Proofs.Analysis.Coverage
import BasicSSA.Proofs.Analysis.Declare
import BasicSSA.Proofs.Analysis.Erasure
import BasicSSA.Proofs.Analysis.Hierarchy
import BasicSSA.Proofs.Analysis.Items
import BasicSSA.Proofs.Analysis.Join
import BasicSSA.Proofs.Analysis.Places
import BasicSSA.Proofs.Analysis.Scoping
import BasicSSA.Proofs.Compile.OneBlock
import BasicSSA.Proofs.Compile.Outcome
import BasicSSA.Proofs.Compile.Text
import BasicSSA.Proofs.Flow.Ascent
import BasicSSA.Proofs.Flow.DominatorTree
import BasicSSA.Proofs.Flow.Frontier
import BasicSSA.Proofs.Flow.Passes
import BasicSSA.Proofs.Flow.Run
import BasicSSA.Proofs.Flow.Search
import BasicSSA.Proofs.IL.Accepted
import BasicSSA.Proofs.IL.Construction
import BasicSSA.Proofs.IL.Dominance
import BasicSSA.Proofs.IL.Machine
import BasicSSA.Proofs.IL.Printable
import BasicSSA.Proofs.IL.ValueText
import BasicSSA.Proofs.Lower.Arity
import BasicSSA.Proofs.Lower.CallSites
import BasicSSA.Proofs.Lower.Calls
import BasicSSA.Proofs.Lower.CaseTests
import BasicSSA.Proofs.Lower.Code
import BasicSSA.Proofs.Lower.Control
import BasicSSA.Proofs.Lower.Definite
import BasicSSA.Proofs.Lower.Exits
import BasicSSA.Proofs.Lower.Faithful
import BasicSSA.Proofs.Lower.Kinds
import BasicSSA.Proofs.Lower.Settled
import BasicSSA.Proofs.Lower.SoundProgram
import BasicSSA.Proofs.Lower.Valid
import BasicSSA.Proofs.Lower.ValueKinds
import BasicSSA.Proofs.Lower.Ranges
import BasicSSA.Proofs.Lower.VariableNames
import BasicSSA.Proofs.Lower.Writes
import BasicSSA.Proofs.Lower.Written
import BasicSSA.Proofs.Lower.Written.Program
import BasicSSA.Proofs.Parser.Agreement.Decl
import BasicSSA.Proofs.Parser.Precedence
import BasicSSA.Proofs.Phi.Frame
import BasicSSA.Proofs.Phi.Placement
import BasicSSA.Proofs.Phi.Preservation
import BasicSSA.Proofs.Phi.Renaming
import BasicSSA.Proofs.Phi.StrictSSA
import BasicSSA.Proofs.Phi.Verified
import BasicSSA.Proofs.Phi.Versions
import BasicSSA.Proofs.Syntax.Bare
import BasicSSA.Proofs.Token.Braces
import BasicSSA.Proofs.Token.Carets
import BasicSSA.Proofs.Token.Nesting
import BasicSSA.Proofs.Token.Numbers
import BasicSSA.Proofs.Token.Quotation
import BasicSSA.Proofs.Types.Identity
import BasicSSA.Proofs.Types.Lineage
import BasicSSA.Proofs.Types.Order
import BasicSSA.Scope.Symbol
import BasicSSA.Scope.Tree
import BasicSSA.Source
import BasicSSA.Syntax.Decl
import BasicSSA.Syntax.Expr
import BasicSSA.Syntax.Printer
import BasicSSA.Syntax.Stmt
import BasicSSA.Syntax.TypeRef
import BasicSSA.Text
import BasicSSA.Token
import BasicSSA.Token.Interpolation
import BasicSSA.Token.Lexer
import BasicSSA.Types.Catalog
import BasicSSA.Types.Conversion
