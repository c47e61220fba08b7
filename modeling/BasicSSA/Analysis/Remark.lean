import BasicSSA.Analysis.State
import BasicSSA.Syntax.Printer

/-!
# Remarks

What analysis wrote into the syntax tree, as a flat list in the order of the source.
-/

namespace BasicSSA

inductive Remark where
  | decl (note : Note) (name : String)
  | expr (note : Note) (text : String)
  | loop (note : Note)
  | caught (note : Note)
  deriving DecidableEq, Repr

namespace Expr

mutual

def remarks : Expr Note → List Remark
  | .literal i v => [.expr i (Expr.literal i v).text]
  | .name i n => [.expr i n]
  | .me i => [.expr i (Expr.me i).text]
  | .binary i op l r => .expr i (Expr.binary i op l r).text :: (l.remarks ++ r.remarks)
  | .unary i op e => .expr i (Expr.unary i op e).text :: e.remarks
  | .member i e n => .expr i (Expr.member i e n).text :: e.remarks
  | .withMember i n => [.expr i (Expr.withMember i n).text]
  | .call i e ts as => .expr i (Expr.call i e ts as).text :: (e.remarks ++ remarksList as)
  | .index i e is => .expr i (Expr.index i e is).text :: (e.remarks ++ remarksList is)
  | .new i t as => .expr i (Expr.new i t as).text :: remarksList as
  | .cast i e t => .expr i (Expr.cast i e t).text :: e.remarks
  | .interpolated i ps => .expr i (Expr.interpolated i ps).text :: remarksParts ps
  | .collection i es => .expr i (Expr.collection i es).text :: remarksList es
  | .addressOf i e => .expr i (Expr.addressOf i e).text :: e.remarks

def remarksList : List (Expr Note) → List Remark
  | [] => []
  | e :: es => e.remarks ++ remarksList es

def remarksParts : List (Part Note) → List Remark
  | [] => []
  | .text _ :: ps => remarksParts ps
  | .expr e :: ps => e.remarks ++ remarksParts ps

end

def remarks? (e : Option (Expr Note)) : List Remark :=
  e.elim [] remarks

end Expr

def VarDecl.remarks (d : VarDecl Note) : List Remark :=
  .decl d.info d.name :: Expr.remarks? d.init

def ConstDecl.remarks (d : ConstDecl Note) : List Remark :=
  .decl d.info d.name :: Expr.remarks? d.value

namespace Stmt

mutual

/-- The remarks of a statement. The test of a `Do` loop comes before its body. -/
def remarks : Stmt Note → List Remark
  | .ifThen _ c b e => c.remarks ++ remarksList b ++ remarksElse e
  | .select _ e cs => e.remarks ++ remarksCases cs
  | .forLoop i _ a z s b =>
    .loop i :: (a.remarks ++ z.remarks ++ Expr.remarks? s ++ remarksList b)
  | .forEach i _ _ e b => .loop i :: (e.remarks ++ remarksList b)
  | .whileLoop _ c b => c.remarks ++ remarksList b
  | .doLoop _ t b => Expr.remarks? (t.map (·.cond)) ++ remarksList b
  | .tryCatch _ b cs none => remarksList b ++ remarksCatches cs
  | .tryCatch _ b cs (some l) => remarksList b ++ remarksCatches cs ++ remarksList l
  | .withBlock _ e b => e.remarks ++ remarksList b
  | .throw _ e => Expr.remarks? e
  | .return_ _ e => Expr.remarks? e
  | .exit .. => []
  | .assign _ t _ v => t.remarks ++ v.remarks
  | .expr _ e => e.remarks
  | .var d => d.remarks
  | .const d => d.remarks

def remarksList : List (Stmt Note) → List Remark
  | [] => []
  | s :: ss => s.remarks ++ remarksList ss

def remarksElse : Else Note → List Remark
  | .nothing => []
  | .block b => remarksList b
  | .elseIf _ c b e => c.remarks ++ remarksList b ++ remarksElse e

def remarksCases : List (Case Note) → List Remark
  | [] => []
  | .values _ vs b :: cs => vs.flatMap Expr.remarks ++ remarksList b ++ remarksCases cs
  | .otherwise _ b :: cs => remarksList b ++ remarksCases cs

def remarksCatches : List (Catch Note) → List Remark
  | [] => []
  | .mk i _ _ b :: cs => .caught i :: (remarksList b ++ remarksCatches cs)

end

end Stmt

def Procedure.remarks (p : Procedure Note) : List Remark :=
  .decl p.info p.name :: (p.params.flatMap (Expr.remarks? ·.default) ++
    p.body.elim [] Stmt.remarksList)

namespace Decl

mutual

def remarks : Decl Note → List Remark
  | .nspace i n ds => .decl i n :: remarksList ds
  | .module i n ds => .decl i n :: remarksList ds
  | .uses i _ => [.decl i ""]
  | .imports i _ => [.decl i ""]
  | .cls i h ds => .decl i h.name :: remarksList ds
  | .interface i n ps => .decl i n :: ps.flatMap Procedure.remarks
  | .record i _ n vs => .decl i n :: vs.flatMap VarDecl.remarks
  | .proc p => p.remarks
  | .var d => d.remarks
  | .const d => d.remarks
  | .typeDefine i a _ => [.decl i a]
  | .template i d => .decl i d.name :: d.remarks
  | .delegate d => [.decl d.info d.name]
  | .extension i _ p => .decl i p.name :: p.remarks

def remarksList : List (Decl Note) → List Remark
  | [] => []
  | d :: ds => d.remarks ++ remarksList ds

end

end Decl

def Program.remarks (p : Program Note) : List Remark :=
  Decl.remarksList p

end BasicSSA
