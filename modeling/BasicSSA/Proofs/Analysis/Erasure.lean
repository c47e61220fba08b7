import Mathlib.Data.List.Basic
import BasicSSA.Proofs.Parser.Members
import BasicSSA.Analysis.Declare

/-!
# Analysis only writes notes

Without its notes the program that analysis returns is the program that it was given. So what is said
about the nodes of the one holds of the nodes of the other.
-/

namespace BasicSSA

open Function (LeftInverse)

/-! ### Infos that can be taken off again -/

section

variable {α β : Type} {f : α → β} {g : β → α}

namespace Expr

mutual

theorem map_leftInverse (h : LeftInverse g f) : (e : Expr α) → (e.map f).map g = e
  | literal .. | name .. | me _ | withMember .. => by simp only [map, h _]
  | binary _ _ l r => by simp only [map, h _, map_leftInverse h l, map_leftInverse h r]
  | unary _ _ e | member _ e _ | cast _ e _ | addressOf _ e => by
    simp only [map, h _, map_leftInverse h e]
  | call _ e _ es | index _ e es => by
    simp only [map, h _, map_leftInverse h e, mapList_leftInverse h es]
  | new _ _ es | collection _ es => by simp only [map, h _, mapList_leftInverse h es]
  | interpolated _ ps => by simp only [map, h _, mapParts_leftInverse h ps]

theorem mapList_leftInverse (h : LeftInverse g f) : (es : List (Expr α)) →
    mapList g (mapList f es) = es
  | [] => rfl
  | e :: es => by simp only [mapList, map_leftInverse h e, mapList_leftInverse h es]

theorem mapParts_leftInverse (h : LeftInverse g f) : (ps : List (Part α)) →
    mapParts g (mapParts f ps) = ps
  | [] => rfl
  | .text _ :: ps => by simp only [mapParts, mapParts_leftInverse h ps]
  | .expr e :: ps => by simp only [mapParts, map_leftInverse h e, mapParts_leftInverse h ps]

end

theorem map?_leftInverse (h : LeftInverse g f) (e : Option (Expr α)) :
    (e.map (·.map f)).map (·.map g) = e := by
  simp [Function.comp_def, map_leftInverse h]

end Expr

theorem VarDecl.map_leftInverse (h : LeftInverse g f) (d : VarDecl α) : (d.map f).map g = d := by
  simp only [map, h _, Expr.map?_leftInverse h]

theorem ConstDecl.map_leftInverse (h : LeftInverse g f) (d : ConstDecl α) :
    (d.map f).map g = d := by
  simp only [map, h _, Expr.map?_leftInverse h]

namespace Stmt

mutual

theorem map_leftInverse (h : LeftInverse g f) : (s : Stmt α) → (s.map f).map g = s
  | ifThen _ c b e => by
    simp only [map, h _, c.map_leftInverse h, mapList_leftInverse h b, mapElse_leftInverse h e]
  | select _ e cs => by simp only [map, h _, e.map_leftInverse h, mapCases_leftInverse h cs]
  | forLoop _ _ a z s b => by
    simp only [map, h _, a.map_leftInverse h, z.map_leftInverse h, Expr.map?_leftInverse h,
      mapList_leftInverse h b]
  | forEach _ _ _ e b | whileLoop _ e b | withBlock _ e b => by
    simp only [map, h _, e.map_leftInverse h, mapList_leftInverse h b]
  | doLoop _ none b => by simp only [map, h _, Option.map, mapList_leftInverse h b]
  | doLoop _ (some t) b => by
    simp only [map, h _, Option.map, LoopTest.map, t.cond.map_leftInverse h,
      mapList_leftInverse h b]
  | tryCatch _ b cs none => by
    simp only [map, h _, mapList_leftInverse h b, mapCatches_leftInverse h cs]
  | tryCatch _ b cs (some l) => by
    simp only [map, h _, mapList_leftInverse h b, mapCatches_leftInverse h cs,
      mapList_leftInverse h l]
  | throw _ e | return_ _ e => by simp only [map, h _, Expr.map?_leftInverse h]
  | exit .. => by simp only [map, h _]
  | assign _ t _ e => by simp only [map, h _, t.map_leftInverse h, e.map_leftInverse h]
  | expr _ e => by simp only [map, h _, e.map_leftInverse h]
  | var d => by simp only [map, d.map_leftInverse h]
  | const d => by simp only [map, d.map_leftInverse h]

theorem mapList_leftInverse (h : LeftInverse g f) : (ss : List (Stmt α)) →
    mapList g (mapList f ss) = ss
  | [] => rfl
  | s :: ss => by simp only [mapList, map_leftInverse h s, mapList_leftInverse h ss]

theorem mapElse_leftInverse (h : LeftInverse g f) : (e : Else α) → mapElse g (mapElse f e) = e
  | .nothing => rfl
  | .block b => by simp only [mapElse, mapList_leftInverse h b]
  | .elseIf _ c b e => by
    simp only [mapElse, h _, c.map_leftInverse h, mapList_leftInverse h b, mapElse_leftInverse h e]

theorem mapCases_leftInverse (h : LeftInverse g f) : (cs : List (Case α)) →
    mapCases g (mapCases f cs) = cs
  | [] => rfl
  | .values _ vs b :: cs => by
    simp only [mapCases, h _, LeftInverse.list_map (Expr.map_leftInverse h) vs,
      mapList_leftInverse h b, mapCases_leftInverse h cs]
  | .otherwise _ b :: cs => by
    simp only [mapCases, h _, mapList_leftInverse h b, mapCases_leftInverse h cs]

theorem mapCatches_leftInverse (h : LeftInverse g f) : (cs : List (Catch α)) →
    mapCatches g (mapCatches f cs) = cs
  | [] => rfl
  | .mk _ _ _ b :: cs => by
    simp only [mapCatches, h _, mapList_leftInverse h b, mapCatches_leftInverse h cs]

end

end Stmt

theorem Param.map_leftInverse (h : LeftInverse g f) (p : Param α) : (p.map f).map g = p := by
  simp only [map, Expr.map?_leftInverse h]

theorem Procedure.map_leftInverse (h : LeftInverse g f) (p : Procedure α) :
    (p.map f).map g = p := by
  simp only [map, h _, LeftInverse.list_map (Param.map_leftInverse h) _, Option.map_map,
    Function.comp_def, Stmt.mapList_leftInverse h, Option.map_id']

theorem DelegateDecl.map_leftInverse (h : LeftInverse g f) (d : DelegateDecl α) :
    (d.map f).map g = d := by
  simp only [map, h _, LeftInverse.list_map (Param.map_leftInverse h) _]

namespace Decl

mutual

theorem map_leftInverse (h : LeftInverse g f) : (d : Decl α) → (d.map f).map g = d
  | nspace _ _ ds | module _ _ ds | cls _ _ ds => by simp only [map, h _, mapList_leftInverse h ds]
  | uses .. | imports .. | typeDefine .. => by simp only [map, h _]
  | interface .. => by simp only [map, h _, LeftInverse.list_map (Procedure.map_leftInverse h) _]
  | record .. => by simp only [map, h _, LeftInverse.list_map (VarDecl.map_leftInverse h) _]
  | proc p => by simp only [map, p.map_leftInverse h]
  | var d => by simp only [map, d.map_leftInverse h]
  | const d => by simp only [map, d.map_leftInverse h]
  | template _ d => by simp only [map, h _, map_leftInverse h d]
  | delegate d => by simp only [map, d.map_leftInverse h]
  | extension _ _ p => by simp only [map, h _, p.map_leftInverse h]

theorem mapList_leftInverse (h : LeftInverse g f) : (ds : List (Decl α)) →
    mapList g (mapList f ds) = ds
  | [] => rfl
  | d :: ds => by simp only [mapList, map_leftInverse h d, mapList_leftInverse h ds]

end

end Decl

end

end BasicSSA
