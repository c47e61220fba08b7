import BasicSSA.Syntax.Decl

/-!
# Trees without positions

Two trees are the same up to source locations if they are the same `bare`: with the unit in place of
each info, and with unknown positions of types and parameters.
-/

namespace BasicSSA

namespace TypeRef

mutual

/-- The written type without positions. -/
def bare : TypeRef → TypeRef
  | mk name args isNullable isPointer dims _ => mk name (bareList args) isNullable isPointer dims {}

def bareList : List TypeRef → List TypeRef
  | [] => []
  | t :: ts => t.bare :: bareList ts

end

@[simp] theorem bareList_eq (ts : List TypeRef) : bareList ts = ts.map bare := by
  induction ts with
  | nil => rfl
  | cons t ts ih => rw [bareList, ih, List.map_cons]

theorem name_bare (t : TypeRef) : t.bare.name = t.name := by
  cases t
  rfl

theorem toPointer_bare {t u : TypeRef} (h : t.bare = u.bare) :
    (t.toPointer l).bare = (u.toPointer l').bare := by
  cases t
  cases u
  simp_all [bare, toPointer]

theorem withDims_bare {t u : TypeRef} (h : t.bare = u.bare) :
    (t.withDims ds).bare = (u.withDims ds).bare := by
  cases t
  cases u
  simp_all [bare, withDims]

end TypeRef

namespace Expr

mutual

/-- The expression without positions. -/
@[simp] def bare : Expr α → Expr Unit
  | literal _ v => literal () v
  | name _ n => name () n
  | me _ => me ()
  | binary _ op l r => binary () op l.bare r.bare
  | unary _ op e => unary () op e.bare
  | member _ e n => member () e.bare n
  | withMember _ n => withMember () n
  | call _ e ts as => call () e.bare (ts.map TypeRef.bare) (bareList as)
  | index _ e is => index () e.bare (bareList is)
  | new _ t as => new () t.bare (bareList as)
  | cast _ e t => cast () e.bare t.bare
  | interpolated _ ps => interpolated () (bareParts ps)
  | collection _ es => collection () (bareList es)
  | addressOf _ e => addressOf () e.bare

def bareList : List (Expr α) → List (Expr Unit)
  | [] => []
  | e :: es => e.bare :: bareList es

def bareParts : List (Part α) → List (Part Unit)
  | [] => []
  | .text s :: ps => .text s :: bareParts ps
  | .expr e :: ps => .expr e.bare :: bareParts ps

end

@[simp] theorem bareList_eq (es : List (Expr α)) : bareList es = es.map bare := by
  induction es with
  | nil => rfl
  | cons e es ih => rw [bareList, ih, List.map_cons]

/-- Whether an expression is an integer does not depend on positions. -/
theorem integer_bare (h : e.bare = e'.bare) :
    (∃ a a' n, e = literal a (.integer n) ∧ e' = literal a' (.integer n)) ∨
      (∀ a n, e ≠ literal a (.integer n)) ∧ ∀ a n, e' ≠ literal a (.integer n) := by
  cases e with
  | literal a v =>
    cases e' with
    | literal a' v' =>
      obtain rfl : v = v' := by simpa [bare] using h
      cases v with
      | integer n => exact .inl ⟨a, a', n, rfl, rfl⟩
      | _ => exact .inr ⟨nofun, nofun⟩
    | _ => simp [bare] at h
  | _ => cases e' <;> simp_all [bare]

end Expr

def Part.bare : Part α → Part Unit
  | .text s => .text s
  | .expr e => .expr e.bare

@[simp] theorem Expr.bareParts_eq (ps : List (Part α)) : bareParts ps = ps.map Part.bare := by
  induction ps with
  | nil => rfl
  | cons p ps ih => cases p <;> simp [bareParts, Part.bare, ih]

def VarDecl.bare (d : VarDecl α) : VarDecl Unit :=
  { info := (), name := d.name, type := d.type.map TypeRef.bare, init := d.init.map Expr.bare,
    isAuto := d.isAuto, modifiers := d.modifiers }

def ConstDecl.bare (d : ConstDecl α) : ConstDecl Unit :=
  { info := (), name := d.name, type := d.type.bare, value := d.value.map Expr.bare }

def LoopTest.bare (t : LoopTest α) : LoopTest Unit :=
  { atTop := t.atTop, isWhile := t.isWhile, cond := t.cond.bare }

namespace Stmt

mutual

/-- The statement without positions. -/
@[simp] def bare : Stmt α → Stmt Unit
  | ifThen _ c b e => ifThen () c.bare (bareList b) (bareElse e)
  | select _ s cs => select () s.bare (bareCases cs)
  | forLoop _ v a z s b => forLoop () v a.bare z.bare (s.map Expr.bare) (bareList b)
  | forEach _ v t c b => forEach () v (t.map TypeRef.bare) c.bare (bareList b)
  | whileLoop _ c b => whileLoop () c.bare (bareList b)
  | doLoop _ t b => doLoop () (t.map LoopTest.bare) (bareList b)
  | tryCatch _ b cs none => tryCatch () (bareList b) (bareCatches cs) none
  | tryCatch _ b cs (some l) => tryCatch () (bareList b) (bareCatches cs) (some (bareList l))
  | withBlock _ t b => withBlock () t.bare (bareList b)
  | throw _ v => throw () (v.map Expr.bare)
  | return_ _ v => return_ () (v.map Expr.bare)
  | exit _ k => exit () k
  | assign _ t op v => assign () t.bare op v.bare
  | expr _ e => expr () e.bare
  | var d => var d.bare
  | const d => const d.bare

def bareList : List (Stmt α) → List (Stmt Unit)
  | [] => []
  | s :: ss => s.bare :: bareList ss

@[simp] def bareElse : Else α → Else Unit
  | .nothing => .nothing
  | .block b => .block (bareList b)
  | .elseIf _ c b e => .elseIf () c.bare (bareList b) (bareElse e)

def bareCases : List (Case α) → List (Case Unit)
  | [] => []
  | .values _ vs b :: cs => .values () (vs.map Expr.bare) (bareList b) :: bareCases cs
  | .otherwise _ b :: cs => .otherwise () (bareList b) :: bareCases cs

def bareCatches : List (Catch α) → List (Catch Unit)
  | [] => []
  | .mk _ v t b :: cs => .mk () v (t.map TypeRef.bare) (bareList b) :: bareCatches cs

end

@[simp] theorem bareList_eq (ss : List (Stmt α)) : bareList ss = ss.map bare := by
  induction ss with
  | nil => rfl
  | cons s ss ih => rw [bareList, ih, List.map_cons]

end Stmt

def Case.bare : Case α → Case Unit
  | .values _ vs b => .values () (vs.map Expr.bare) (b.map Stmt.bare)
  | .otherwise _ b => .otherwise () (b.map Stmt.bare)

def Catch.bare : Catch α → Catch Unit
  | .mk _ v t b => .mk () v (t.map TypeRef.bare) (b.map Stmt.bare)

@[simp] theorem Stmt.bareCases_eq (cs : List (Case α)) : bareCases cs = cs.map Case.bare := by
  induction cs with
  | nil => rfl
  | cons c cs ih => cases c <;> simp [bareCases, Case.bare, ih]

@[simp] theorem Stmt.bareCatches_eq (cs : List (Catch α)) : bareCatches cs = cs.map Catch.bare := by
  induction cs with
  | nil => rfl
  | cons c cs ih => cases c; simp [bareCatches, Catch.bare, ih]

def Param.bare (p : Param α) : Param Unit :=
  { loc := {}, name := p.name, type := p.type.bare, default := p.default.map Expr.bare,
    isOptional := p.isOptional }

def Procedure.bare (p : Procedure α) : Procedure Unit :=
  { info := (), kind := p.kind, name := p.name, modifiers := p.modifiers,
    typeParams := p.typeParams, params := p.params.map Param.bare,
    returnType := p.returnType.map TypeRef.bare, implements := p.implements,
    body := p.body.map (·.map Stmt.bare) }

def DelegateDecl.bare (d : DelegateDecl α) : DelegateDecl Unit :=
  { info := (), name := d.name, params := d.params.map Param.bare,
    returnType := d.returnType.map TypeRef.bare, isFunction := d.isFunction }

namespace Decl

mutual

/-- The declaration without positions. -/
@[simp] def bare : Decl α → Decl Unit
  | nspace _ n ds => nspace () n (bareList ds)
  | module _ n ds => module () n (bareList ds)
  | uses _ n => uses () n
  | imports _ n => imports () n
  | cls _ h ds => cls () h (bareList ds)
  | interface _ n ps => interface () n (ps.map Procedure.bare)
  | record _ k n vs => record () k n (vs.map VarDecl.bare)
  | proc p => proc p.bare
  | var d => var d.bare
  | const d => const d.bare
  | typeDefine _ a t => typeDefine () a t.bare
  | template _ d => template () d.bare
  | delegate d => delegate d.bare
  | extension _ t p => extension () t p.bare

def bareList : List (Decl α) → List (Decl Unit)
  | [] => []
  | d :: ds => d.bare :: bareList ds

end

@[simp] theorem bareList_eq (ds : List (Decl α)) : bareList ds = ds.map bare := by
  induction ds with
  | nil => rfl
  | cons d ds ih => rw [bareList, ih, List.map_cons]

end Decl

/-- The program without positions. -/
def Program.bare (p : Program α) : Program Unit :=
  List.map Decl.bare p

end BasicSSA
