import BasicSSA.Proofs.Lower.Selection

/-!
# The code of statements

By induction over statements: walks through their code do what their readings say.
-/

namespace BasicSSA.Lower

open IL (Value Module Build)
open List (forall_mem_cons forall_mem_append)

variable {m : Module}

/-- What the code of the body of a loop does, in each frame that the loop may have. -/
def LowersBody (π : Policy) (q : Place) (m : Module) (p : Place) (k : ExitKind)
    (b : List (Stmt Note)) : Prop :=
  ∀ frame : LoopFrame, frame.kind = k →
    Lowers π q m (frame :: p.loops) (fun o fuel => Stmt.readingList o fuel b) (Stmt.shapeList b)
      (stmts { p with loops := frame :: p.loops } b)

section

variable {p : Place} (hw : p.Within q) (hp : p.Obeys π m)
include hw hp

theorem withBlock_lowers (he : p.PermitsAll π e.nodes)
    (hbody : ∀ v, π.Fits v →
      Lowers π q m p.loops R (Stmt.shapeList b)
        (stmts { p with withValues := v :: p.withValues } b)) :
    Lowers π q m p.loops (fun o fuel => (Reading.act (.subject e)).andThen (R o fuel))
      (Stmt.withBlock i e b).shape (stmt p (.withBlock i e b)) := by
  unfold stmt
  show Lowers π q m p.loops _ ((Stmt.shapeList b).after (.subject e)) _
  exact .after_piece (expr_straight hp he) (fun v code h => ⟨p, hw, .subject h⟩)
    fun v _ _ hv => (hbody v hv).inScope

theorem forLoop_lowers (hx : ∀ x, i.symbol = some x → p.MayWrite π.stores x)
    (ha : p.PermitsAll π a.nodes) (hz : p.PermitsAll π z.nodes)
    (hstep : ∀ e, step = some e → p.PermitsAll π e.nodes)
    (hbody : LowersBody π q m p .forLoop b) :
    Lowers π q m p.loops (fun o fuel => (Stmt.forLoop i v a z step b).reading o fuel)
      (Stmt.forLoop i v a z step b).shape (stmt p (.forLoop i v a z step b)) := by
  unfold stmt
  split
  · intro s c s' _ _ _ _ h
    cases h
  · rename_i x hsymbol
    let self : Stmt Note := .forLoop i v a z step b
    let Λ : Shape := (Stmt.shapeList b).loop .forLoop (some (.inRange self)) true
      (.inRange self :: (Stmt.actionsList b ++ [.next self]))
    show Lowers π q m p.loops _ (Λ.after (.start self)) _
    unfold Stmt.reading
    have hdeclares : (Action.start self).declarations = [.counter x] := by
      simp [Action.declarations, self, hsymbol]
    refine .after_piece (hdeclares ▸ forStart_straight hp (hx x hsymbol) ha hz hstep)
      (fun _ code h => ⟨p, hw, .forStart hsymbol h⟩) fun (last, step) _ hstart hfits => ?_
    exact countedLoop_lowers (forTest_straight hp hfits.1)
      (fun _ code h => ⟨p, hw, .forTest hsymbol hstart h⟩) (forNext_straight hp (hx x hsymbol) hfits.2)
      (fun code h => ⟨p, hw, .forNext hsymbol hstart h⟩) hbody

theorem forEach_lowers (he : p.PermitsAll π e.nodes)
    (hbody : LowersBody π q m p .forLoop b) :
    Lowers π q m p.loops (fun o fuel => (Stmt.forEach i v t e b).reading o fuel)
      (Stmt.forEach i v t e b).shape (stmt p (.forEach i v t e b)) := by
  unfold stmt
  split
  · intro s c s' _ _ _ _ h
    cases h
  · rename_i x hsymbol
    let self : Stmt Note := .forEach i v t e b
    let Λ : Shape := ((Stmt.shapeList b).after (.element self)).loop .forLoop (some (.inRange self))
      true (.inRange self :: .element self :: (Stmt.actionsList b ++ [.next self]))
    show Lowers π q m p.loops _ (Λ.after (.start self)) _
    unfold Stmt.reading
    have hdeclares : (Action.start self).declarations = [.new x] := by
      simp [Action.declarations, self, hsymbol]
    refine .after_piece (hdeclares ▸ eachStart_straight hp he)
      (fun _ code h => ⟨p, hw, .eachStart hsymbol h⟩) fun es _ hstart hfits => ?_
    exact countedLoop_lowers (eachTest_straight hp hfits.2)
      (fun _ code h => ⟨p, hw, .eachTest hsymbol hstart h⟩) (eachNext_straight hp)
      (fun code h => ⟨p, hw, .eachNext hsymbol hstart h⟩) fun frame hframe =>
        .after_piece (eachElement_straight hp hfits.1)
          (fun _ code h => ⟨p, hw, .eachElement hsymbol hstart h⟩) fun _ _ _ _ => hbody frame hframe

theorem whileLoop_lowers (he : p.PermitsAll π e.nodes)
    (hbody : LowersBody π q m p .whileLoop b) :
    Lowers π q m p.loops (fun o fuel => (Stmt.whileLoop i e b).reading o fuel)
      (Stmt.whileLoop i e b).shape (stmt p (.whileLoop i e b)) := by
  unfold stmt Stmt.reading
  let Λ : Shape := (Stmt.shapeList b).loop .whileLoop (some (.test e)) true
    (.test e :: Stmt.actionsList b)
  show Lowers π q m p.loops _ Λ _
  exact testedLoop_lowers hw hp (fun _ he' => Option.some.inj he' ▸ he) hbody rfl

theorem doLoop_lowers (ht : ∀ t, test = some t → p.PermitsAll π t.cond.nodes)
    (hbody : LowersBody π q m p .doLoop b) :
    Lowers π q m p.loops (fun o fuel => (Stmt.doLoop i test b).reading o fuel)
      (Stmt.doLoop i test b).shape (stmt p (.doLoop i test b)) := by
  unfold stmt
  let Λ : Shape := (Stmt.shapeList b).loop .doLoop (test.map fun t => .test t.cond)
    (test.all (·.isWhile)) (Stmt.doLoop i test b).actions
  show Lowers π q m p.loops _ Λ _
  cases test <;> unfold Stmt.reading <;> exact testedLoop_lowers hw hp ht hbody rfl

end

theorem Place.Within.withLoops {p : Place} (h : p.Within q) (loops : LoopStack) :
    Place.Within { p with loops } q :=
  ⟨h.env, h.returnType, h.me⟩

theorem Place.Obeys.withLoops {p : Place} (h : p.Obeys π m) (loops : LoopStack) :
    Place.Obeys π m { p with loops } :=
  ⟨h.env, h.me, h.withValues, h.returns⟩

theorem Place.Within.withValue {p : Place} (h : p.Within q) (v : Value) :
    Place.Within { p with withValues := v :: p.withValues } q :=
  ⟨h.env, h.returnType, h.me⟩

theorem Place.Obeys.withValue {p : Place} (h : p.Obeys π m) (hv : π.Fits v) :
    Place.Obeys π m { p with withValues := v :: p.withValues } :=
  ⟨h.env, h.me, forall_mem_cons.mpr ⟨hv, h.withValues⟩, h.returns⟩

mutual

theorem stmt_lowers {p : Place} (hw : p.Within q) (hp : p.Obeys π m) : (s : Stmt Note) →
    p.PermitsAll π s.nodes →
    Lowers π q m p.loops (fun o fuel => s.reading o fuel) s.shape (stmt p s)
  | .ifThen i c b e, h => by
    simp only [Stmt.nodes, forall_mem_cons, forall_mem_append] at h
    obtain ⟨-, ⟨hc, hb⟩, he⟩ := h
    unfold Stmt.reading
    exact ifThen_lowers hw hp hc (stmts_lower hw hp b hb) (else_fills hw hp e he)
  | .select i e cs, h => by
    obtain ⟨he, hcs⟩ := forall_mem_append.mp (forall_mem_cons.mp h).2
    unfold Stmt.reading
    exact select_lowers hw hp he hcs (cases_lower hw hp cs hcs)
  | .forLoop i v a z s b, h => by
    simp only [Stmt.nodes, forall_mem_cons, forall_mem_append, Node.forall_mem_elim] at h
    obtain ⟨hx, ⟨⟨ha, hz⟩, hs⟩, hb⟩ := h
    exact forLoop_lowers hw hp hx ha hz hs fun frame _ =>
      stmts_lower (hw.withLoops _) (hp.withLoops _) b hb
  | .forEach i v t e b, h => by
    obtain ⟨he, hb⟩ := forall_mem_append.mp (forall_mem_cons.mp h).2
    exact forEach_lowers hw hp he fun frame _ =>
      stmts_lower (hw.withLoops _) (hp.withLoops _) b hb
  | .whileLoop i c b, h => by
    obtain ⟨hc, hb⟩ := forall_mem_append.mp (forall_mem_cons.mp h).2
    exact whileLoop_lowers hw hp hc fun frame _ =>
      stmts_lower (hw.withLoops _) (hp.withLoops _) b hb
  | .doLoop i t b, h => by
    obtain ⟨ht, hb⟩ := forall_mem_append.mp (forall_mem_cons.mp h).2
    exact doLoop_lowers hw hp (Node.forall_mem_elim.mp ht) fun frame _ =>
      stmts_lower (hw.withLoops _) (hp.withLoops _) b hb
  | .tryCatch i b cs last, h => by
    refine tryCatch_lowers hw hp (stmts_lower hw hp b fun n hn => h n ?_)
      (catches_lower hw hp cs fun n hn => h n ?_)
      fun l hl => stmts_lower hw hp l fun n hn => h n ?_
    all_goals cases last <;> simp_all [Stmt.nodes]
  | .withBlock i e b, h => by
    obtain ⟨he, hb⟩ := forall_mem_append.mp (forall_mem_cons.mp h).2
    unfold Stmt.reading
    exact withBlock_lowers hw hp he fun v hv =>
      stmts_lower (hw.withValue v) (hp.withValue hv) b hb
  | .throw i e, h => by
    refine (simple_lowers hw ?_ :)
    unfold stmt
    exact throwStmt_straight hp (Node.forall_mem_elim.mp (forall_mem_cons.mp h).2)
  | .return_ i e, h => by
    obtain ⟨hself, h⟩ := forall_mem_cons.mp h
    refine (Returns.lowers (s := .return_ i e) hw ?_ rfl :)
    unfold stmt
    refine returnStmt_returns hp fun e he => ⟨Node.forall_mem_elim.mp h e he, ?_⟩
    subst he
    exact hself
  | .exit i kind, _ => by
    unfold Stmt.reading
    cases kind with
    | sub | function =>
      refine (Returns.lowers hw ?_ rfl).imp rfl rfl fun f H k e h =>
        ⟨h.1, h.2.imp fun n hn => ⟨hn, nofun⟩⟩
      unfold stmt
      exact returnDefault_returns hp
    | forLoop | doLoop | whileLoop => exact exitLoop_lowers hw rfl
  | .assign i t op e, h => by
    obtain ⟨hw', h⟩ := forall_mem_cons.mp h
    obtain ⟨ht, he⟩ := forall_mem_append.mp h
    refine (simple_lowers hw ?_ :)
    unfold stmt
    exact assignStmt_straight hp hw' ht he
  | .expr i e, h => by
    refine (simple_lowers hw ?_ :)
    unfold stmt
    exact exprStmt_straight hp (forall_mem_cons.mp h).2
  | .var d, h => by
    refine (simple_lowers hw ?_ :)
    unfold stmt
    obtain ⟨hcount, hinit⟩ := forall_mem_cons.mp h
    exact varDecl_straight hp hcount (Node.forall_mem_elim.mp hinit)
  | .const d, h => by
    refine (simple_lowers hw ?_ :)
    unfold stmt
    exact constDecl_straight hp (Node.forall_mem_elim.mp (forall_mem_cons.mp h).2)

theorem stmts_lower {p : Place} (hw : p.Within q) (hp : p.Obeys π m) : (ss : List (Stmt Note)) →
    p.PermitsAll π (Stmt.nodesList ss) →
    Lowers π q m p.loops (fun o fuel => Stmt.readingList o fuel ss) (Stmt.shapeList ss) (stmts p ss)
  | [], _ => by
    unfold Stmt.readingList stmts
    exact .skip
  | s :: ss, h => by
    obtain ⟨hs, hss⟩ := forall_mem_append.mp h
    unfold Stmt.readingList
    exact cons_lowers (stmt_lowers hw hp s hs) (stmts_lower hw hp ss hss)

theorem else_fills {p : Place} (hw : p.Within q) (hp : p.Obeys π m) : (e : Else Note) →
    p.PermitsAll π (Stmt.nodesElse e) →
    FillsElse π q m p (fun o fuel => Stmt.readingElse o fuel e) e
  | .nothing, _ => by
    unfold Stmt.readingElse
    rfl
  | .block b, h => by
    unfold Stmt.readingElse
    exact elseBlock_fills (stmts_lower hw hp b h)
  | .elseIf i c b e, h => by
    simp only [Stmt.nodesElse, forall_mem_append] at h
    obtain ⟨⟨hc, hb⟩, he⟩ := h
    unfold Stmt.readingElse
    exact elseIf_fills hw hp hc (stmts_lower hw hp b hb) (else_fills hw hp e he)

theorem cases_lower {p : Place} (hw : p.Within q) (hp : p.Obeys π m) : (cs : List (Case Note)) →
    p.PermitsAll π (Stmt.nodesCases cs) → ∀ a ∈ cs,
    Lowers π q m p.loops (fun o fuel => Stmt.readingList o fuel a.body) (Stmt.shapeList a.body)
      (stmts p a.body)
  | [], _ => by simp
  | .values i vs b :: cs, h => by
    obtain ⟨h, hcs⟩ := forall_mem_append.mp h
    exact forall_mem_cons.mpr
      ⟨stmts_lower hw hp b (forall_mem_append.mp h).2, cases_lower hw hp cs hcs⟩
  | .otherwise i b :: cs, h => by
    obtain ⟨hb, hcs⟩ := forall_mem_append.mp h
    exact forall_mem_cons.mpr ⟨stmts_lower hw hp b hb, cases_lower hw hp cs hcs⟩

theorem catches_lower {p : Place} (hw : p.Within q) (hp : p.Obeys π m) :
    (cs : List (Catch Note)) → p.PermitsAll π (Stmt.nodesCatches cs) → ∀ a ∈ cs,
    Lowers π q m p.loops (fun o fuel => Stmt.readingList o fuel a.body) (Stmt.shapeList a.body)
      (stmts p a.body)
  | [], _ => by simp
  | .mk i v t b :: cs, h => by
    obtain ⟨hb, hcs⟩ := forall_mem_append.mp h
    exact forall_mem_cons.mpr ⟨stmts_lower hw hp b hb, catches_lower hw hp cs hcs⟩

end

end BasicSSA.Lower
