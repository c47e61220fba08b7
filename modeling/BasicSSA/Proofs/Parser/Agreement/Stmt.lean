import BasicSSA.Parser.Stmt
import BasicSSA.Proofs.Parser.Agreement.Expr

/-!
# Statements on streams that differ in blank lines
-/

namespace BasicSSA.Parser

variable {statement : Parser (Stmt Loc)}

theorem isTarget_bare (h : e.bare = e'.bare) : isTarget e = isTarget e' := by
  cases e <;> cases e' <;> simp_all [Expr.bare, isTarget]

namespace Same

/-- A newline ends a statement however many there are, and all are skipped before the next one. -/
theorem blockOf (h : Same short ws 1 Stmt.bare statement statement') (close : TokenKind → Bool) :
    Same short ws 0 (List.map Stmt.bare) (blockOf statement close) (blockOf statement' close) := by
  refine counting fun n m s hs hfuel => hfuel.within (P := fun n m s =>
    Agree short 0 (List.map Stmt.bare) s (blockAux statement close n) (blockAux statement' close m))
    hs fun n m s hs ih => Same.run ?_
  refine skipNewlines.bind_eq fun _ => peek fun _ _ hkind => ?_
  rw [← hkind]
  dsimp only
  split
  · exact pure rfl
  · refine ((h.mono hs).behind fun a b r hab hr => atStatementEnd.bind_eq fun _ =>
      peek fun _ _ hkind => ?_).any
    rw [← hkind]
    split
    · exact Same.bind (ih r hr) fun as bs habs => pure (by simp [hab, habs])
    · exact unexpected

/-! ### Declarations -/

theorem arrayDims : Same short ws 0 (List.map id) (arrayDims inWith) (arrayDims inWith) := by
  refine fun s hs => (whileOpens inline_of_eq (fun r _ => .consume fun _ _ _ =>
    isAt.bind_eq fun found => ?_) hs).weaken (Nat.zero_le _)
  have hend (size : Option Nat) : Same short r 0 id
      (do Parser.expect (.mark .rightBracket) "']'"; return size)
      (do Parser.expect (.mark .rightBracket) "']'"; return size) :=
    expecting <| pure rfl
  dsimp only
  split
  · exact (pure (f := id) rfl).bind_eq hend
  · refine expression.bind fun e e' he => ?_
    obtain ⟨l, l', n, rfl, rfl⟩ | ⟨hother, hother'⟩ := Expr.integer_bare he
    · exact (pure (f := id) rfl).bind_eq hend
    · split
      · exact absurd rfl (hother _ _)
      · exact (pure (f := id) rfl).bind_eq hend

theorem field : Same short ws 1 VarDecl.bare (field inWith m) (field inWith m) := by
  refine peek fun _ _ _ => identifier.first_eq fun name => arrayDims.bind fun ds ds' hds =>
    expecting <| typeRef.bind fun type type' htype =>
      (optionalAfter expression).bind fun init init' hinit => pure ?_
  obtain rfl : ds = ds' := by simpa using hds
  simp [VarDecl.bare, TypeRef.withDims_bare htype, hinit]

theorem autoVar : Opens short s VarDecl.bare (autoVar inWith) (autoVar inWith) :=
  .consume fun _ _ _ => identifier.bind_eq fun _ => (optionalAfter expression).bind
    fun _ _ hinit => pure (by simp [VarDecl.bare, hinit])

theorem constant : Opens short s ConstDecl.bare (constant inWith) (constant inWith) :=
  .consume fun _ _ _ => identifier.bind_eq fun _ => expecting <|
    typeRef.bind fun _ _ htype => (optionalAfter expression).bind
      fun _ _ hvalue => pure (by simp [ConstDecl.bare, htype, hvalue])

section Compound

variable (h : Same short s 1 Stmt.bare statement statement')

include h

/-! ### Conditionals -/

theorem elseArms (hfuel : s.Fuel False n m) : Agree short 0 Stmt.bareElse s
    (elseArmsAux inWith statement n) (elseArmsAux inWith statement' m) := by
  refine hfuel.within (P := fun n m r => Agree short 0 Stmt.bareElse r
    (elseArmsAux inWith statement n) (elseArmsAux inWith statement' m)) .rfl
    fun n m r hr ih => .peeking fun t u hnext => ?_
  rw [← hnext.heads.kind]
  split
  · refine hnext.opensAt ‹_› .rfl fun r' hr' => .consume fun _ _ _ =>
      expression.bind fun c c' hc => expecting <|
        (blockOf (h.mono (hr.within hr')) _).bind fun b b' hb => ?_
    exact Same.bind (ih r' hr') fun e e' he => pure (by simp [hc, hb, he])
  · refine Same.run (bind_eq accept fun found => ?_)
    split
    · exact (blockOf (h.mono hr) _).bind fun b b' hb => pure (by simp [hb])
    · exact pure rfl

/-- One newline after `Then` makes an `If` a block, and so do several. -/
theorem ifThen : Opens short s Stmt.bare (ifThen inWith statement) (ifThen inWith statement') := by
  refine .consume fun _ _ _ => expression.bind fun c c' hc => expecting <|
    isAt.bind_eq fun found => ?_
  split
  · refine (blockOf h _).bind fun b b' hb r hr => .look (get_eq _) (get_eq _) ?_
    refine (elseArms (h.mono hr) r.fuel).first fun e e' r' he _ => ?_
    exact (expecting <| pure (by simp [hc, hb, he])).run
  · refine h.bind fun s s' hs => (optionalAfter h).bind fun e e' he => pure ?_
    cases e <;> cases e' <;> simp_all [Stmt.bare, Stmt.bareElse]

theorem caseArm : Opens short s Case.bare (caseArm inWith statement) (caseArm inWith statement') := by
  refine .consume fun _ _ _ => bind_eq accept fun found => ?_
  split
  · exact (blockOf h _).bind fun b b' hb => pure (by simp [Case.bare, hb])
  · exact (commaSeparated expression).bind fun vs vs' hvs => (blockOf h _).bind fun b b' hb =>
      pure (by simp [Case.bare, hvs, hb])

theorem select : Opens short s Stmt.bare (select inWith statement) (select inWith statement') :=
  .consume fun _ _ _ => expecting <| expression.bind fun _ _ hsubject =>
    skipNewlines.bind_eq fun _ =>
      (whileSeen inline_of_eq fun _ hr => caseArm (h.mono hr)).bind fun _ _ hcases =>
        expecting <| pure (by simp [hsubject, hcases])

/-! ### Loops -/

theorem forBody : Same short s 0 (List.map Stmt.bare) (forBody statement) (forBody statement') :=
  (blockOf h _).bind fun _ _ hbody => expecting <|
    bind_eq accept fun _ => pure hbody

theorem forLoop : Opens short s Stmt.bare (forLoop inWith statement) (forLoop inWith statement') := by
  refine .consume fun _ _ _ => bind_eq accept fun found => ?_
  split
  · exact identifier.bind_eq fun _ => (optionalAfter typeRef).bind fun _ _ htype =>
      expecting <| expression.bind fun _ _ hcollection =>
        (forBody h).bind fun _ _ hbody => pure (by simp [htype, hcollection, hbody])
  · exact identifier.bind_eq fun _ => expecting <|
      expression.bind fun _ _ hstart => expecting <|
        expression.bind fun _ _ hstop => (optionalAfter expression).bind fun _ _ hstep =>
          (forBody h).bind fun _ _ hbody => pure (by simp [hstart, hstop, hstep, hbody])

theorem whileLoop :
    Opens short s Stmt.bare (whileLoop inWith statement) (whileLoop inWith statement') := by
  refine .consume fun t u _ => expression.bind fun c c' hc => (blockOf h _).bind fun b b' hb => ?_
  have hend {r : Streams} : Same short r 0 Stmt.bare (Pure.pure (.whileLoop t.loc c b))
      (Pure.pure (.whileLoop u.loc c' b')) := pure (by simp [hc, hb])
  exact lookingAhead _ _ (p := fun b => if b then _ else _) (q := fun b => if b then _ else _)
    (fun _ _ => .consume fun _ _ _ => .consume fun _ _ _ => hend)
    (expecting <| hend)

omit h in
theorem loopTest :
    Same short s 0 (Option.map LoopTest.bare) (loopTest inWith atTop) (loopTest inWith atTop) := by
  refine bind_eq accept fun found => ?_
  split
  · exact expression.bind fun e e' he => pure (by simp [LoopTest.bare, he])
  · refine bind_eq accept fun found => ?_
    split
    · exact expression.bind fun e e' he => pure (by simp [LoopTest.bare, he])
    · exact pure rfl

theorem doLoop : Opens short s Stmt.bare (doLoop inWith statement) (doLoop inWith statement') := by
  refine .consume fun t u _ => loopTest.bind fun top top' htop => (blockOf h _).bind fun b b' hb =>
    expecting <| ?_
  have hend (test test' : Option (LoopTest Loc))
      (htest : test.map LoopTest.bare = test'.map LoopTest.bare) :
      Same short s 0 Stmt.bare (Pure.pure (.doLoop t.loc test b)) (Pure.pure (.doLoop u.loc test' b')) :=
    pure (by simp [htest, hb])
  have hsome : top.isSome = top'.isSome := by simpa using congrArg Option.isSome htop
  dsimp only
  rw [← hsome]
  split
  · exact (pure htop).bind hend
  · exact loopTest.bind hend

/-! ### Other statements -/

theorem catchArm : Opens short s Catch.bare (catchArm statement) (catchArm statement') := by
  refine .consume fun _ _ _ => branching (fun r hr => ?_) ?_
  · exact .consume fun _ _ hvar => (optionalAfter typeRef).bind fun _ _ htype =>
      (blockOf (h.mono hr) _).bind fun _ _ hbody =>
        pure (by simp [Catch.bare, hvar.lexeme, htype, hbody])
  · exact (blockOf h _).bind fun _ _ hbody => pure (by simp [Catch.bare, hbody])

theorem tryCatch : Opens short s Stmt.bare (tryCatch statement) (tryCatch statement') := by
  refine .consume fun _ _ _ => (blockOf h _).bind fun _ _ hbody =>
    (whileSeen inline_of_eq fun _ hr => catchArm (h.mono hr)).bind fun _ _ hcatches =>
      (optionalAfter (blockOf h _)).bind fun last last' hlast =>
        expecting <| pure ?_
  cases last <;> cases last' <;> simp_all [Stmt.bare]

theorem withBlock :
    Opens short s Stmt.bare (withBlock inWith statement) (withBlock inWith statement') :=
  .consume fun _ _ _ => expression.bind fun _ _ htarget => (blockOf h _).bind fun _ _ hbody =>
    expecting <| pure (by simp [htarget, hbody])

end Compound

theorem exit : Opens short s Stmt.bare exit exit := by
  refine .consume fun _ _ _ r hr => .peeking fun t u hnext => ?_
  rw [← hnext.heads.kind]
  split
  · rename_i hkind
    exact hnext.opensOp hkind rfl rfl hr fun _ _ => .consume fun _ _ _ => pure (by simp)
  · exact unexpected r hr

theorem optionalValue :
    Same short ws 0 (Option.map Expr.bare) (optionalValue inWith) (optionalValue inWith) := by
  refine atStatementEnd.bind_eq fun found => ?_
  split
  · exact pure rfl
  · exact expression.bind fun e e' he => pure (by simp [he])

theorem target : Same short ws 1 Expr.bare (target inWith) (target inWith) := by
  refine fun s hs => .peeking fun t u hnext => ?_
  rw [← hnext.heads.kind]
  split
  · exact hnext.opensAt ‹_› hs fun _ _ => .consume fun _ _ _ =>
      suffixed.bind fun _ _ he => pure (by simp [he])
  · exact hnext.opensAt ‹_› hs fun _ _ => .consume fun _ _ _ =>
      suffixed.bind fun _ _ he => pure (by simp [he])
  · exact suffixed s hs

theorem assignment : Same short ws 1 Stmt.bare (assignment inWith) (assignment inWith) := by
  refine peek fun _ _ _ => target.first fun lhs lhs' hlhs s hs => .peeking fun t u hnext => ?_
  rw [← hnext.heads.kind, ← isTarget_bare hlhs]
  split
  · rename_i hop
    split
    · exact hnext.opensOp hop rfl rfl hs fun _ _ => .consume fun _ _ _ =>
        expression.bind fun _ _ he => pure (by simp [hlhs, he])
    · exact failAt (by simp) s hs
  · exact ((climb operand hlhs).bind fun _ _ he => pure (by simp [he])) s hs

theorem statementAux (h : ws.Fuel short n m) :
    Same short ws 1 Stmt.bare (statementAux n inWith) (statementAux m inWith) := by
  refine h.induct (P := fun n m ws => ∀ inWith, Same short ws 1 Stmt.bare
    (Parser.statementAux n inWith) (Parser.statementAux m inWith)) (fun h _ _ => outOfFuel h)
    (fun n m ws ih inWith s hs => .peeking fun t u hnext => ?_) inWith
  rw [← hnext.heads.kind]
  split
  · exact hnext.opensAt ‹_› hs fun r hr => ifThen (ih r hr _)
  · exact hnext.opensAt ‹_› hs fun r hr => select (ih r hr _)
  · exact hnext.opensAt ‹_› hs fun r hr => forLoop (ih r hr _)
  · exact hnext.opensAt ‹_› hs fun r hr => whileLoop (ih r hr _)
  · exact hnext.opensAt ‹_› hs fun r hr => doLoop (ih r hr _)
  · exact hnext.opensAt ‹_› hs fun r hr => tryCatch (ih r hr _)
  · exact hnext.opensAt ‹_› hs fun r hr => withBlock (ih r hr _)
  · exact hnext.opensAt ‹_› hs fun _ _ => .consume fun _ _ _ => optionalValue.bind fun _ _ hv =>
      pure (by simp [hv])
  · exact hnext.opensAt ‹_› hs fun _ _ => .consume fun _ _ _ => optionalValue.bind fun _ _ hv =>
      pure (by simp [hv])
  · exact hnext.opensAt ‹_› hs fun _ _ => exit
  · exact hnext.opensAt ‹_› hs fun _ _ => .consume fun _ _ _ => field.bind fun _ _ hd =>
      pure (by simp [hd])
  · exact hnext.opensAt ‹_› hs fun _ _ => autoVar.bind fun _ _ hd =>
      pure (by simp [hd])
  · exact hnext.opensAt ‹_› hs fun _ _ => constant.bind fun _ _ hd =>
      pure (by simp [hd])
  · exact assignment s hs

theorem block (close : TokenKind → Bool) :
    Same short ws 0 (List.map Stmt.bare) (block close) (block close) :=
  counting fun _ _ _ _ hfuel =>
    (blockOf (statementAux (hfuel.imp_right fun h => h.2.elim)) close).run

end Same

end BasicSSA.Parser
