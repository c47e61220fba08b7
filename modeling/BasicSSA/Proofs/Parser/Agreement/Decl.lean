import BasicSSA.Parser.Decl
import BasicSSA.Proofs.Parser.Agreement.Stmt

/-!
# Programs that differ in blank lines

Newlines end statements and lines of declarations, and are skipped before the next one. A run of
them does that as one does, so the number of blank lines does not matter to `parse`, which comes to
an end on every list of tokens.
-/

namespace BasicSSA.Parser

namespace Same

theorem modifiers : Same short ws 0 id modifiers modifiers := by
  refine (whileSeen (f := id) (fun kind hmore => ?_) fun _ _ => .consume fun _ _ h =>
    pure h.kind).bind fun ks ks' hkinds => pure ?_
  · constructor <;> rintro rfl <;> simp [modifier?] at hmore
  · obtain rfl : ks = ks' := by simpa using hkinds
    rfl

theorem param : Same short ws 1 Param.bare param param := by
  refine peek fun _ _ _ => bind_eq accept fun isOptional => identifier.first_eq fun name =>
    arrayDims.bind fun ds ds' hds => expecting <| typeRef.bind fun type type' htype =>
      (optionalAfter expression).bind fun default default' hdefault => pure ?_
  obtain rfl : ds = ds' := by simpa using hds
  simp [Param.bare, TypeRef.withDims_bare htype, hdefault]

theorem params : Same short ws 0 (List.map Param.bare) params params := by
  refine bind_eq accept fun found => ?_
  split
  · exact (itemsUpTo param).any
  · exact pure rfl

theorem returnType : Same short ws 0 (Option.map TypeRef.bare) returnType returnType :=
  optionalAfter typeRef

theorem implementsClause : Same short ws 0 id implementsClause implementsClause := by
  refine bind_eq accept fun found => ?_
  split
  · exact identifier.bind_eq fun _ => expecting <| identifier.bind_eq fun _ => pure rfl
  · exact pure rfl

theorem procedureBody :
    Same short ws 0 (List.map Stmt.bare) (procedureBody close what) (procedureBody close what) :=
  (block _).bind fun _ _ hbody => expecting <| pure hbody

/-! ### Procedures -/

theorem procedure (htype : Same short s 0 (Option.map TypeRef.bare) returns returns) :
    Opens short s Procedure.bare
      (procedure kind what returns (Parser.procedureBody close closeText) m hasBody)
      (Parser.procedure kind what returns (Parser.procedureBody close closeText) m hasBody) := by
  refine .consume fun t u _ => identifier.bind_eq fun name => typeParams.bind_eq fun typeParams =>
    params.bind fun ps ps' hps => htype.bind fun type type' htype =>
      implementsClause.bind_eq fun implements => ?_
  have hend (body body' : Option (List (Stmt Loc)))
      (hbody : body.map (List.map Stmt.bare) = body'.map (List.map Stmt.bare)) :
      Same short s 0 Procedure.bare
        (Pure.pure ⟨t.loc, kind, name, m, typeParams, ps, type, implements, body⟩)
        (Pure.pure ⟨u.loc, kind, name, m, typeParams, ps', type', implements, body'⟩) :=
    pure (by simp [Procedure.bare, hps, htype, hbody])
  split
  · exact (procedureBody.map fun b b' hb => by simp [hb]).bind hend
  · exact (pure rfl).bind hend

theorem function : Opens short s Procedure.bare (function m hasBody) (function m hasBody) :=
  procedure returnType

theorem subroutine : Opens short s Procedure.bare (subroutine m hasBody) (subroutine m hasBody) :=
  procedure (pure rfl)

theorem constructor : OpensTwo short s Procedure.bare (constructor m) (constructor m) :=
  .consume fun _ _ _ => .consume fun _ _ _ => params.bind fun _ _ hps =>
    procedureBody.bind fun _ _ hbody => pure (by simp [Procedure.bare, hps, hbody])

/-! ### Types -/

theorem interfaceMethod : Same short ws 1 Procedure.bare interfaceMethod interfaceMethod := by
  have hend {r : Streams} (p p' : Procedure Loc) (hp : p.bare = p'.bare) :
      Same short r 0 Procedure.bare (do Parser.skipNewlines; return p)
        (do Parser.skipNewlines; return p') := skipNewlines.bind_eq fun _ => pure hp
  exact modifiers.bind_eq fun m => branching (fun _ _ => function.bind hend)
    (branching (fun _ _ => subroutine.bind hend) (unexpected.first hend))

theorem interface : Opens short s Decl.bare interface interface :=
  .consume fun _ _ _ => identifier.bind_eq fun _ => skipNewlines.bind_eq fun _ =>
    (whileItems interfaceMethod).bind fun _ _ hmethods => expecting <| pure (by simp [hmethods])

theorem recordField : Same short ws 1 VarDecl.bare recordField recordField := by
  refine modifiers.bind_eq fun m => bind_eq accept fun hasDim =>
    isAt.bind_eq fun isField => ?_
  split
  · exact field.first fun _ _ hd => skipNewlines.bind_eq fun _ => pure hd
  · exact unexpected

theorem record :
    Opens short s Decl.bare (record kind close what closeText) (record kind close what closeText) :=
  .consume fun _ _ _ => identifier.bind_eq fun _ => skipNewlines.bind_eq fun _ =>
    (whileItems recordField).bind fun _ _ hfields => expecting <| pure (by simp [hfields])

theorem typeDefine : Opens short s Decl.bare typeDefine typeDefine :=
  .consume fun _ _ _ => identifier.bind_eq fun _ => expecting <|
    typeRef.bind fun _ _ htype => pure (by simp [htype])

/-- What comes after a step that is not always taken. -/
theorem after_ite {c : Prop} [Decidable c] {x : Parser PUnit} (hx : Same short ws l id x x)
    (h : Same short ws 0 f y z) : Same short ws 0 f (if c then x >>= fun _ => y else y)
      (if c then x >>= fun _ => z else z) := by
  split
  · exact hx.bind_eq fun _ => h
  · exact h

theorem delegate : Opens short s Decl.bare delegate delegate := by
  refine .consume fun t u _ => bind_eq accept fun isSub =>
    after_ite expect (identifier.bind_eq fun name => params.bind fun ps ps' hps => ?_)
  have hend (type type' : Option TypeRef) (htype : type.map TypeRef.bare = type'.map TypeRef.bare) :
      Same short s 0 Decl.bare (Pure.pure (.delegate ⟨t.loc, name, ps, type, !isSub⟩))
        (Pure.pure (.delegate ⟨u.loc, name, ps', type', !isSub⟩)) :=
    pure (by simp [DelegateDecl.bare, hps, htype])
  split
  · exact (pure rfl).bind hend
  · exact returnType.bind hend

theorem extension : Opens short s Decl.bare extension extension := by
  refine .consume fun _ _ _ => expecting <| identifier.bind_eq fun first =>
    (optionalAfter identifier).bind fun second second' hsecond =>
      params.bind fun ps ps' hps => returnType.bind fun _ _ htype =>
        procedureBody.bind fun _ _ hbody => pure ?_
  obtain rfl : second = second' := by simpa using hsecond
  -- Without a second name it is the type of the first parameter that counts.
  cases second with
  | some name => simp [Procedure.bare, hps, htype, hbody]
  | none =>
    cases ps with
    | nil =>
      obtain rfl : ps' = [] := by simpa using hps.symm
      simp [Procedure.bare, htype, hbody]
    | cons p ps =>
      cases ps' with
      | nil => simp at hps
      | cons p' ps' =>
        have htypes : p.type.bare = p'.type.bare := congrArg Param.type (List.cons.inj hps).1
        have hname : p.type.name = p'.type.name := by
          rw [← TypeRef.name_bare, htypes, TypeRef.name_bare]
        simp [Procedure.bare, List.cons.inj hps, htype, hbody, hname]

/-! ### Containers -/

theorem members (h : Same short ws 1 Decl.bare declaration declaration') :
    Same short ws 0 (List.map Decl.bare) (members declaration close what)
      (members declaration' close what) :=
  skipNewlines.bind_eq fun _ =>
    (whileItems (h.first fun _ _ hd => skipNewlines.bind_eq fun _ => pure hd)).bind fun _ _ hds =>
      expecting <| pure hds

theorem classDecl (h : Same short s 1 Decl.bare declaration declaration') :
    Opens short s Decl.bare (classDecl declaration) (classDecl declaration') := by
  refine .consume fun t u _ => identifier.bind_eq fun name => typeParams.bind_eq fun typeParams =>
    skipNewlines.bind_eq fun _ => (optionalAfter dottedName).bind fun base base' hbase => ?_
  obtain rfl : base = base' := by simpa using hbase
  refine after_ite skipNewlines ?_
  refine (optionalAfter (commaSeparated dottedName)).bind fun is is' his => ?_
  obtain rfl : is = is' := by simpa using his
  exact (members h).bind fun _ _ hmembers => pure (by simp [hmembers])

/-- The end of a template is found behind one newline as behind several. -/
theorem endTemplate :
    Same short ws 0 id (modify afterTemplate : Parser PUnit) (modify afterTemplate) := by
  intro s _
  have htake {ts us : List Token} {t : Token} (h : ts.dropWhile (·.kind = .newline) = t :: us)
      (hus : us ≠ []) (ht : t.kind = .blockEnd .template) : afterTemplate ts = us := by
    obtain ⟨u, rest, rfl⟩ := List.exists_cons_of_ne_nil hus
    rw [afterTemplate, h]
    exact if_pos ht
  have hkeep {ts : List Token}
      (h : ((ts.dropWhile (·.kind = .newline)).headD endToken).kind ≠ .blockEnd .template) :
      afterTemplate ts = ts := by
    unfold afterTemplate
    split
    · rename_i hdrop
      rw [hdrop] at h
      exact if_neg h
    · rfl
  let left (ts : List Token) : Except SyntaxError (PUnit × List Token) := .ok (⟨⟩, ts)
  obtain ⟨t, u, hnext⟩ : ∃ t u, s.dropNewlines.Next t u := ⟨_, _, s.dropNewlines.next⟩
  by_cases ht : t.kind = .blockEnd .template
  · obtain ⟨r, halike, hne, hr⟩ := hnext.behind (ht ▸ inferInstance)
    have hfst := htake (congrArg Streams.fst hr) r.ends.ne_nil ht
    have hsnd := htake (congrArg Streams.snd hr) (r.spaced.ne_nil r.ends.ne_nil) (halike.kind ▸ ht)
    exact .ok (congrArg left hfst) (congrArg left hsnd) rfl
      ((Streams.took_dropNewlines.trans (hr ▸ Streams.took_cons)).weaken (Nat.zero_le 1))
  · have hfst := hkeep (hnext.first ▸ ht)
    have hsnd := hkeep (hnext.second ▸ hnext.heads.kind ▸ ht)
    exact .ok (congrArg left hfst) (congrArg left hsnd) rfl .rfl

theorem template (h : Same short s 1 Decl.bare declaration declaration') :
    Opens short s Decl.bare (template declaration) (template declaration') := by
  refine .consume fun t u _ => ?_
  have hend {r : Streams} (d d' : Decl Loc) (hd : d.bare = d'.bare) : Same short r 0 Decl.bare
      (do modify afterTemplate; return Decl.template t.loc d)
      (do modify afterTemplate; return Decl.template u.loc d') :=
    endTemplate.bind_eq fun _ => pure (by simp [hd])
  exact branching (fun _ _ => (function.map fun p p' hp => by simp [hp]).bind hend)
    (branching (fun _ hr => (classDecl (h.mono hr)).bind hend) (unexpected.first hend))

theorem member : Same short ws 1 Decl.bare (member inClass) (member inClass) := by
  refine modifiers.bind_eq fun m s hs => ?_
  obtain ⟨t, u, hnext⟩ : ∃ t u, s.Next t u := ⟨_, _, s.next⟩
  obtain ⟨t', u', hfst, hsnd, hsame⟩ := hnext.peekSecond
  refine .look hfst hsnd (.peeking fun a b hnext' => ?_)
  obtain rfl : t = a := hnext.first.symm.trans hnext'.first
  have hproc {p p' : Procedure Loc} (hp : p.bare = p'.bare) :
      (Decl.proc p).bare = (Decl.proc p').bare := by simp [hp]
  have hvar {d d' : VarDecl Loc} (hd : d.bare = d'.bare) :
      (Decl.var d).bare = (Decl.var d').bare := by simp [hd]
  rw [← hnext'.heads.kind]
  split
  · exact hnext.opensAt ‹_› hs fun _ _ => function.map fun _ _ => hproc
  · rename_i ht
    obtain ⟨hkind, htwo⟩ := hsame (ht ▸ inferInstance)
    rw [← hkind]
    split
    · rename_i hnew
      have hnew : t'.kind = .keyword .new := by simp_all
      exact ((htwo (hnew ▸ inferInstance) hs fun _ _ => constructor).map fun _ _ => hproc).weaken
        (Nat.le_succ 1)
    · exact hnext.opensAt ht hs fun _ _ => subroutine.map fun _ _ => hproc
  · exact hnext.opensAt ‹_› hs fun _ _ => .consume fun _ _ _ =>
      (field.map fun _ _ => hvar).any
  · exact hnext.opensAt ‹_› hs fun _ _ => constant.map fun d d' hd => by simp [hd]
  · have hfield : (inClass && decide (t.kind = .identifier) &&
          (decide (t'.kind = .keyword .as_) || decide (t'.kind = .mark .leftBracket))) =
        (inClass && decide (t.kind = .identifier) &&
          (decide (u'.kind = .keyword .as_) || decide (u'.kind = .mark .leftBracket))) := by
      by_cases ht : t.kind = .identifier
      · rw [(hsame (ht ▸ inferInstance)).1]
      · rw [decide_eq_false ht, Bool.and_false, Bool.false_and, Bool.false_and]
    rw [hfield]
    split
    · exact field.map (fun _ _ => hvar) s hs
    · exact unexpected s hs

theorem declarationAux (h : ws.Fuel short n m) :
    Same short ws 1 Decl.bare (declarationAux n inClass) (declarationAux m inClass) := by
  refine h.induct (P := fun n m ws => ∀ inClass, Same short ws 1 Decl.bare
    (Parser.declarationAux n inClass) (Parser.declarationAux m inClass)) (fun h _ _ => outOfFuel h)
    (fun n m ws ih inClass => skipNewlines.bind_eq fun _ s hs => .peeking fun t u hnext => ?_) inClass
  rw [← hnext.heads.kind]
  split
  · exact hnext.opensAt ‹_› hs fun r hr => .consume fun _ _ _ => dottedName.bind_eq fun _ =>
      (members (ih r hr _)).bind fun _ _ hds => pure (by simp [hds])
  · exact hnext.opensAt ‹_› hs fun r hr => .consume fun _ _ _ => identifier.bind_eq fun _ =>
      (members (ih r hr _)).bind fun _ _ hds => pure (by simp [hds])
  · exact hnext.opensAt ‹_› hs fun _ _ => .consume fun _ _ _ => dottedName.bind_eq fun _ =>
      pure (by simp)
  · exact hnext.opensAt ‹_› hs fun _ _ => .consume fun _ _ _ => dottedName.bind_eq fun _ =>
      pure (by simp)
  · exact hnext.opensAt ‹_› hs fun r hr => classDecl (ih r hr _)
  · exact hnext.opensAt ‹_› hs fun _ _ => interface
  · exact hnext.opensAt ‹_› hs fun _ _ => record
  · exact hnext.opensAt ‹_› hs fun _ _ => record
  · exact hnext.opensAt ‹_› hs fun _ _ => typeDefine
  · exact hnext.opensAt ‹_› hs fun r hr => template (ih r hr _)
  · exact hnext.opensAt ‹_› hs fun _ _ => delegate
  · exact hnext.opensAt ‹_› hs fun _ _ => extension
  · exact hnext.opensAt ‹_› hs fun _ _ => autoVar.map fun d d' hd => by simp [hd]
  · exact member s hs

theorem program : Same short ws 0 Program.bare program program := by
  refine skipNewlines.bind_eq fun _ s _ => .look (get_eq _) (get_eq _) (whileItems ?_).run
  exact (declarationAux (s.fuel.imp_right fun h => h.2.elim)).first fun _ _ hd =>
    skipNewlines.bind_eq fun _ => pure hd

end Same

/-- A parser that succeeds leaves a stream behind at least one token of the one it was given. -/
def Advances (x : Parser α) : Prop :=
  ∀ ts, Sealed ts → ∀ a us, x ts = .ok (a, us) → us <:+ ts ∧ us.length < ts.length ∧ Sealed us

/-- What a run on one stream leaves, from a run on that stream twice. -/
theorem Agree.left (h : Agree short k f s x y)
    (hx : x s.fst = .ok (a, us)) : us <:+ s.fst ∧ us.length + k ≤ s.fst.length ∧ Sealed us := by
  cases h with
  | ok hx' _ _ hs =>
    cases hx.symm.trans hx'
    exact ⟨hs.fst, hs.length_fst, Streams.ends _⟩
  | error hx' => cases hx.symm.trans hx'

theorem Same.advances {f : α → γ} (h : ∀ ws, Same True ws 1 f x x) : Advances x :=
  fun _ hsealed _ _ hx => (h (.twice hsealed)).run.left hx

/-- A run whose fuel is not short does not run out of it. -/
theorem Same.problem_ne {f : α → γ} (h : ∀ ws, Same False ws k f x x)
    (he : (·.1) <$> x (stream tokens) = .error e) : e.problem ≠ .outOfFuel := by
  cases (h (.twice (sealed_stream tokens))).run with
  | ok hx =>
    rw [show x (stream tokens) = _ from hx] at he
    cases he
  | error hx _ _ hshort =>
    rw [show x (stream tokens) = _ from hx] at he
    cases he
    exact hshort

/-- Parsing ends, with a tree or a syntax error, for every list of tokens. A declaration, a
statement or an expression takes a token, and never the end of its stream; what stands inside of an
interpolated string is shorter than that. -/
theorem parse_terminates :
    (∀ tokens e, parse tokens = .error e → e.problem ≠ .outOfFuel) ∧
    (∀ tokens e, standaloneExpression tokens = .error e → e.problem ≠ .outOfFuel) ∧
    (∀ fuel b, Advances (declarationAux fuel b) ∧ Advances (statementAux fuel b) ∧
      Advances (operandAux fuel b)) ∧
    (∀ b, Advances (member b) ∧ Advances (assignment b) ∧ Advances (expression b) ∧
      Advances (suffixed b)) ∧
    (∀ tokens p us, program (stream tokens) = .ok (p, us) → us <:+ stream tokens ∧ Sealed us) ∧
    (∀ body source, .expr source ∈ Interpolation.split body → source.length < body.length) := by
  refine ⟨fun tokens e => ?_, fun tokens e => ?_, fun fuel b => ⟨?_, ?_, ?_⟩,
    fun b => ⟨?_, ?_, ?_, ?_⟩, fun tokens p us hp => ?_, Interpolation.shorter_split⟩
  · exact Same.problem_ne fun _ => .program
  · exact Same.problem_ne fun _ => .standaloneOf .expression
  · exact Same.advances fun _ => .declarationAux (.inr ⟨rfl, trivial⟩)
  · exact Same.advances fun _ => .statementAux (.inr ⟨rfl, trivial⟩)
  · exact Same.advances fun _ => .operandAux (.inr ⟨rfl, trivial⟩)
  · exact Same.advances fun _ => .member
  · exact Same.advances fun _ => .assignment
  · exact Same.advances fun _ => .expression
  · exact Same.advances fun _ => .suffixed
  · have hagree : Agree True 0 Program.bare (.twice (sealed_stream tokens)) program program :=
      Same.program.run
    exact ⟨(hagree.left hp).1, (hagree.left hp).2.2⟩

/-- Blank lines never matter: with a run of newlines in the place of each newline, `parse` gives the
same tree up to positions, or fails with the same message. -/
theorem parse_spaced (h : Spaced tokens tokens') :
    match parse tokens, parse tokens' with
    | .ok p, .ok p' => Program.bare p = Program.bare p'
    | .error e, .error e' => e.message = e'.message
    | _, _ => False := by
  have hagree : Agree False 0 Program.bare ⟨_, _, h.stream, sealed_stream tokens⟩ program program :=
    Same.program.run
  unfold parse
  cases hagree with
  | ok hx hy hab _ =>
    rw [hx, hy]
    exact hab
  | error hx hy he _ =>
    rw [hx, hy]
    exact congrArg SyntaxProblem.message he

/-- The tokens of `Using A`, on a line. -/
def usingLine (line : Nat) : List Token :=
  [{ kind := .keyword .using_, lexeme := "Using", loc := ⟨0, line, 1⟩ },
    { kind := .identifier, lexeme := "A", loc := ⟨0, line, 7⟩ }]

def lineEnd (line : Nat) : Token :=
  { kind := .newline, lexeme := "\n", loc := ⟨0, line, 8⟩ }

theorem parse_spaced_blankLine :
    let first := usingLine 1 ++ lineEnd 1 :: usingLine 2
    let second := usingLine 1 ++ lineEnd 1 :: lineEnd 2 :: usingLine 3
    Spaced first second ∧
      match parse first, parse second with
      | .ok p, .ok p' => Program.bare p = Program.bare p'
      | .error e, .error e' => e.message = e'.message
      | _, _ => False := by
  have hline (line line' : Nat) : Spaced (usingLine line) (usingLine line') :=
    .token ⟨rfl, rfl, rfl, nofun⟩ nofun (.token ⟨rfl, rfl, rfl, nofun⟩ nofun .nil)
  have hspaced : Spaced (usingLine 1 ++ lineEnd 1 :: usingLine 2)
      (usingLine 1 ++ ([lineEnd 1, lineEnd 2] ++ usingLine 3)) :=
    (hline 1 1).append (.newline rfl (by simp) (by simp [lineEnd]) (hline 2 3))
  exact ⟨hspaced, parse_spaced hspaced⟩

end BasicSSA.Parser
