import BasicSSA.Proofs.Parser.Agreement
import BasicSSA.Proofs.Token.Nesting

/-!
# Expressions on streams that differ in blank lines
-/

namespace BasicSSA.Parser

theorem nestings_lt_of_suffix (h : us <:+ ts) (hlen : us.length < ts.length) :
    nestings us < nestings ts := by
  obtain ⟨vs, rfl⟩ := h
  have hvs : ¬nestings vs ≤ 0 := fun h => by simp [eq_nil_of_nestings h] at hlen
  rw [nestings_append]
  omega

theorem Heads.literal? (h : Heads t u) : literal? t = literal? u := by
  by_cases ht : t.kind = .newline
  · simp [Parser.literal?, ← h.kind, ht]
  · simp [Parser.literal?, ← h.kind, (h.alike ht).value]

namespace Same

/-! ### Operators -/

section Operand

variable {operand : Parser (Expr Loc)}

theorem climb (h : Same short ws 1 Expr.bare operand operand') (hlhs : lhs.bare = lhs'.bare) :
    Same short ws 0 Expr.bare (climb operand lhs) (climb operand' lhs') := by
  refine counting fun n m s hs hfuel => hfuel.within (P := fun n m s =>
    ∀ {lhs lhs' : Expr Loc} {least : Nat}, lhs.bare = lhs'.bare → Agree short 0 Expr.bare s
      (climbAux operand n lhs least) (climbAux operand' m lhs' least)) hs ?_ hlhs
  intro n m s hs ih lhs lhs' least hlhs
  refine .peeking fun t u hnext => ?_
  rw [← hnext.heads.kind]
  split
  · exact .pure hlhs
  · rename_i op precedence hop
    split
    · exact .pure hlhs
    · refine hnext.opensOp hop rfl rfl .rfl fun r hr => .consume fun _ _ _ => ?_
      have hrest {lhs lhs' : Expr Loc} {least : Nat} (hlhs : lhs.bare = lhs'.bare) :
          Same short r 0 Expr.bare (climbAux operand n lhs least) (climbAux operand' m lhs' least) :=
        fun r' hr' => ih r hr r' hr' hlhs
      have hend (e e' : Expr Loc) (he : e.bare = e'.bare) : Same short r 0 Expr.bare
          (climbAux operand n (.binary t.loc op lhs e) least)
          (climbAux operand' m (.binary u.loc op lhs' e') least) :=
        hrest (by simp [hlhs, he])
      refine (h.mono (hs.within hr)).bind fun e e' he => peek fun _ _ hkind => ?_
      rw [← hkind]
      split
      · exact (pure he).bind hend
      · split
        · exact (hrest he).bind hend
        · exact (pure he).bind hend

theorem expressionOf (h : Same short ws 1 Expr.bare operand operand') :
    Same short ws 1 Expr.bare (expressionOf operand) (expressionOf operand') :=
  h.first fun _ _ hlhs => climb h hlhs

end Operand

/-! ### Suffixes -/

theorem memberName : Same short ws 1 id memberName memberName := by
  refine fun s hs => .peeking fun t u hnext => ?_
  rw [← hnext.heads.kind]
  split
  · rename_i hword
    exact hnext.opens ⟨fun ht => by simp [ht, TokenKind.isWord] at hword,
      fun ht => by simp [ht, TokenKind.isWord] at hword⟩ hs
      fun _ _ => .consume fun _ _ h => pure h.lexeme
  · exact unexpected s hs

section Expression

variable {expression : Parser (Expr Loc)}
  (h : Same short ws 1 Expr.bare expression expression')

include h

theorem standaloneOf :
    Same short ws 1 Expr.bare (standaloneOf expression) (standaloneOf expression') := by
  refine skipNewlines.bind_eq fun _ => h.first fun e e' he => skipNewlines.bind_eq fun _ =>
    isAt.bind_eq fun found => ?_
  split
  · exact pure he
  · exact unexpected

theorem arguments :
    Same short ws 1 (List.map Expr.bare) (arguments expression) (arguments expression') :=
  itemsUpTo h

theorem indices (hs : ws.Took 0 s) (ht : (s.fst.headD endToken).kind = .mark .leftBracket) :
    Agree short 1 (List.map Expr.bare) s (indices expression) (indices expression') := by
  refine Agree.first (f := List.map (List.map Expr.bare)) (Agree.weaken (whileOpens inline_of_eq
    (fun r hr => .consume fun _ _ _ => (commaSeparated (h.mono hr)).bind fun _ _ hab =>
      expecting <| pure hab) hs) ?_) fun as bs _ hab _ => .pure ?_
  · exact Nat.le_of_eq (if_pos (decide_eq_true ht)).symm
  · rw [List.map_flatten, List.map_flatten, hab]

theorem suffixes (hbase : base.bare = base'.bare) :
    Same short ws 0 Expr.bare (suffixes expression base) (suffixes expression' base') := by
  refine counting fun n m s hs hfuel => hfuel.within (P := fun n m s =>
    ∀ {base base' : Expr Loc}, base.bare = base'.bare → Agree short 0 Expr.bare s
      (suffixesAux expression n base) (suffixesAux expression' m base')) hs ?_ hbase
  intro n m s hs ih base base' hbase
  have hrest {r : Streams} (hr : s.Took 1 r) {base base' : Expr Loc} (hbase : base.bare = base'.bare) :
      Same short r 0 Expr.bare (suffixesAux expression n base) (suffixesAux expression' m base') :=
    fun r' hr' => ih r hr r' hr' hbase
  refine .peeking fun t u hnext => ?_
  rw [← hnext.heads.kind]
  dsimp only
  split
  · refine hnext.opensAt ‹_› .rfl fun r hr => .consume fun _ _ _ => bind_eq accept fun found => ?_
    have hend (types types' : List TypeRef)
        (htypes : types.map TypeRef.bare = types'.map TypeRef.bare) : Same short r 0 Expr.bare
        (do
          let args ← Parser.arguments expression
          suffixesAux expression n (.call base.info base types args))
        (do
          let args ← Parser.arguments expression'
          suffixesAux expression' m (.call base'.info base' types' args)) :=
      (arguments (h.mono (hs.within hr))).bind fun as bs hab =>
        hrest hr (by simp [hbase, htypes, hab])
    split
    · exact (commaSeparated typeRef).bind fun as bs hab => expecting <| expecting <|
        (pure hab).bind hend
    · exact (pure rfl).bind hend
  · split
    · rename_i ht
      refine ((indices h hs (hnext.first ▸ ht)).first fun as bs r hab hr => ?_).weaken (Nat.zero_le 1)
      exact (hrest hr (by simp [hbase, hab])).run
    · split
      · exact hnext.opensAt ‹_› .rfl fun r hr => .consume fun _ _ _ =>
          memberName.bind_eq fun name => hrest hr (by simp [hbase])
      · split
        · rename_i hop
          exact hnext.opensOp hop rfl rfl .rfl fun r hr =>
            .consume fun _ _ _ => hrest hr (by simp [hbase])
        · exact .pure hbase

end Expression

/-! ### Interpolated strings -/

theorem lift_mapM {k l : δ → Except SyntaxError α} {ps : List δ}
    (h : ∀ p ∈ ps, Same short ws 0 f (liftM (k p)) (liftM (l p))) :
    Same short ws 0 (List.map f) (liftM (ps.mapM k)) (liftM (ps.mapM l)) := by
  induction ps with
  | nil => exact pure rfl
  | cons p ps ih =>
    obtain ⟨hp, hps⟩ := List.forall_mem_cons.mp h
    simp only [List.mapM_cons, liftM_bind, liftM_pure]
    exact hp.bind fun a b hab => (ih hps).bind fun as bs habs => pure (by simp [hab, habs])

section Embedded

/-- The expression in a part of an interpolated string stands in a shorter text. -/
theorem part (h : ∀ ns : Streams, nestings ns.fst ≤ 1 + body.length →
      nestings ns.snd ≤ 1 + body.length → Same short ns 1 Expr.bare embedded embedded')
    (hfile : loc.file = loc'.file) (hpiece : piece ∈ Interpolation.split body) :
    Same short ws 0 Part.bare (liftM (part embedded loc piece)) (liftM (part embedded' loc' piece)) := by
  cases piece with
  | text s => exact pure rfl
  | expr source =>
    have hsource := Interpolation.shorter_split body source hpiece
    rw [Parser.part, Parser.part, ← hfile]
    cases htokens : tokenize source loc.file with
    | error e => exact failAt (by simp)
    | ok tokens =>
      have hnestings (loc : Loc) :
          nestings (stream (tokens.map ({ · with loc }))) ≤ 1 + body.length := by
        have htokens := nestings_tokens htokens (Nat.le_refl _)
        have hstream := nestings_stream_le (tokens.map ({ · with loc }))
        have hmap : nestings (tokens.map ({ · with loc })) = nestings tokens := by
          unfold nestings
          rw [List.map_map]
          rfl
        rw [String.length_toList] at htokens
        omega
      have hagree := (standaloneOf (h ⟨_, _, (Spaced.relocate hfile tokens).stream, sealed_stream _⟩
        (hnestings loc) (hnestings loc'))).run
      cases hagree with
      | ok hx hy hab _ =>
        dsimp only at hx hy ⊢
        rw [hx, hy]
        exact pure (by simp [Part.bare, hab])
      | error hx hy he hshort =>
        dsimp only at hx hy ⊢
        rw [hx, hy]
        exact fun _ _ => .error rfl rfl he hshort

theorem interpolated (h : ∀ ns : Streams, nestings ns.fst ≤ nesting t → nestings ns.snd ≤ nesting t →
      Same short ns 1 Expr.bare embedded embedded') (halike : t.Alike u)
    (ht : t.kind = .interpolated) :
    Same short ws 0 Expr.bare (interpolated embedded t) (interpolated embedded' u) := by
  unfold Parser.interpolated
  rw [← halike.value]
  split
  · rename_i body hvalue
    have hbody : nesting t = 1 + body.length := by simp [nesting, ht, hvalue]
    rw [hbody] at h
    exact (lift_mapM fun p hp => part h (halike.file ht) hp).bind fun as bs hab =>
      pure (by simp [hab])
  · exact pure rfl

end Embedded

/-! ### Operands -/

/-- A primary expression takes its first token; what it reads inside comes behind that, or in a
token that holds a text. -/
theorem primary {expression expression' embedded embedded' : Parser (Expr Loc)}
    (hexpr : ∀ r, s.Took 1 r → Same short r 1 Expr.bare expression expression')
    (hembedded : ∀ t u, s.Next t u → t.kind = .interpolated → ∀ ns : Streams,
      nestings ns.fst ≤ nesting t → nestings ns.snd ≤ nesting t →
        Same short ns 1 Expr.bare embedded embedded') :
    Agree short 1 Expr.bare s (primary inWith expression embedded)
      (primary inWith expression' embedded') := by
  refine .peeking fun t u hnext => ?_
  rw [← hnext.heads.literal?, ← hnext.heads.kind]
  split
  · rename_i ht
    exact hnext.opensAt ht .rfl fun _ _ => .consume fun _ _ _ =>
      interpolated (hembedded t u hnext ht) (hnext.heads.alike (by simp [ht])) ht
  · rename_i ht
    have halike := hnext.heads.alike (by simp [ht])
    exact hnext.opensAt ht .rfl fun _ _ => .consume fun _ _ _ =>
      pure (by simp [halike.lexeme])
  · exact hnext.opensAt ‹_› .rfl fun _ _ => .consume fun _ _ _ =>
      pure (by simp)
  · exact hnext.opensAt ‹_› .rfl fun r hr => .consume fun _ _ _ =>
      (hexpr r hr).bind fun e e' he => expecting <| pure he
  · refine hnext.opensAt ‹_› .rfl fun r hr => .consume fun _ _ _ =>
      typeRef.bind fun type type' htype => bind_eq accept fun found => ?_
    have hend (as bs : List (Expr Loc)) (hab : as.map Expr.bare = bs.map Expr.bare) :
        Same short r 0 Expr.bare (Pure.pure (.new t.loc type as)) (Pure.pure (.new u.loc type' bs)) :=
      pure (by simp [htype, hab])
    split
    · exact (arguments (hexpr r hr)).bind hend
    · exact (pure rfl).bind hend
  · exact hnext.opensAt ‹_› .rfl fun r hr => .consume fun _ _ _ =>
      expecting <| (hexpr r hr).bind fun e e' he => expecting <|
        typeRef.bind fun type type' htype => expecting <| pure (by simp [he, htype])
  · exact hnext.opensAt ‹_› .rfl fun r hr => .consume fun _ _ _ =>
      (itemsUpTo (hexpr r hr)).bind fun as bs hab => pure (by simp [hab])
  · split
    · exact hnext.opensAt ‹_› .rfl fun _ _ => .consume fun _ _ _ =>
        memberName.bind_eq fun _ => pure (by simp)
    · exact unexpected.run
  · split
    · rename_i hvalue
      exact hnext.opens ⟨fun ht => by simp [Parser.literal?, ht] at hvalue,
        fun ht => by simp [Parser.literal?, ht] at hvalue⟩ .rfl fun _ _ => .consume fun _ _ _ =>
          pure (by simp)
    · exact unexpected.run

theorem operandAux (h : (nestings ws.fst ≤ n ∧ nestings ws.snd ≤ m) ∨ (n = m ∧ short)) :
    Same short ws 1 Expr.bare (operandAux n inWith) (operandAux m inWith) := by
  induction n generalizing m ws inWith with
  | zero =>
    rcases h with h | ⟨rfl, h⟩
    · exact absurd (eq_nil_of_nestings h.1) ws.ends.ne_nil
    · exact outOfFuel h
  | succ n ih =>
    cases m with
    | zero =>
      rcases h with h | ⟨h, -⟩
      · exact absurd (eq_nil_of_nestings h.2) (ws.spaced.ne_nil ws.ends.ne_nil)
      · cases h
    | succ m =>
      have hinner {r : Streams} (hr : ws.Took 1 r) (inWith : Bool) :
          Same short r 1 Expr.bare (Parser.operandAux n inWith) (Parser.operandAux m inWith) := by
        refine ih (h.imp (fun h => ?_) fun h => ⟨Nat.succ.inj h.1, h.2⟩)
        have hfst := nestings_lt_of_suffix hr.fst hr.length_fst
        have hsnd := nestings_lt_of_suffix hr.snd hr.length_snd
        omega
      refine fun s hs => .peeking fun t u hnext => ?_
      rw [← hnext.heads.kind]
      split
      · rename_i hop
        exact hnext.opensOp hop rfl rfl hs fun r hr => .consume fun _ _ _ =>
          (hinner hr _).bind fun e e' he => pure (by simp [he])
      · split
        · exact hnext.opensAt ‹_› hs fun r hr => .consume fun _ _ _ =>
            (hinner hr _).bind fun e e' he => pure (by simp [he])
        · have hexpr {r : Streams} (hr : s.Took 1 r) (inWith : Bool) :=
            expressionOf (hinner (hs.within hr) inWith)
          refine (primary (fun r hr => hexpr hr inWith) fun t u hnext ht ns hfst hsnd => ?_).first
            fun base base' r hbase hr => (suffixes (hexpr hr inWith) hbase).run
          -- The end of the stream is left for the tokens of the text.
          refine expressionOf (ih (h.imp (fun h => ?_) fun h => ⟨Nat.succ.inj h.1, h.2⟩))
          obtain ⟨r, halike, hne, rfl⟩ := hnext.behind (ht ▸ inferInstance)
          have hnesting : nesting t = nesting u := by simp [nesting, halike.kind, halike.value]
          have h₁ := nestings_le_of_suffix hs.fst
          have h₂ := nestings_le_of_suffix hs.snd
          have h₃ := nestings_lt_of_suffix (List.nil_suffix (l := r.fst))
            (List.length_pos_iff.mpr r.ends.ne_nil)
          have h₄ := nestings_lt_of_suffix (List.nil_suffix (l := r.snd))
            (List.length_pos_iff.mpr (r.spaced.ne_nil r.ends.ne_nil))
          simp only [Streams.cons, nestings_cons] at h₁ h₂
          omega

/-- An operand has fuel enough for any stream. -/
theorem operand : Same short ws 1 Expr.bare (operand inWith) (operand inWith) :=
  fun _ _ => .look (get_eq _) (get_eq _) (operandAux (.inl ⟨Nat.le_of_lt (nestings_lt_depthBound _),
    Nat.le_of_lt (nestings_lt_depthBound _)⟩)).run

theorem expression : Same short ws 1 Expr.bare (expression inWith) (expression inWith) :=
  expressionOf operand

theorem suffixed : Same short ws 1 Expr.bare (suffixed inWith) (suffixed inWith) :=
  fun _ _ => (primary (fun _ _ => expression) fun _ _ _ _ _ _ _ => expression).first
    fun _ _ _ hbase _ => (suffixes expression hbase).run

end Same

end BasicSSA.Parser
