import BasicSSA.Proofs.Lower.Kinds
import BasicSSA.Proofs.Lower.Stage

/-!
# The code of compound statements

For each kind of statement: if its parts are lowered so that walks through their code do what their
readings say, so is the statement.
-/

namespace BasicSSA

open IL (Value Opcode Instr Function Module Build)

namespace Reading

theorem andThen_of_ne_normal {x y : Reading} (h : ∀ t, (x t).2 ≠ .normal) : x.andThen y = x := by
  funext t
  have := h t
  unfold andThen
  split
  · rename_i he
    rw [he] at this
    exact absurd rfl this
  · rfl

theorem andThen_ne_normal {x y : Reading} (h : ∀ t, (y t).2 ≠ .normal) (t : Trace) :
    (x.andThen y t).2 ≠ .normal := by
  unfold andThen
  split
  · exact h _
  · rename_i hne
    exact fun he => hne (x t).1 (Prod.ext rfl he)

end Reading

namespace Lower

variable {p : Place}

/-! ### Simple statements -/

theorem Lowers.imp (h : Lowers π q m loops R Λ x) (hleaves : Λ'.leaves = Λ.leaves)
    (hactions : Λ'.actions = Λ.actions)
    (hlies : ∀ f H k e, Λ.Lies f H loops k e → Λ'.Lies f H loops k e) :
    Lowers π q m loops R Λ' x := by
  intro s c s' hs hok ho hl hx
  obtain ⟨c', h', hlow⟩ := h s c s' hs hok ho hl hx
  exact ⟨c', h', { hlow with
    isOpen := hleaves ▸ hlow.isOpen
    log := hactions ▸ hlow.log
    lies := fun f H hb => hlies f H _ _ (hlow.lies f H hb) }⟩

theorem Lowers.skip : Lowers π q m loops (fun _ _ => .skip) (Stmt.shapeList []) (pure ()) := by
  intro s c s' hs hok ho _ h
  obtain ⟨-, rfl⟩ := pure_ok.mp h
  exact ⟨c, .start hs hok, fun f H _ o fuel => .skip, fun hc => absurd ho hc, ⟨fun _ => rfl, fun _ => ho⟩,
    (List.append_nil _).symm, fun _ _ _ => rfl⟩

theorem Lowers.after_piece {y : α → Lower Unit}
    (hx : Straight π m action.declarations x Q)
    (hcode : ∀ a code, Emits m.globals x a code → ∃ p : Place, p.Within q ∧
      CodeOf m.globals p action code none)
    (hy : ∀ a code, Emits m.globals x a code → Q a → Lowers π q m loops R Λ (y a)) :
    Lowers π q m loops (fun o fuel => (Reading.act action).andThen (R o fuel)) (Λ.after action)
      (x >>= y) := by
  intro s c s' hs hok ho hl h
  obtain ⟨a, t, hxs, hys⟩ := bind_ok.mp h
  obtain ⟨_, code, -, -, -, -, he⟩ := hx.emits hs.toAt hxs
  obtain ⟨c₁, h₁, hpiece, hq⟩ := (Stage.start hs hok).piece hx ho hxs (hcode a) rfl
  rw [← hpiece.current] at h₁
  obtain ⟨c₂, h₂, hg, hlow⟩ := h₁.lower (hy a code he hq) hpiece.isOpen (hl.mono hpiece.grown.length_le) hys
  refine ⟨c₂, h₂, fun f H hb o fuel => ?_, fun hc o fuel => ?_, hlow.isOpen, ?_, fun f H hb =>
    ⟨⟨c.index, hpiece.does f H (hg.becomes hb)⟩, hpiece.current ▸ hlow.lies f H hb⟩⟩
  · have hact : Follows f H o loops fuel c.current c.index (.act action) c₁.current c₁.index := by
      rw [hpiece.current, hpiece.index]
      exact .act (hpiece.does f H (hg.becomes hb))
    exact hact.andThen (hlow.follows f H hb o fuel)
  · exact Reading.andThen_ne_normal (hlow.normal hc o fuel)
  · rw [hlow.log, hpiece.log, List.append_assoc]
    rfl

theorem Lowers.inScope (h : Lowers π q m loops R Λ x) :
    Lowers π q m loops R Λ (inScope x) := by
  intro s c s' hs hok ho hl hxs
  obtain ⟨c', h', _, hlow⟩ := (Stage.start hs hok).lowerInScope h ho hl hxs
  exact ⟨c', h', hlow⟩

theorem simple_lowers (hw : p.Within q)
    (hx : Straight π m (Action.simple s).declarations (stmt p s) fun _ => True) :
    Lowers π q m loops (fun _ _ => .act (.simple s)) (.simple s false) (stmt p s) := by
  intro st c st' hs hok ho _ hxs
  obtain ⟨c', h', hpiece, -⟩ :=
    (Stage.start hs hok).piece hx ho hxs (fun code he => ⟨p, hw, .simple he⟩) rfl
  refine ⟨c', hpiece.current ▸ h', fun f H hb o fuel => ?_, fun hc => absurd hpiece.isOpen hc,
    by simpa [Shape.simple] using hpiece.isOpen, hpiece.log, fun f H hb =>
      ⟨hpiece.current, c.index, hpiece.does f H hb⟩⟩
  rw [hpiece.current, hpiece.index]
  exact .act (hpiece.does f H hb)

/-- How a statement returns: its code, and then the return. -/
def Returns (π : Policy) (m : Module) (x : Lower Unit) : Prop :=
  ∀ s f n s', At s m f n → x s = .ok ((), s') → ∃ s₁ f₁ code t, At s₁ m f₁ n ∧
    f.Grows π n code f₁ ∧ KeepsApart [] s.names f s₁.names f₁ ∧
    emit (Build.append t) s₁ = .ok ((), s') ∧ t.op = .ret ∧ π.Ends f₁ t

theorem ret_ends {π : Policy} (h : π.returns (v.map (·.type.kind)))
    (hv : ∀ w, v = some w → π.Fits w) :
    π.Ends f { op := .ret, operands := v.toList, loc } := by
  refine ⟨Policy.bears_of_fits fun w hw => hv w (Option.mem_toList.mp hw), rfl, ?_, ?_⟩
  · cases v <;> simp
  · cases v <;> exact h

theorem ret_returns (h : π.returns (v.map (·.type.kind))) (hv : ∀ w, v = some w → π.Fits w) :
    Returns π m (emit (Build.ret v loc)) :=
  fun s f _ _ hs hx => ⟨s, f, [], _, hs, .refl f, .refl _ f, hx, rfl, ret_ends h hv⟩

theorem Returns.after (hx : Straight π m [] x Q)
    (hy : ∀ a, Q a → Returns π m (y a)) : Returns π m (x >>= y) := by
  intro s f n s' hs h
  obtain ⟨a, t, hxs, hys⟩ := bind_ok.mp h
  obtain ⟨f₁, code, ht, hg, hk, hq⟩ := hx s f n a t hs hxs
  obtain ⟨s₁, f₂, code', i, hs₁, hg', hk', hi⟩ := hy a hq t f₁ n s' ht hys
  exact ⟨s₁, f₂, code ++ code', i, hs₁, hg.trans hg', hk.trans hk', hi⟩

theorem returnDefault_returns (hp : p.Obeys π m) : Returns π m (returnDefault p loc) := by
  have hr := hp.returns
  unfold returnDefault
  split
  · rename_i hvoid
    rw [IL.Ty.returned?, if_pos hvoid] at hr
    exact ret_returns hr nofun
  · rename_i hvoid
    rw [IL.Ty.returned?, if_neg hvoid] at hr
    exact .after ((zero_straight hp).delivers zero_delivers) fun _ hv =>
      ret_returns (by rwa [Option.map_some, hv.2]) (by simpa using hv.1)

theorem returnStmt_returns (hp : p.Obeys π m)
    (h : ∀ e, value = some e →
      p.PermitsAll π e.nodes ∧ (π.returns none → ∀ k, π.returns (some k))) :
    Returns π m (returnStmt p loc value) := by
  cases value with
  | none => exact returnDefault_returns hp
  | some e =>
    obtain ⟨he, hr⟩ := h e rfl
    refine .after (expr_straight hp he) fun v hv => ?_
    have hreturns := hp.returns
    cases hvoid : p.returnType.isVoid with
    | true =>
      rw [IL.Ty.returned?, if_pos hvoid] at hreturns
      exact .after (coerce_straight hp hv) fun _ hv =>
        ret_returns (hr hreturns _) (by simpa using hv)
    | false =>
      rw [IL.Ty.returned?, if_neg (by simp [hvoid])] at hreturns
      exact .after ((coerce_straight hp hv).delivers (coerce_delivers hvoid)) fun _ hv =>
        ret_returns (by rwa [Option.map_some, hv.2]) (by simpa using hv.1)

theorem Returns.lowers (hw : p.Within q) (hx : Returns π m (stmt p s))
    (hnone : (Action.simple s).declarations = []) :
    Lowers π q m loops (fun _ _ => (Reading.act (.simple s)).andThen (.give .stop))
      (.simple s true) (stmt p s) := by
  intro st c st' hs hok ho _ hxs
  obtain ⟨s₁, f₁, code, t, hs₁, hg, hk, ht, hop, hends⟩ :=
    hx st c.function c.current st' hs.toAt hxs
  obtain ⟨c', h', hc', hcur, hlog, hF⟩ := (Stage.start hs hok).leave ho hxs hs₁ hg hk ht hends
    (fun code he => ⟨p, hw, .simple he⟩) hnone
  refine ⟨c', h', fun f H hb o fuel => ?_, fun _ o fuel t he => ?_, by simpa [Shape.simple] using hc',
    hlog, fun f H hb => ⟨hcur, c.index, (hF f H hb).1⟩⟩
  · obtain ⟨hdoes, hend⟩ := hF f H hb
    exact (Follows.act hdoes).andThen (.stop ⟨t, hend, hop⟩)
  · cases he

theorem exitLoop_lowers (hw : p.Within q) (hk : kind.isLoop = true) :
    Lowers π q m p.loops
      (fun _ _ => (Reading.act (.simple (.exit i kind))).andThen (.give (.leave kind)))
      (Stmt.exit i kind).shape (stmt p (.exit i kind)) := by
  intro st c st' hs hok ho hl hxs
  have hexit : stmt p (.exit i kind) = (p.loops.innermost? kind).elim (throw (.outsideLoop kind))
      (jump ·.leave i.loc) := by
    cases kind <;> cases hk
    all_goals
      unfold stmt exitStmt
      dsimp only
      cases p.loops.innermost? _ <;> rfl
  cases hfind : p.loops.innermost? kind with
  | none =>
    rw [hexit, hfind] at hxs
    cases hxs
  | some frame =>
    have hx := hxs
    rw [hexit, hfind] at hx
    obtain ⟨_, t, hlabel, hx⟩ := bind_ok.mp hx
    obtain ⟨rfl, rfl⟩ := labelOf_ok hs.toAt hlabel
    obtain ⟨hpos, hlt⟩ := hl frame (List.mem_of_find?_eq_some hfind)
    have hends : π.Ends c.function
        { op := .br, labels := [c.function.label frame.leave], loc := i.loc } :=
      ⟨Policy.bears_of_fits (by simp), frame.leave, hpos, hlt, rfl⟩
    obtain ⟨c', h', hc', hcur, hlog, hF⟩ := (Stage.start hs hok).leave ho hxs hs.toAt
      (.refl _) (.refl _ _) hx hends (fun code he => ⟨p, hw, .simple he⟩) rfl
    have hjumps (f : Function) (H : SourceMap) (hb : c'.Becomes f H) :
        Jumps f H c.current (c.index + 1) frame.leave :=
      ⟨_, (hF f H hb).2, rfl, (h'.grown.becomes hb).target? hlt rfl⟩
    refine ⟨c', h', fun f H hb o fuel => ?_, fun _ o fuel t he => ?_, ?_, hlog, fun f H hb =>
      ⟨hcur, c.index, (hF f H hb).1, fun _ => ⟨frame, hfind, hjumps f H hb⟩⟩⟩
    · exact (Follows.act (hF f H hb).1).andThen (.leave hfind (hjumps f H hb))
    · cases he
    · simpa [Stmt.shape, Stmt.leaves] using hc'

/-! ### Sequences -/

theorem stmts_closed (hs : At s m f n) (hc : (f.block n).isTerminated = true)
    (h : stmts p ss s = .ok ((), s')) : s' = s := by
  cases ss with
  | nil => exact (pure_ok.mp h).2.symm
  | cons s₀ ss =>
    unfold stmts at h
    obtain ⟨b, t, hb, h⟩ := bind_ok.mp h
    obtain ⟨rfl, rfl⟩ := isTerminated_ok hs hb
    rw [hc] at h
    exact (pure_ok.mp h).2.symm

theorem cons_lowers (h₁ : Lowers π q m loops R s₀.shape (stmt p s₀))
    (h₂ : Lowers π q m loops R' (Stmt.shapeList ss) (stmts p ss)) :
    Lowers π q m loops (fun o fuel => (R o fuel).andThen (R' o fuel)) (Stmt.shapeList (s₀ :: ss))
      (stmts p (s₀ :: ss)) := by
  intro s c s' hs hok ho hl h
  unfold stmts at h
  obtain ⟨b, t, hb, h⟩ := bind_ok.mp h
  obtain ⟨rfl, rfl⟩ := isTerminated_ok hs.toAt hb
  rw [ho] at h
  obtain ⟨_, t, hxs, hys⟩ := bind_ok.mp h
  obtain ⟨c₁, hst₁, hg₁, hlow₁⟩ := (Stage.start hs hok).lower h₁ ho hl hxs
  cases hleaves : s₀.leaves with
  | false =>
    obtain ⟨c₂, hst₂, hg₂, hlow₂⟩ :=
      hst₁.lower h₂ (hlow₁.isOpen.mpr hleaves) (hl.mono hg₁.length_le) hys
    refine ⟨c₂, hst₂, fun f H hb o fuel => ?_, fun hc o fuel => ?_, ?_, ?_, fun f H hb => ?_⟩
    · exact (hlow₁.follows f H (hg₂.becomes hb) o fuel).andThen (hlow₂.follows f H hb o fuel)
    · exact Reading.andThen_ne_normal (hlow₂.normal hc o fuel)
    · simpa [Stmt.shapeList, Stmt.leavesList, hleaves] using hlow₂.isOpen
    · simp [hlow₂.log, hlow₁.log, Stmt.shape, Stmt.shapeList, Stmt.actionsList, hleaves]
    · refine ⟨c₁.current, hlow₁.lies f H (hg₂.becomes hb), ?_⟩
      rw [hleaves]
      exact hlow₂.lies f H hb
  | true =>
    -- The first statement leaves the block, so the others are not lowered, and no run comes to them.
    have ho₁ : ¬c₁.isOpen c₁.current := fun ho => by simpa [Stmt.shape, hleaves] using hlow₁.isOpen.mp ho
    have hclosed : (c₁.function.block c₁.current).isTerminated = true := by
      simpa [Draft.isOpen] using ho₁
    have := stmts_closed hst₁.state.toAt hclosed hys
    subst this
    have heq (o : Oracle) (fuel : Nat) : (R o fuel).andThen (R' o fuel) = R o fuel :=
      Reading.andThen_of_ne_normal (hlow₁.normal ho₁ o fuel)
    refine ⟨c₁, hst₁, fun f H hb o fuel => ?_, fun hc o fuel => ?_, ?_, ?_, fun f H hb => ?_⟩
    · exact (heq o fuel).symm ▸ hlow₁.follows f H hb o fuel
    · exact (heq o fuel).symm ▸ hlow₁.normal ho₁ o fuel
    · simpa [Stmt.shapeList, Stmt.leavesList, hleaves] using ho₁
    · simp [hlow₁.log, Stmt.shape, Stmt.shapeList, Stmt.actionsList, hleaves]
    · refine ⟨c₁.current, hlow₁.lies f H hb, ?_⟩
      rw [hleaves]
      rfl

/-! ### Arms -/

/-- A step that fills a blank block, which goes on at another one. -/
def Fills (π : Policy) (q : Place) (m : Module) (loops : LoopStack) (R : Oracle → Nat → Reading)
    (as : List Action) (L : Function → SourceMap → Prop) (k next : Nat) (x : Lower Unit) : Prop :=
  ∀ s c s', Here m s c → c.Ok π q m.globals → c.Blank k → LoopsIn loops c → c.Has next →
    x s = .ok ((), s') → ∃ c', Stage π q m (c.goto k) [] s' c' ∧
      c.Adds as (fun f H => L f H ∧ ∀ o fuel, Follows f H o loops fuel k 0 (R o fuel) next 0) c'

theorem Stage.startAt (hs : Here m s c) (hok : c.Ok π q m.globals)
    (hk : c.Blank k) (h : continueAt k s = .ok ((), s')) :
    Stage π q m (c.goto k) [(c.goto k).current] s' (c.goto k) :=
  .start (hs.keep (continueAt_ok hs.toAt h hk.inside) (keeps_of_emit h) rfl rfl)
    (hok.goto hk.inside)

theorem Rest.fill (h : Rest π q m c₀ (l ++ k :: r) s c)
    (hx : Fills π q m loops R as L k next x) (hl : LoopsIn loops c) (hnext : c.Has next)
    (hxs : x s = .ok ((), s')) :
    ∃ c', Rest π q m c₀ (l ++ r) s' c' ∧
      c.Adds as (fun f H => L f H ∧ ∀ o fuel, Follows f H o loops fuel k 0 (R o fuel) next 0) c' := by
  obtain ⟨c', h', ha⟩ := hx s c s' h.state h.ok (h.blank k (by simp)).1 hl hnext hxs
  exact ⟨c', h.within h', ha⟩

theorem arm_fills (hx : Lowers π q m loops R Λ x) : Fills π q m loops R Λ.actions
    (fun f H => Λ.Arm f H loops k next) k next (arm k next loc x) := by
  intro s c s' hs hok hk hl hnext hxs
  obtain ⟨_, t₁, hgoto, hxs⟩ := bind_ok.mp hxs
  obtain ⟨_, t₂, hin, hjump⟩ := bind_ok.mp hxs
  have h₁ := Stage.startAt hs hok hk hgoto
  obtain ⟨c₂, h₂, hg₂, hlow⟩ := h₁.lowerInScope hx hk.isOpen hl hin
  obtain ⟨c₃, h₃, hf, hF⟩ :=
    h₂.jumpIfOpen hjump ⟨hnext.1, Nat.lt_of_lt_of_le hnext.2 hg₂.length_le⟩
  refine ⟨c₃, h₃, Nat.le_trans hg₂.length_le hf.grown.length_le, hf.log.trans hlow.log, fun f H hb =>
    ⟨(hg₂.becomes (hf.grown.becomes hb)).goto, ⟨_, hlow.lies f H (hf.grown.becomes hb),
      fun he => ⟨_, hF f H hb (hlow.isOpen.mpr he)⟩⟩, fun o fuel => ?_⟩⟩
  have hfollow := hlow.follows f H (hf.grown.becomes hb) o fuel
  rw [hk.index] at hfollow
  by_cases ho : c₂.isOpen c₂.current
  · exact hfollow.thenJump (hF f H hb ho)
  · exact hfollow.elsewhere fun t => hlow.normal ho o fuel t

/-- What follows an arm of an `If`: nothing, or a step that fills a block. -/
def FillsElse (π : Policy) (q : Place) (m : Module) (p : Place) (R : Oracle → Nat → Reading)
    (e : Else Note) : Prop :=
  if e.isNothing then R = fun _ _ => .skip
  else ∀ loc leave k, Fills π q m p.loops R (Stmt.actionsElse e)
    (fun f H => Stmt.LiesElse f H e p.loops leave) k leave (elseArms p loc leave k e)

/-- What follows an arm goes into its block. Without a block there is nothing to do. -/
theorem Rest.otherwise {no : Option Nat}
    (h : Rest π q m c₀ (l ++ (no.toList ++ r)) s c) (hl : LoopsIn p.loops c)
    (hleave : c.Has leave) (hnothing : no.isNone = e.isNothing) (helse : FillsElse π q m p R e)
    (hx : elseArms p loc leave (no.getD leave) e s = .ok ((), s')) :
    ∃ c', Rest π q m c₀ (l ++ r) s' c' ∧ c.Adds (Stmt.actionsElse e)
      (fun f H => Stmt.LiesElse f H e p.loops leave ∧
        ∀ o fuel, Follows f H o p.loops fuel (no.getD leave) 0 (R o fuel) leave 0) c' := by
  cases no with
  | none =>
    have he : e.isNothing = true := hnothing.symm
    rw [FillsElse, if_pos he] at helse
    obtain rfl : e = .nothing := by
      cases e with
      | nothing => rfl
      | block | elseIf => cases he
    unfold elseArms at hx
    obtain ⟨-, rfl⟩ := pure_ok.mp hx
    exact ⟨c, h, Nat.le_refl _, by rw [Stmt.actionsElse, List.append_nil], fun f H hb =>
      ⟨hb, trivial, fun o fuel => helse ▸ .skip⟩⟩
  | some k =>
    rw [FillsElse, if_neg (by simp [← hnothing])] at helse
    exact h.fill (helse loc leave k) hl hleave hx

/-- A branch with its two arms. Without a second one it goes on at their end. -/
theorem Opened.arms {no : Option Nat}
    (h : Opened π q m c₀ (l ++ (no.toList ++ [yes])) s c)
    (hv : (c₀.pieces c₀.current).getLast?.bind (·.value) = some v) (hfits : π.Fits v)
    (hl : LoopsIn p.loops c₀) (hleave : c₀.Has leave ∨ leave ∈ l) (hnothing : no.isNone = e.isNothing)
    (hbody : Lowers π q m p.loops R Λ body) (helse : FillsElse π q m p R' e)
    (hbranch : Lower.branch v yes (no.getD leave) loc s = .ok ((), s₁))
    (harm : Lower.arm yes leave loc body s₁ = .ok ((), s₂))
    (hrest : elseArms p loc' leave (no.getD leave) e s₂ = .ok ((), s')) :
    ∃ c', Rest π q m c₀ l s' c' ∧ c₀.Adds (Λ.actions ++ Stmt.actionsElse e)
      (fun f H => Λ.Arm f H p.loops yes leave ∧ Stmt.LiesElse f H e p.loops leave ∧
        ∃ k, Branches f H c₀.current c₀.index yes k ∧ ∀ o fuel,
          Follows f H o p.loops fuel yes 0 (R o fuel) leave 0 ∧
          Follows f H o p.loops fuel k 0 (R' o fuel) leave 0) c' := by
  have hno : c.Has (no.getD leave) := by
    cases no with
    | none => exact hleave.elim h.had fun hmem => h.has (by simp [hmem])
    | some k => exact h.has (by simp)
  obtain ⟨c₁, h₁, ha₁⟩ := h.branch hbranch hv hfits (h.has (by simp)) hno
  have hleave₁ : c₁.Has leave := hleave.elim (·.later ha₁) fun hmem => h₁.has (by simp [hmem])
  obtain ⟨c₂, h₂, ha₂⟩ := Rest.fill (l := l ++ no.toList) (r := [])
    (by rw [List.append_assoc]; exact h₁) (arm_fills hbody) (hl.later ha₁) hleave₁ harm
  have ha := ha₁.trans ha₂
  obtain ⟨c₃, h₃, ha₃⟩ := Rest.otherwise (l := l) (r := []) (by simpa using h₂) (hl.later ha)
    (hleave₁.later ha₂) hnothing helse hrest
  rw [List.append_nil] at h₃
  refine ⟨c₃, h₃, (ha.trans ha₃).imp fun f H ⟨⟨hbr, harm, hyes⟩, hlies, hno⟩ => ?_⟩
  exact ⟨harm, hlies, _, hbr, fun o fuel => ⟨hyes o fuel, hno o fuel⟩⟩

theorem elseBlock_fills (hbody : Lowers π q m p.loops R (Stmt.shapeList b) (stmts p b)) :
    FillsElse π q m p R (.block b) := by
  rw [FillsElse, if_neg (by simp [Else.isNothing])]
  intro loc leave k s c s' hs hok hk hl hleave hx
  unfold elseArms at hx
  obtain ⟨c', h', ha⟩ := arm_fills hbody s c s' hs hok hk hl hleave hx
  exact ⟨c', h', ha.imp fun f H h => ⟨⟨k, h.1⟩, h.2⟩⟩

section

variable (hw : p.Within q) (hp : p.Obeys π m)
include hw hp

theorem condition_piece (h : Stage π q m c₀ ks s c) (ho : c.isOpen c.current)
    (he : p.PermitsAll π e.nodes) (hx : condition p e loc s = .ok (v, s')) :
    ∃ c', Stage π q m c₀ ks s' c' ∧ Stage.Piece c (.test e) (some v) c' ∧ π.Fits v :=
  h.piece (condition_straight hp he) ho hx (fun _ he => ⟨p, hw, .test he⟩) rfl

theorem ifThen_lowers (he : p.PermitsAll π e.nodes)
    (hbody : Lowers π q m p.loops R (Stmt.shapeList b) (stmts p b))
    (helse : FillsElse π q m p R' es) :
    Lowers π q m p.loops (fun o fuel => .ask o (.test e) (R o fuel) (R' o fuel))
      (Stmt.ifThen i e b es).shape (stmt p (.ifThen i e b es)) := by
  intro s c s' hs hok ho hl h
  unfold stmt at h
  obtain ⟨v, t₁, hv, h⟩ := bind_ok.mp h
  obtain ⟨yes, t₂, hyes, h⟩ := bind_ok.mp h
  obtain ⟨no, t₃, hno, h⟩ := bind_ok.mp h
  obtain ⟨leave, t₄, hleave, h⟩ := bind_ok.mp h
  obtain ⟨_, t₅, hbranch, h⟩ := bind_ok.mp h
  obtain ⟨_, t₆, harm, h⟩ := bind_ok.mp h
  obtain ⟨_, t₇, hrest, hgoto⟩ := bind_ok.mp h
  obtain ⟨c₁, h₁, hpiece, hfits⟩ := condition_piece hw hp (.start hs hok) ho he hv
  rw [← hpiece.current] at h₁
  obtain ⟨c₂, h₂⟩ := (Opened.start h₁.state h₁.ok hpiece.isOpen).newBlock hyes
  obtain ⟨c₃, h₃, hnone⟩ := h₂.elseBlock hno
  obtain ⟨c₄, h₄⟩ := h₃.newBlock hleave
  obtain ⟨c₅, h₅, ha⟩ := h₄.arms (l := [leave]) hpiece.last hfits (hl.later hpiece.adds)
    (.inr (by simp)) hnone hbody helse hbranch harm hrest
  rw [hpiece.current, hpiece.index] at ha
  refine h₅.ends h₁ (hpiece.adds.trans ha) rfl rfl (fun f H ⟨hdoes, harm, helse, k, hbr, hF⟩ =>
    ⟨fun o fuel => ?_, ⟨_, hdoes⟩, ⟨yes, harm⟩, helse⟩) hgoto
  exact (Follows.ask hdoes hbr (hF o fuel).1 (hF o fuel).2).mono (Nat.le_succ _)

theorem elseIf_fills (he : p.PermitsAll π e.nodes)
    (hbody : Lowers π q m p.loops R (Stmt.shapeList b) (stmts p b))
    (helse : FillsElse π q m p R' es) :
    FillsElse π q m p (fun o fuel => .ask o (.test e) (R o fuel) (R' o fuel))
      (.elseIf i e b es) := by
  rw [FillsElse, if_neg (by simp [Else.isNothing])]
  intro loc leave k s c s' hs hok hk hl hleave h
  unfold elseArms at h
  obtain ⟨_, t₀, hgoto, h⟩ := bind_ok.mp h
  obtain ⟨v, t₁, hv, h⟩ := bind_ok.mp h
  obtain ⟨yes, t₂, hyes, h⟩ := bind_ok.mp h
  obtain ⟨no, t₃, hno, h⟩ := bind_ok.mp h
  obtain ⟨_, t₄, hbranch, h⟩ := bind_ok.mp h
  obtain ⟨_, t₅, harm, hrest⟩ := bind_ok.mp h
  obtain ⟨c₁, h₁, hpiece, hfits⟩ := condition_piece hw hp (.startAt hs hok hk hgoto) hk.isOpen he hv
  rw [← hpiece.current] at h₁
  obtain ⟨c₂, h₂⟩ := (Opened.start h₁.state h₁.ok hpiece.isOpen).newBlock hyes
  obtain ⟨c₃, h₃, hnone⟩ := h₂.elseBlock hno
  obtain ⟨c₄, h₄, ha⟩ := h₃.arms (l := []) hpiece.last hfits (hl.later hpiece.adds.ofGoto)
    (.inl (hleave.later hpiece.adds.ofGoto)) hnone hbody helse hbranch harm hrest
  have ha := (hpiece.adds.trans ha).ofGoto
  rw [hpiece.current, hpiece.index, hk.index] at ha
  refine ⟨c₄, h₁.trans h₄.toStage, ha.imp fun f H ⟨hdoes, harm, helse, j, hbr, hF⟩ =>
    ⟨⟨⟨_, _, hdoes⟩, ⟨yes, harm⟩, helse⟩, fun o fuel => ?_⟩⟩
  exact (Follows.ask hdoes hbr (hF o fuel).1 (hF o fuel).2).mono (Nat.le_succ _)

end

end Lower

end BasicSSA
