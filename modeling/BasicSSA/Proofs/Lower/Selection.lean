import BasicSSA.Proofs.Lower.Loops

/-!
# The code of `Select` and `Try`
-/

namespace BasicSSA

open IL (Value Function Module Build)

def Case.body : Case Note → List (Stmt Note)
  | .values _ _ b | .otherwise _ b => b

def Case.loc : Case Note → Loc
  | .values i .. | .otherwise i _ => i.loc

def Catch.body : Catch Note → List (Stmt Note)
  | .mk _ _ _ b => b

def Catch.info : Catch Note → Note
  | .mk i .. => i

namespace Lower

variable {p : Place}

/-! ### Arms in a row -/

theorem Rest.fillAll {xs : List ι} {x : ι → Lower Unit}
    {R : ι → Oracle → Nat → Reading} {L : ι → Function → SourceMap → Prop}
    (hx : ∀ a ∈ xs, Fills π q m loops (R a) (as a) (L a) (block a) next (x a))
    (h : Rest π q m c₀ (l ++ (xs.map block ++ r)) s c) (hl : LoopsIn loops c) (hnext : c.Has next)
    (hxs : xs.forM x s = .ok ((), s')) :
    ∃ c', Rest π q m c₀ (l ++ r) s' c' ∧ c.Adds (xs.flatMap as)
      (fun f H => ∀ a ∈ xs, L a f H ∧
        ∀ o fuel, Follows f H o loops fuel (block a) 0 (R a o fuel) next 0) c' := by
  induction xs generalizing s c with
  | nil =>
    obtain ⟨-, rfl⟩ := pure_ok.mp hxs
    exact ⟨c, h, Nat.le_refl _, by simp, fun f H hb => ⟨hb, by simp⟩⟩
  | cons a xs ih =>
    obtain ⟨_, t, ha, hxs⟩ := bind_ok.mp hxs
    obtain ⟨c₁, h₁, ha₁⟩ := h.fill (hx a List.mem_cons_self) hl hnext ha
    obtain ⟨c', h', ha'⟩ := ih (fun b hb => hx b (List.mem_cons_of_mem _ hb)) h₁ (hl.later ha₁)
      (hnext.later ha₁) hxs
    exact ⟨c', h', (ha₁.trans ha').imp fun f H hall => List.forall_mem_cons.mpr hall⟩

/-- An arm of a `Select` or a `Try` together with the block its body goes to. -/
abbrev Arms (α : Type) := List (α × Nat)

theorem exists_arms {blocks : List Nat} (h : blocks.length = cs.length) :
    ∃ arms : Arms α, cs = arms.map (·.1) ∧ blocks = arms.map (·.2) :=
  ⟨cs.zip blocks, (List.map_fst_zip (by omega)).symm, (List.map_snd_zip (by omega)).symm⟩

theorem caseBodies_eq (arms : Arms (Case Note)) :
    caseBodies p leave (arms.map (·.2)) (arms.map (·.1)) =
      arms.forM fun a => arm a.2 leave a.1.loc (stmts p a.1.body) := by
  induction arms with
  | nil => unfold caseBodies; rfl
  | cons a arms ih =>
    obtain ⟨a, k⟩ := a
    cases a <;> simp only [List.map_cons, caseBodies, List.tail_cons, ih] <;> rfl

theorem catchBodies_eq (arms : Arms (Catch Note)) :
    catchBodies p leave (arms.map (·.2)) (arms.map (·.1)) =
      arms.forM fun a => arm a.2 leave a.1.info.loc (do
        catchVar p a.1.info
        stmts p a.1.body) := by
  induction arms with
  | nil => unfold catchBodies; rfl
  | cons a arms ih =>
    obtain ⟨⟨⟩, k⟩ := a
    simp only [List.map_cons, catchBodies, List.tail_cons, ih]
    rfl

theorem actionsCases_eq (arms : Arms (Case Note)) :
    Stmt.actionsCases (arms.map (·.1)) =
      arms.flatMap fun a => Stmt.actionsList a.1.body := by
  induction arms with
  | nil => rfl
  | cons a arms ih =>
    obtain ⟨a, k⟩ := a
    cases a <;> rw [List.map_cons, Stmt.actionsCases, ih] <;> rfl

theorem liesCases_of_arms {arms : Arms (Case Note)}
    (harms : ∀ a ∈ arms, (Stmt.shapeList a.1.body).Arm f H ls a.2 e) :
    Stmt.LiesCases f H (arms.map (·.1)) ls e := by
  induction arms with
  | nil => trivial
  | cons a arms ih =>
    obtain ⟨ha, hcs⟩ := List.forall_mem_cons.mp harms
    obtain ⟨a, k⟩ := a
    cases a <;> exact ⟨⟨k, ha⟩, ih hcs⟩

theorem actionsCatches_eq (arms : Arms (Catch Note)) :
    Stmt.actionsCatches (arms.map (·.1)) = arms.flatMap fun a =>
      .caught a.1.info :: Stmt.actionsList a.1.body := by
  induction arms with
  | nil => rfl
  | cons a arms ih =>
    obtain ⟨⟨⟩, k⟩ := a
    rw [List.map_cons, Stmt.actionsCatches, ih]
    rfl

theorem liesCatches_of_arms {arms : Arms (Catch Note)}
    (harms : ∀ a ∈ arms, ((Stmt.shapeList a.1.body).after (.caught a.1.info)).Arm f H ls a.2 e) :
    Stmt.LiesCatches f H (arms.map (·.1)) ls e := by
  induction arms with
  | nil => trivial
  | cons a arms ih =>
    obtain ⟨ha, hcs⟩ := List.forall_mem_cons.mp harms
    obtain ⟨⟨⟩, k⟩ := a
    exact ⟨⟨k, ha⟩, ih hcs⟩

/-! ### Tests of a `Select` -/

/-- From the spot `(k, i)` the tests lead to the block of the first value that is hit, or to the
block `miss`. -/
inductive Dispatches (f : Function) (H : SourceMap) (subject : Expr Note) (miss : Nat) :
    Nat → Nat → List (Expr Note × Nat) → Prop where
  | missed : Dispatches f H subject miss miss 0 []
  | jump : Jumps f H k i miss → Dispatches f H subject miss k i []
  | test : H.Does k i (.caseTest subject e) → Branches f H k (i + 1) block next →
    Dispatches f H subject miss next 0 rest → Dispatches f H subject miss k i ((e, block) :: rest)

namespace Dispatches

theorem askAny (h : Dispatches f H subject miss k i (vs.map (·, block) ++ rest))
    (hhit : Follows f H o loops fuel block 0 hit j 0)
    (hrest : ∀ k i, Dispatches f H subject miss k i rest → Follows f H o loops fuel k i y j 0) :
    Follows f H o loops fuel k i (.askAny o subject hit y vs) j 0 := by
  induction vs generalizing k i with
  | nil => exact hrest k i h
  | cons e vs ih =>
    cases h with
    | test ht hb h => exact (Follows.ask ht hb hhit (ih h)).mono (Nat.le_succ _)

theorem cases {arms : Arms (Case Note)}
    (h : Dispatches f H subject miss k i (caseTests (arms.map (·.1)) (arms.map (·.2))))
    (hF : ∀ a ∈ arms, Follows f H o loops fuel a.2 0 (Stmt.readingList o fuel a.1.body) j 0)
    (hmiss : Follows f H o loops fuel miss 0 y j 0) :
    Follows f H o loops fuel k i (Stmt.readingCases o fuel subject y (arms.map (·.1))) j 0 := by
  induction arms generalizing k i with
  | nil =>
    unfold Stmt.readingCases
    cases h with
    | missed => exact hmiss
    | jump hj => exact (hmiss.jump hj).mono (Nat.le_succ _)
  | cons a arms ih =>
    obtain ⟨a, b⟩ := a
    obtain ⟨ha, harms⟩ := List.forall_mem_cons.mp hF
    unfold Stmt.readingCases
    cases a with
    | values _ vs body => exact h.askAny ha fun k i h => ih h harms
    | otherwise => exact ih h harms

end Dispatches

/-- The block of the last `Case Else` does what it says; without one it is up to the block `k`. -/
theorem follows_default {arms : Arms (Case Note)} (h : Follows f H o loops fuel k 0 y j 0)
    (hF : ∀ a ∈ arms, Follows f H o loops fuel a.2 0 (Stmt.readingList o fuel a.1.body) j 0) :
    Follows f H o loops fuel ((defaultBlock? (arms.map (·.1)) (arms.map (·.2))).getD k) 0
      ((Stmt.readingDefault o fuel (arms.map (·.1))).getD y) j 0 := by
  induction arms generalizing k y with
  | nil => unfold Stmt.readingDefault; exact h
  | cons a arms ih =>
    obtain ⟨a, b⟩ := a
    obtain ⟨ha, harms⟩ := List.forall_mem_cons.mp hF
    unfold Stmt.readingDefault
    cases a with
    | values => exact ih h harms
    | otherwise => simpa [defaultBlock?, Case.body] using ih ha harms

theorem defaultBlock?_mem (h : defaultBlock? cs blocks = some k) :
    k ∈ blocks := by
  induction cs generalizing blocks with
  | nil => cases blocks <;> cases h
  | cons a cs ih =>
    cases blocks with
    | nil => cases a <;> cases h
    | cons b blocks =>
      cases a with
      | values => exact List.mem_cons_of_mem _ (ih h)
      | otherwise =>
        cases hd : defaultBlock? cs blocks with
        | none =>
          simp only [defaultBlock?, hd] at h
          cases h
          exact List.mem_cons_self
        | some k' =>
          simp only [defaultBlock?, hd] at h
          cases h
          exact List.mem_cons_of_mem _ (ih hd)

theorem map_caseTests (arms : Arms (Case Note)) :
    (caseTests (arms.map (·.1)) (arms.map (·.2))).map (·.1) =
      (arms.map (·.1)).flatMap Case.tests := by
  induction arms with
  | nil => rfl
  | cons a arms ih =>
    obtain ⟨a, k⟩ := a
    cases a <;> simp [caseTests, Case.tests, ih, Function.comp_def]

theorem mem_caseTests (h : (e, k) ∈ caseTests cs blocks) :
    k ∈ blocks ∧ ∀ n ∈ e.nodes, n ∈ Stmt.nodesCases cs := by
  induction cs generalizing blocks with
  | nil => cases blocks <;> cases h
  | cons a cs ih =>
    cases blocks with
    | nil => cases a <;> cases h
    | cons b blocks =>
      unfold Stmt.nodesCases
      cases a with
      | otherwise =>
        obtain ⟨hk, hn⟩ := ih h
        exact ⟨List.mem_cons_of_mem _ hk, fun n hn' => List.mem_append_right _ (hn n hn')⟩
      | values _ vs =>
        rcases List.mem_append.mp h with h | h
        · obtain ⟨e', he, h⟩ := List.mem_map.mp h
          cases h
          refine ⟨List.mem_cons_self, fun n hn => ?_⟩
          simp only [List.mem_append]
          exact .inl (.inl (Expr.mem_nodesList.mpr ⟨e, he, hn⟩))
        · obtain ⟨hk, hn⟩ := ih h
          exact ⟨List.mem_cons_of_mem _ hk, fun n hn' => List.mem_append_right _ (hn n hn')⟩

section

variable (hw : p.Within q) (hp : p.Obeys π m)
include hw hp

theorem Stage.dispatch (hsubject : Emits m.globals (expr p subject) v code) (hv : π.Fits v)
    (hne : tests ≠ []) (h : Stage π q m c₀ (c.current :: ks) s c) (ho : c.isOpen c.current)
    (htests : ∀ a ∈ tests, c.Has a.2 ∧ p.PermitsAll π a.1.nodes) (hmiss : c.Has miss)
    (hx : selectTests p v miss tests s = .ok ((), s')) :
    ∃ c', Stage π q m c₀ ks s' c' ∧ c.Grown c' ∧ c.Adds (tests.map (.caseTest subject ·.1))
      (fun f H => Dispatches f H subject miss c.current c.index tests) c' := by
  induction tests generalizing s c with
  | nil => exact absurd rfl hne
  | cons a rest ih =>
    obtain ⟨e, block⟩ := a
    obtain ⟨hblock, he⟩ := htests _ List.mem_cons_self
    obtain ⟨hit, t₁, hhit, hx⟩ := bind_ok.mp hx
    obtain ⟨c₁, h₁, hpiece, hfits⟩ := h.piece (caseTest_straight hp hv he) ho hhit
      (fun code he => ⟨p, hw, .caseTest hsubject he⟩) rfl
    rw [← hpiece.current] at h₁
    cases rest with
    | nil =>
      obtain ⟨_, t₂, hbranch, hx⟩ := bind_ok.mp hx
      obtain ⟨-, rfl⟩ := pure_ok.mp hx
      obtain ⟨c₂, h₂, hf, hF⟩ := h₁.branch hbranch (hblock.later hpiece.adds)
        (hmiss.later hpiece.adds) hpiece.last hfits
      rw [hpiece.current, hpiece.index] at hF
      exact ⟨c₂, h₂, hpiece.grown.trans hf.grown, (hpiece.adds.trans (hf.adds hF)).imp
        fun f H ⟨hdoes, hbr⟩ => .test hdoes hbr .missed⟩
    | cons b rest =>
      obtain ⟨next, t₂, hnext, hx⟩ := bind_ok.mp hx
      obtain ⟨_, t₃, hbranch, hx⟩ := bind_ok.mp hx
      obtain ⟨_, t₄, hgoto, hx⟩ := bind_ok.mp hx
      obtain ⟨c₂, h₂⟩ := (Opened.start h₁.state h₁.ok hpiece.isOpen).newBlock hnext
      obtain ⟨c₃, h₃, ha₃⟩ := h₂.branch hbranch hpiece.last hfits (h₂.had (hblock.later hpiece.adds))
        (h₂.has (by simp))
      rw [hpiece.current, hpiece.index] at ha₃
      have ha := hpiece.adds.trans ha₃
      obtain ⟨hblank, hfresh⟩ := h₃.blank next (by simp)
      have h₄ := h₃.toStage.goto hgoto hblank.inside hfresh
      obtain ⟨c₅, h₅, hg₅, ha₅⟩ := ih (c := c₃.goto next) (by simp) (h₁.trans h₄) hblank.isOpen
        (fun a hmem => (htests a (List.mem_cons_of_mem _ hmem)).imp_left (Draft.Has.later · ha :))
        (hmiss.later ha :) hx
      rw [hblank.index] at ha₅
      exact ⟨c₅, h₅, (hpiece.grown.trans h₄.grown).trans hg₅, (ha.trans ha₅.ofGoto).imp
        fun f H ⟨⟨hdoes, hbr⟩, hrest⟩ => .test hdoes hbr hrest⟩

/-- The tests of a `Select`, and what is lowered after them. Without tests it goes to the block
`miss` at once. -/
theorem Opened.dispatch (hsubject : Emits m.globals (expr p subject) v code)
    (hv : π.Fits v) (h : Opened π q m c₀ ks s c)
    (htests : ∀ a ∈ tests, a.2 ∈ ks ∧ p.PermitsAll π a.1.nodes) (hmiss : miss ∈ ks)
    (hx : (do
      if tests.isEmpty then Lower.jump miss loc
      selectTests p v miss tests
      y) s = .ok ((), s')) :
    ∃ t c', Rest π q m c₀ ks t c' ∧ y t = .ok ((), s') ∧
      c₀.Adds (tests.map (.caseTest subject ·.1))
        (fun f H => Dispatches f H subject miss c₀.current c₀.index tests) c' := by
  cases tests with
  | nil =>
    obtain ⟨_, t₁, hjump, hx⟩ := bind_ok.mp hx
    obtain ⟨_, t₂, hnone, hx⟩ := bind_ok.mp hx
    obtain ⟨-, rfl⟩ := pure_ok.mp hnone
    obtain ⟨c', h', ha⟩ := h.jump hjump hmiss
    exact ⟨t₁, c', h', hx, ha.imp fun f H => .jump⟩
  | cons a rest =>
    obtain ⟨_, t, htest, hx⟩ := bind_ok.mp hx
    obtain ⟨c', h', hg, ha⟩ := Stage.dispatch hw hp hsubject hv (by simp) (h.current ▸ h.toStage)
      h.isOpen (fun a ha => (htests a ha).imp_left h.has) (h.has hmiss) htest
    rw [h.current, h.index] at ha
    obtain ⟨hrest, ha⟩ := h.close h' hg ha
    exact ⟨t, c', hrest, hx, ha⟩

theorem select_lowers (he : p.PermitsAll π e.nodes)
    (hvalues : p.PermitsAll π (Stmt.nodesCases cs))
    (hbodies : ∀ a ∈ cs, Lowers π q m p.loops (fun o fuel => Stmt.readingList o fuel a.body)
      (Stmt.shapeList a.body) (stmts p a.body)) :
    Lowers π q m p.loops
      (fun o fuel => (Reading.act (.subject e)).andThen
        (Stmt.readingCases o fuel e ((Stmt.readingDefault o fuel cs).getD .skip) cs))
      (Stmt.select i e cs).shape (stmt p (.select i e cs)) := by
  unfold stmt
  let Λ : Shape := ⟨false, (cs.flatMap Case.tests).map (.caseTest e) ++ Stmt.actionsCases cs,
    fun f H ls _ k => Stmt.LiesCases f H cs ls k⟩
  show Lowers π q m p.loops _ (Λ.after (.subject e)) _
  refine .after_piece (expr_straight hp he) (fun v code h => ⟨p, hw, .subject h⟩)
    fun v code hsubject hv => ?_
  intro s c s' hs hok ho hl h
  obtain ⟨blocks, t₁, hblocks, h⟩ := bind_ok.mp h
  obtain ⟨leave, t₂, hleave, h⟩ := bind_ok.mp h
  obtain ⟨c₁, h₁, hlen⟩ := (Opened.start hs hok ho).newBlocks hblocks
  obtain ⟨c₂, h₂⟩ := h₁.newBlock hleave
  obtain ⟨arms, rfl, rfl⟩ := exists_arms (hlen.trans (List.length_map _))
  have hmiss : (defaultBlock? (arms.map (·.1)) (arms.map (·.2))).getD leave ∈
      leave :: (arms.map (·.2) ++ []) := by
    cases hd : defaultBlock? _ _ with
    | none => simp
    | some k => simp [defaultBlock?_mem hd]
  have htests (a : Expr Note × Nat) (ha : a ∈ caseTests (arms.map (·.1)) (arms.map (·.2))) :
      a.2 ∈ leave :: (arms.map (·.2) ++ []) ∧ p.PermitsAll π a.1.nodes := by
    obtain ⟨hk, hn⟩ := mem_caseTests ha
    exact ⟨by simp [hk], fun n hmem => hvalues n (hn n hmem)⟩
  obtain ⟨t₃, c₃, h₃, h, ha₃⟩ := h₂.dispatch hw hp hsubject hv htests hmiss h
  obtain ⟨_, t₄, hcases, hend⟩ := bind_ok.mp h
  rw [caseBodies_eq] at hcases
  obtain ⟨c₄, h₄, ha₄⟩ := Rest.fillAll (l := [leave]) (r := [])
    (R := fun a o fuel => Stmt.readingList o fuel a.1.body)
    (L := fun a f H => (Stmt.shapeList a.1.body).Arm f H p.loops a.2 leave)
    (fun a ha => arm_fills (hbodies a.1 (List.mem_map_of_mem ha))) h₃ (hl.later ha₃)
    (h₃.has (by simp)) hcases
  have hactions : (caseTests (arms.map (·.1)) (arms.map (·.2))).map (.caseTest e ·.1) ++
      arms.flatMap (fun a => (Stmt.shapeList a.1.body).actions) = Λ.actions := by
    rw [show Λ.actions = _ ++ _ from rfl, ← map_caseTests, actionsCases_eq, List.map_map]
    rfl
  refine h₄.ends (.start hs hok) (ha₃.trans ha₄) hactions rfl (fun f H h =>
    ⟨fun o fuel => ?_, liesCases_of_arms fun a ha => (h.2 a ha).1⟩) hend
  exact h.1.cases (fun a ha => (h.2 a ha).2 o fuel)
    (follows_default .skip fun a ha => (h.2 a ha).2 o fuel)

/-! ### `Try` -/

theorem catch_fills (hbody : Lowers π q m p.loops R Λ (stmts p b)) :
    Fills π q m p.loops (fun o fuel => (Reading.act (.caught i)).andThen (R o fuel))
      (.caught i :: Λ.actions) (fun f H => (Λ.after (.caught i)).Arm f H p.loops k next) k next
      (arm k next loc (do
        catchVar p i
        stmts p b)) :=
  arm_fills (.after_piece (catchVar_straight hp) (fun _ _ h => ⟨p, hw, .caught h⟩)
    fun _ _ _ _ => hbody)

theorem tryCatch_lowers (hbody : Lowers π q m p.loops (fun o fuel => Stmt.readingList o fuel b)
      (Stmt.shapeList b) (stmts p b))
    (hcatches : ∀ a ∈ cs, Lowers π q m p.loops (fun o fuel => Stmt.readingList o fuel a.body)
      (Stmt.shapeList a.body) (stmts p a.body))
    (hlast : ∀ l, last = some l → Lowers π q m p.loops (fun o fuel => Stmt.readingList o fuel l)
      (Stmt.shapeList l) (stmts p l)) :
    Lowers π q m p.loops (fun o fuel => (Stmt.tryCatch i b cs last).reading o fuel)
      (Stmt.tryCatch i b cs last).shape (stmt p (.tryCatch i b cs last)) := by
  intro s c s' hs hok ho hl h
  unfold stmt at h
  obtain ⟨body, t₁, hinside, h⟩ := bind_ok.mp h
  obtain ⟨blocks, t₂, hblocks, h⟩ := bind_ok.mp h
  obtain ⟨finals, t₃, hfinals, h⟩ := bind_ok.mp h
  obtain ⟨leave, t₄, hleave, h⟩ := bind_ok.mp h
  obtain ⟨_, t₅, hjump, h⟩ := bind_ok.mp h
  obtain ⟨_, t₆, harm, h⟩ := bind_ok.mp h
  obtain ⟨_, t₇, hrest, h⟩ := bind_ok.mp h
  obtain ⟨_, t₈, hfinally, hend⟩ := bind_ok.mp h
  obtain ⟨c₁, h₁⟩ := (Opened.start hs hok ho).newBlock hinside
  obtain ⟨c₂, h₂, hlen⟩ := h₁.newBlocks hblocks
  obtain ⟨c₃, h₃, hlen'⟩ := h₂.newBlocks hfinals
  obtain ⟨c₄, h₄⟩ := h₃.newBlock hleave
  rw [List.length_map] at hlen'
  obtain ⟨arms, rfl, rfl⟩ := exists_arms (hlen.trans (List.length_map _))
  obtain ⟨c₅, h₅, ha₅⟩ := h₄.jump hjump (by simp)
  have hnext : finals.headD leave ∈ leave :: finals := by cases finals <;> simp
  have h₅ : Rest π q m c (leave :: finals ++ arms.map (·.2) ++ [body]) t₅ c₅ := by
    simpa only [List.cons_append, List.append_assoc] using h₅
  obtain ⟨c₆, h₆, ha₆⟩ := h₅.fill (arm_fills hbody) (hl.later ha₅)
    (h₅.has (List.mem_append_left _ (List.mem_append_left _ hnext))) harm
  rw [catchBodies_eq] at hrest
  rw [List.append_assoc] at h₆
  have ha := ha₅.trans ha₆
  obtain ⟨c₇, h₇, ha₇⟩ := Rest.fillAll
    (fun a ha => catch_fills hw hp (hcatches a.1 (List.mem_map_of_mem ha))) h₆ (hl.later ha)
    (h₆.has (List.mem_append_left _ hnext)) hrest
  have ha₇ : c₆.Adds (Stmt.actionsCatches (arms.map (·.1)))
      (fun f H => Stmt.LiesCatches f H (arms.map (·.1)) p.loops (finals.headD leave)) c₇ := by
    rw [actionsCatches_eq]
    exact ha₇.imp fun f H hall => liesCatches_of_arms fun a ha => (hall a ha).1
  cases last with
  | none =>
    obtain rfl := List.eq_nil_of_length_eq_zero hlen'
    unfold finallyBody at hfinally
    obtain ⟨-, rfl⟩ := pure_ok.mp hfinally
    refine h₇.ends (.start hs hok) (ha.trans ha₇) rfl rfl ?_ hend
    rintro f H ⟨⟨hstart, harm, hin⟩, hlies⟩
    refine ⟨fun o fuel => ?_, ⟨body, harm⟩, hlies⟩
    unfold Stmt.reading
    exact ((hin o fuel).jump hstart).mono (Nat.le_succ _)
  | some l =>
    obtain ⟨final, rfl⟩ := List.length_eq_one_iff.mp hlen'
    unfold finallyBody at hfinally
    obtain ⟨c₈, h₈, ha₈⟩ := h₇.fill (l := [leave]) (arm_fills (hlast l rfl))
      (hl.later (ha.trans ha₇)) (h₇.has (by simp)) hfinally
    refine h₈.ends (.start hs hok) ((ha.trans ha₇).trans ha₈) rfl rfl ?_ hend
    rintro f H ⟨⟨⟨hstart, harm, hin⟩, hlies⟩, harm', hin'⟩
    refine ⟨fun o fuel => ?_, final, ⟨body, harm⟩, hlies, harm'⟩
    unfold Stmt.reading
    exact (((hin o fuel).jump hstart).mono (Nat.le_succ _)).andThen (hin' o fuel)

end

end Lower

end BasicSSA
