import BasicSSA.Proofs.Lower.Selection
import BasicSSA.Proofs.Lower.Sound.Sites

/-!
# Sound statements

Each form of statement leads from sound states to sound ones, if its parts do. By induction all
statements do that ask only for what surrounds them.
-/

namespace BasicSSA.Lower

open IL (Build Module Given)

/-! ### The blocks of a `Select` -/

theorem seesAll_of_mem_caseTests
    (hs : ScopedCases env sc cs) (h : t ∈ caseTests cs blocks) : sc.SeesAll env t.1 := by
  induction cs generalizing blocks with
  | nil => simp [caseTests] at h
  | cons a cs ih =>
    cases blocks with
    | nil => cases a <;> simp [caseTests] at h
    | cons b blocks =>
      cases a with
      | values i vs body =>
        rcases List.mem_append.mp h with h | h
        · obtain ⟨v, hv, rfl⟩ := List.mem_map.mp h
          exact hs.1 v hv
        · exact ih hs.2.2 h
      | otherwise i body => exact ih hs.2 h

namespace Sound

/-- The arms of an `Else` fill their blocks, the first of which was made before. All of them may
rely on what was there at `base`. -/
def GoodElse (m : Module) (p : Place) (sc : Scoping) (e : Else Note) : Prop :=
  ∀ (no : Option Nat) leave base ks c qs loc, no.isNone = e.isNothing → Holds p sc base →
    Left m base ks (no.toList ++ qs) c → (∀ k ∈ no.toList, k ∈ ks) → leave ∈ ks →
    Flows c (elseArms p loc leave (no.getD leave) e) fun c' _ => Left m base ks qs c'

/-- Arms fill their blocks, and all go on at the same one. -/
def GoodArms (m : Module) (p : Place) (sc : Scoping) (n : Nat)
    (x : Nat → List Nat → Lower Unit) : Prop :=
  ∀ (blocks : List Nat) next base ks c qs, blocks.length = n → Holds p sc base →
    Left m base ks (blocks ++ qs) c → (∀ k ∈ blocks, k ∈ ks) → next ∈ ks →
    Flows c (x next blocks) fun c' _ => Left m base ks qs c'

variable {p : Place} {base : Config Given}

/-! ### Simple statements -/

section

variable (hf : p.FieldsScoped)
include hf

theorem condition (hh : Holds p sc c) (hs : sc.SeesAll p.toEnv e) (ho : Open m ps c) :
    Flows c (condition p e loc) fun c' v => Open m ps c' ∧ c.Avail c' ∧ c'.Has 0 v :=
  straight (lawful.condition (fieldsFine hf) (hh.settled ho) (hh.fine hs))

theorem expr (hh : Holds p sc c) (hs : sc.SeesAll p.toEnv e) (ho : Open m ps c) :
    Flows c (expr p e) fun c' v => Open m ps c' ∧ c.Avail c' ∧ c'.Has 0 v :=
  straight (lawful.run ho (lawful.expr (fieldsFine hf)
    ((hh.settled ho).stands (Nat.zero_le _)) (hh.fine hs)))

theorem varDecl (hs : Scoped p.toEnv sc (.var d)) :
    Good m p sc (Stmt.declared (.var d)) (varDecl p d) := by
  intro ps c hh ho
  obtain ⟨hsym, hinit⟩ := hs
  obtain ⟨x, hx⟩ := Option.isSome_iff_exists.mp hsym
  refine simple (lawful.varDecl binds (fieldsFine hf) declares (hh.settled ho) hx
    (fun _ => trivial) fun e he => hh.fine (hinit e he)) fun c' hr y hy => ?_
  obtain rfl : y = x := by simpa [Stmt.declared, hx] using hy
  exact hr

theorem constDecl (hs : Scoped p.toEnv sc (.const d)) :
    Good m p sc (Stmt.declared (.const d)) (constDecl p d) := by
  intro ps c hh ho
  obtain ⟨hsym, e, he, hsees⟩ := hs
  obtain ⟨x, hx⟩ := Option.isSome_iff_exists.mp hsym
  refine simple (lawful.constDecl binds (fieldsFine hf) declares (hh.settled ho) hx he
    (hh.fine hsees)) fun c' hr y hy => ?_
  obtain rfl : y = x := by simpa [Stmt.declared, hx] using hy
  exact hr

theorem assignStmt (ht : sc.SeesAll p.toEnv target) (hs : sc.SeesAll p.toEnv e) :
    Good m p sc [] (assignStmt p loc target op e) := fun ps _ hh ho =>
  simple (lawful.assignStmt binds (fieldsFine hf) (hh.settled ho)
    (fun _ _ _ _ => trivial) (hh.fine ht) (hh.fine hs)) fun _ _ => by simp

theorem exprStmt (hs : sc.SeesAll p.toEnv e) : Good m p sc [] (exprStmt p e) := fun ps _ hh ho =>
  simple (lawful.run ho (lawful.exprStmt (fieldsFine hf)
    ((hh.settled ho).stands (Nat.zero_le _)) (hh.fine hs))) fun _ _ => by simp

theorem throwStmt (hs : ∀ e, value = some e → sc.SeesAll p.toEnv e) :
    Good m p sc [] (throwStmt p loc value) := fun ps _ hh ho =>
  simple (lawful.throwStmt (fieldsFine hf) (hh.settled ho)
    fun e he => hh.fine (hs e he)) fun _ _ => by simp

omit hf in
theorem returnDefault (ho : Open m ps c) :
    Flows c (returnDefault p loc) fun c' _ => Shut m ps c' := by
  unfold Lower.returnDefault
  split
  · exact ho.ret (by simp)
  · refine (straight (lawful.run ho (lawful.zero (k := 0)))).bind fun v c₁ _ ⟨ho, _, hv⟩ => ?_
    exact ho.ret fun _ h => by cases h; exact hv

theorem returnStmt (hs : ∀ e, value = some e → sc.SeesAll p.toEnv e) :
    Good m p sc [] (returnStmt p loc value) := by
  intro ps c hh ho
  cases value with
  | none => exact (returnDefault ho).mono fun _ _ _ h => .inr h
  | some e =>
    refine (expr hf hh (hs e rfl) ho).bind fun v c₁ _ ⟨ho, _, hv⟩ => ?_
    refine (straight (lawful.run ho (lawful.coerce hv (Nat.zero_le _)))).bind
      fun v c₂ _ ⟨ho, _, hv⟩ => ?_
    exact (ho.ret fun _ h => by cases h; exact hv).mono fun _ _ _ h => .inr h

omit hf in
theorem exitStmt (hs : kind = .sub ∨ kind = .function ∨ kind ∈ sc.loops) :
    Good m p sc [] (exitStmt p loc kind) := by
  intro ps c hh ho
  have hfound (hk : kind ∈ sc.loops) : ∃ loop, p.loops.innermost? kind = some loop := by
    obtain ⟨l, hl, hkind⟩ := hh.loops kind hk
    exact Option.isSome_iff_exists.mp (List.find?_isSome.mpr ⟨l, hl, by simp [hkind]⟩)
  have hdefault : Flows c (Lower.returnDefault p loc) fun c' _ => Ends m ps c [] c' :=
    (returnDefault ho).mono fun _ _ _ h => .inr h
  cases kind with
  | sub => exact hdefault
  | function => exact hdefault
  | _ =>
    obtain ⟨loop, hloop⟩ := hfound (by simpa using hs)
    obtain ⟨base, ht, hv⟩ := hh.leaves loop (List.mem_of_find?_eq_some hloop)
    unfold Lower.exitStmt
    simp only [hloop]
    exact (ho.jump ht hv).mono fun _ _ _ h => .inr h

end

/-! ### `If` -/

theorem ifThen (hf : p.FieldsScoped) (hs : sc.SeesAll p.toEnv e)
    (hbody : Good m p sc [] (stmts p b)) (helse : GoodElse m p sc other) :
    Good m p sc [] (stmt p (.ifThen i e b other)) := by
  intro ps c hh ho
  unfold stmt
  refine (condition hf hh hs ho).bind ?_
  rintro v base ha ⟨ho, hv, hm⟩
  have hh := hh.later hv ha
  refine ((At.start ho).newBlock rfl).bind ?_
  rintro yes _ _ ⟨h, _⟩
  refine (h.elseBlock rfl).bind ?_
  rintro no _ _ ⟨h, _, hnone⟩
  refine (h.newBlock rfl).bind ?_
  rintro leave _ _ ⟨h, _⟩
  refine (h.branch (hm.keep h.avail) (by simp) (by cases no <;> simp)).bind fun _ _ _ h => ?_
  refine (h.armOf (l := leave :: no.toList) (by simp) (by simp) hh hbody).bind
    fun _ _ _ h => ?_
  refine (helse no leave base _ _ _ i.loc hnone hh (h.permute List.perm_middle.symm)
    (by simp +contextual) (by simp)).bind fun _ _ _ h => ?_
  exact h.ends (by simp) hv

theorem elseIf (hf : p.FieldsScoped) (hs : sc.SeesAll p.toEnv e)
    (hbody : Good m p sc [] (stmts p b)) (helse : GoodElse m p sc other) :
    GoodElse m p sc (.elseIf i e b other) := by
  intro no leave base ks c qs loc hnone hh h hno hleave
  obtain ⟨k, rfl⟩ : ∃ k, no = some k := Option.isSome_iff_exists.mp (by
    simpa [Else.isNothing, ← Option.not_isSome] using hnone)
  unfold elseArms
  refine (h.continueAt (l := []) (hno k (by simp))).bind fun _ c₁ _ h => ?_
  refine (h.stay (condition hf (h.holds hh) hs h.isOpen)).bind ?_
  rintro v c₂ _ ⟨h, _, hm⟩
  refine (h.newBlock rfl).bind ?_
  rintro yes c₃ _ ⟨h, hv₃⟩
  refine (h.elseBlock rfl).bind ?_
  rintro no c₄ _ ⟨h, hv₄, hnone⟩
  refine (h.branch (hm.keep (hv₃.trans hv₄)) (by simp)
    (by cases no <;> simp [hleave])).bind fun _ c₅ _ h => ?_
  refine (h.armOf (by simp) (by simp [hleave]) hh hbody).bind fun _ c₆ _ h => ?_
  exact (helse no leave base _ c₆ qs loc hnone hh h (by simp +contextual) (by simp [hleave])).mono
    fun _ _ _ h => ⟨h.shut, h.after, fun k hk => h.targets k (by simp [hk])⟩

/-! ### `Select` -/

/-- The tests of a `Select` lead to its arms, or to the block for a miss. -/
theorem selectTests (hf : p.FieldsScoped) (hh : Holds p sc base) (hm : base.Has 0 subject)
    (tests : List (Expr Note × Nat)) (hne : tests ≠ [])
    (hsees : ∀ t ∈ tests, sc.SeesAll p.toEnv t.1) (h : At m base ks ps c)
    (ht : ∀ t ∈ tests, t.2 ∈ ks) (hmiss : miss ∈ ks) :
    Flows c (selectTests p subject miss tests) fun c' _ => Left m base ks ps c' := by
  induction tests generalizing c with
  | nil => contradiction
  | cons t rest ih =>
    obtain ⟨e, block⟩ := t
    unfold Lower.selectTests
    have htest := lawful.caseTest (fieldsFine hf) ((h.holds hh).settled h.isOpen)
      (hm.keep h.avail) ((h.holds hh).fine (hsees _ List.mem_cons_self))
    have hblock := ht _ List.mem_cons_self
    refine (h.stay (straight htest)).bind fun hit c₁ _ ⟨h, _, hhit⟩ => ?_
    cases rest with
    | nil => exact (h.branch hhit hblock hmiss).bind fun _ _ _ h => .pure h
    | cons t' rest =>
      refine (h.newBlock rfl).bind fun next c₂ _ ⟨h, hv⟩ => ?_
      refine (h.branch (hhit.keep hv) (List.mem_cons_of_mem _ hblock) (by simp)).bind
        fun _ c₃ _ h => ?_
      refine (h.continueAt (l := []) (by simp)).bind fun _ c₄ _ h => ?_
      exact ih (by simp) (fun t h => hsees t (List.mem_cons_of_mem _ h))
        ⟨h.isOpen, h.avail, h.after, fun k hk => h.targets k (List.mem_cons_of_mem _ hk)⟩
        fun t h => ht t (List.mem_cons_of_mem _ h)

theorem noArms : GoodArms m p sc 0 fun _ _ => Pure.pure () := by
  intro blocks next base ks c qs hlen hh h _ _
  obtain rfl := List.length_eq_zero_iff.mp hlen
  exact .pure h

/-- The first of several arms, and then the rest. -/
theorem nextArm
    (hbody : Good m p sc [] body) (hrest : GoodArms m p sc n rest) :
    GoodArms m p sc (n + 1) fun next blocks =>
      Lower.arm (blocks.headD next) next loc body >>= fun _ => rest next blocks.tail := by
  intro blocks next base ks c qs hlen hh h hblocks hnext
  obtain ⟨k, blocks, rfl⟩ := List.exists_cons_of_length_eq_add_one hlen
  obtain ⟨hk, hblocks⟩ := List.forall_mem_cons.mp hblocks
  refine (h.armOf (l := []) hk hnext hh hbody).bind fun _ c₁ _ h => ?_
  exact hrest blocks next base ks c₁ qs (by simpa using hlen) hh h hblocks hnext

theorem select (hf : p.FieldsScoped) (hs : sc.SeesAll p.toEnv e)
    (hcs : ScopedCases p.toEnv sc cs)
    (hbodies : GoodArms m p sc cs.length fun next blocks => caseBodies p next blocks cs) :
    Good m p sc [] (stmt p (.select i e cs)) := by
  intro ps c hh ho
  unfold stmt
  refine (expr hf hh hs ho).bind ?_
  rintro subject base ha ⟨ho, hv, hm⟩
  have hh := hh.later hv ha
  have hhints : ∀ hint ∈ cs.map caseHint, isHint hint = true :=
    List.forall_mem_map.mpr fun a _ => by
      cases a
      · exact (rfl : isHint "select.case" = true)
      · exact (rfl : isHint "select.default" = true)
  refine ((At.start ho).newBlocks hhints).bind ?_
  rintro blocks c₂ _ ⟨h, hlen⟩
  refine (h.newBlock rfl).bind ?_
  rintro leave c₃ _ ⟨h, _⟩
  have hmiss : (defaultBlock? cs blocks).getD leave ∈ leave :: (blocks ++ []) := by
    cases hd : defaultBlock? cs blocks with
    | none => simp
    | some k => simp [defaultBlock?_mem hd]
  have hrest (c₄) (h : Left m base (leave :: (blocks ++ [])) (leave :: (blocks ++ ps)) c₄) :
      Flows c₄ (do
        Lower.caseBodies p leave blocks cs
        Lower.continueAt leave) fun c' _ => Ends m ps c [] c' := by
    refine (hbodies blocks leave base _ c₄ (leave :: ps) (by simpa using hlen) hh
      (h.permute List.perm_middle.symm) (by simp +contextual) (by simp)).bind fun _ c₅ _ h => ?_
    exact h.ends (by simp) hv
  dsimp only
  split
  · rename_i hempty
    rw [List.isEmpty_iff.mp hempty]
    exact (h.jump hmiss).bind fun _ c₄ _ h => hrest c₄ h
  · rename_i hne
    refine (selectTests hf hh hm _ (by simpa using hne) (fun t h => ?_) h (fun t h => ?_)
      hmiss).bind fun _ c₄ _ h => hrest c₄ h
    · exact seesAll_of_mem_caseTests hcs h
    · simp [(mem_caseTests h).1]

/-! ### Loops -/

/-- A loop that counts. Its parts may rely on what was there before it. -/
theorem countedLoop
    (hhint : ∀ part ∈ [".cond", ".body", ".inc", ".end"], isHint (hint ++ part) = true)
    (ho : Open m ps c)
    (htest : ∀ ps c', Open m ps c' → c.Avail c' →
      (code m ps).Runs c' c' test fun c'' v => c''.Has 0 v)
    (hnext : ∀ ps c', Open m ps c' → c.Avail c' → (code m ps).Runs c' c' next fun _ _ => True)
    (hbody : ∀ leave next ks ps c', leave ∈ ks → At m c ks ps c' →
      Flows c' (body ⟨.forLoop, leave, next⟩) fun c'' _ => Ends m ps c' [] c'') :
    Flows c (countedLoop hint loc test next body) fun c' _ => Ends m ps c [] c' := by
  unfold Lower.countedLoop
  refine ((At.start ho).newBlock (hhint _ (by simp))).bind fun cond _ _ ⟨h, _⟩ => ?_
  refine (h.newBlock (hhint _ (by simp))).bind fun inside _ _ ⟨h, _⟩ => ?_
  refine (h.newBlock (hhint _ (by simp))).bind fun step _ _ ⟨h, _⟩ => ?_
  refine (h.newBlock (hhint _ (by simp))).bind fun leave _ _ ⟨h, _⟩ => ?_
  refine (h.jump (k := cond) (by simp)).bind fun _ _ _ h => ?_
  refine (h.continueAt (l := [leave, step, inside]) (by simp)).bind fun _ c₆ _ h => ?_
  refine (h.stay (straight (htest _ c₆ h.isOpen h.avail))).bind fun v c₇ _ ⟨h, _, hm⟩ => ?_
  refine (h.branch hm (by simp) (by simp)).bind fun _ _ _ h => ?_
  refine (h.arm (l := [leave, step]) (by simp) (by simp)
    fun c' h => hbody leave step _ _ c' (by simp) h).bind fun _ _ _ h => ?_
  refine (h.continueAt (l := [leave]) (by simp)).bind fun _ d₁ _ h => ?_
  refine (h.stay (straight (hnext _ d₁ h.isOpen h.avail))).bind fun _ d₂ _ ⟨h, _, _⟩ => ?_
  refine (h.jump (by simp)).bind fun _ _ _ h => ?_
  exact h.ends (by simp) (.refl c)

theorem forLoop (hf : p.FieldsScoped) (hx : i.symbol = some x) (ha : sc.SeesAll p.toEnv a)
    (hz : sc.SeesAll p.toEnv z) (hs : ∀ e, s = some e → sc.SeesAll p.toEnv e)
    (hbody : ∀ loops, Good m { p with loops } ((sc.declare [x]).enter .forLoop) []
      (stmts { p with loops } b)) :
    Good m p sc [] (stmt p (.forLoop i v a z s b)) := by
  intro ps c hh ho
  unfold stmt
  rw [hx]
  refine (straight (lawful.forStart binds (fieldsFine hf)
    declares (hh.settled ho) (fun _ _ => trivial) (hh.fine ha) (hh.fine hz)
    fun e he => hh.fine (hs e he))).bind ?_
  rintro ⟨last, step⟩ c₁ ha₁ ⟨ho, hv₁, hl, hst, hr⟩
  have hh₁ : Holds p (sc.declare [x]) c₁ :=
    (hh.later hv₁ ha₁).declared fun y hy => List.mem_singleton.mp hy ▸ hr
  refine (countedLoop (by decide +kernel) ho (fun ps c' ho hv => ?_) (fun ps c' ho hv => ?_)
    fun leave next ks ps c' hleave h => ?_).mono fun c' _ _ he => he.weaken hv₁
  · exact lawful.forTest ho (hl.keep hv) fun h => (hr h).keep hv
  · exact lawful.forNext binds (fun _ _ => trivial) ho (hst.keep hv)
      fun h => (hr h).keep hv
  · exact hbody _ ps c' ((h.holds hh₁).entered (h.targets leave hleave) h.avail) h.isOpen

theorem forEach (hf : p.FieldsScoped) (hx : i.symbol = some x) (hs : sc.SeesAll p.toEnv e)
    (hbody : ∀ loops, Good m { p with loops } ((sc.declare [x]).enter .forLoop) []
      (stmts { p with loops } b)) :
    Good m p sc [] (stmt p (.forEach i v t e b)) := by
  intro ps c hh ho
  unfold stmt
  rw [hx]
  refine (straight (lawful.eachStart binds (fieldsFine hf)
    declares (hh.settled ho) (hh.fine hs))).bind ?_
  rintro es c₁ ha₁ ⟨ho, hv₁, hc, hn, hk⟩
  have hh₁ := hh.later hv₁ ha₁
  refine (countedLoop (by decide +kernel) ho (fun ps c' ho hv => ?_) (fun ps c' ho hv => ?_)
    fun leave next ks ps c' hleave h => ?_).mono fun c' _ _ he => he.weaken hv₁
  · exact lawful.eachTest ho (hn.keep hv) (hk.keep hv)
  · exact lawful.eachNext binds ho (hk.keep hv)
  · refine (h.stay (straight (lawful.eachElement binds h.isOpen
      (hc.keep h.avail) (hk.keep h.avail)))).bind ?_
    rintro _ c₂ _ ⟨h, hv₂, hr⟩
    have hh₂ : Holds p (sc.declare [x]) c₂ :=
      (h.holds hh₁).declared fun y hy _ => List.mem_singleton.mp hy ▸ hr
    exact (hbody _ ps c₂ (hh₂.entered (h.targets leave hleave) h.avail) h.isOpen).mono
      fun c' _ _ he => he.weaken hv₂

theorem loopTest {cond : Nat} (hf : p.FieldsScoped)
    (hh : Holds p sc base) (hs : ∀ l, t = some l → sc.SeesAll p.toEnv l.cond)
    (h : Left m base ks (l ++ cond :: r) c) (hcond : cond ∈ ks) (hbody : body ∈ ks)
    (hleave : leave ∈ ks) :
    Flows c (loopTest p loc cond body leave t) fun c' _ => Left m base ks (l ++ r) c' := by
  cases t with
  | none => exact (h.continueAt hcond).bind fun _ c₁ _ h => h.jump hbody
  | some t =>
    refine (h.continueAt hcond).bind fun _ c₁ _ h => ?_
    refine (h.stay (condition hf (h.holds hh) (hs t rfl) h.isOpen)).bind
      fun v c₂ _ ⟨h, _, hm⟩ => ?_
    split
    · exact h.branch hm hbody hleave
    · exact h.branch hm hleave hbody

theorem testedLoop (hf : p.FieldsScoped)
    (hhint : ∀ part ∈ [".cond", ".body", ".end"], isHint (hint ++ part) = true)
    (hs : ∀ l, test = some l → sc.SeesAll p.toEnv l.cond)
    (hbody : ∀ loops, Good m { p with loops } (sc.enter kind) [] (stmts { p with loops } b)) :
    Good m p sc [] (testedLoop hint kind p loc test fun frame =>
      stmts { p with loops := frame :: p.loops } b) := by
  intro ps c hh ho
  unfold Lower.testedLoop
  refine ((At.start ho).newBlock (hhint _ (by simp))).bind fun cond _ _ ⟨h, _⟩ => ?_
  refine (h.newBlock (hhint _ (by simp))).bind fun inside _ _ ⟨h, _⟩ => ?_
  refine (h.newBlock (hhint _ (by simp))).bind fun leave _ _ ⟨h, _⟩ => ?_
  -- The body and the test come in either order.
  have harm {l r : List Nat} {d : Config Given}
      (h : Left m c [leave, inside, cond] (l ++ inside :: r) d) :
      Flows d (Lower.arm inside cond loc
          (Lower.stmts { p with loops := ⟨kind, leave, cond⟩ :: p.loops } b))
        fun c' _ => Left m c [leave, inside, cond] (l ++ r) c' :=
    h.arm (by simp) (by simp) fun c' h => hbody _ _ c'
      ((h.holds hh).entered (h.targets leave (by simp)) h.avail) h.isOpen
  cases htop : test.all (·.atTop) with
  | true =>
    refine (h.jump (k := cond) (by simp)).bind fun _ _ _ h => ?_
    refine (loopTest hf hh hs (l := [leave, inside]) h (by simp) (by simp) (by simp)).bind
      fun _ _ _ h => ?_
    exact (harm (l := [leave]) h).bind fun _ _ _ h => h.ends (by simp) (.refl c)
  | false =>
    refine (h.jump (k := inside) (by simp)).bind fun _ _ _ h => ?_
    refine (harm (l := [leave]) h).bind fun _ _ _ h => ?_
    exact (loopTest hf hh hs (l := [leave]) h (by simp) (by simp) (by simp)).bind
      fun _ _ _ h => h.ends (by simp) (.refl c)

/-! ### `Try` and `With` -/

theorem tryCatch (hbody : Good m p sc [] (stmts p b))
    (hcatches : GoodArms m p sc cs.length fun next blocks => catchBodies p next blocks cs)
    (hlast : ∀ l, last = some l → Good m p sc [] (stmts p l)) :
    Good m p sc [] (stmt p (.tryCatch i b cs last)) := by
  intro ps c hh ho
  unfold stmt
  refine ((At.start ho).newBlock rfl).bind ?_
  rintro body _ _ ⟨h, _⟩
  refine (h.newBlocks (List.forall_mem_map.mpr fun _ _ => rfl)).bind ?_
  rintro blocks _ _ ⟨h, hlen⟩
  refine (h.newBlocks (List.forall_mem_map.mpr fun _ _ => rfl)).bind ?_
  rintro finals _ _ ⟨h, hfinals⟩
  refine (h.newBlock rfl).bind ?_
  rintro leave _ _ ⟨h, _⟩
  have hnext : finals.headD leave ∈ leave :: (finals ++ (blocks ++ [body])) := by
    cases finals <;> simp
  refine (h.jump (k := body) (by simp)).bind fun _ _ _ h => ?_
  have hperm : (leave :: (finals ++ (blocks ++ body :: ps))).Perm
      (blocks ++ (leave :: finals) ++ body :: ps) := by
    rw [← List.cons_append, ← List.append_assoc]
    exact List.perm_append_comm.append_right _
  have h := h.permute hperm
  refine (h.armOf (by simp) hnext hh hbody).bind fun _ _ _ h => ?_
  rw [List.append_assoc] at h
  refine (hcatches blocks _ c _ _ _ (by simpa using hlen) hh h (by simp +contextual) hnext).bind
    fun _ _ _ h => ?_
  cases last with
  | none =>
    obtain rfl := List.length_eq_zero_iff.mp hfinals
    unfold finallyBody
    exact h.ends (by simp) (.refl c)
  | some l =>
    obtain ⟨k, rfl⟩ := List.length_eq_one_iff.mp hfinals
    unfold finallyBody
    exact (h.armOf (l := [leave]) (by simp) (by simp) hh (hlast l rfl)).bind
      fun _ _ _ h => h.ends (by simp) (.refl c)

theorem withBlock (hf : p.FieldsScoped) (hs : sc.SeesAll p.toEnv e)
    (hbody : ∀ withValues, Good m { p with withValues } sc.inside []
      (stmts { p with withValues } b)) :
    Good m p sc [] (stmt p (.withBlock i e b)) := by
  intro ps c hh ho
  unfold stmt
  refine (expr hf hh hs ho).bind ?_
  rintro v c₁ ha₁ ⟨ho, hv₁, hm⟩
  have hh₁ := hh.later hv₁ ha₁
  have hh₁ : Holds { p with withValues := v :: p.withValues } sc.inside c₁ :=
    ⟨hh₁.me, by simpa using ⟨hm, hh₁.withValues⟩, by simp, hh₁.loops, hh₁.leaves, hh₁.reads⟩
  exact (inScope (hbody _ ps c₁ hh₁ ho)).mono fun c' _ _ he => he.weaken hv₁

/-! ### All statements -/

theorem stmtsShut (ss : List (Stmt Note)) (hs : Shut m ps c) :
    Flows c (Lower.stmts p ss) fun c' _ => Shut m ps c' := by
  cases ss with
  | nil => exact .pure hs
  | cons s ss =>
    unfold Lower.stmts
    refine .get ?_
    simp only [hs.isTerminated]
    exact .pure hs

theorem stmtsCons (hs : Good m p sc s.declared (Lower.stmt p s))
    (hss : Good m p (sc.declare s.declared) [] (Lower.stmts p ss)) :
    Good m p sc [] (Lower.stmts p (s :: ss)) := by
  intro ps c hh ho
  unfold Lower.stmts
  refine .get ?_
  simp only [ho.isTerminated]
  refine (hs ps c hh ho).bind fun _ c₁ ha₁ he => ?_
  rcases he with ⟨ho, hv₁, hr⟩ | hs
  · have hh₁ := (hh.later hv₁ ha₁).declared fun x hx _ => hr x hx
    exact (hss ps c₁ hh₁ ho).mono fun c' _ _ he => he.weaken hv₁
  · exact (stmtsShut ss hs).mono fun _ _ _ h => .inr h

theorem catchClause (hbody : Good m p (sc.declare i.symbol.toList) [] (Lower.stmts p b)) :
    Good m p sc [] (do Lower.catchVar p i; Lower.stmts p b) := by
  intro ps c hh ho
  refine (straight (lawful.catchVar binds declares (hh.settled ho))).bind
    fun _ c₁ ha₁ ⟨ho, hv₁, hr⟩ => ?_
  have hh₁ : Holds p (sc.declare i.symbol.toList) c₁ :=
    (hh.later hv₁ ha₁).declared fun x hx _ => hr x (by simpa using hx)
  exact (hbody ps c₁ hh₁ ho).mono fun c' _ _ he => he.weaken hv₁

mutual

theorem stmt : (s : Stmt Note) → ∀ p sc, p.toEnv.FieldsScoped → Scoped p.toEnv sc s →
    Good m p sc s.declared (Lower.stmt p s)
  | .ifThen i c b e => fun p sc hf hs =>
    ifThen hf hs.1 (stmts b p sc hf hs.2.1) (elseArms e p sc hf hs.2.2)
  | .select i e cs => fun p sc hf hs =>
    select hf hs.1 hs.2 (caseBodies cs p sc hf hs.2)
  | .forLoop i v a z s b => fun p sc hf ⟨ha, hz, hs, x, hx, hb⟩ =>
    forLoop hf hx ha hz hs fun loops => stmts b _ _ hf hb
  | .forEach i v t e b => fun p sc hf ⟨he, x, hx, hb⟩ =>
    forEach hf hx he fun loops => stmts b _ _ hf hb
  | .whileLoop i c b => fun p sc hf hs => by
    unfold Lower.stmt
    exact testedLoop hf (by decide +kernel) (by simpa using hs.1) fun loops => stmts b _ _ hf hs.2
  | .doLoop i t b => fun p sc hf hs => by
    unfold Lower.stmt
    exact testedLoop hf (by decide +kernel) hs.1 fun loops => stmts b _ _ hf hs.2
  | .tryCatch i b cs none => fun p sc hf hs =>
    tryCatch (stmts b p sc hf hs.1) (catchBodies cs p sc hf hs.2) (by simp)
  | .tryCatch i b cs (some l) => fun p sc hf hs =>
    tryCatch (stmts b p sc hf hs.1) (catchBodies cs p sc hf hs.2.1)
      (by simpa using stmts l p sc hf hs.2.2)
  | .withBlock i e b => fun p sc hf hs =>
    withBlock hf hs.1 fun withValues => stmts b _ _ hf hs.2
  | .throw i e => fun p sc hf hs => throwStmt hf hs
  | .return_ i e => fun p sc hf hs => returnStmt hf hs
  | .exit i kind => fun p sc hf hs => exitStmt hs
  | .assign i target op e => fun p sc hf hs => assignStmt hf hs.1 hs.2
  | .expr i e => fun p sc hf hs => exprStmt hf hs
  | .var d => fun p sc hf hs => varDecl hf hs
  | .const d => fun p sc hf hs => constDecl hf hs

theorem stmts : (ss : List (Stmt Note)) → ∀ p sc, p.toEnv.FieldsScoped →
    ScopedAll p.toEnv sc ss → Good m p sc [] (Lower.stmts p ss)
  | [] => fun p sc hf hs ps c hh ho => .pure (.inl ⟨ho, .refl c, by simp⟩)
  | s :: ss => fun p sc hf hs =>
    stmtsCons (stmt s p sc hf hs.1) (stmts ss p _ hf hs.2)

theorem elseArms : (e : Else Note) → ∀ p sc, p.toEnv.FieldsScoped → ScopedElse p.toEnv sc e →
    GoodElse m p sc e
  | .nothing => by
    intro p sc hf hs no leave base ks c qs loc hnone hh h hno hleave
    obtain rfl : no = none := Option.isNone_iff_eq_none.mp hnone
    exact .pure h
  | .block b => by
    intro p sc hf hs no leave base ks c qs loc hnone hh h hno hleave
    obtain ⟨k, rfl⟩ : ∃ k, no = some k := Option.isSome_iff_exists.mp (by
      simpa [Else.isNothing, ← Option.not_isSome] using hnone)
    exact h.armOf (l := []) (hno k (by simp)) hleave hh (stmts b p sc hf hs)
  | .elseIf i c b e => fun p sc hf hs =>
    elseIf hf hs.1 (stmts b p sc hf hs.2.1) (elseArms e p sc hf hs.2.2)

theorem caseBodies : (cs : List (Case Note)) → ∀ p sc, p.toEnv.FieldsScoped →
    ScopedCases p.toEnv sc cs →
    GoodArms m p sc cs.length fun next blocks => Lower.caseBodies p next blocks cs
  | [] => fun _ _ _ _ => noArms
  | .values _ _ b :: cs => fun p sc hf hs =>
    nextArm (stmts b p sc hf hs.2.1) (caseBodies cs p sc hf hs.2.2)
  | .otherwise _ b :: cs => fun p sc hf hs =>
    nextArm (stmts b p sc hf hs.1) (caseBodies cs p sc hf hs.2)

theorem catchBodies : (cs : List (Catch Note)) → ∀ p sc, p.toEnv.FieldsScoped →
    ScopedCatches p.toEnv sc cs →
    GoodArms m p sc cs.length fun next blocks => Lower.catchBodies p next blocks cs
  | [] => fun _ _ _ _ => noArms
  | .mk _ _ _ b :: cs => fun p sc hf hs =>
    nextArm (catchClause (stmts b p _ hf hs.1)) (catchBodies cs p sc hf hs.2)

end

end Sound

end BasicSSA.Lower
