import BasicSSA.Proofs.Lower.Sound

/-!
# Sites

The rules for steps from sound states, what has to be there around a statement, and where its blocks
may go on.
-/

namespace BasicSSA.Lower.Sound

open IL (Build Module Given)

variable {c c' base : Config Given} {sc : Scoping}

/-! ### Rules -/

namespace Flows

theorem mono (h : Flows c x Q) (hq : ∀ c' a, c.After c' → Q c' a → Q' c' a) : Flows c x Q' := by
  unfold Flows at h ⊢
  split
  · rename_i hr
    rw [hr] at h
    obtain ⟨g, ha, h⟩ := h
    exact ⟨g, ha, hq _ _ ha h⟩
  · rename_i hr
    rw [hr] at h
    exact h

theorem get (h : Flows c (y c.state) Q) : Flows c (MonadState.get >>= y) Q :=
  h

theorem pure (h : Q c a) : Flows c (Pure.pure a) Q :=
  ⟨c.ghost, .refl c, h⟩

theorem bind (hx : Flows c x Q) (hy : ∀ a c', c.After c' → Q c' a → Flows c' (y a) S) :
    Flows c (x >>= y) S := by
  unfold Flows at hx ⊢
  rw [bind_apply]
  cases hr : x c.state with
  | error e =>
    rw [hr] at hx
    exact hx
  | ok r =>
    rw [hr] at hx
    obtain ⟨g, ha, hq⟩ := hx
    have h := hy r.1 ⟨g, r.2⟩ ha hq
    unfold Flows at h
    dsimp only at h ⊢
    split
    · rename_i hr'
      rw [hr'] at h
      obtain ⟨g', ha', h⟩ := h
      exact ⟨g', ha.trans ha', h⟩
    · rename_i hr'
      rw [hr'] at h
      exact h

end Flows

theorem straight (h : (code m ps).Runs c c x Q) :
    Flows c x fun c' a => Open m ps c' ∧ c.Avail c' ∧ Q c' a := by
  unfold Discipline.Runs at h
  unfold Flows
  split
  · rename_i hr
    rw [hr] at h
    obtain ⟨g, hi, hle, hq⟩ := h
    exact ⟨g, hle.after, hi, hle.toAvail, hq⟩
  · rename_i hr
    rw [hr] at h
    exact h

/-- A statement has come to its end, with the variables that it declares, or has jumped away. -/
def Ends (m : Module) (ps : List Nat) (c : Config Given) (xs : List SymbolId) (c' : Config Given) :
    Prop :=
  Open m ps c' ∧ c.Avail c' ∧ (∀ x ∈ xs, c'.Reads x) ∨ Shut m ps c'

theorem Ends.weaken (h : Ends m ps base xs c') (hv : c.Avail base) : Ends m ps c xs c' :=
  h.imp_left fun ⟨ho, hv', hx⟩ => ⟨ho, hv.trans hv', hx⟩

theorem simple (h : (code m ps).Runs c c x Q) (hq : ∀ c', Q c' () → ∀ y ∈ xs, c'.Reads y) :
    Flows c x fun c' _ => Ends m ps c xs c' :=
  (straight h).mono fun c' _ _ ⟨ho, hv, h⟩ => .inl ⟨ho, hv, hq c' h⟩

theorem inScope (h : Flows c x fun c' _ => Ends m ps c [] c') :
    Flows c (inScope x) fun c' _ => Ends m ps c [] c' := by
  refine .get ?_
  unfold Flows at h ⊢
  rw [bind_apply]
  cases hr : x c.state with
  | error e =>
    rw [hr] at h
    exact h
  | ok r =>
    rw [hr] at h
    obtain ⟨g, ha, he⟩ := h
    refine ⟨g, ⟨⟨ha.temps, ha.names⟩, ha.given, ha.length⟩, ?_⟩
    rcases he with ⟨ho, hv, -⟩ | hs
    · exact .inl ⟨⟨ho.1.rename _ rfl rfl, ho.2⟩, ⟨⟨hv.temps, hv.names⟩, hv.out⟩, by simp⟩
    · exact .inr ⟨hs.1.rename _ rfl rfl, hs.2⟩

/-! ### What surrounds a statement -/

/-- What surrounds a statement is there. -/
structure Holds (p : Place) (sc : Scoping) (c : Config Given) : Prop where
  me : ∀ v, p.me = some v → ∀ k, c.Has k v
  withValues : ∀ v ∈ p.withValues, c.Has 0 v
  inWith : sc.inWith = true → p.withValues ≠ []
  loops : ∀ kind ∈ sc.loops, ∃ l ∈ p.loops, l.kind = kind
  leaves : ∀ l ∈ p.loops, ∃ base, c.Target l.leave base ∧ base.Avail c
  reads : ∀ x ∈ sc.vars, p.globals.lookup x = none → c.Reads x

/-- A step at a place comes to its end or jumps away. -/
def Good (m : Module) (p : Place) (sc : Scoping) (xs : List SymbolId) (x : Lower Unit) : Prop :=
  ∀ ps c, Holds p sc c → Open m ps c → Flows c x fun c' _ => Ends m ps c xs c'

namespace Holds

theorem later (h : Holds p sc c) (hv : c.Avail c') (ha : c.After c') : Holds p sc c' where
  me v hm k := (h.me v hm k).keep hv
  withValues v hm := (h.withValues v hm).keep hv
  inWith := h.inWith
  loops := h.loops
  leaves l hl :=
    have ⟨base, ht, hb⟩ := h.leaves l hl
    ⟨base, ht.later ha, hb.trans hv⟩
  reads x hx hg := (h.reads x hx hg).keep hv

theorem declared (h : Holds p sc c) (hx : ∀ x ∈ xs, p.globals.lookup x = none → c.Reads x) :
    Holds p (sc.declare xs) c where
  me := h.me
  withValues := h.withValues
  inWith := h.inWith
  loops := h.loops
  leaves := h.leaves
  reads x hm hg := (List.mem_append.mp hm).elim (hx x · hg) (h.reads x · hg)

theorem entered (h : Holds p sc c) (ht : c.Target leave base) (hv : base.Avail c) :
    Holds { p with loops := ⟨kind, leave, next⟩ :: p.loops } (sc.enter kind) c where
  me := h.me
  withValues := h.withValues
  inWith := h.inWith
  loops kind' hk := by
    rcases List.mem_cons.mp hk with rfl | hk
    · exact ⟨_, List.mem_cons_self, rfl⟩
    · obtain ⟨l, hl, hkind⟩ := h.loops kind' hk
      exact ⟨l, List.mem_cons_of_mem _ hl, hkind⟩
  leaves l hl := by
    rcases List.mem_cons.mp hl with rfl | hl
    · exact ⟨base, ht, hv⟩
    · exact h.leaves l hl
  reads := h.reads

theorem settled (h : Holds p sc c) (ho : Open m ps c) : (code m ps).Settled p c :=
  ⟨ho, fun _ _ _ => trivial, h.me, h.withValues⟩

end Holds

/-- A node that is in the scope of what is there. -/
theorem fineAt (hreads : ∀ x ∈ sc.vars, p.globals.lookup x = none → c.Reads x)
    (hwith : sc.inWith = true → p.withValues ≠ []) (hsees : sc.Sees p.toEnv n) :
    (code m ps).Fine c p n := by
  unfold Scoping.Sees at hsees
  unfold Discipline.Fine
  split
  · obtain ⟨x, hx, hv⟩ := hsees
    refine ⟨by simp [hx], fun y hy hl => ?_⟩
    obtain rfl : x = y := by simpa [hx] using hy
    exact hreads x (hv hl) hl.1
  · exact fun _ => ⟨fun _ => binds, fun _ _ _ _ => trivial⟩
  · exact fun _ _ _ _ _ _ _ => Config.has_global
  · exact fun hw => absurd hw (hwith hsees)
  · exact fun _ _ => trivial
  · exact fun _ _ => trivial
  · intro hnone
    simp [hnone] at hsees
  · trivial

theorem Holds.fine (h : Holds p sc c) (hs : sc.SeesAll p.toEnv e) : (code m ps).AllFine c p e :=
  fun n hn => fineAt h.reads h.inWith (hs n hn)

theorem fieldsFine (h : env.FieldsScoped) : (code m ps).FieldsFine env := by
  intro t ds hds d hd e he n hn c p hp
  exact fineAt (by simp) (by simp) (hp ▸ h t ds hds d hd e he n hn)

/-! ### Sites -/

/-- Code may be added, and all values are there that there were at `base`. The blocks `ks` ask for
no more, and the blocks `ps` are still empty. -/
structure At (m : Module) (base : Config Given) (ks ps : List Nat) (c : Config Given) : Prop where
  isOpen : Open m ps c
  avail : base.Avail c
  after : base.After c
  targets : ∀ k ∈ ks, c.Target k base

/-- The current block has its last instruction. The blocks `ks` ask for no values but those that
there were at `base`, and the blocks `ps` are still empty. -/
structure Left (m : Module) (base : Config Given) (ks ps : List Nat) (c : Config Given) : Prop where
  shut : Shut m ps c
  after : base.After c
  targets : ∀ k ∈ ks, c.Target k base

namespace At

theorem start (ho : Open m ps c) : At m c [] ps c :=
  ⟨ho, .refl c, .refl c, by simp⟩

section

variable (h : At m base ks ps c)

include h

theorem holds (hh : Holds p sc base) : Holds p sc c :=
  hh.later h.avail h.after

theorem stay {Q : Config Given → α → Prop}
    (hx : Flows c x fun c' a => Open m ps c' ∧ c.Avail c' ∧ Q c' a) :
    Flows c x fun c' a => At m base ks ps c' ∧ c.Avail c' ∧ Q c' a :=
  hx.mono fun _ _ ha ⟨ho, hv, hq⟩ => ⟨⟨ho, h.avail.trans hv, h.after.trans ha,
    fun k hk => (h.targets k hk).later ha⟩, hv, hq⟩

theorem newBlock (hhint : isHint hint = true) :
    Flows c (newBlock hint) fun c' k => At m base (k :: ks) (k :: ps) c' ∧ c.Avail c' :=
  (h.isOpen.newBlock hhint h.avail).mono fun _ _ ha ⟨ho, hv, ht⟩ =>
    ⟨⟨ho, h.avail.trans hv, h.after.trans ha,
      List.forall_mem_cons.mpr ⟨ht, fun k hk => (h.targets k hk).later ha⟩⟩, hv⟩

theorem newBlocks (hhints : ∀ hint ∈ hints, isHint hint = true) :
    Flows c (newBlocks hints) fun c' bs =>
      At m base (bs ++ ks) (bs ++ ps) c' ∧ bs.length = hints.length := by
  induction hints generalizing c ks ps with
  | nil => exact .pure ⟨h, rfl⟩
  | cons hint hints ih =>
    obtain ⟨hhint, hhints⟩ := List.forall_mem_cons.mp hhints
    refine (h.newBlock hhint).bind fun k c₁ _ ⟨h, _⟩ => ?_
    refine (ih h hhints).bind fun bs c₂ _ ⟨h, hlen⟩ => .pure ⟨?_, by simp [hlen]⟩
    exact ⟨⟨h.isOpen.1.perm List.perm_middle, h.isOpen.2⟩, h.avail, h.after,
      fun j hj => h.targets j (by grind)⟩

theorem elseBlock (hhint : isHint hint = true) :
    Flows c (elseBlock hint e) fun c' no => At m base (no.toList ++ ks) (no.toList ++ ps) c' ∧
      c.Avail c' ∧ no.isNone = e.isNothing := by
  unfold Lower.elseBlock
  cases hn : e.isNothing with
  | true =>
    refine (h.stay ((h.isOpen.label hint).mono fun _ _ _ h => ⟨h.1, h.2, trivial⟩)).bind
      fun _ c₁ _ ⟨h, hv, _⟩ => ?_
    exact .pure ⟨h, hv, by simp⟩
  | false =>
    have hblock := (h.newBlock hhint).bind fun k c₁ _ ⟨h, hv⟩ =>
      .pure (a := some k) (Q := fun c' no => At m base (no.toList ++ ks) (no.toList ++ ps) c' ∧
        c.Avail c' ∧ no.isNone = false) ⟨h, hv, rfl⟩
    simpa [Lower.newBlock, hn] using hblock

theorem jump (hk : k ∈ ks) : Flows c (jump k loc) fun c' _ => Left m base ks ps c' :=
  (h.isOpen.jump (h.targets k hk) h.avail).mono fun _ _ ha hs =>
    ⟨hs, h.after.trans ha, fun k hk => (h.targets k hk).later ha⟩

theorem branch (hm : c.Has 0 v) (hyes : yes ∈ ks) (hno : no ∈ ks) :
    Flows c (branch v yes no loc) fun c' _ => Left m base ks ps c' :=
  (h.isOpen.branch hm (h.targets yes hyes) (h.targets no hno) h.avail).mono
    fun _ _ ha hs => ⟨hs, h.after.trans ha, fun k hk => (h.targets k hk).later ha⟩

end

end At

namespace Left

theorem permute (h : Left m base ks ps c) (hp : ps.Perm qs) : Left m base ks qs c :=
  ⟨⟨h.shut.1.perm hp, h.shut.2⟩, h.after, h.targets⟩

section

variable (h : Left m base ks (l ++ k :: r) c) (hk : k ∈ ks)

include h hk

theorem continueAt : Flows c (continueAt k) fun c' _ => At m base ks (l ++ r) c' :=
  ((h.permute List.perm_middle).shut.continueAt (h.targets k hk)).mono
    fun _ _ ha ⟨ho, hv⟩ => ⟨ho, hv, h.after.trans ha, fun k hk => (h.targets k hk).later ha⟩

/-- An arm fills its block. It may rely on what there was at `base`. -/
theorem arm (hn : next ∈ ks) (hbody : ∀ c', At m base ks (l ++ r) c' →
      Flows c' body fun c'' _ => Ends m (l ++ r) c' [] c'') :
    Flows c (arm k next loc body) fun c' _ => Left m base ks (l ++ r) c' := by
  refine (h.continueAt hk).bind fun _ c₁ _ h => ?_
  refine (inScope (hbody c₁ h)).bind fun _ c₂ ha he => .get ?_
  have hafter := h.after.trans ha
  have htargets (k) (hk : k ∈ ks) := (h.targets k hk).later ha
  rcases he with ⟨ho, hv, -⟩ | hs
  · simp only [ho.isTerminated]
    exact At.jump ⟨ho, h.avail.trans hv, hafter, htargets⟩ hn
  · simp only [hs.isTerminated]
    exact .pure ⟨hs, hafter, htargets⟩

theorem armOf (hn : next ∈ ks) (hh : Holds p sc base) (hbody : Good m p sc [] x) :
    Flows c (Lower.arm k next loc x) fun c' _ => Left m base ks (l ++ r) c' :=
  h.arm hk hn fun c' h => hbody _ c' (h.holds hh) h.isOpen

end

/-- The last block of a statement is the one where it ends. -/
theorem ends (h : Left m base ks (k :: ps) d) (hk : k ∈ ks) (hv : c.Avail base) :
    Flows d (Lower.continueAt k) fun c' _ => Ends m ps c [] c' :=
  (h.continueAt (l := []) hk).mono fun _ _ _ h =>
    .inl ⟨h.isOpen, hv.trans h.avail, by simp⟩

end Left

end BasicSSA.Lower.Sound
