import BasicSSA.Proofs.Analysis.Course.Visit

/-!
# What analysis checks in expressions

A node of an analysed tree names symbols that exist, has the type that its parts give it, and keeps
to the rules on arguments, on constants and on `Return`, unless an error was reported.
-/

namespace BasicSSA

/-- The operators that change their operand. -/
def UnaryOp.isStep : UnaryOp → Bool
  | .preInc | .preDec | .postInc | .postDec => true
  | _ => false

theorem Symbol.kind_ne_delegate {x : Symbol} (h : x.isCallable = true) : x.kind ≠ .delegate := by
  intro hk
  rw [Symbol.isCallable, hk] at h
  cases h

/-- A node that analysis has not seen. -/
def Node.Fresh : Node Note → Prop
  | .expr e => e.info.symbol = none
  | .stmt _ => True

/-- The note of a node that no visit has come to. -/
abbrev Note.ofLoc (loc : Loc) : Note :=
  { loc }

theorem Node.fresh_map (n : Node Loc) : (n.map Note.ofLoc).Fresh := by
  cases n with
  | expr e => cases e <;> rfl
  | stmt s => trivial

/-- The types that a binary operation can have. -/
def Catalog.Yields (c : Catalog) (t : TypeId) : BinaryOp → Prop
  | .add | .sub | .mul | .div | .mod => t.isNumeric = true ∨ c.isParameter t = true
  | .intDiv => t = .integer
  | .concat => t = .string
  | .eq | .ne | .lt | .le | .gt | .ge | .and | .or => t = .boolean

theorem Catalog.Yields.mono {c c' : Catalog} (h : c.Yields t op)
    (hc : ∀ t, c.isParameter t = true → c'.isParameter t = true) : c'.Yields t op := by
  cases op with
  | add | sub | mul | div | mod => exact h.imp_right (hc t)
  | _ => exact h

namespace AnalysisState

variable {s : AnalysisState}

/-- A symbol that can count the rounds of a loop. -/
structure Counts (s : AnalysisState) (x : SymbolId) : Prop where
  has : s.tree.HasSymbol x
  kind : (s.tree.symbol x).kind ≠ .constant
  type : ((s.tree.symbol x).type.getD .object).isNumeric = true

/-- A symbol that is called with a number of arguments, and what the call gives. A type parameter is
replaced by what it is bound to. -/
structure Answers (s : AnalysisState) (x : SymbolId) (args : Nat) (i : Note) : Prop where
  args : args = (s.tree.symbol x).params.length
  type : i.type = some ((s.tree.symbol x).returnType.getD .void) ∨
    s.types.isParameter ((s.tree.symbol x).returnType.getD .void) = true

/-- The type of an expression follows from its symbol and from the types of its parts. A step of an
operand whose type is a type parameter is not looked at. -/
def Judges (s : AnalysisState) : Expr Note → Prop
  | .literal i v => i.type = some v.typeId
  | .name i _ => ∃ x, i.symbol = some x ∧ i.type = some (s.tree.symbol x).valueType
  | .binary i op _ _ => ∃ t, i.type = some t ∧ s.types.Yields t op
  | .unary i op e => (op ≠ .deref → i.type = some (if op = .not then .boolean else e.typeId)) ∧
    (op.isStep = true →
      (e.typeId.isNumeric = true ∨ s.types.isParameter e.typeId = true) ∧
      ∀ x, e.info.symbol = some x → s.tree.HasSymbol x ∧
        ((s.tree.symbol x).kind ≠ .constant ∨ s.types.isParameter e.typeId = true))
  | .member i _ _ | .withMember i _ => ∀ x, i.symbol = some x →
    i.type = some (s.tree.symbol x).valueType ∨
      s.types.isParameter (s.tree.symbol x).valueType = true
  | .call i e _ as => ∀ x, e.info.symbol = some x → s.tree.HasSymbol x ∧
    ((s.tree.symbol x).isCallable = true → s.Answers x as.length i)
  | .new i _ as => ∀ x, i.symbol = some x → (s.tree.symbol x).isCallable = true ∧
    as.length = (s.tree.symbol x).params.length
  | .interpolated i _ => i.type = some .string
  | .me i | .addressOf i _ => ∃ t, i.type = some t ∧ t.Added
  | .index .. | .cast .. | .collection .. => True

/-- The rules that a node of a procedure with some return type keeps to. -/
def Accepts (s : AnalysisState) (r : Option TypeId) : Node Note → Prop
  | .expr e => (∀ x, e.info.symbol = some x → s.tree.HasSymbol x) ∧ s.Judges e
  | .stmt (.assign _ t op _) => (op ≠ .assign → t.typeId.isNumeric = true) ∧
    ∀ x, t.info.symbol = some x → s.tree.HasSymbol x ∧ (s.tree.symbol x).kind ≠ .constant
  | .stmt (.forLoop i _ _ _ _ _) => ∀ x, i.symbol = some x → s.Counts x
  | .stmt (.return_ _ (some _)) => s.types.isVoid (r.getD .object) = false
  | _ => True

/-- A node that was checked. -/
def Checked (s : AnalysisState) (r : Option TypeId) (n : Node Note) : Prop :=
  s.Failed ∨ s.Accepts r n

theorem Grown.variable (h : s.Grown t) (hx : s.tree.HasSymbol x ∧ (s.tree.symbol x).kind ≠ k) :
    t.tree.HasSymbol x ∧ (t.tree.symbol x).kind ≠ k :=
  ⟨h.tree.hasSymbol x hx.1, h.tree.kind x hx.1 ▸ hx.2⟩

theorem Counts.mono (hx : s.Counts x) (h : s.Grown t) : t.Counts x where
  has := h.tree.hasSymbol x hx.has
  kind := h.tree.kind x hx.has ▸ hx.kind
  type := h.tree.type x hx.has ▸ hx.type

theorem Answers.mono (ha : s.Answers x n i) (hx : s.tree.HasSymbol x)
    (hc : (s.tree.symbol x).isCallable = true) (h : s.Grown t) : t.Answers x n i := by
  have hsame := h.tree.symbol x hx (Symbol.kind_ne_delegate hc)
  constructor
  · rw [hsame]
    exact ha.args
  · rw [hsame]
    exact ha.type.imp_right (h.types.parameter _)

/-- A use of a symbol has the same type later on. -/
theorem Grown.valueType (h : s.Grown t) (hx : s.tree.HasSymbol x) :
    (t.tree.symbol x).valueType = (s.tree.symbol x).valueType := by
  cases hc : (s.tree.symbol x).isCallable with
  | true => rw [h.tree.symbol x hx (Symbol.kind_ne_delegate hc)]
  | false =>
    simp only [Symbol.valueType, Symbol.isCallable, h.tree.kind x hx, h.tree.type x hx] at hc ⊢
    simp [hc]

theorem Judges.mono (hj : s.Judges e) (hx : ∀ x, e.info.symbol = some x → s.tree.HasSymbol x)
    (h : s.Grown t) : t.Judges e := by
  cases e with
  | literal | interpolated | me | index | cast | collection | addressOf => exact hj
  | name i n =>
    obtain ⟨x, hi, ht⟩ := hj
    exact ⟨x, hi, h.valueType (hx x hi) ▸ ht⟩
  | binary i op l r =>
    obtain ⟨u, hu, hy⟩ := hj
    exact ⟨u, hu, hy.mono h.types.parameter⟩
  | unary i op e =>
    refine ⟨hj.1, fun hop => ?_⟩
    obtain ⟨ht, hs⟩ := hj.2 hop
    refine ⟨ht.imp_right (h.types.parameter _), fun x hi => ?_⟩
    obtain ⟨hhas, hk⟩ := hs x hi
    exact ⟨h.tree.hasSymbol x hhas, hk.imp (h.tree.kind x hhas ▸ ·) (h.types.parameter _)⟩
  | member i o n | withMember i n =>
    intro x hi
    rw [h.valueType (hx x hi)]
    exact (hj x hi).imp_right (h.types.parameter _)
  | call i e ts as =>
    intro x hi
    obtain ⟨hhas, ha⟩ := hj x hi
    refine ⟨h.tree.hasSymbol x hhas, fun hc => ?_⟩
    rw [Symbol.isCallable, h.tree.kind x hhas] at hc
    exact (ha hc).mono hhas hc h
  | new i r as =>
    intro x hi
    obtain ⟨hc, ha⟩ := hj x hi
    rw [h.tree.symbol x (hx x hi) (Symbol.kind_ne_delegate hc)]
    exact ⟨hc, ha⟩

theorem Checked.mono (hc : s.Checked r n) (h : s.Grown t) : t.Checked r n := by
  refine hc.imp h.failed fun ha => ?_
  unfold Accepts at ha ⊢
  split at ha
  · exact ⟨fun x hx => h.tree.hasSymbol x (ha.1 x hx), ha.2.mono ha.1 h⟩
  · exact ⟨ha.1, fun x hx => h.variable (ha.2 x hx)⟩
  · exact fun x hx => (ha x hx).mono h
  · exact (h.types.void _).trans ha
  · trivial

end AnalysisState

/-! ### Lookup -/

theorem ScopeTree.mem_of_findLocal {t : ScopeTree} (hx : t.findLocal? s name = some x) :
    (foldCase name, x) ∈ (t.scope s).symbols := by
  obtain ⟨l, l', he, -⟩ := List.lookup_eq_some_iff.mp hx
  simp [he]

theorem ScopeTree.mem_of_find {t : ScopeTree} (hx : t.find? s name = some x) :
    ∃ o ∈ t.chain s, (foldCase name, x) ∈ (t.scope o).symbols := by
  obtain ⟨o, ho, hx⟩ := List.exists_of_findSome?_eq_some hx
  exact ⟨o, ho, mem_of_findLocal hx⟩

theorem Catalog.hasMember_of_find {c : Catalog} (hx : c.findMember? t n = some x) :
    c.HasMember x := by
  obtain ⟨u, -, hu⟩ := List.exists_of_findSome?_eq_some hx
  obtain ⟨l, l', he, -⟩ := List.lookup_eq_some_iff.mp hu
  exact ⟨u, _, by rw [he]; exact List.mem_append_right _ List.mem_cons_self⟩

namespace Snapshot.Valid

variable {s : Snapshot}

theorem findLocal (h : s.Valid v) (hx : s.tree.findLocal? o name = some x) : s.tree.HasSymbol x :=
  h.tables o _ (ScopeTree.mem_of_findLocal hx)

theorem find (h : s.Valid v) (hx : s.tree.find? o name = some x) : s.tree.HasSymbol x := by
  obtain ⟨o, -, hx⟩ := ScopeTree.mem_of_find hx
  exact h.tables o _ hx

theorem findMember (h : s.Valid v) (hx : s.types.findMember? t name = some x) : s.tree.HasSymbol x :=
  h.members x (Catalog.hasMember_of_find hx)

end Snapshot.Valid

/-! ### Rules -/

theorem Catalog.isNumeric_common {c : Catalog} (ha : a.isNumeric = true) (hb : b.isNumeric = true) :
    (c.common a b).isNumeric = true := by
  unfold common
  split
  · exact ha
  · rw [if_pos (by simp [ha, hb])]
    unfold wider
    split
    · rfl
    split
    · rfl
    split <;> rfl

theorem Catalog.yields_binaryRule {c : Catalog} : c.Yields (c.binaryRule op l r).1 op := by
  unfold binaryRule
  cases op with
  | add | sub | mul | div | mod =>
    dsimp only
    split
    · rename_i hgeneric
      refine .inr ?_
      split
      · assumption
      · rename_i hl
        simpa [hl] using hgeneric
    split
    · rename_i hnumeric
      rw [Bool.and_eq_true] at hnumeric
      exact .inl (isNumeric_common hnumeric.1 hnumeric.2)
    · exact .inl rfl
  | _ => rfl

theorem Catalog.type_unaryRule {c : Catalog} (hop : op ≠ .deref) :
    (c.unaryRule op t x).1 = if op = .not then .boolean else t := by
  unfold unaryRule
  split
  · rfl
  · cases op with
    | deref => exact absurd rfl hop
    | _ => rfl

/-- A step of what is no number is an error. -/
theorem Catalog.stepOperand_mem {c : Catalog} (hop : op.isStep = true) (hn : t.isNumeric = false)
    (ht : c.isParameter t = false) : .stepOperand op.text ∈ (c.unaryRule op t x).2 := by
  unfold unaryRule
  rw [ht]
  cases op with
  | preInc | preDec | postInc | postDec => simp [demand, hn]
  | _ => cases hop

theorem Catalog.memberType_eq {c : Catalog} (h : c.isParameter u = false) :
    c.memberType t u names = u := by
  unfold memberType
  split
  · rw [h]
    rfl
  · rfl

/-- A step of a constant is an error, unless a type parameter hides its type. -/
theorem Catalog.mem_unaryRule {c : Catalog} (hop : op.isStep = true)
    (ht : c.isParameter t = false) (hy : y.kind = .constant) :
    .assignToConstant y.name ∈ (c.unaryRule op t (some y)).2 := by
  unfold unaryRule
  rw [ht]
  cases op with
  | preInc | preDec | postInc | postDec => simp [demand, hy]
  | _ => cases hop

/-! ### What is read -/

namespace AnalysisState

variable {s : AnalysisState}

/-- A symbol of the scopes around a place, or a member of a type. -/
def Reaches (s : AnalysisState) (cx : Context) (x : SymbolId) : Prop :=
  (∃ o ∈ s.tree.chain cx.scope, ∃ e ∈ (s.tree.scope o).symbols, e.2 = x) ∨ s.types.HasMember x

/-- A node asks for what is found from a place. -/
def Finds (s : AnalysisState) (cx : Context) : Node Note → Prop
  | .expr (.name i _) => ∃ x, i.symbol = some x ∧ s.Reaches cx x
  | .expr (.withMember ..) => cx.withTypes ≠ []
  | _ => True

theorem Reaches.hasSymbol (hx : s.Reaches cx x) (h : s.Valid v) : s.tree.HasSymbol x := by
  rcases hx with ⟨o, -, e, he, rfl⟩ | hx
  · exact h.tables o e he
  · exact h.members x hx

theorem Finds.before (h : t.Finds cx n) (hs : s.Still t) : s.Finds cx n := by
  unfold Finds at h ⊢
  split at h
  · obtain ⟨x, hi, hx⟩ := h
    refine ⟨x, hi, hx.imp ?_ hs.quiet.members⟩
    rw [hs.quiet.tree]
    exact id
  · exact h
  · trivial

/-- What analysis of expressions gives: it defines nothing, each node is checked and has a type, and
it asks for what is found from where it stands. -/
structure Reading (s t : AnalysisState) (cx : Context) (ns : List (Node Note)) : Prop where
  still : s.Still t
  checked : ∀ r, ∀ n ∈ ns, t.Checked r n
  typed : ∀ n ∈ ns, n.Typed t.types
  found : t.Failed ∨ ∀ n ∈ ns, s.Finds cx n

namespace Reading

theorem nil (h : s.Still t) : Reading s t cx [] :=
  ⟨h, by simp, by simp, .inr (by simp)⟩

theorem seq (h : Reading s t cx ns) (h' : Reading t u cx ns') : Reading s u cx (ns ++ ns') where
  still := h.still.trans h'.still
  checked r := List.forall_mem_append.mpr
    ⟨fun n hn => (h.checked r n hn).mono h'.still.toGrown, h'.checked r⟩
  typed := List.forall_mem_append.mpr ⟨fun n hn => (h.typed n hn).mono h'.still.keeps, h'.typed⟩
  found := by
    rcases h.found with hf | hfound
    · exact .inl (h'.still.failed hf)
    · exact h'.found.imp_right fun hfound' => List.forall_mem_append.mpr
        ⟨hfound, fun n hn => (hfound' n hn).before h.still⟩

theorem before (hs : s.Still t) (h : Reading t u cx ns) : Reading s u cx ns :=
  (nil hs).seq h

theorem after (h : Reading s t cx ns) (hu : t.Still u) : Reading s u cx ns := by
  simpa using h.seq (nil hu)

end Reading

end AnalysisState

/-- What analysis of an expression gives. It only writes notes. -/
structure Expr.Read (s t : AnalysisState) (cx : Context) (e e₀ : Expr Note) : Prop
    extends s.Reading t cx e.nodes where
  same : e.map Note.loc = e₀.map Note.loc
  symbol : ∀ x, e.info.symbol = some x → t.tree.HasSymbol x

namespace Expr.Read

variable {e : Expr Note}

theorem of_parts (hp : s.Reading t cx e.nodes.tail) (h : t.Failed ∨ t.Judges e)
    (ht : e.info.TypedIn t.types) (hx : ∀ x, e.info.symbol = some x → t.tree.HasSymbol x)
    (hsame : e.map Note.loc = e₀.map Note.loc := by rfl)
    (hf : t.Failed ∨ s.Finds cx (.expr e) := by exact .inr trivial) : e.Read s t cx e₀ := by
  have he : e.nodes = .expr e :: e.nodes.tail := by cases e <;> simp [Expr.nodes]
  refine ⟨⟨hp.still, fun r => ?_, ?_, ?_⟩, hsame, hx⟩
  all_goals rw [he]
  · exact List.forall_mem_cons.mpr ⟨h.imp_right fun h => ⟨hx, h⟩, hp.checked r⟩
  · exact List.forall_mem_cons.mpr ⟨ht, hp.typed⟩
  · rcases hf with hf | hf
    · exact .inl hf
    · exact hp.found.imp_right fun hp => List.forall_mem_cons.mpr ⟨hf, hp⟩

theorem after (h : e.Read s t cx e₀) (hu : t.Still u) : e.Read s u cx e₀ :=
  ⟨h.toReading.after hu, h.same, fun x hx => hu.tree.hasSymbol x (h.symbol x hx)⟩

theorem has (h : e.Read s t cx e₀) : t.types.Has e.typeId := by
  obtain ⟨a, ha, hhas⟩ := h.typed _ (Expr.mem_nodes_self e)
  rwa [Expr.typeId, ha]

end Expr.Read

namespace Analyze

open AnalysisState

theorem resolve_reads :
    Reads s (resolve cx name) fun _ o => ∀ x, o = some x → s.Reaches cx x := by
  refine .get (.pure fun x hx => ?_)
  rcases Option.or_eq_some_iff.mp ((Option.orElse_eq_or ..).symm.trans hx) with h | ⟨-, h⟩
  · obtain ⟨o, ho, h⟩ := ScopeTree.mem_of_find h
    exact .inl ⟨o, ho, _, h, rfl⟩
  · obtain ⟨_, -, h⟩ := Option.bind_eq_some_iff.mp h
    obtain ⟨_, -, h⟩ := Option.bind_eq_some_iff.mp h
    exact .inr (Catalog.hasMember_of_find h)

theorem classType?_reads :
    Reads s (classType? cx) fun t o => ∀ a, o = some a → a.Added ∧ t.types.Has a := by
  refine .of_valid fun hs => .of_ok fun hok => .tree (.pure fun a ha => ?_)
  obtain ⟨o, -, ha⟩ := Option.bind_eq_some_iff.mp ha
  exact ⟨hok.tree.classType o a ha, ((hs.scopes o).classType a ha).1⟩

/-- What a note says about the member that it stands for. -/
structure Selects (i₀ : Note) (s : AnalysisState) (i : Note) : Prop where
  loc : i.loc = i₀.loc
  typed : i.TypedIn s.types
  has : ∀ x, i.symbol = some x → s.tree.HasSymbol x
  type : ∀ x, i.symbol = some x → i.type = some (s.tree.symbol x).valueType ∨
    s.types.isParameter (s.tree.symbol x).valueType = true

theorem Selects.of_none (hs : s.Valid .bodies) (hi : i.symbol = none) :
    Selects i s { i with type := some .object } :=
  ⟨rfl, ⟨_, rfl, hs.types.has_object⟩, by simp [hi], by simp [hi]⟩

theorem memberOf_reads (hi : i.symbol = none) (ha : s.types.Has object) :
    Reads s (memberOf object i name) (Selects i) := by
  refine .of_valid fun hs => .get ?_
  split
  · exact .pure (.of_none hs hi)
  · split
    · exact .bind .fails fun _ _ _ _ => .of_valid fun ht => .pure (.of_none ht hi)
    · rename_i y hy
      refine .pure ⟨rfl, ⟨_, rfl, hs.types.has_memberType ha (hs.has_valueType _)⟩, ?_, ?_⟩
      all_goals rintro x ⟨⟩
      · exact hs.findMember hy
      · cases hp : s.types.isParameter (s.tree.symbol y).valueType with
        | true => exact .inr rfl
        | false => exact .inl (congrArg some (Catalog.memberType_eq hp))

theorem memberIn_reads (hi : i.symbol = none) : Reads s (memberIn owner i name) (Selects i) := by
  refine .of_valid fun hs => .tree ?_
  split
  · exact .bind .fails fun _ _ _ _ => .of_valid fun ht => .pure (.of_none ht hi)
  · rename_i hx
    obtain ⟨_, -, hx⟩ := Option.bind_eq_some_iff.mp hx
    refine .pure ⟨rfl, ⟨_, rfl, hs.has_valueType _⟩, ?_, ?_⟩
    all_goals rintro x ⟨⟩
    · exact hs.findLocal hx
    · exact .inl rfl

/-- A procedure is its own signature. -/
theorem signature?_reads :
    Reads s (signature? x) fun t o => (t.tree.symbol x).isCallable = true → o = some x := by
  refine .get ?_
  dsimp only
  split
  · exact .pure fun _ => rfl
  · rename_i hc
    split
    · split <;> exact .pure fun h => absurd h hc
    · exact .pure fun h => absurd h hc

theorem constructor?_reads : Reads s (constructor? t) fun u o => ∀ x, o = some x →
    u.tree.HasSymbol x ∧ (u.tree.symbol x).isCallable = true := by
  refine .of_valid fun hs => .get <| .pure fun x h => ?_
  obtain ⟨hx, hc⟩ := Option.filter_eq_some_iff.mp h
  exact ⟨hs.findMember hx, hc⟩

theorem checkEach_reads :
    Reads s (checkEach n ps es) fun _ _ => True := by
  induction ps generalizing s n es with
  | nil => exact .pure trivial
  | cons p ps ih =>
    cases es with
    | nil => exact .pure trivial
    | cons e es =>
      unfold checkEach
      refine .types ?_
      dsimp only
      split
      · exact .bind .fails fun _ _ _ _ => ih
      · exact ih

/-- What a call gives. Only a type parameter is replaced. -/
structure Yields (s : AnalysisState) (callee : Symbol) (a : TypeId) : Prop where
  has : s.types.Has a
  type : a = callee.returnType.getD .void ∨
    s.types.isParameter (callee.returnType.getD .void) = true

theorem resultType_reads (hc : ∀ a, callee.returnType = some a → s.types.Has a)
    (has : ∀ e ∈ as, s.types.Has e.typeId) :
    Reads s (resultType cx loc callee ts as) fun t a => Yields t callee a := by
  refine .of_valid fun hs => .types ?_
  dsimp only
  cases hp : s.types.isParameter (callee.returnType.getD .void) with
  | false =>
    refine .pure ⟨?_, .inl rfl⟩
    cases hr : callee.returnType with
    | none => exact hs.types.has_initial (by decide)
    | some a => exact hc a hr
  | true =>
    rw [if_neg (by simp)]
    split
    · exact typeOf_reads.mono fun t a ht ha => ⟨ha, .inr (ht.types.parameter _ hp)⟩
    · refine .pure ⟨?_, .inr hp⟩
      generalize hb : (callee.params.zip as).find? _ = b
      cases b with
      | none => exact hs.types.has_object
      | some b => exact has b.2 (List.of_mem_zip (List.mem_of_find?_eq_some hb)).2

theorem checkCall_reads (has : ∀ e ∈ as, s.types.Has e.typeId) :
    Reads s (checkCall cx loc (s.tree.symbol x) ts as) fun t a =>
      (t.Failed ∨ as.length = (s.tree.symbol x).params.length) ∧
        Yields t (s.tree.symbol x) a := by
  refine .of_valid fun hs => ?_
  have hresult (t : AnalysisState) (ht : s.Still t) :
      Reads t (resultType cx loc (s.tree.symbol x) ts as) fun t a => Yields t (s.tree.symbol x) a :=
    resultType_reads (fun a ha => ht.has ((hs.has_of_symbol x).2.1 a ha))
      fun e he => ht.has (has e he)
  unfold checkCall
  split
  · exact .bind .fails fun _ t ht hfail => (hresult t ht).mono fun u _ hu h =>
      ⟨.inl (hu.failed hfail), h⟩
  · rename_i hcount
    exact checkEach_reads.bind fun _ t ht _ => (hresult t ht).mono fun _ _ _ h =>
      ⟨.inr (Decidable.not_not.mp hcount), h⟩

/-! ### Expressions -/

mutual

theorem expr_reads : (e : Expr Note) → (∀ n ∈ e.nodes, n.Fresh) → ∀ {s}, cx.Typed s.types →
    Reads s (expr cx e) fun t e' => e'.Read s t cx e
  | .literal i v, h, s, hcx => by
    have hi : i.symbol = none := h _ (Expr.mem_nodes_self _)
    unfold expr
    refine .of_valid fun hs => .pure (.of_parts (.nil (.refl s)) (.inr rfl)
      ⟨_, rfl, hs.types.has_initial ?_⟩ (by simp [Expr.info, hi]))
    cases v <;> (simp only [Literal.typeId]; decide)
  | .name i n, h, s, hcx => by
    have hi : i.symbol = none := h _ (Expr.mem_nodes_self _)
    unfold expr
    refine .of_valid fun hs => resolve_reads.bind fun o t ht ho => ?_
    cases o with
    | none =>
      exact .bind .fails fun _ u hu hfail => .of_valid fun hvu => .pure
        (.of_parts (.nil (ht.trans hu)) (.inl hfail) ⟨_, rfl, hvu.types.has_object⟩
          (by simp [Expr.info, hi]) rfl (.inl hfail))
    | some x =>
      refine Reads.refer.bind fun _ u hu _ => .symbol (.of_valid fun hvu => .pure ?_)
      refine .of_parts (.nil (ht.trans hu)) (.inr ⟨x, rfl, rfl⟩) ⟨_, rfl, hvu.has_valueType x⟩ ?_
        rfl (.inr ⟨x, rfl, ho x rfl⟩)
      rintro y ⟨⟩
      exact (ht.trans hu).tree.hasSymbol x ((ho x rfl).hasSymbol hs)
  | .me i, h, s, hcx => by
    have hi : i.symbol = none := h _ (Expr.mem_nodes_self _)
    unfold expr
    refine classType?_reads.bind fun o t ht ho => ?_
    cases o with
    | none =>
      exact .bind .fails fun _ u hu hfail => .of_valid fun hvu => .pure
        (.of_parts (.nil (ht.trans hu)) (.inl hfail) ⟨_, rfl, hvu.types.has_object⟩
          (by simp [Expr.info, hi]))
    | some a =>
      obtain ⟨hadded, hhas⟩ := ho a rfl
      exact .pure (.of_parts (.nil ht) (.inr ⟨a, rfl, hadded⟩) ⟨a, rfl, hhas⟩
        (by simp [Expr.info, hi]))
  | .binary i op l r, h, s, hcx => by
    rw [Expr.nodes, List.forall_mem_cons, List.forall_mem_append] at h
    have hi : i.symbol = none := h.1
    unfold expr
    refine (expr_reads l h.2.1 hcx).bind fun l t ht hl =>
      (expr_reads r h.2.2 (hcx.mono ht.keeps)).bind fun r u hu hr => .of_valid fun hvu => .types ?_
    refine (Reads.reportAll fun p hp => Catalog.not_internal_binaryRule hp).bind
      fun _ v hv _ => .pure ?_
    have hyield : v.types.Yields (u.types.binaryRule op l.typeId r.typeId).1 op :=
      Catalog.yields_binaryRule.mono hv.types.parameter
    exact .of_parts ((hl.seq hr.toReading).after hv) (.inr ⟨_, rfl, hyield⟩)
      ⟨_, rfl, hv.has (hvu.types.has_binaryRule (hu.has hl.has) hr.has)⟩ (by simp [Expr.info, hi])
      (by rw [Expr.map, Expr.map, hl.same, hr.same])
  | .unary i op e, h, s, hcx => by
    rw [Expr.nodes, List.forall_mem_cons] at h
    have hi : i.symbol = none := h.1
    unfold expr
    refine (expr_reads e h.2 hcx).bind fun e t _ he => .of_valid fun hvt => .types (.symbol? ?_)
    refine (Reads.reportAll fun p hp => Catalog.not_internal_unaryRule hp).bind
      fun _ u hu hfail => .pure ?_
    refine .of_parts (he.toReading.after hu) ?_ ⟨_, rfl, hu.has (hvt.types.has_unaryRule he.has)⟩
      (by simp [Expr.info, hi]) (by rw [Expr.map, Expr.map, he.same])
    by_cases hf : u.Failed
    · exact .inl hf
    refine .inr ⟨fun hop => congrArg some (Catalog.type_unaryRule hop), fun hop => ?_⟩
    cases hp : t.types.isParameter e.typeId with
    | true =>
      have hp := hu.types.parameter _ hp
      exact ⟨.inr hp, fun x hx => ⟨(he.after hu).symbol x hx, .inr hp⟩⟩
    | false =>
      refine ⟨.inl ?_, fun x hx => ⟨(he.after hu).symbol x hx, .inl fun hk => ?_⟩⟩
      · exact Bool.of_not_eq_false fun hn =>
          hf (hfail ⟨.stepOperand op.text, Catalog.stepOperand_mem hop hn hp, rfl⟩)
      · refine hf (hfail ⟨.assignToConstant (t.tree.symbol x).name, ?_, rfl⟩)
        rw [hx]
        exact Catalog.mem_unaryRule hop hp ((hu.tree.kind x (he.symbol x hx)).symm.trans hk)
  | .member i e₀ n, h, s, hcx => by
    rw [Expr.nodes, List.forall_mem_cons] at h
    have hi : i.symbol = none := h.1
    unfold expr
    refine (expr_reads e₀ h.2 hcx).bind fun e t _ he => .symbol? ?_
    have hdone (u : AnalysisState) (j : Note) (hu : t.Still u) (hj : Selects i u j) :
        (Expr.member j e n).Read s u cx (.member i e₀ n) :=
      .of_parts (he.toReading.after hu) (.inr hj.type) hj.typed hj.has
        (by rw [Expr.map, Expr.map, hj.loc, he.same])
    cases e.info.symbol with
    | none => exact (memberOf_reads hi he.has).bind fun j u hu hj => .pure (hdone u j hu hj)
    | some x =>
      dsimp only [Option.map]
      split
      · exact (memberIn_reads hi).bind fun j u hu hj => .pure (hdone u j hu hj)
      · exact (memberOf_reads hi he.has).bind fun j u hu hj => .pure (hdone u j hu hj)
  | .withMember i n, h, s, hcx => by
    have hi : i.symbol = none := h _ (Expr.mem_nodes_self _)
    unfold expr
    split
    · exact .bind .fails fun _ u hu hfail => .of_valid fun hvu => .pure
        (.of_parts (.nil hu) (.inl hfail) ⟨_, rfl, hvu.types.has_object⟩
          (by simp [Expr.info, hi]) rfl (.inl hfail))
    · rename_i a as hw
      exact (memberOf_reads hi (hcx a (hw ▸ List.mem_cons_self))).bind fun j u hu hj => .pure
        (.of_parts (.nil hu) (.inr hj.type) hj.typed hj.has (by rw [Expr.map, Expr.map, hj.loc])
          (.inr (by simp [Finds, hw])))
  | .call i e₀ ts as₀, h, s, hcx => by
    rw [Expr.nodes, List.forall_mem_cons, List.forall_mem_append] at h
    have hi : i.symbol = none := h.1
    unfold expr
    refine (expr_reads e₀ h.2.1 hcx).bind fun e t ht he =>
      (exprs_reads as₀ h.2.2 (hcx.mono ht.keeps)).bind fun as u hu ⟨has, hargs, hsame⟩ => ?_
    have hdone (v : AnalysisState) (j : Note) (hloc : j.loc = i.loc) (hv : u.Still v) (htyped : j.TypedIn v.types)
        (hj : ∀ x, j.symbol = some x → e.info.symbol = some x)
        (ha : v.Failed ∨ ∀ x, e.info.symbol = some x → (v.tree.symbol x).isCallable = true →
          v.Answers x as.length j) : (Expr.call j e ts as).Read s v cx (.call i e₀ ts as₀) := by
      have hsym := (he.after (hu.trans hv)).symbol
      exact .of_parts ((he.seq has).after hv) (ha.imp_right fun ha x hx => ⟨hsym x hx, ha x hx⟩)
        htyped (fun x hx => hsym x (hj x hx)) (by rw [Expr.map, Expr.map, hloc, he.same, hsame])
    cases hx : e.info.symbol with
    | none =>
      exact .of_valid fun hvu => .pure (hdone u _ rfl (.refl u) ⟨_, rfl, hvu.types.has_object⟩
        (by simp [hi]) (.inr (by simp [hx])))
    | some x =>
      refine signature?_reads.bind fun o v hv hown => ?_
      cases o with
      | none =>
        exact .symbol <| .bind .fails fun _ w hw hfail => .of_valid fun hvw =>
          .pure (hdone w _ rfl (hv.trans hw) ⟨_, rfl, hvw.types.has_object⟩ (by simp [hi])
            (.inl hfail))
      | some y =>
        refine .symbol <| (checkCall_reads fun a ha => hv.has (hargs a ha)).bind
          fun b w hw ⟨hcount, hb⟩ => .pure (hdone w _ rfl (hv.trans hw) ⟨b, rfl, hb.has⟩ (by simp [hx])
            (hcount.imp_right fun hcount z hz hc => ?_))
        cases hx.symm.trans hz
        have hhas := (he.after (hu.trans hv)).symbol x hx
        have hcv : (v.tree.symbol x).isCallable = true := by
          rw [Symbol.isCallable, ← hw.tree.kind x hhas]
          exact hc
        cases hown hcv
        have hb := hb.type
        rw [← hw.tree.symbol x hhas (Symbol.kind_ne_delegate hcv)] at hcount hb
        exact ⟨hcount, hb.imp_left (congrArg some)⟩
  | .index i e₀ is₀, h, s, hcx => by
    rw [Expr.nodes, List.forall_mem_cons, List.forall_mem_append] at h
    have hi : i.symbol = none := h.1
    unfold expr
    refine (expr_reads e₀ h.2.1 hcx).bind fun e t ht he =>
      (exprs_reads is₀ h.2.2 (hcx.mono ht.keeps)).bind fun is u hu ⟨his, _, hsame⟩ =>
        .of_valid fun hvu => .types ?_
    have hdone (v : AnalysisState) (j : Note) (hloc : j.loc = i.loc) (hv : u.Still v)
        (htyped : j.TypedIn v.types) (hj : j.symbol = none) :
        (Expr.index j e is).Read s v cx (.index i e₀ is₀) :=
      .of_parts ((he.seq his).after hv) (.inr trivial) htyped (by simp [Expr.info, hj])
        (by rw [Expr.map, Expr.map, hloc, he.same, hsame])
    split
    · rename_i a _ ha
      have hhas := hvu.types.has_element ha (hu.has he.has)
      refine (Reads.forIn fun p hp v => (Reads.report ?_).bind fun _ _ _ _ => .pure rfl).bind
        fun _ v hv _ => ?_
      · exact Catalog.not_internal_indexProblems hp
      · dsimp only
        split
        · exact .bind .fails fun _ w hw _ => .pure
            (hdone w _ rfl (hv.trans hw) ⟨a, rfl, (hv.trans hw).has hhas⟩ hi)
        · exact .pure (hdone v _ rfl hv ⟨a, rfl, hv.has hhas⟩ hi)
    · exact .bind .fails fun _ v hv _ => .of_valid fun hvv => .pure
        (hdone v _ rfl hv ⟨_, rfl, hvv.types.has_object⟩ hi)
  | .new i r as, h, s, hcx => by
    rw [Expr.nodes, List.forall_mem_cons] at h
    have hi : i.symbol = none := h.1
    have hdone (v : AnalysisState) (j : Note) (as' : List (Expr Note)) (hloc : j.loc = i.loc)
        (hsame : Expr.mapList Note.loc as' = Expr.mapList Note.loc as)
        (has : s.Reading v cx (Expr.nodesList as')) (htyped : j.TypedIn v.types)
        (hj : ∀ x, j.symbol = some x → v.tree.HasSymbol x ∧ (v.Failed ∨
          (v.tree.symbol x).isCallable = true ∧ as'.length = (v.tree.symbol x).params.length)) :
        (Expr.new j r as').Read s v cx (.new i r as) := by
      refine .of_parts has ?_ htyped (fun x hx => (hj x hx).1) (by rw [Expr.map, Expr.map, hloc, hsame])
      by_cases hf : v.Failed
      · exact .inl hf
      · exact .inr fun x hx => (hj x hx).2.resolve_left hf
    unfold expr
    refine typeOf_reads.bind fun ty t ht hty => .types ?_
    split
    · exact .bind .fails fun _ u hu _ =>
        (exprs_reads as h.2 (hcx.mono (ht.trans hu).keeps)).bind fun as v hv ⟨has, _, hsame⟩ =>
          .pure (hdone v _ as rfl hsame (has.before (ht.trans hu)) ⟨ty, rfl, (hu.trans hv).has hty⟩
            (by simp [hi]))
    · refine constructor?_reads.bind fun o u hu ho => ?_
      have hcx' := hcx.mono (ht.trans hu).keeps
      cases o with
      | none =>
        exact (exprs_reads as h.2 hcx').bind fun as v hv ⟨has, _, hsame⟩ =>
          .pure (hdone v _ as rfl hsame (has.before (ht.trans hu)) ⟨ty, rfl, (hu.trans hv).has hty⟩
            (by simp [hi]))
      | some x =>
        obtain ⟨hhas, hc⟩ := ho x rfl
        refine (exprs_reads as h.2 hcx').bind fun as v hv ⟨has, hargs, hsame⟩ => .symbol <|
          (checkCall_reads hargs).bind fun _ w hw ⟨hcount, _⟩ =>
            .pure (hdone w _ as rfl hsame ((has.before (ht.trans hu)).after hw)
              ⟨ty, rfl, (hu.trans (hv.trans hw)).has hty⟩ fun y hy => ?_)
        cases hy
        have hv' := hv.tree.symbol x hhas (Symbol.kind_ne_delegate hc)
        have hw' := (hv.trans hw).tree.symbol x hhas (Symbol.kind_ne_delegate hc)
        refine ⟨(hv.trans hw).tree.hasSymbol x hhas, hcount.imp_right fun hcount => ?_⟩
        rw [hw']
        exact ⟨hc, hv' ▸ hcount⟩
  | .cast i e r, h, s, hcx => by
    rw [Expr.nodes, List.forall_mem_cons] at h
    have hi : i.symbol = none := h.1
    unfold expr
    exact (expr_reads e h.2 hcx).bind fun e t _ he => typeOf_reads.bind fun a u hu ha =>
      .pure (.of_parts (he.toReading.after hu) (.inr trivial) ⟨a, rfl, ha⟩ (by simp [Expr.info, hi])
        (by rw [Expr.map, Expr.map, he.same]))
  | .interpolated i ps, h, s, hcx => by
    rw [Expr.nodes, List.forall_mem_cons] at h
    have hi : i.symbol = none := h.1
    unfold expr
    exact (parts_reads ps h.2 hcx).bind fun ps t _ ⟨hps, hsame⟩ => .of_valid fun hvt =>
      .pure (.of_parts hps (.inr rfl) ⟨_, rfl, hvt.types.has_initial (by decide)⟩
        (by simp [Expr.info, hi]) (by rw [Expr.map, Expr.map, hsame]))
  | .collection i es, h, s, hcx => by
    rw [Expr.nodes, List.forall_mem_cons] at h
    have hi : i.symbol = none := h.1
    unfold expr
    refine (exprs_reads es h.2 hcx).bind fun es t _ ⟨hes, hhas, hsame⟩ => ?_
    have helement (ht : t.Valid .bodies) : t.types.Has (t.types.elementType (es.map Expr.typeId)) :=
      ht.types.has_elementType (by simpa using hhas)
    exact (arrayOf_reads helement).bind fun a u hu ha =>
      .pure (.of_parts (hes.after hu) (.inr trivial) ⟨a, rfl, ha⟩ (by simp [Expr.info, hi])
        (by rw [Expr.map, Expr.map, hsame]))
  | .addressOf i e, h, s, hcx => by
    rw [Expr.nodes, List.forall_mem_cons] at h
    unfold expr
    exact (expr_reads e h.2 hcx).bind fun e t _ he => (pointerTo_reads he.has).bind
      fun a u hu ⟨hadded, ha⟩ => .pure (.of_parts (he.toReading.after hu) (.inr ⟨a, rfl, hadded⟩)
        ⟨a, rfl, ha⟩ (he.after hu).symbol (by rw [Expr.map, Expr.map, he.same]))

theorem exprs_reads : (es : List (Expr Note)) → (∀ n ∈ Expr.nodesList es, n.Fresh) → ∀ {s},
    cx.Typed s.types → Reads s (exprs cx es) fun t es' =>
      s.Reading t cx (Expr.nodesList es') ∧ (∀ e ∈ es', t.types.Has e.typeId) ∧
        Expr.mapList Note.loc es' = Expr.mapList Note.loc es
  | [], _, s, _ => by
    unfold exprs
    exact .pure ⟨.nil (.refl s), by simp, rfl⟩
  | e :: es, h, s, hcx => by
    unfold exprs
    rw [Expr.nodesList, List.forall_mem_append] at h
    refine (expr_reads e h.1 hcx).bind fun e t ht he =>
      (exprs_reads es h.2 (hcx.mono ht.keeps)).bind fun es u hu ⟨hes, hhas, hsame⟩ =>
        .pure ⟨?_, ?_, by rw [Expr.mapList, Expr.mapList, he.same, hsame]⟩
    · rw [Expr.nodesList]
      exact he.seq hes
    · exact List.forall_mem_cons.mpr ⟨hu.has he.has, hhas⟩

theorem parts_reads : (ps : List (Part Note)) → (∀ n ∈ Expr.nodesParts ps, n.Fresh) → ∀ {s},
    cx.Typed s.types → Reads s (parts cx ps) fun t ps' =>
      s.Reading t cx (Expr.nodesParts ps') ∧ Expr.mapParts Note.loc ps' = Expr.mapParts Note.loc ps
  | [], _, s, _ => by
    unfold parts
    exact .pure ⟨.nil (.refl s), rfl⟩
  | .text v :: ps, h, s, hcx => by
    unfold parts
    exact (parts_reads ps h hcx).bind fun ps t _ ⟨hps, hsame⟩ =>
      .pure ⟨hps, by rw [Expr.mapParts, Expr.mapParts, hsame]⟩
  | .expr e :: ps, h, s, hcx => by
    unfold parts
    rw [Expr.nodesParts, List.forall_mem_append] at h
    refine (expr_reads e h.1 hcx).bind fun e t ht he =>
      (parts_reads ps h.2 (hcx.mono ht.keeps)).bind fun ps u hu ⟨hps, hsame⟩ =>
        .pure ⟨?_, by rw [Expr.mapParts, Expr.mapParts, he.same, hsame]⟩
    rw [Expr.nodesParts]
    exact he.seq hps

end

end Analyze

end BasicSSA
