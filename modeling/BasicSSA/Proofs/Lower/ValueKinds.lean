import BasicSSA.Proofs.Lower.Settled

/-!
# The kinds of the values of expressions

The value of an expression is stored as the type says that analysis has given to the expression. A
variable of the module whose type is a type parameter is different when it is read as a member:
analysis takes what the parameter is bound to for that object, but the value keeps the type of the
variable.
-/

namespace BasicSSA

open IL (Value Ty Kind Global Module Build)

namespace Lower

/-- A variable of the module whose type is a type parameter. -/
def Env.isGenericGlobal (env : Env) (x : SymbolId) : Bool :=
  !env.isCallable x && (env.globals.lookup x).isSome &&
    env.types.isParameter (env.tree.symbol x).valueType

/-- Whether an expression gives the value of such a variable as a member, or as it was before a
step. -/
def Env.readsGeneric (env : Env) : Expr Note → Bool
  | .member i _ _ | .withMember i _ => i.symbol.any env.isGenericGlobal
  | .unary _ .plus e | .unary _ .postInc e | .unary _ .postDec e => env.readsGeneric e
  | _ => false

/-- A value is stored as the type of its expression says, or as the type of the variable that the
expression reads. -/
def Env.Matches (env : Env) (e : Expr Note) (v : Value) : Prop :=
  if env.readsGeneric e then v.type.kind = .ptr ∧ v.isNumber = false
  else v.type.kind = (env.typeOf e.info).kind

theorem Env.Matches.plain {env : Env} (hg : env.readsGeneric e = false)
    (h : v.type.kind = (env.typeOf e.info).kind) : env.Matches e v := by
  rw [Matches, hg]
  exact h

theorem some_ok :
    (do return some (← x) : Lower (Option Value)) s = .ok (some v, s') ↔ x s = .ok (v, s') := by
  rw [bind_ok]
  constructor
  · rintro ⟨w, t, hw, h⟩
    obtain ⟨he, rfl⟩ := pure_ok.mp h
    cases he
    exact hw
  · exact fun h => ⟨v, s', h, rfl⟩

theorem valued_ok (h : valued x s = .ok (v, s')) :
    x s = .ok (some v, s') := by
  obtain ⟨o, t, hx, h⟩ := bind_ok.mp h
  cases o with
  | none => cases h
  | some w =>
    obtain ⟨rfl, rfl⟩ := pure_ok.mp h
    exact hx

theorem called_delivers : Delivers
    (do return some (← needed e (← callProcedure p site x self []))) fun v =>
      ∀ a, v = some a → a.type = p.returnTypeAt site x ∧ (p.returnTypeAt site x).isVoid = false :=
  callProcedure_delivers.bind fun _ hv => (Delivers.needed hv).bind fun _ hv => .pure (by
    rintro _ ⟨⟩
    exact hv)

theorem kind_returnTypeAt {env : Env} (hv : (env.returnTypeAt i x).isVoid = false)
    (ht : ∀ t, (env.tree.symbol x).returnType = some t →
      i.type = some t ∨ env.types.isParameter t = true) :
    (env.returnTypeAt i x).kind = (env.typeOf i).kind := by
  unfold Env.returnTypeAt at hv ⊢
  dsimp only at hv ⊢
  split at hv
  · rename_i t _ hr
    split at hv
    · rw [if_pos ‹_›]
    · rw [if_neg ‹_›, Env.typeOf, (ht t hr).resolve_right ‹_›]
  · cases hv

/-- An operator gives a value of its type. Only `+` and the minus sign of a known number pass on what
they are given. -/
theorem kind_unary (hs : stepOp? op = none)
    (hplus : op = .plus → v.type.kind = (p.typeOf i).kind)
    (hneg : op = .neg → v.isNumber = true → v.type.kind = (p.typeOf i).kind)
    (hnot : op = .not → (p.typeOf i).kind = .i1) (h : unary p i op v s = .ok (w, s')) :
    w.type.kind = (p.typeOf i).kind := by
  unfold unary at h
  split at h
  · obtain ⟨rfl, -⟩ := pure_ok.mp h
    exact hneg rfl rfl
  · obtain ⟨rfl, -⟩ := pure_ok.mp h
    exact hneg rfl rfl
  · obtain ⟨_, _, -, h⟩ := bind_ok.mp h
    exact congrArg Ty.kind (Delivers.type_appendResult _ _ _ h)
  · obtain ⟨rfl, -⟩ := pure_ok.mp h
    exact (hnot rfl).symm
  · exact congrArg Ty.kind (Delivers.type_appendResult _ _ _ h)
  · exact congrArg Ty.kind (Delivers.type_appendResult _ _ _ h)
  · obtain ⟨rfl, -⟩ := pure_ok.mp h
    cases op with
    | plus => exact hplus rfl
    | neg | not | deref => simp_all
    | preInc | preDec | postInc | postDec => cases hs

/-- `++` and `--` give the old value, the new one, or what a variable now holds. -/
theorem stepped_ok (h : stepped p op e old new s = .ok (some v, s')) :
    UnaryOp.isPost op = true ∧ v = old ∨ op.isPost = false ∧ (v = new ∨
      ∃ j n x, e = .name j n ∧ j.symbol = some x ∧ v.type = p.typeOfSymbol x) := by
  unfold stepped at h
  split at h
  · exact .inl ⟨‹_›, (Option.some.inj (pure_ok.mp h).1).symm⟩
  · refine .inr ⟨Bool.eq_false_iff.mpr ‹_›, ?_⟩
    cases hx : p.bound? e with
    | none =>
      simp only [hx] at h
      exact .inl (Option.some.inj (pure_ok.mp h).1).symm
    | some x =>
      simp only [hx] at h
      cases e with
      | name j n =>
        exact .inr ⟨j, n, x, rfl, (Option.filter_eq_some_iff.mp hx).1,
          read_delivers _ _ _ (some_ok.mp h)⟩
      | _ => cases hx

end Lower

namespace Analysis.Settled

open Lower

variable {a : Analysis} (h : a.Settled)

include h

omit h in
/-- A variable of the module is read as a value of its type. A constant that is known has it too. -/
theorem kind_readGlobal (hp : p.toEnv = a.env)
    (hnames : (a.globals.map (·.name)).Nodup) (hs : s.builder.finished.globals = a.globals)
    (hx : a.env.globals.lookup x = some name) (hr : readSymbol p i x s = .ok (v, s')) :
    v.type.kind = (a.env.typeOfSymbol x).kind ∧
      ((a.env.typeOfSymbol x).kind = .ptr → v.isNumber = false) := by
  unfold readSymbol at hr
  rw [hp, hx] at hr
  obtain ⟨t, t', hget, hr⟩ := bind_ok.mp hr
  cases hget
  cases hknown : (s.builder.finished.global? name).bind Global.known? with
  | some w =>
    simp only [hknown] at hr
    obtain ⟨rfl, -⟩ := pure_ok.mp hr
    obtain ⟨g, hg, hk⟩ := Option.bind_eq_some_iff.mp hknown
    have hmem : g ∈ a.globals := hs ▸ List.mem_of_find?_eq_some hg
    have hname : g.name = name := by simpa using List.find?_some hg
    -- The global of that name is the one that the symbol was declared with.
    obtain ⟨j, init, isConstant, hitem, hy⟩ := exists_global hx
    have hown : _ ∈ a.globals := List.mem_filterMap.mpr ⟨_, hitem, by rw [Item.global?, hy]; rfl⟩
    have heq := List.inj_on_of_nodup_map hnames hmem hown hname
    rw [heq] at hk
    simp only [Global.known?, Option.ite_none_right_eq_some] at hk
    obtain ⟨e, -, he⟩ := Option.bind_eq_some_iff.mp hk.2
    exact Expr.kind_constant? he
  | none =>
    simp only [hknown] at hr
    obtain ⟨k, rfl⟩ := Delivers.appendResult _ _ _ hr
    exact ⟨rfl, fun _ => rfl⟩

section

variable {p : Place} {s : LowerState} {fields : Place → Value → TypeId → Lower Unit}
  (hp : p.toEnv = a.env)

include hp

omit h in
theorem kind_called (hc : p.isCallable x = true)
    (ht : i.type = some (a.tree.symbol x).valueType ∨
      a.types.isParameter (a.tree.symbol x).valueType = true)
    (hr : (do return some (← needed e (← callProcedure p i x self [])) : Lower _) s =
      .ok (some v, s')) : v.type.kind = (a.env.typeOf i).kind := by
  obtain ⟨hv, hvoid⟩ := called_delivers _ _ _ hr v rfl
  rw [hp] at hv hvoid hc
  rw [hv]
  refine kind_returnTypeAt hvoid fun t hr => ?_
  have hvalue : (a.tree.symbol x).valueType = t := by
    have hcall : (a.tree.symbol x).isCallable = true := hc
    rw [Symbol.valueType, if_pos hcall, show (a.tree.symbol x).returnType = some t from hr,
      Option.getD_some]
  exact hvalue ▸ ht

variable (hnames : (a.globals.map (·.name)).Nodup) (hs : s.builder.finished.globals = a.globals)

include hnames hs

theorem kind_readName (ht : i.type = some (a.tree.symbol x).valueType)
    (hr : readSymbol p i x s = .ok (v, s')) : v.type.kind = (a.env.typeOf i).kind := by
  have hkind : (a.env.typeOfSymbol x).kind = (a.env.typeOf i).kind := by
    rw [h.kind_typeOfSymbol, Env.typeOf, ht]
    rfl
  cases hx : a.env.globals.lookup x with
  | some name => exact (kind_readGlobal hp hnames hs hx hr).1.trans hkind
  | none =>
    unfold readSymbol at hr
    simp only [hp, hx] at hr
    cases hk : (a.env.tree.symbol x).kind <;> simp only [hk] at hr
    case field =>
      obtain ⟨_, _, -, hr⟩ := bind_ok.mp hr
      exact congrArg Ty.kind (Delivers.type_appendResult _ _ _ hr)
    all_goals first
      | rw [read_delivers _ _ _ hr, hp]
        exact hkind
      | cases hr

theorem kind_readMember (hc : p.isCallable x = false) (hx : (a.env.globals.lookup x).isSome)
    (ht : i.type = some (a.tree.symbol x).valueType ∨
      a.types.isParameter (a.tree.symbol x).valueType = true)
    (hr : readSymbol p i x s = .ok (v, s')) :
    if a.env.isGenericGlobal x then v.type.kind = .ptr ∧ v.isNumber = false
    else v.type.kind = (a.env.typeOf i).kind := by
  rw [hp] at hc
  have hgeneric : a.env.isGenericGlobal x = a.types.isParameter (a.tree.symbol x).valueType := by
    rw [Env.isGenericGlobal, hc, hx]
    rfl
  rw [hgeneric]
  split
  · rename_i hparam
    obtain ⟨name, hname⟩ := Option.isSome_iff_exists.mp hx
    obtain ⟨hv, hnumber⟩ := kind_readGlobal hp hnames hs hname hr
    have hptr : (a.env.typeOfSymbol x).kind = .ptr := by
      rw [h.kind_typeOfSymbol, h.lawful.kind_of_isParameter hparam]
    exact ⟨hv.trans hptr, hnumber hptr⟩
  · rename_i hparam
    exact h.kind_readName hp hnames hs (ht.resolve_right hparam) hr

theorem kind_member (ht : ∀ x, i.symbol = some x →
      i.type = some (a.tree.symbol x).valueType ∨
        a.types.isParameter (a.tree.symbol x).valueType = true)
    (hr : readMember p i n isContainer object s = .ok (some v, s')) :
    if i.symbol.any a.env.isGenericGlobal then v.type.kind = .ptr ∧ v.isNumber = false
    else v.type.kind = (a.env.typeOf i).kind := by
  unfold readMember at hr
  cases hx : i.symbol with
  | none =>
    simp only [hx] at hr
    cases hr
  | some x =>
    simp only [hx] at hr
    rw [Option.any_some]
    split at hr
    · rename_i hc
      obtain ⟨_, _, -, hr⟩ := bind_ok.mp hr
      rw [if_neg (by simp [Env.isGenericGlobal, ← hp, hc])]
      exact kind_called hp hc (ht x hx) hr
    · rename_i hc
      split at hr
      · exact h.kind_readMember hp hnames hs (Bool.eq_false_iff.mpr hc) (hp ▸ ‹_›) (ht x hx)
          (some_ok.mp hr)
      · obtain ⟨_, _, -, hr⟩ := bind_ok.mp hr
        rw [if_neg (by simp_all [Env.isGenericGlobal]),
          Delivers.type_appendResult _ _ _ (some_ok.mp hr), hp]

variable (hme : ∀ v, p.me = some v → v.type.kind = .ptr)

include hme

/-- The value of an expression has the kind of the type that analysis has found. -/
theorem kind_expr? : (e : Expr Note) → ∀ {v s'}, (∀ n ∈ e.nodes, n ∈ a.nodes) →
    a.types.isVoid e.typeId = false → expr? fields p e s = .ok (some v, s') → a.env.Matches e v
  | .literal i l, v, s', hn, _, hr => by
    have hj : i.type = some l.typeId := h.judges (hn _ (Expr.mem_nodes_self _))
    unfold expr? at hr
    cases (pure_ok.mp hr).1
    refine .plain rfl ?_
    rw [hp]
    show (l.value (a.types.lowered i.type)).type.kind = (a.types.lowered i.type).kind
    rw [hj]
    exact l.kind_value a.types
  | .me i, v, s', hn, _, hr => by
    obtain ⟨t, ht, hadded⟩ : ∃ t, i.type = some t ∧ t.Added :=
      h.judges (hn _ (Expr.mem_nodes_self _))
    unfold expr? at hr
    refine .plain rfl ?_
    rw [me_delivers hme _ _ _ (some_ok.mp hr)]
    show _ = (a.types.lowered i.type).kind
    rw [ht, h.lawful.kind_of_added hadded]
  | .name i n, v, s', hn, _, hr => by
    obtain ⟨x, hx, ht⟩ := h.judges (hn _ (Expr.mem_nodes_self _))
    unfold expr? at hr
    simp only [hx] at hr
    refine .plain rfl ?_
    split at hr
    · obtain ⟨_, _, -, hr⟩ := bind_ok.mp hr
      exact kind_called hp ‹_› (.inl ht) hr
    · exact h.kind_readName hp hnames hs ht (some_ok.mp hr)
  | .binary i op l r, v, s', hn, _, hr => by
    obtain ⟨t, ht, hy⟩ := h.judges (hn _ (Expr.mem_nodes_self _))
    unfold expr? at hr
    obtain ⟨_, _, -, hr⟩ := bind_ok.mp hr
    obtain ⟨_, _, -, hr⟩ := bind_ok.mp hr
    refine .plain rfl ?_
    rw [binary_delivers _ _ _ (some_ok.mp hr), hp]
    show _ = (a.types.lowered i.type).kind
    cases op with
    | eq | ne | lt | le | gt | ge | concat =>
      rw [ht, hy]
      rfl
    | _ => rfl
  | .unary i op e, v, s', hn, hvoid, hr => by
    have hj := h.judges (hn _ (Expr.mem_nodes_self _))
    have hnodes : ∀ n ∈ e.nodes, n ∈ a.nodes := fun n hm => hn n (by simp [Expr.nodes, hm])
    have htype (hop : op ≠ .deref) (hnot : op ≠ .not) : i.type = some e.typeId := by
      rw [hj.1 hop, if_neg hnot]
    have hkind (hop : op ≠ .deref) (hnot : op ≠ .not) :
        (a.env.typeOf e.info).kind = (a.env.typeOf i).kind := by
      rw [Env.typeOf, Env.typeOf, htype hop hnot]
      exact (h.lawful.kind_getD _).symm
    -- The operand is not void if its type is that of the whole expression.
    have hoperand (hop : op ≠ .deref) (hnot : op ≠ .not) {w t} (hw : expr? fields p e s = .ok (some w, t)) :
        if a.env.readsGeneric e then w.type.kind = .ptr ∧ w.isNumber = false
        else w.type.kind = (a.env.typeOf i).kind := by
      rw [← hkind hop hnot]
      refine kind_expr? e hnodes ?_ hw
      rwa [Expr.typeId, show (Expr.unary i op e).info.type = _ from htype hop hnot] at hvoid
    unfold expr? at hr
    cases hstep : stepOp? op with
    | none =>
      simp only [hstep] at hr
      obtain ⟨w, t, hw, hr⟩ := bind_ok.mp hr
      have hw := valued_ok hw
      have hr := some_ok.mp hr
      by_cases hplus : op = .plus
      · subst hplus
        obtain ⟨rfl, -⟩ := pure_ok.mp hr
        exact hoperand (by decide) (by decide) hw
      · have hgeneric : a.env.readsGeneric (.unary i op e) = false := by
          cases op with
          | neg | not | deref => rfl
          | plus => exact absurd rfl hplus
          | _ => cases hstep
        refine .plain hgeneric ?_
        have hnot : op = .not → (p.typeOf i).kind = .i1 := by
          rintro rfl
          rw [hp, Env.typeOf, hj.1 (by decide)]
          rfl
        have hneg : op = .neg → w.isNumber = true → w.type.kind = (p.typeOf i).kind := by
          rintro rfl hnumber
          have hw := hoperand (by decide) (by decide) hw
          rw [hp]
          split at hw
          · cases hw.2.symm.trans hnumber
          · exact hw
        rw [kind_unary hstep (fun hop => absurd hop hplus) hneg hnot hr, hp]
        rfl
    | some step =>
      simp only [hstep] at hr
      have hop : op ≠ .deref ∧ op ≠ .not ∧ step ≠ .concat := by
        cases op <;> cases hstep <;> decide
      obtain ⟨old, _, hold, hr⟩ := bind_ok.mp hr
      obtain ⟨new, _, hnew, hr⟩ := bind_ok.mp hr
      obtain ⟨_, _, -, hr⟩ := bind_ok.mp hr
      have hnew : new.type.kind = (a.env.typeOf i).kind := by
        rw [arith_delivers _ _ _ hnew, if_neg hop.2.2, hp]
        exact hkind hop.1 hop.2.1
      rcases stepped_ok hr with ⟨hpost, rfl⟩ | ⟨hpre, hv⟩
      · have hgeneric : a.env.readsGeneric (.unary i op e) = a.env.readsGeneric e := by
          cases op with
          | postInc | postDec => rfl
          | _ => cases hpost
        rw [Env.Matches, hgeneric]
        exact hoperand hop.1 hop.2.1 (valued_ok hold)
      · have hgeneric : a.env.readsGeneric (.unary i op e) = false := by
          cases op with
          | preInc | preDec => rfl
          | postInc | postDec => cases hpre
          | _ => cases hstep
        refine .plain hgeneric ?_
        rcases hv with rfl | ⟨j, n, x, rfl, hx, hv⟩
        · exact hnew
        · obtain ⟨y, hy, ht⟩ := h.judges (hnodes _ (Expr.mem_nodes_self _))
          cases hx.symm.trans hy
          rw [hv, hp, h.kind_typeOfSymbol, ← ht]
          exact hkind hop.1 hop.2.1
  | .member i o n, v, s', hn, _, hr =>
    h.kind_member hp hnames hs (h.judges (hn _ (Expr.mem_nodes_self _))) hr
  | .withMember i n, v, s', hn, _, hr =>
    h.kind_member hp hnames hs (h.judges (hn _ (Expr.mem_nodes_self _))) hr
  | .call i callee ts args, v, s', hn, _, hr => by
    have hj := h.judges (hn _ (Expr.mem_nodes_self _))
    unfold expr? at hr
    cases hx : callee.info.symbol with
    | none =>
      simp only [hx] at hr
      cases hr
    | some x =>
      simp only [hx] at hr
      refine .plain rfl ?_
      split at hr
      · rename_i hc
        obtain ⟨_, _, -, hr⟩ := bind_ok.mp hr
        obtain ⟨_, _, -, hr⟩ := bind_ok.mp hr
        obtain ⟨hv, hvoid⟩ := callProcedure_delivers _ _ _ hr v rfl
        rw [hp] at hv hvoid hc
        rw [hv]
        refine kind_returnTypeAt hvoid fun t ht => ?_
        have hanswers := ((hj x hx).2 hc).type
        rwa [show (a.tree.symbol x).returnType = some t from ht] at hanswers
      · obtain ⟨_, _, -, hr⟩ := bind_ok.mp hr
        obtain ⟨_, _, -, hr⟩ := bind_ok.mp hr
        rw [Delivers.call _ _ _ hr v rfl, hp]
        rfl
  | .index i b is, v, s', hn, _, hr => by
    unfold expr? at hr
    obtain ⟨_, _, -, hr⟩ := bind_ok.mp hr
    obtain ⟨_, _, -, hr⟩ := bind_ok.mp hr
    obtain ⟨_, _, -, hr⟩ := bind_ok.mp hr
    refine .plain rfl ?_
    rw [Delivers.type_appendResult _ _ _ (some_ok.mp hr), hp]
    rfl
  | .new i t args, v, s', hn, _, hr => by
    unfold expr? at hr
    cases ht : i.type with
    | none =>
      simp only [ht] at hr
      cases hr
    | some t =>
      simp only [ht] at hr
      obtain ⟨object, _, hobject, hr⟩ := bind_ok.mp hr
      obtain ⟨_, _, -, hr⟩ := bind_ok.mp hr
      refine .plain rfl ?_
      have hv : v = object := by
        cases hx : i.symbol with
        | none =>
          simp only [hx] at hr
          exact (Option.some.inj (pure_ok.mp hr).1).symm
        | some x =>
          simp only [hx] at hr
          split at hr
          · obtain ⟨_, _, -, hr⟩ := bind_ok.mp hr
            obtain ⟨_, _, -, hr⟩ := bind_ok.mp hr
            exact (Option.some.inj (pure_ok.mp hr).1).symm
          · exact (Option.some.inj (pure_ok.mp hr).1).symm
      rw [hv, Delivers.type_appendResult _ _ _ hobject, hp]
      rfl
  | .cast i e t, v, s', hn, hvoid, hr => by
    unfold expr? at hr
    obtain ⟨_, _, -, hr⟩ := bind_ok.mp hr
    refine .plain rfl ?_
    have hv : (p.typeOf i).isVoid = false := by
      rw [hp]
      exact Catalog.isVoid_lowered hvoid
    rw [cast_delivers hv _ _ _ (some_ok.mp hr), hp]
    rfl
  | .interpolated i ps, v, s', hn, _, hr => by
    have hj : i.type = some .string := h.judges (hn _ (Expr.mem_nodes_self _))
    unfold expr? at hr
    obtain ⟨text, _, htext, hr⟩ := bind_ok.mp hr
    cases (pure_ok.mp hr).1
    refine .plain rfl ?_
    show _ = (a.types.lowered i.type).kind
    rw [hj]
    cases text with
    | none => rfl
    | some w =>
      have hparts : Delivers (parts fields p i.loc none ps) fun v => ∀ w, v = some w →
          w.type.kind = .str := parts_delivers (by simp) ps
      exact hparts _ _ _ htext w rfl
  | .collection i es, v, s', hn, _, hr => by
    unfold expr? at hr
    obtain ⟨array, _, harray, hr⟩ := bind_ok.mp hr
    obtain ⟨_, _, -, hr⟩ := bind_ok.mp hr
    cases (pure_ok.mp hr).1
    refine .plain rfl ?_
    rw [runtime_delivers _ _ _ harray, hp]
    rfl
  | .addressOf i e, v, s', hn, _, hr => by
    obtain ⟨t, ht, hadded⟩ : ∃ t, i.type = some t ∧ t.Added :=
      h.judges (hn _ (Expr.mem_nodes_self _))
    have hptr : (a.env.typeOf i).kind = .ptr := by
      rw [Env.typeOf, ht]
      exact h.lawful.kind_of_added hadded
    unfold expr? at hr
    refine .plain rfl ?_
    show _ = (a.env.typeOf i).kind
    cases hx : e.info.symbol.filter p.isCallable with
    | some x =>
      simp only [hx] at hr
      cases hf : p.function? x with
      | none =>
        simp only [hf] at hr
        cases hr
      | some name =>
        simp only [hf] at hr
        cases (pure_ok.mp hr).1
        rw [hp]
        rfl
    | none =>
      simp only [hx] at hr
      obtain ⟨_, _, -, hr⟩ := bind_ok.mp hr
      obtain ⟨slot, _, hslot, hr⟩ := bind_ok.mp hr
      obtain ⟨_, _, -, hr⟩ := bind_ok.mp hr
      cases (pure_ok.mp hr).1
      rw [Delivers.type_appendResult _ _ _ hslot, hptr]
      rfl

end

end Analysis.Settled

/-- In an accepted program the value of an expression that is not void has the kind of the type that
analysis has given to the expression. If the expression reads a variable whose type is a type
parameter as a member, its value is an address instead, whatever the parameter is bound to. -/
theorem kind_of_lowered {place : Lower.Place} (h : (analyze p).isAccepted = true)
    (hd : (analyze p).items.forM (Lower.declareItem (analyze p).env)
      { builder := { finished := { name } } } = .ok ((), s₀))
    (hs : s.builder.finished.globals = s₀.builder.finished.globals)
    (hp : (analyze p).CodeAt place) (he : .expr e ∈ (analyze p).nodes)
    (hv : (analyze p).types.isVoid e.typeId = false)
    (hr : Lower.expr? fields place e s = .ok (some v, s')) :
    v.type.kind = if (analyze p).env.readsGeneric e then .ptr
      else ((analyze p).env.typeOf e.info).kind := by
  have ha := analyze_settled h
  have hdeclared := Lower.declareItems_ok hd
  have hglobals : s₀.builder.finished.globals = (analyze p).globals :=
    hdeclared.globals.trans (List.nil_append _)
  have hnames : ((analyze p).globals.map (·.name)).Nodup := by
    rw [← hglobals]
    exact hdeclared.names (by simp)
  have hmatch := ha.kind_expr? hp.env hnames (hs.trans hglobals) (hp.kind_me ha) e
    (Analysis.nodes_closed _ _ he) hv hr
  unfold Lower.Env.Matches at hmatch
  split at hmatch
  · rw [if_pos ‹_›]
    exact hmatch.1
  · rw [if_neg ‹_›]
    exact hmatch

/-- The value of an expression at the start of a function. -/
def Analysis.valueAt? (a : Analysis) (place : Lower.Place) (e : Expr Note) : Option Value :=
  let step := do
    a.items.forM (Lower.declareItem a.env)
    Lower.startFunction "f" {} []
    Lower.expr? Lower.initFields place e
  match step.run { builder := { finished := { name := "" } } } with
  | .ok (v, _) => v
  | .error _ => none

theorem Analysis.valueAt?_eq_some {a : Analysis} (h : a.valueAt? place e = some v) :
    ∃ s₀ s s', a.items.forM (Lower.declareItem a.env) { builder := { finished := { name := "" } } } =
        .ok ((), s₀) ∧
      s.builder.finished.globals = s₀.builder.finished.globals ∧
      Lower.expr? Lower.initFields place e s = .ok (some v, s') := by
  unfold valueAt? at h
  dsimp only at h
  split at h
  · rename_i w t hrun
    subst h
    obtain ⟨_, s₀, hd, hrun⟩ := Lower.bind_ok.mp hrun
    obtain ⟨_, s, hstart, hrun⟩ := Lower.bind_ok.mp hrun
    refine ⟨s₀, s, t, hd, ?_, hrun⟩
    rw [(Lower.startFunction_ok hstart).2.1.finished]
    simp [IL.Builder.module]
  · cases h

/-- Whether an expression of a program has a value at a place, and its type is not void. -/
def Analysis.hasValueAt (a : Analysis) (place : Lower.Place) : Node Note → Bool
  | .expr e => (a.valueAt? place e).isSome && !a.types.isVoid e.typeId
  | .stmt _ => false

theorem sum_kind : ∃ p e v, accepted? 1 "Dim total As Integer = 1 + 2\n" = some p ∧
    .expr e ∈ (analyze p).nodes ∧ (analyze p).valueAt? { (analyze p).env with } e = some v ∧
    v.type.kind = if (analyze p).env.readsGeneric e then .ptr
      else ((analyze p).env.typeOf e.info).kind := by
  have h : ((accepted? 1 "Dim total As Integer = 1 + 2\n").map fun p =>
      (analyze p).nodes.any ((analyze p).hasValueAt { (analyze p).env with })) = some true := by
    decide +kernel
  obtain ⟨p, hp, hany⟩ := Option.map_eq_some_iff.mp h
  obtain ⟨n, hn, hvalue⟩ := List.any_eq_true.mp hany
  obtain ⟨_, -, -, haccepted⟩ := accepted?_eq_some hp
  cases n with
  | stmt => cases hvalue
  | expr e =>
    simp only [Analysis.hasValueAt, Bool.and_eq_true, Bool.not_eq_true'] at hvalue
    obtain ⟨v, hv⟩ := Option.isSome_iff_exists.mp hvalue.1
    obtain ⟨s₀, s, s', hd, hs, hr⟩ := Analysis.valueAt?_eq_some hv
    exact ⟨p, e, v, hp, hn, hv, kind_of_lowered haccepted hd hs .globals hn hvalue.2 hr⟩

/-- A class with a shared variable whose type is its type parameter. -/
def sharedParameter : String :=
  "Class C(Of T)\nShared X As T\nEnd Class\nSub S(c As C(Of Integer))\n" ++
    "Dim y As Integer = c.X\nEnd Sub\n"

/-- Whether an expression has a value of another kind than its type says. -/
def Analysis.misstoresAt (a : Analysis) (place : Lower.Place) : Node Note → Bool
  | .expr e => (a.valueAt? place e).any fun v =>
    !a.types.isVoid e.typeId && v.type.kind ≠ (a.env.typeOf e.info).kind
  | .stmt _ => false

/-- Analysis says that `c.X` is an `Integer`, but its value is an address. -/
theorem sharedParameter_misstored : ∃ p r x e v, accepted? 1 sharedParameter = some p ∧
    r ∈ (analyze p).routines ∧ r.procedure.info.symbol = some x ∧ .expr e ∈ (analyze p).nodes ∧
    (analyze p).valueAt? (Lower.bodyPlace (analyze p).env x r.owner) e = some v ∧
    (analyze p).types.isVoid e.typeId = false ∧
    v.type.kind ≠ ((analyze p).env.typeOf e.info).kind := by
  have h : ((accepted? 1 sharedParameter).map fun p => (analyze p).routines.any fun r =>
      r.procedure.info.symbol.any fun x => (analyze p).nodes.any
        ((analyze p).misstoresAt (Lower.bodyPlace (analyze p).env x r.owner))) = some true := by
    decide +kernel
  obtain ⟨p, hp, hany⟩ := Option.map_eq_some_iff.mp h
  obtain ⟨r, hr, hany⟩ := List.any_eq_true.mp hany
  obtain ⟨x, hx, hany⟩ := (Option.any_eq_true _ _).mp hany
  obtain ⟨n, hn, hvalue⟩ := List.any_eq_true.mp hany
  cases n with
  | stmt => cases hvalue
  | expr e =>
    obtain ⟨v, hv, hdiffers⟩ := (Option.any_eq_true _ _).mp hvalue
    simp only [Bool.and_eq_true, Bool.not_eq_true', decide_eq_true_eq] at hdiffers
    exact ⟨p, r, x, e, v, hp, hr, hx, hn, hv, hdiffers.1, hdiffers.2⟩

end BasicSSA
