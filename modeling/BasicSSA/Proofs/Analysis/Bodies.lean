import BasicSSA.Proofs.Analysis.Items

/-!
# What bodies can name

Outside of procedures the third visit defines only variables of the module, and inside of one it
finds the parameters that the second visit has left there. So the items of a program without errors
ask for nothing that is not there.
-/

namespace BasicSSA

open Lower (Env Scoping ScopedItem ScopedProcedure)
open List (forall_mem_singleton forall_mem_cons forall_mem_append mem_append)

variable {env : Env} {b s : AnalysisState}

/-- The variables of an item belong to the module, and its procedure has a name. -/
def Item.Known (env : Env) : Item → Prop
  | .global i _ _ _ => ∀ x, i.symbol = some x → (env.globals.lookup x).isSome
  | .procedure _ name _ => name.isEmpty = false
  | .cls .. | .record .. => True

theorem Lower.Env.IsLocal.isVariable (h : env.IsLocal x) :
    (env.tree.symbol x).kind.isVariable = true := by
  rcases h.2 with h | h | h <;> rw [h] <;> rfl

theorem Lower.Env.not_isLocal (h : (env.globals.lookup x).isSome) : ¬env.IsLocal x := by
  intro hl
  simp [hl.1] at h

namespace AnalysisState

/-- The scopes of procedures are as `b` has laid them out, and no variable of a procedure can be
named elsewhere. -/
structure Clear (b : AnalysisState) (env : Env) (s : AnalysisState) : Prop where
  names : ∀ o, b.tree.HasScope o → (b.tree.scope o).kind.isLocal = false →
    ∀ e ∈ (s.tree.scope o).symbols, ¬env.IsLocal e.2
  members : ∀ x, s.types.HasMember x → ¬env.IsLocal x
  locals : ∀ o, (b.tree.scope o).kind.isLocal = true → b.tree.SameTable s.tree o

namespace Clear

section

variable (h : b.Clear env s) (hg : b.Grown s)

include h hg

theorem writes (hw : s.Writes scope xs t)
    (hs : (b.tree.scope scope).kind.isLocal = false) (hx : ∀ x ∈ xs, ¬env.IsLocal x) :
    b.Clear env t where
  names o ho hk e he := by
    by_cases heq : o = scope
    · subst heq
      exact (hw.own e he).elim (h.names o ho hk e) (hx _)
    · rw [(hw.tables o (hg.tree.hasScope o ho) heq).symbols] at he
      exact h.names o ho hk e he
  members x hm := (hw.members x hm).elim (h.members x) (hx x)
  locals o hl := by
    refine (h.locals o hl).trans (hw.tables o ?_ fun heq => ?_)
    · exact hg.tree.hasScope o (ScopeTree.hasScope_of_isLocal hl)
    · rw [heq, hs] at hl
      cases hl

theorem kept (hk : s.Kept t) : b.Clear env t where
  names o ho hl e he := by
    rw [(hk.tables o (hg.tree.hasScope o ho)).symbols] at he
    exact h.names o ho hl e he
  members x hm := h.members x (hk.members x hm)
  locals o hl := (h.locals o hl).trans
    (hk.tables o (hg.tree.hasScope o (ScopeTree.hasScope_of_isLocal hl)))

/-- Outside of procedures no variable of a procedure can be named. -/
theorem covers (ho : b.tree.Outside cx.scope)
    (hw : cx.withTypes = []) : ({} : Scoping).Covers env s cx := by
  have hchain : s.tree.chain cx.scope = b.tree.chain cx.scope := by
    rw [ScopeTree.chain, (hg.tree.scope _ ho.has).outer, ScopeTree.chain]
  refine ⟨fun o hm => ?_, fun o hm e he hl => ?_, h.members, fun hne => absurd hw hne,
    fun o hm hk => ?_⟩
  all_goals
    rw [hchain] at hm
    obtain ⟨hhas, hlocal⟩ := ho o hm
  · exact hg.tree.hasScope o hhas
  · exact absurd hl (h.names o hhas hlocal e he)
  · rw [← (hg.tree.scope o hhas).kind, hk] at hlocal
    cases hlocal

/-- In a procedure its parameters can be named. -/
theorem furnished (henv : b.tree.Grown env.tree)
    (hf : b.tree.Furnished scope ns) :
    ({ vars := ns.filterMap (b.tree.findLocal? scope) } : Scoping).Covers env s { scope } := by
  have hchain : s.tree.chain scope = scope :: (b.tree.scope scope).outer := by
    rw [ScopeTree.chain, (hg.tree.scope _ hf.has).outer]
  refine ⟨?_, ?_, h.members, fun hne => absurd rfl hne, ?_⟩
  · rw [hchain]
    exact forall_mem_cons.mpr ⟨hg.tree.hasScope _ hf.has, fun o ho =>
      hg.tree.hasScope o (hf.outer o ho).1⟩
  · rw [hchain]
    refine forall_mem_cons.mpr ⟨fun e he hl => ?_, fun o ho e he hl => ?_⟩
    · rw [(h.locals scope hf.isLocal).symbols] at he
      rcases hf.own e he with hi | ⟨n, hn, hx⟩
      · have hi' := hi.mono henv
        cases hi'.kind.symm.trans hl.isVariable
      · exact List.mem_filterMap.mpr ⟨n, hn, hx⟩
    · exact absurd hl (h.names o (hf.outer o ho).1 (hf.outer o ho).2 e he)
  · rw [hchain]
    refine forall_mem_cons.mpr ⟨fun hk => ?_, fun o ho hk => ?_⟩
    · have hkind : (s.tree.scope scope).kind.isProcedure = true :=
        (hg.tree.scope scope hf.has).kind ▸ hf.kind
      rw [hk] at hkind
      cases hkind
    · obtain ⟨hhas, hlocal⟩ := hf.outer o ho
      rw [← (hg.tree.scope o hhas).kind, hk] at hlocal
      cases hlocal

end

end Clear

/-- The scopes of procedures stay in the end as they were laid out. -/
def Settled (b : AnalysisState) (env : Env) : Prop :=
  ∀ o, (b.tree.scope o).kind.isLocal = true → b.tree.SameTable env.tree o

/-- A step keeps a state clear if all is known that it defines, and gives something good. -/
def Settles (b : AnalysisState) (env : Env) (known : Prop) (s t : AnalysisState) (good : Prop) : Prop :=
  b.Clear env s → known → t.Failed ∨ b.Clear env t ∧ (b.Settled env → good)

namespace Settles

theorem refl (s : AnalysisState) (h : good) : b.Settles env known s s good :=
  fun hc _ => .inr ⟨hc, fun _ => h⟩

theorem imp (h : b.Settles env known s t good) (hk : known' → known)
    (hg : known' → good → good') : b.Settles env known' s t good' :=
  fun hc h' => (h hc (hk h')).imp_right fun h => ⟨h.1, fun hs => hg h' (h.2 hs)⟩

theorem trans (h : b.Settles env known s t good) (hu : t.Grown u)
    (h' : b.Settles env known' t u good') : b.Settles env (known ∧ known') s u (good ∧ good') := by
  intro hc hk
  rcases h hc hk.1 with hf | ⟨hc', hgood⟩
  · exact .inl (hu.failed hf)
  · exact (h' hc' hk.2).imp_right fun h' => ⟨h'.1, fun hs => ⟨hgood hs, h'.2 hs⟩⟩

end Settles

end AnalysisState

/-- A procedure that is laid out asks only for its parameters. -/
theorem Procedure.Analysed.settles {p p' : Procedure Note} (h : p.Analysed s t p')
    (ht : s.Onward t) (hg : b.Grown s) (henv : b.tree.Grown env.tree) (hl : p.Laid b) :
    b.Settles env True s t
      (∀ full : String, full.isEmpty = false → ScopedProcedure env p' full) := by
  intro hc _
  rcases hl with hf | ⟨hx, scope, hscope, hf, hn⟩
  · exact .inl (ht.failed (hg.failed hf))
  · have hinfo : p'.info = p.info := by rw [h.same]
    cases hbody : p.body with
    | none =>
      obtain ⟨rfl, rfl⟩ := h.unread (.inl hbody)
      refine .inr ⟨hc, fun _ _ _ body hb => ?_⟩
      cases hbody.symm.trans hb
    | some body =>
      obtain ⟨body', r, hbody', -, hw⟩ := h.read body scope hbody hscope
      rcases hw.ordered with hfail | horder
      · exact .inl hfail
      refine (hw.asks env _ (hc.furnished hg henv hf)).imp_right fun hgood =>
        ⟨hc.kept hg hw.adds.kept, ?_⟩
      rintro hset full hfull _ hb
      cases hbody'.symm.trans hb
      have hfind (n : String) : env.tree.findLocal? scope n = b.tree.findLocal? scope n :=
        ScopeTree.findLocal?_eq (hset scope hf.isLocal)
      have hvars : p'.params.filterMap (fun a => env.tree.findLocal? scope a.name) =
          (p.params.map (·.name)).filterMap (b.tree.findLocal? scope) := by
        rw [← h.names, List.filterMap_map]
        exact congrArg (List.filterMap · p'.params) (funext fun a => hfind a.name)
      have hscope' : p'.info.scope = some scope := hinfo ▸ hscope
      refine ⟨hfull, hinfo ▸ hx, scope, hscope', fun a ha => ?_, ⟨t.tree.symbols.size, ?_⟩, ?_⟩
      · rw [hfind]
        exact hf.found _ (h.names ▸ List.mem_map_of_mem ha)
      · simp only [Procedure.declarations, hscope', hbody', Option.bind_some, hvars,
          Option.getD_some]
        exact hn.append (horder.weaken hg.tree.size_le)
      · rw [hvars]
        exact hgood

namespace AnalysisState

/-- What is asked of a member of a class, and what it is then. -/
def SettlesMember (b : AnalysisState) (env : Env) (s t : AnalysisState) (d : Decl Note) : Prop :=
  ∀ owner name, b.Settles env (∀ item ∈ d.memberItems owner name, item.Known env) s t
    ((∀ item ∈ d.memberItems owner name, ScopedItem env item) ∧
      ∀ f, d.instanceField? = some f → ∀ e, f.init = some e → ({} : Scoping).SeesAll env e)

theorem SettlesMember.of_none (hi : ∀ owner name, d.memberItems owner name = [])
    (hf : d.instanceField? = none) : SettlesMember b env s s d :=
  fun owner name => .refl s ⟨by simp [hi], by simp [hf]⟩

/-- A state before a step outside of procedures. -/
structure Precedes (b s : AnalysisState) (env : Env) (scope : ScopeId) : Prop where
  grown : b.Grown s
  tree : b.tree.Grown env.tree
  outside : b.tree.Outside scope

theorem Precedes.next (h : b.Precedes s env scope) (ht : s.Onward t) : b.Precedes t env scope :=
  ⟨h.grown.trans ht.toGrown, h.tree, h.outside⟩

/-- Outside of procedures only variables of the module are defined. -/
theorem Noted.settles {i : Note} (h : s.Noted t cx none ns P) (hi : s.Writes cx.scope i.symbol.toList t)
    (hb : b.Precedes s env cx.scope) (hw : cx.withTypes = []) :
    b.Settles env (∀ x, i.symbol = some x → (env.globals.lookup x).isSome) s t (P env {}) := by
  refine fun hc hk => (h.asks env {} (hc.covers hb.grown hb.outside hw)).imp_right fun hgood =>
    ⟨hc.writes hb.grown hi hb.outside.kind fun x hx => ?_, fun _ => hgood⟩
  exact Lower.Env.not_isLocal (hk x (Option.mem_toList.mp hx))

theorem SettlesMember.of_proc (h : b.Settles env True s t
    (∀ full : String, full.isEmpty = false → ScopedProcedure env p full)) :
    b.SettlesMember env s t (.proc p) := by
  intro owner name
  rw [Decl.memberItems, forall_mem_singleton, forall_mem_singleton]
  exact h.imp (fun _ => trivial) fun hk hp => ⟨hp _ hk, by simp [Decl.instanceField?]⟩

end AnalysisState

namespace Decl

/-- What the third visit does with a declaration. It only writes notes, and what it does not reach it
leaves as it is. -/
structure Analysed (s t : AnalysisState) (scope : ScopeId) (d d' : Decl Note) : Prop where
  same : d'.map Note.loc = d.map Note.loc
  items : d.Declared s false → ∀ path, ∀ item ∈ d'.items path, item.Checked t ∧ item.Typed t
  member : d.DeclaredMember s → d'.CheckedMember t
  typed : ∀ n ∈ d'.reached, n.Typed t.types
  split : ∀ {owned}, ¬t.Failed → d.Declared s owned →
    ∀ n ∈ d'.nodes, n ∈ d'.reached ∨ n ∈ d'.unreached
  unreached : d.Sealed → d'.unreached ⊆ d.nodes
  undeclared : d.Shut → d'.undeclared ⊆ d.nodes
  settles : ∀ {b env}, b.Precedes s env scope → d.Ready b → d.Laid b → ∀ path, b.Settles env
    (∀ item ∈ d'.items path, item.Known env) s t (∀ item ∈ d'.items path, ScopedItem env item)
  settlesMember : ∀ {b env}, b.Precedes s env scope → d.LaidMember b → d.isField = false →
    b.SettlesMember env s t d'

/-- What the third visit does with a list of declarations. -/
structure AnalysedList (s t : AnalysisState) (scope : ScopeId) (ds ds' : List (Decl Note)) :
    Prop where
  same : mapList Note.loc ds' = mapList Note.loc ds
  items : DeclaredList s ds → ∀ path, ∀ item ∈ itemsList path ds', item.Checked t ∧ item.Typed t
  typed : ∀ n ∈ reachedList ds', n.Typed t.types
  split : ¬t.Failed → DeclaredList s ds →
    ∀ n ∈ nodesList ds', n ∈ reachedList ds' ∨ n ∈ unreachedList ds'
  unreached : SealedList ds → unreachedList ds' ⊆ nodesList ds
  settles : ∀ {b env}, b.Precedes s env scope → ReadyList b ds → LaidList b ds → ∀ path,
    b.Settles env (∀ item ∈ itemsList path ds', item.Known env) s t
      (∀ item ∈ itemsList path ds', ScopedItem env item)

/-- What the third visit does with a member of a class. -/
structure AnalysedMember (s t : AnalysisState) (scope : ScopeId) (d d' : Decl Note) : Prop where
  same : d'.map Note.loc = d.map Note.loc
  checked : d.DeclaredMember s → d'.CheckedMember t
  typed : ∀ n ∈ (if d'.isRejectedField then [] else d'.reached), n.Typed t.types
  split : ¬t.Failed → d.DeclaredMember s → ∀ n ∈ d'.nodes,
    n ∈ (if d'.isRejectedField then [] else d'.reached) ∨
      n ∈ (if d'.isMethod then d'.unreached else d'.undeclared)
  unreached : (d.isField = false → d.isMethod = false → d.Shut) →
    (if d'.isMethod then d'.unreached else d'.undeclared) ⊆ d.nodes
  settles : ∀ {b env}, b.Precedes s env scope → d.LaidMember b → b.SettlesMember env s t d'

/-- What the third visit does with the members of a class. -/
structure AnalysedMembers (s t : AnalysisState) (scope : ScopeId) (ds ds' : List (Decl Note)) :
    Prop where
  same : mapList Note.loc ds' = mapList Note.loc ds
  checked : (∀ d ∈ ds, d.DeclaredMember s) → ∀ d ∈ ds', d.CheckedMember t
  typed : ∀ n ∈ reachedMembers ds', n.Typed t.types
  split : ¬t.Failed → (∀ d ∈ ds, d.DeclaredMember s) →
    ∀ n ∈ nodesList ds', n ∈ reachedMembers ds' ∨ n ∈ unreachedMembers ds'
  unreached : (∀ d ∈ ds, d.isField = false → d.isMethod = false → d.Shut) →
    unreachedMembers ds' ⊆ nodesList ds
  settles : ∀ {b env}, b.Precedes s env scope → (∀ d ∈ ds, d.LaidMember b) → ∀ owner name,
    b.Settles env (∀ item ∈ ds'.flatMap (memberItems owner name), item.Known env) s t
      ((∀ item ∈ ds'.flatMap (memberItems owner name), ScopedItem env item) ∧
        ∀ f ∈ ds'.filterMap instanceField?, ∀ e, f.init = some e → ({} : Scoping).SeesAll env e)

theorem Analysed.kept {d : Decl Note} (hr : d.reached = [])
    (hmember : ∀ owner name, d.memberItems owner name = []) (hfield : d.instanceField? = none)
    (hitems : d.Declared s false → ∀ path, ∀ item ∈ d.items path, item.Checked s ∧ item.Typed s)
    (hsplit : ∀ {owned}, ¬s.Failed → d.Declared s owned → d.nodes ⊆ d.unreached)
    (hsettles : ∀ {b env}, b.Precedes s env scope → d.Laid b → ∀ path, b.Settles env
      (∀ item ∈ d.items path, item.Known env) s s (∀ item ∈ d.items path, ScopedItem env item)) :
    d.Analysed s s scope d where
  same := rfl
  items := hitems
  member _ := .of_none hmember hfield
  typed := by simp [hr]
  split hs hd _ hn := .inr (hsplit hs hd hn)
  unreached _ := d.unreached_subset
  undeclared _ := d.undeclared_subset
  settles hb _ := hsettles hb
  settlesMember _ _ _ := .of_none hmember hfield

theorem Analysed.cons {d d' : Decl Note} (h : d.Analysed s t scope d') (ht : s.Onward t)
    (hs : AnalysedList t u scope ds ds') (hu : t.Onward u) :
    AnalysedList s u scope (d :: ds) (d' :: ds') where
  same := by rw [mapList, mapList, h.same, hs.same]
  items hd path := by
    rw [itemsList, forall_mem_append]
    refine ⟨fun item hi => ?_, hs.items (hd.2.mono ht.toGrown) path⟩
    obtain ⟨hchecked, htyped⟩ := h.items hd.1 path item hi
    exact ⟨hchecked.mono hu.toGrown, htyped.mono hu.toGrown⟩
  typed := by
    rw [reachedList]
    exact forall_mem_append.mpr ⟨fun n hn => (h.typed n hn).mono hu.keeps, hs.typed⟩
  split hf hd := by
    simp only [nodesList, reachedList, unreachedList, mem_append]
    rintro n (hn | hn)
    · exact (h.split (fun hf' => hf (hu.failed hf')) hd.1 n hn).imp .inl .inl
    · exact (hs.split hf (hd.2.mono ht.toGrown) n hn).imp .inr .inr
  unreached hc n hn := by
    rw [unreachedList, mem_append] at hn
    rw [nodesList, mem_append]
    exact hn.imp (h.unreached hc.1 ·) (hs.unreached hc.2 ·)
  settles hb hr hl path := by
    rw [itemsList, forall_mem_append, forall_mem_append]
    exact (h.settles hb hr.1 hl.1 path).trans hu.toGrown (hs.settles (hb.next ht) hr.2 hl.2 path)

theorem Analysed.toMember {d d' : Decl Note} (h : d.Analysed s t scope d') (hf : d.isField = false) :
    d.AnalysedMember s t scope d' := by
  have hrejected := isRejectedField_of_not_isField ((isField_eq_of_map h.same).trans hf)
  have hmethod := isMethod_eq_of_map h.same
  refine ⟨h.same, h.member, by rw [hrejected]; exact h.typed, fun hfail hd => ?_, fun hu => ?_,
    fun hb hl => h.settlesMember hb hl hf⟩
  · rw [hrejected, hmethod]
    cases hm : d.isMethod with
    | true =>
      refine @Analysed.split _ _ _ _ _ h true hfail ?_
      cases d with
      | proc => rwa [Declared]
      | template i d =>
        cases d with
        | proc => rwa [Declared, Declared]
        | _ => cases hm
      | _ => cases hm
    | false => exact fun n hn => reached_or_undeclared d' hn
  · rw [hmethod]
    cases hm : d.isMethod with
    | true =>
      refine h.unreached ?_
      cases d with
      | proc => trivial
      | template i d =>
        cases d with
        | proc => trivial
        | _ => cases hm
      | _ => cases hm
    | false => exact h.undeclared (hu hf hm)

theorem AnalysedMember.cons (h : d.AnalysedMember s t scope d')
    (ht : s.Onward t) (hs : AnalysedMembers t u scope ds ds') (hu : t.Onward u) :
    AnalysedMembers s u scope (d :: ds) (d' :: ds') where
  same := by rw [mapList, mapList, h.same, hs.same]
  checked hd := by
    obtain ⟨hd, hds⟩ := forall_mem_cons.mp hd
    exact forall_mem_cons.mpr ⟨(h.checked hd).mono hu.toGrown,
      hs.checked fun d hm => (hds d hm).mono ht.toGrown⟩
  typed := by
    rw [reachedMembers]
    exact forall_mem_append.mpr ⟨fun n hn => (h.typed n hn).mono hu.keeps, hs.typed⟩
  split hf hd := by
    obtain ⟨hd, hds⟩ := forall_mem_cons.mp hd
    simp only [nodesList, reachedMembers, unreachedMembers, mem_append]
    rintro n (hn | hn)
    · exact (h.split (fun hf' => hf (hu.failed hf')) hd n hn).imp .inl .inl
    · exact (hs.split hf (fun d hm => (hds d hm).mono ht.toGrown) n hn).imp .inr .inr
  unreached hc n hn := by
    obtain ⟨hc, hcs⟩ := forall_mem_cons.mp hc
    rw [unreachedMembers, mem_append] at hn
    rw [nodesList, mem_append]
    exact hn.imp (h.unreached hc ·) (hs.unreached hcs ·)
  settles hb hl owner name := by
    obtain ⟨hl, hls⟩ := forall_mem_cons.mp hl
    refine ((h.settles hb hl owner name).trans hu.toGrown
      (hs.settles (hb.next ht) hls owner name)).imp (fun hk => ?_) fun _ h => ⟨?_, ?_⟩
    · rwa [List.flatMap_cons, forall_mem_append] at hk
    · rw [List.flatMap_cons, forall_mem_append]
      exact ⟨h.1.1, h.2.1⟩
    · intro f hf
      obtain ⟨c, hc, hfield⟩ := List.mem_filterMap.mp hf
      rcases List.mem_cons.mp hc with rfl | hc
      · exact h.1.2 f hfield
      · exact h.2.2 f (List.mem_filterMap.mpr ⟨c, hc, hfield⟩)

end Decl

namespace Procedure.Analysed

variable {p : Procedure Note}

theorem split (h : p.Analysed s t p') (hscope : p.info.scope ≠ none) :
    ∀ n ∈ p'.nodes, n ∈ p'.reached ∨ n ∈ p'.unreached := by
  intro n hn
  obtain ⟨o, ho⟩ := Option.ne_none_iff_exists'.mp hscope
  cases hb : p.body with
  | none =>
    obtain ⟨rfl, -⟩ := h.unread (.inl hb)
    exact .inr (by simpa [unreached, hb] using hn)
  | some b =>
    obtain ⟨b', _, hb', -⟩ := h.read b o hb ho
    have hinfo : p'.info = p.info := by rw [h.same]
    exact .inl (by simpa [reached, nodes, defaults, hb', hinfo, ho] using hn)

theorem unreached (h : p.Analysed s t p') : p'.unreached ⊆ p.nodes := by
  by_cases hb : p.body = none ∨ p.info.scope = none
  · obtain ⟨rfl, -⟩ := h.unread hb
    exact p'.unreached_subset
  · obtain ⟨b, hbody⟩ := Option.ne_none_iff_exists'.mp fun h => hb (.inl h)
    obtain ⟨o, ho⟩ := Option.ne_none_iff_exists'.mp fun h => hb (.inr h)
    obtain ⟨b', _, hb', -⟩ := h.read b o hbody ho
    simp [Procedure.unreached, hb']

end Procedure.Analysed

namespace Analyze

open AnalysisState
open Decl (ReadyList)

/-- The value of a field of a class. -/
theorem fieldInit_goes (h : ∀ n ∈ d.init.elim [] Expr.nodes, n.Fresh) (hw : cx.withTypes = []) :
    Goes s (fieldInit cx d) fun t d' => (Decl.var d).AnalysedMember s t cx.scope (.var d') := by
  refine Goes.mono (fieldInit_reads h (.of_nil hw)) fun t d' _ ⟨ht, hinfo, hsame, hread, hsuits⟩ => ?_
  refine ⟨congrArg Decl.var hsame, fun hm => ?_, ?_, fun hf hm n hn => ?_,
    fun _ => by simp [Decl.isMethod, Decl.undeclared], fun {b env} hb hl owner name hc _ => ?_⟩
  · rcases hm with hf | ⟨x, hx, hhas⟩
    · exact .of_var (fun _ _ _ _ _ => .inl (ht.failed hf)) fun _ _ => .inl (ht.failed hf)
    · refine .of_var (.of_nodes (hread (by simp [hx])).checked) (hsuits ?_)
      rw [hx]
      rintro _ ⟨⟩
      exact hhas
  · rw [Decl.isRejectedField, hinfo]
    split
    · simp
    · rename_i hx
      exact (hread (by simpa [Option.isSome_iff_ne_none] using hx)).typed
  · rw [if_neg]
    · exact .inl hn
    · rw [Decl.isRejectedField, hinfo, Option.isNone_iff_eq_none]
      rintro hx
      exact hf (ht.failed (hm.resolve_right (by simp [hx])))
  · rcases hl with hf | hx
    · exact .inl (ht.failed (hb.grown.failed hf))
    refine ((hread hx).within.asks (r := none) env {} (hc.covers hb.grown hb.outside hw)).imp_right
      fun hsees => ⟨hc.kept hb.grown ht.kept, fun _ => ⟨?_, fun f hf => ?_⟩⟩
    · rw [Decl.memberItems]
      split
      · exact forall_mem_singleton.mpr ⟨hinfo ▸ hx, Scoping.seesAll_elim hsees⟩
      · simp
    · rw [Decl.instanceField?] at hf
      split at hf
      · cases hf
      · exact Option.some.inj hf ▸ Scoping.seesAll_elim hsees

mutual

theorem bodyDecl_goes : (d : Decl Note) → ∀ {s cx}, s.tree.Outside cx.scope → cx.withTypes = [] →
    d.Ready s → Goes s (bodyDecl cx d) fun t d' => d.Analysed s t cx.scope d'
  | .nspace i n ds, s, cx, _, _, hd | .module i n ds, s, cx, _, _, hd => by
    unfold bodyDecl
    cases hi : i.scope with
    | none =>
      refine .pure (.kept (by simp [Decl.reached, hi]) (fun _ _ => rfl) rfl (fun h => ?_)
        (fun _ h => ?_) fun _ h => ?_)
      · rw [Decl.Declared] at h
        exact absurd hi h.1
      · rw [Decl.Declared] at h
        exact absurd hi h.1
      · rw [Decl.Laid] at h
        exact absurd hi h.1
    | some o =>
      refine (bodyDecls_goes ds (hd.1 o hi).1 rfl hd.2).bind fun ds' t _ hds => .pure
        ⟨?_, fun h path => ?_, fun _ => .of_none (fun _ _ => rfl) rfl, ?_,
          fun hf h => ?_, hds.unreached, fun hu => (nomatch hi.symm.trans hu),
          fun hb hr hl path => ?_, fun _ hl _ => (nomatch hi.symm.trans hl)⟩
      · rw [Decl.map, Decl.map, hds.same]
      · rw [Decl.Declared] at h
        rw [Decl.items]
        exact hds.items h.2 _
      · simpa only [Decl.reached, hi, Option.elim] using hds.typed
      · rw [Decl.Declared] at h
        simpa only [Decl.nodes, Decl.reached, Decl.unreached, hi, Option.elim] using hds.split hf h.2
      · rw [Decl.Ready] at hr
        rw [Decl.items]
        exact hds.settles ⟨hb.grown, hb.tree, (hr.1 o hi).1⟩ hr.2 hl.2 _
  | .cls i h ds, s, cx, _, _, hd => by
    unfold bodyDecl
    cases hi : i.scope with
    | none =>
      have hdeclared {owned : Bool} (hd : Decl.Declared s owned (.cls i h ds)) : s.Failed :=
        hd.resolve_right fun hd => hd.1 hi
      refine .pure (.kept (by simp [Decl.reached, hi]) (fun _ _ => rfl) rfl
        (fun hd _ item _ => ⟨.of_failed (hdeclared hd) item, .of_failed (hdeclared hd) item⟩)
        (fun hf hd => absurd (hdeclared hd) hf) fun hb hl _ _ _ => ?_)
      exact .inl (hb.grown.failed (hl.resolve_right fun hl => hl.1 hi))
    | some o =>
      refine (classBodies_goes ds (hd.1 o hi).1 rfl hd.2).bind fun ds' t ht hds => .pure
        ⟨?_, fun hd path => ?_, fun _ => .of_none (fun _ _ => rfl) rfl, ?_,
          fun hf hd => ?_, hds.unreached, fun hu => (nomatch hi.symm.trans hu),
          fun hb hr hl path => ?_, fun _ hl _ => (nomatch hi.symm.trans hl)⟩
      · rw [Decl.map, Decl.map, hds.same]
      · rw [Decl.Declared] at hd
        rcases hd with hf | ⟨-, hds', htyped⟩
        · exact fun item _ => ⟨.of_failed (ht.failed hf) item, .of_failed (ht.failed hf) item⟩
        · have hds := hds.checked hds'
          have htyped := htyped.mono ht.toGrown
          rw [Decl.items, forall_mem_cons]
          refine ⟨⟨fun f hf => ?_, .inr htyped⟩, fun item hi => ?_⟩
          · obtain ⟨d, hd, hf⟩ := List.mem_filterMap.mp hf
            exact (hds d hd).field f hf
          · obtain ⟨d, hd, hi⟩ := List.mem_flatMap.mp hi
            obtain ⟨x, hx, hnames⟩ := htyped
            refine ⟨(hds d hd).items _ _ (by simp [hx]) item hi, Item.typed_of_member hi fun y hy => ?_⟩
            cases hx.symm.trans hy
            exact hnames
      · simpa only [Decl.reached, hi, Option.elim] using hds.typed
      · rw [Decl.Declared] at hd
        simpa only [Decl.nodes, Decl.reached, Decl.unreached, hi, Option.elim] using
          hds.split hf (hd.resolve_left fun hf' => hf (ht.failed hf')).2.1
      · rw [Decl.Laid] at hl
        rcases hl with hf | ⟨-, htyped, hmembers⟩
        · exact fun _ _ => .inl (ht.failed (hb.grown.failed hf))
        rw [Decl.items, forall_mem_cons, forall_mem_cons]
        refine (hds.settles ⟨hb.grown, hb.tree, (hr.1 o hi).1⟩ hmembers i.symbol h.name).imp (·.2)
          fun _ hds => ⟨⟨?_, hds.2⟩, hds.1⟩
        obtain ⟨x, hx, hhas, ty, htype, -⟩ := htyped
        rw [Lower.namedType?, hx, Option.bind_some, hb.tree.type x hhas, htype]
        rfl
  | .proc p, s, cx, _, _, hd => by
    unfold bodyDecl
    refine (procedureBody_goes hd).bind fun p' t ht hp => .pure ⟨congrArg Decl.proc hp.erased,
      fun h path => ?_, fun h => ⟨fun _ _ ho => ?_, by simp [Decl.instanceField?]⟩,
      hp.typed, fun _ h => ?_, fun _ => hp.unreached, fun hu => ?_, fun hb _ hl path => ?_,
      fun hb hl _ => .of_proc (hp.settles ht hb.grown hb.tree hl)⟩
    · rw [Decl.Declared] at h
      rw [Decl.items, forall_mem_singleton]
      exact ⟨hp.checked h, nofun⟩
    · have hchecked : p'.Checked t (true && !p.modifiers.isShared) := hp.checked h
      have hmodifiers : p'.modifiers = p.modifiers := by rw [hp.same]
      rw [Decl.memberItems, forall_mem_singleton, hmodifiers]
      cases hs : p.modifiers.isShared with
      | true =>
        rw [hs] at hchecked
        exact hchecked
      | false =>
        rw [hs, Bool.not_false, Bool.and_true, ← ho] at hchecked
        exact hchecked
    · rw [Decl.Declared] at h
      exact hp.split h.1
    · obtain ⟨rfl, -⟩ := hp.unread (.inr hu)
      exact Decl.undeclared_subset _
    · rw [Decl.Laid] at hl
      rw [Decl.items, forall_mem_singleton, forall_mem_singleton]
      exact (hp.settles ht hb.grown hb.tree hl).imp (fun _ => trivial) fun hk hp => hp _ hk
  | .extension i ty p, s, cx, _, _, hd => by
    unfold bodyDecl
    refine (procedureBody_goes hd).bind fun p' t ht hp => .pure
      ⟨congrArg (Decl.extension i.loc ty) hp.erased, fun h path => ?_,
        fun _ => .of_none (fun _ _ => rfl) rfl, hp.typed, fun _ h => ?_, fun _ => hp.unreached,
        fun hu => ?_, fun hb _ hl path => ?_, fun hb hl _ => ?_⟩
    · rw [Decl.Declared] at h
      rw [Decl.items, forall_mem_singleton]
      exact ⟨hp.checked h, nofun⟩
    · rw [Decl.Declared] at h
      exact hp.split h.1
    · obtain ⟨rfl, -⟩ := hp.unread (.inr hu)
      exact Decl.undeclared_subset _
    · rw [Decl.Laid] at hl
      rw [Decl.items, forall_mem_singleton, forall_mem_singleton]
      exact (hp.settles ht hb.grown hb.tree hl).imp (fun _ => trivial) fun hk hp => hp _ hk
    · obtain ⟨rfl, rfl⟩ := hp.unread (.inr hl)
      exact .of_none (fun _ _ => rfl) rfl
  | .var d, s, cx, ho, hw, hd => by
    unfold bodyDecl
    refine (varDecl_goes hd (.of_nil hw) ho.has).bind fun d' t _ ⟨hsame, hsuits, hd⟩ => ?_
    have hv : t.ChecksValue d'.init := .of_nodes fun r => (hd r).checked
    refine .pure ⟨congrArg Decl.var hsame, fun _ path => ?_, fun _ => .of_var hv hsuits,
      (hd none).typed, fun _ _ _ hn => .inl hn, by simp [Decl.unreached], by simp [Decl.undeclared],
      fun hb _ _ path => ?_, fun _ _ h => nomatch h⟩
    · rw [Decl.items, forall_mem_singleton]
      exact ⟨⟨hv, hsuits, by simp⟩, trivial⟩
    · rw [Decl.items, forall_mem_singleton, forall_mem_singleton]
      exact (hd none).toNoted.settles (hd none).adds.writes hb hw
  | .const d, s, cx, ho, hw, hd => by
    unfold bodyDecl
    refine (constDecl_goes hd (.of_nil hw) ho.has).bind fun d' t _ hd => ?_
    have hv (name : String) : Item.Checked t (.global d'.info name d'.value true) := by
      refine ⟨.of_nodes fun r => (hd.noted r).checked, hd.suits, fun _ x hx => ?_⟩
      refine hd.constant.imp_right fun ⟨y, hy, hk⟩ => ?_
      cases hy.symm.trans hx
      exact hk
    have hset {b : AnalysisState} {env : Env} (hb : b.Precedes s env cx.scope) (name : String) :
        b.Settles env (Item.Known env (.global d'.info name d'.value true)) s t
          (ScopedItem env (.global d'.info name d'.value true)) := by
      refine ((hd.noted none).settles hd.writes hb hw).imp (fun h => h) fun _ h => ⟨h.1, ?_⟩
      obtain ⟨-, e, he, hsees⟩ := h
      intro e' he'
      cases he.symm.trans he'
      exact hsees
    refine .pure ⟨congrArg Decl.const hd.same, fun _ path => ?_,
      fun _ => ⟨fun _ _ _ => ?_, by simp [Decl.instanceField?]⟩, (hd.noted none).typed,
      fun _ _ _ hn => .inl hn, by simp [Decl.unreached], by simp [Decl.undeclared],
      fun hb _ _ path => ?_, fun hb _ _ owner name => ?_⟩
    · rw [Decl.items, forall_mem_singleton]
      exact ⟨hv _, trivial⟩
    · rw [Decl.memberItems, forall_mem_singleton]
      exact hv _
    · rw [Decl.items, forall_mem_singleton, forall_mem_singleton]
      exact hset hb _
    · rw [Decl.memberItems, forall_mem_singleton, forall_mem_singleton]
      exact (hset hb _).imp (fun h => h) fun _ h => ⟨h, by simp [Decl.instanceField?]⟩
  | .template i d, s, cx, ho, hw, hd => by
    unfold bodyDecl
    refine (bodyDecl_goes d ho hw hd).bind fun d' t _ hd => .pure
      ⟨congrArg (Decl.template i.loc) hd.same, fun h path => ?_,
        fun h => ⟨fun owner name => ?_, by simp [Decl.instanceField?]⟩, ?_, fun hf h => ?_,
        hd.unreached, hd.undeclared, fun hb hr hl path => ?_, fun hb hl _ => ?_⟩
    · rw [Decl.Declared] at h
      rw [Decl.items]
      exact hd.items h path
    · have hsame := hd.same
      cases d' with
      | proc p' =>
        cases d with
        | proc p => exact (hd.member h).items owner name
        | _ => simp [Decl.map] at hsame
      | _ => simp [Decl.memberItems]
    · rw [Decl.reached]
      exact hd.typed
    · rw [Decl.Declared] at h
      exact hd.split hf h
    · rw [Decl.Ready] at hr
      rw [Decl.items]
      exact hd.settles hb hr hl path
    · have hsame := hd.same
      cases d with
      | proc p =>
        cases d' with
        | proc p' => exact hd.settlesMember hb hl rfl
        | _ => simp [Decl.map] at hsame
      | cls j h ds =>
        cases d' with
        | cls => exact hd.settlesMember hb hl rfl
        | _ => simp [Decl.map] at hsame
      | _ => exact hl.elim
  | .interface i n ps, s, cx, _, _, hd => by
    unfold bodyDecl
    refine .pure (.kept (by simp [Decl.reached]) (fun _ _ => rfl) rfl (fun _ path => ?_)
      (fun _ _ => by simp [Decl.unreached]) fun _ _ path => .refl s ?_)
    all_goals rw [Decl.items, List.forall_mem_map]
    · exact fun _ _ => ⟨fun _ => nofun, nofun⟩
    · exact fun _ _ _ => nofun
  | .record .., s, cx, _, _, hd => by
    unfold bodyDecl
    refine .pure (.kept (by simp [Decl.reached]) (fun _ _ => rfl) rfl (fun _ path => ?_)
      (fun _ _ => by simp [Decl.unreached]) fun hb hl path => ?_)
    · rw [Decl.items, forall_mem_singleton]
      exact ⟨trivial, trivial⟩
    · rw [Decl.Laid] at hl
      rw [Decl.items, forall_mem_singleton, forall_mem_singleton]
      intro hc _
      refine hl.imp hb.grown.failed fun ⟨x, hx, _⟩ => ⟨hc, fun _ => ?_⟩
      exact Option.isSome_iff_exists.mpr ⟨x, hx⟩
  | .uses .., s, cx, _, _, hd | .imports .., s, cx, _, _, hd | .typeDefine .., s, cx, _, _, hd
  | .delegate _, s, cx, _, _, hd => by
    unfold bodyDecl
    exact .pure (.kept (by simp [Decl.reached]) (fun _ _ => rfl) rfl (by simp [Decl.items])
      (fun _ _ => by simp [Decl.unreached]) fun _ _ path => .refl s (by simp [Decl.items]))

theorem bodyDecls_goes : (ds : List (Decl Note)) → ∀ {s cx}, s.tree.Outside cx.scope →
    cx.withTypes = [] → ReadyList s ds →
    Goes s (bodyDecls cx ds) fun t ds' => Decl.AnalysedList s t cx.scope ds ds'
  | [], s, _, _, _, _ => by
    unfold bodyDecls
    exact .pure ⟨rfl, by simp [Decl.itemsList], by simp [Decl.reachedList],
      by simp [Decl.nodesList], by simp [Decl.unreachedList],
      fun _ _ _ path => .refl s (by simp [Decl.itemsList])⟩
  | d :: ds, s, cx, ho, hw, h => by
    unfold bodyDecls
    exact (bodyDecl_goes d ho hw h.1).bind fun d' t ht hd =>
      (bodyDecls_goes ds (ho.mono ht.tree) hw (h.2.mono ht.toGrown)).bind fun ds' u hu hds =>
        .pure (hd.cons ht hds hu)

theorem classBodies_goes : (ds : List (Decl Note)) → ∀ {s cx}, s.tree.Outside cx.scope →
    cx.withTypes = [] → ReadyList s ds →
    Goes s (classBodies cx ds) fun t ds' => Decl.AnalysedMembers s t cx.scope ds ds'
  | [], s, _, _, _, _ => by
    unfold classBodies
    exact .pure ⟨rfl, by simp, by simp [Decl.reachedMembers], by simp [Decl.nodesList],
      by simp [Decl.unreachedMembers], fun _ _ _ _ => .refl s ⟨by simp, by simp⟩⟩
  | d :: ds, s, cx, ho, hw, h => by
    have hrest (t : AnalysisState) (ht : s.Onward t) (d' : Decl Note)
        (hd : d.AnalysedMember s t cx.scope d') : Goes t (do
          let ds ← classBodies cx ds
          return d' :: ds) fun u ds' => Decl.AnalysedMembers s u cx.scope (d :: ds) ds' :=
      (classBodies_goes ds (ho.mono ht.tree) hw (h.2.mono ht.toGrown)).bind fun ds' u hu hds =>
        .pure (hd.cons ht hds hu)
    cases d with
    | var d =>
      unfold classBodies
      exact (fieldInit_goes h.1 hw).bind fun d' t ht hd => hrest t ht (.var d') hd
    | _ =>
      unfold classBodies
      exact (bodyDecl_goes _ ho hw h.1).bind fun d' t ht hd => hrest t ht d' (hd.toMember rfl)

end

end Analyze

/-! ### Programs -/

theorem Builtin.inert_register (hi : ∀ o, ∀ e ∈ (tree.scope o).symbols, tree.Inert e.2) :
    ∀ o, ∀ e ∈ ((register types tree scope).scope o).symbols,
      (register types tree scope).Inert e.2 := by
  unfold register
  generalize all = bs
  induction bs generalizing tree with
  | nil => exact hi
  | cons d bs ih =>
    rw [List.foldl_cons]
    cases hd : tree.define scope (d.symbol types) with
    | none =>
      rw [Option.map_none, Option.getD_none]
      exact ih hi
    | some r =>
      rw [Option.map_some, Option.getD_some]
      have h := ScopeTree.defines hd
      refine ih fun o e he => ?_
      rcases h.symbols o he with he | hx
      · exact (hi o e he).mono h.grown
      · refine ⟨hx ▸ h.has, ?_⟩
        rw [hx, h.new, Builtin.symbol]
        split <;> rfl

namespace AnalysisState

theorem inert_initial (he : e ∈ (({} : AnalysisState).tree.scope o).symbols) :
    ({} : AnalysisState).tree.Inert e.2 := by
  have hempty (o : ScopeId) : (ScopeTree.initial.scope o).symbols = [] := by
    obtain ⟨_ | n⟩ := o <;> rfl
  have hinert : ∀ o, ∀ e ∈ ((Builtin.register .initial .initial ScopeTree.root).scope o).symbols,
      (Builtin.register .initial .initial ScopeTree.root).Inert e.2 :=
    Builtin.inert_register (by simp [hempty])
  exact hinert o e he

/-- Before the third visit no variable of a procedure can be named elsewhere. -/
theorem Prepares.clear (h : s.Prepares [] b) (hg : s.Grown b) (henv : b.tree.Grown env.tree)
    (hs : ∀ o, ∀ e ∈ (s.tree.scope o).symbols, s.tree.Inert e.2) (hm : ∀ x, ¬s.types.HasMember x) :
    b.Clear env b := by
  have hinert (x : SymbolId) (hx : b.tree.Inert x) : ¬env.IsLocal x := fun hl => by
    cases (hx.mono henv).kind.symm.trans hl.isVariable
  refine ⟨fun o ho hk e he => hinert _ ?_, fun x hx => hinert _ ?_, fun _ _ => .refl _ _⟩
  · rcases h.names o e he with he | he | he
    · exact (hs o e he).mono hg.tree
    · exact he
    · cases hk.symm.trans he
  · exact (h.members x hx).resolve_left (hm x)

end AnalysisState

end BasicSSA
