import BasicSSA.Parser.Decl

/-!
# Declarations in parsed programs

A procedure that stands alone has a name. A template holds a procedure or a class, so what stands in a
class is one of its own members, or a declaration that the class does not look into.
-/

namespace BasicSSA

variable {free : α → Prop}

/-- A procedure that stands alone has a name. -/
def Decl.Named : Decl α → Prop
  | .proc p | .extension _ _ p => p.name ≠ ""
  | .template _ d => d.Named
  | _ => True

namespace Decl

/-- A member of a class. The notes of declarations that the class does not look into are free. -/
def FormedMember (free : α → Prop) : Decl α → Prop
  | .nspace i _ _ | .module i _ _ | .cls i _ _ | .template _ (.cls i _ _) => free i
  | .extension _ _ p => free p.info
  | .template _ (.proc _) => True
  | .template .. => False
  | _ => True

mutual

/-- The members of all classes are formed. -/
def Formed (free : α → Prop) : Decl α → Prop
  | .nspace _ _ ds | .module _ _ ds => FormedList free ds
  | .cls _ _ ds => ∀ d ∈ ds, d.FormedMember free
  | .template _ d => d.Formed free
  | .uses .. | .imports .. | .interface .. | .record .. | .proc _ | .var _ | .const _
  | .typeDefine .. | .delegate _ | .extension .. => True

def FormedList (free : α → Prop) : List (Decl α) → Prop
  | [] => True
  | d :: ds => d.Formed free ∧ FormedList free ds

end

theorem FormedList.of_forall (h : ∀ d ∈ ds, d.Formed free) :
    FormedList free ds := by
  induction ds with
  | nil =>
    trivial
  | cons d ds ih =>
    exact ⟨h d List.mem_cons_self, ih fun d hd => h d (List.mem_cons_of_mem _ hd)⟩

variable {f : α → β}

theorem mapList_eq {ds : List (Decl α)} : mapList f ds = ds.map (·.map f) := by
  induction ds with
  | nil => rfl
  | cons d ds ih => rw [mapList, ih, List.map_cons]

theorem FormedMember.map {d : Decl α} (hf : ∀ a, free' (f a)) (h : d.FormedMember free) :
    (d.map f).FormedMember free' := by
  cases d with
  | nspace | module | cls | extension => exact hf _
  | template i d =>
    cases d with
    | proc => trivial
    | cls => exact hf _
    | _ => exact h.elim
  | _ => trivial

mutual

theorem Formed.map (hf : ∀ a, free' (f a)) : {d : Decl α} → d.Formed free → (d.map f).Formed free'
  | .nspace .., h | .module .., h => by
    rw [Decl.map, Formed]
    exact FormedList.map hf h
  | .cls .., h => by
    rw [Decl.map, Formed, mapList_eq, List.forall_mem_map]
    exact fun d hd => (h d hd).map hf
  | .template .., h => by
    rw [Decl.map, Formed]
    exact Formed.map hf h
  | .uses .., _ | .imports .., _ | .interface .., _ | .record .., _ | .proc _, _ | .var _, _
  | .const _, _ | .typeDefine .., _ | .delegate _, _ | .extension .., _ => by
    simp [Decl.map, Formed]

theorem FormedList.map (hf : ∀ a, free' (f a)) : {ds : List (Decl α)} → FormedList free ds →
    FormedList free' (mapList f ds)
  | [], _ => by
    rw [mapList, FormedList]
    trivial
  | _ :: _, h => by
    rw [mapList, FormedList]
    exact ⟨Formed.map hf h.1, FormedList.map hf h.2⟩

end

end Decl

namespace Parser

/-- What a parser gives has a property. -/
def Gives (x : Parser α) (Q : α → Prop) : Prop :=
  ∀ ts a ts', x ts = .ok (a, ts') → Q a

namespace Gives

theorem pure (h : Q a) : Gives (Pure.pure a) Q := by
  intro ts b ts' hx
  cases hx
  exact h

theorem bind (hx : Gives x Q) (hy : ∀ a, Q a → Gives (y a) R) :
    Gives (x >>= y) R := by
  intro ts b ts' h
  simp only [Bind.bind, StateT.bind, Except.bind] at h
  split at h
  · cases h
  · rename_i r hr
    exact hy r.1 (hx ts r.1 r.2 hr) r.2 b ts' h

theorem after (hy : ∀ a, Gives (y a) R) : Gives (x >>= y) R :=
  bind (Q := fun _ => True) (fun _ _ _ _ => trivial) fun a _ => hy a

theorem map (hx : Gives x Q) (h : ∀ a, Q a → R (y a)) :
    Gives (y <$> x) R := by
  rw [← bind_pure_comp]
  exact hx.bind fun a ha => .pure (h a ha)

theorem unexpected : Gives (unexpected what) Q := by
  intro ts a ts' h
  cases h

theorem outOfFuel : Gives outOfFuel Q := by
  intro ts a ts' h
  cases h

/-- The token that is taken is the one that was seen. -/
theorem consume (ts : List Token) :
    ∃ ts', Parser.consume ts = .ok (ts.headD endToken, ts') := by
  rcases ts with _ | ⟨t, _ | ⟨u, rest⟩⟩ <;> exact ⟨_, rfl⟩

theorem identifier : Gives (identifier what) (· ≠ "") := by
  intro ts name ts' h
  have hrun : Parser.identifier what ts =
      (if decide ((ts.headD endToken).kind = .identifier) then do return (← Parser.consume).lexeme
        else Parser.unexpected what : Parser String) ts := rfl
  rw [hrun] at h
  by_cases hk : (ts.headD endToken).kind = .identifier
  · rw [decide_eq_true hk] at h
    obtain ⟨rest, hc⟩ := consume ts
    simp only [if_true, Bind.bind, StateT.bind, hc, Except.bind] at h
    cases h
    exact (ts.headD endToken).spelled hk
  · rw [decide_eq_false hk] at h
    cases h

theorem whileNext (h : Gives item Q) :
    Gives (whileNext more item) (∀ a ∈ ·, Q a) := by
  refine after fun ts => ?_
  generalize ts.length + 1 = fuel
  induction fuel with
  | zero => exact outOfFuel
  | succ fuel ih =>
    refine after fun t => ?_
    split
    · exact h.bind fun a ha => ih.bind fun as has => .pure (List.forall_mem_cons.mpr ⟨ha, has⟩)
    · exact .pure (by simp)

end Gives

theorem procedure_gives : Gives (procedure kind what type body m hasBody) (·.name ≠ "") := by
  unfold procedure
  refine .after fun _ => Gives.identifier.bind fun name hname => ?_
  refine .after fun _ => .after fun _ => .after fun _ => .after fun _ => ?_
  split <;> exact .after fun _ => .pure hname

theorem constructor_gives : Gives (constructor m) (·.name ≠ "") := by
  unfold constructor
  exact .after fun _ => .after fun _ => .after fun _ => .after fun _ => .pure (by simp)

theorem members_gives (h : Gives item Q) : Gives (members item close what) (∀ d ∈ ·, Q d) := by
  unfold members
  refine .after fun _ => (Gives.whileNext ?_).bind fun ds hds => .after fun _ => .pure hds
  exact h.bind fun d hd => .after fun _ => .pure hd

/-- A declaration that may also stand in a class. -/
def Forms (x : Parser (Decl Loc)) : Prop :=
  Gives x fun d => d.Named ∧ d.Formed (fun _ => True) ∧ d.FormedMember fun _ => True

theorem Forms.map
    (hf : ∀ a, (f a).Named ∧ (f a).Formed (fun _ => True) ∧ (f a).FormedMember fun _ => True) :
    Forms (f <$> x) :=
  Gives.map (Q := fun _ => True) (fun _ _ _ _ => trivial) fun a _ => hf a

theorem Forms.proc (h : Gives x (·.name ≠ "")) : Forms (.proc <$> x) :=
  h.map fun _ hname => ⟨hname, trivial, trivial⟩

theorem extension_forms : Forms extension := by
  unfold extension
  refine .after fun _ => .after fun _ => Gives.identifier.bind fun first hfirst => ?_
  have hsecond : Gives (optionalAfter (.mark .dot) (identifier "method name"))
      fun second => second.getD first ≠ "" := by
    unfold optionalAfter
    refine .after fun accepted => ?_
    split
    · exact Gives.identifier.bind fun name hname => .pure hname
    · exact .pure hfirst
  exact hsecond.bind fun second hname => .after fun _ => .after fun _ => .after fun _ =>
    .pure ⟨hname, trivial, trivial⟩

theorem classDecl_forms (h : Forms item) :
    Gives (classDecl item) fun d => (∃ i head ds, d = .cls i head ds) ∧ d.Formed fun _ => True := by
  have hdone (loc : Loc) (head : ClassHead) : Gives (do
      let ds ← members item .class_ "'End Class'"
      return Decl.cls loc head ds) fun d =>
        (∃ i head ds, d = .cls i head ds) ∧ d.Formed fun _ => True := by
    refine (members_gives h).bind fun ds hds => .pure ⟨⟨_, _, ds, rfl⟩, ?_⟩
    exact fun d hd => (hds d hd).2.2
  unfold classDecl
  refine .after fun _ => .after fun _ => .after fun _ => .after fun _ => .after fun base => ?_
  split
  · exact .after fun _ => .after fun _ => hdone _ _
  · exact .after fun _ => hdone _ _

theorem template_forms (h : Forms item) : Forms (template item) := by
  have hproc : Gives (Decl.proc <$> function {} true) fun d => ∃ p, d = .proc p ∧ p.name ≠ "" :=
    procedure_gives.map fun p hname => ⟨p, rfl, hname⟩
  unfold template
  refine .after fun _ => .after fun isFunction => .after fun isClass => ?_
  split
  · refine hproc.bind fun d hd => .after fun _ => .pure ?_
    obtain ⟨p, rfl, hname⟩ := hd
    exact ⟨hname, by rw [Decl.Formed, Decl.Formed]; trivial, trivial⟩
  · split
    · refine (classDecl_forms h).bind fun d hd => .after fun _ => .pure ?_
      obtain ⟨⟨i, head, ds, rfl⟩, hd⟩ := hd
      exact ⟨trivial, by rw [Decl.Formed]; exact hd, trivial⟩
    · exact Gives.unexpected.bind fun _ hd => .after fun _ => .pure hd

theorem delegate_forms : Forms delegate := by
  have hrest (loc : Loc) (isSub : Bool) : Forms do
      let name ← identifier "delegate name"
      let params ← params
      let returnType ← if isSub then pure none else returnType
      return Decl.delegate { info := loc, name, params, returnType, isFunction := !isSub } := by
    refine .after fun _ => .after fun _ => ?_
    split <;> exact .after fun _ => .pure ⟨trivial, trivial, trivial⟩
  unfold delegate
  refine .after fun t => .after fun isSub => ?_
  dsimp only
  split
  · exact .after fun _ => hrest t.loc isSub
  · exact hrest t.loc isSub

theorem member_forms : Forms (member inClass) := by
  unfold member
  refine .after fun m => .after fun second => .after fun first => ?_
  split
  · exact Forms.proc procedure_gives
  · split
    · exact Forms.proc constructor_gives
    · exact Forms.proc procedure_gives
  · exact .after fun _ => Forms.map fun _ => ⟨trivial, trivial, trivial⟩
  · exact Forms.map fun _ => ⟨trivial, trivial, trivial⟩
  · split
    · exact Forms.map fun _ => ⟨trivial, trivial, trivial⟩
    · exact .unexpected

theorem declarationAux_forms : Forms (declarationAux fuel inClass) := by
  induction fuel generalizing inClass with
  | zero => exact .outOfFuel
  | succ fuel ih =>
    have hmembers (close : BlockWord) (what : String) :
        Gives (members (declarationAux fuel false) close what) (Decl.FormedList fun _ => True) :=
      fun ts ds ts' h => .of_forall fun d hd => (members_gives ih ts ds ts' h d hd).2.1
    unfold declarationAux
    refine .after fun _ => .after fun t => ?_
    split
    · refine .after fun _ => .after fun _ => (hmembers _ _).bind fun ds hds => .pure ⟨trivial, ?_, trivial⟩
      rwa [Decl.Formed]
    · refine .after fun _ => .after fun _ => (hmembers _ _).bind fun ds hds => .pure ⟨trivial, ?_, trivial⟩
      rwa [Decl.Formed]
    · exact .after fun _ => .after fun _ => .pure ⟨trivial, trivial, trivial⟩
    · exact .after fun _ => .after fun _ => .pure ⟨trivial, trivial, trivial⟩
    · intro ts d ts' h
      obtain ⟨⟨_, _, _, rfl⟩, hd⟩ := classDecl_forms ih ts d ts' h
      exact ⟨trivial, hd, trivial⟩
    · exact .after fun _ => .after fun _ => .after fun _ => .after fun _ => .after fun _ =>
        .pure ⟨trivial, trivial, trivial⟩
    · exact .after fun _ => .after fun _ => .after fun _ => .after fun _ => .after fun _ =>
        .pure ⟨trivial, trivial, trivial⟩
    · exact .after fun _ => .after fun _ => .after fun _ => .after fun _ => .after fun _ =>
        .pure ⟨trivial, trivial, trivial⟩
    · exact .after fun _ => .after fun _ => .after fun _ => .after fun _ => .pure ⟨trivial, trivial, trivial⟩
    · exact template_forms ih
    · exact delegate_forms
    · exact extension_forms
    · exact Forms.map fun _ => ⟨trivial, trivial, trivial⟩
    · exact member_forms

/-- What is known of all declarations holds of a parsed program. -/
theorem Gives.of_parse (hd : ∀ fuel, Gives (declarationAux fuel false) Q)
    (h : parse tokens = .ok p) : ∀ d ∈ p, Q d := by
  have hgives : Gives program (∀ d ∈ ·, Q d) :=
    .after fun _ => .after fun _ => .whileNext <| (hd _).bind fun d hd => .after fun _ => .pure hd
  unfold parse at h
  cases hr : program (stream tokens) with
  | error e =>
    rw [hr] at h
    cases h
  | ok r =>
    rw [hr] at h
    cases h
    exact hgives _ _ _ hr

end Parser

/-- Each procedure of a parsed program that stands alone has a name. -/
theorem named_of_parse (h : parse tokens = .ok p) : ∀ d ∈ p, d.Named :=
  Parser.Gives.of_parse (fun _ ts d ts' hx => (Parser.declarationAux_forms ts d ts' hx).1) h

/-- The members of the classes of a parsed program are formed. -/
theorem formed_of_parse (h : parse tokens = .ok p) : Decl.FormedList (fun _ => True) p :=
  .of_forall <| Parser.Gives.of_parse
    (fun _ ts d ts' hx => (Parser.declarationAux_forms ts d ts' hx).2.1) h

end BasicSSA
