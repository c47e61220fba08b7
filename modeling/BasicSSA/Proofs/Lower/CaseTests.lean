import BasicSSA.Proofs.Lower.OperandKinds
import BasicSSA.Proofs.Lower.Sound

/-!
# Case tests and equality

The test of a `Case` converts the value of the case to the type of the subject, where `=` brings
both sides to a type that it chooses for the pair. The two are the same lowering exactly when that
type is the type of the subject.
-/

namespace BasicSSA

open IL (Value Ty Kind Function Module Build)

namespace Lower

theorem coerce_of_alike (h : v.type.kind = target.kind) : coerce v target loc = pure v := by
  simp [coerce, h]

theorem coerce_null (h : target.isVoid = false) (hk : v.type.kind ≠ target.kind)
    (hv : v.isNull = true) : coerce v target loc = pure (.null target) := by
  cases v with
  | null type => simp [coerce, h, hk, Value.convert?]
  | _ => cases hv

/-- A conversion leaves the block open. Its result has the type that was asked for, unless nothing
had to be converted. -/
theorem coerce_open (hs : At s m f n) (ho : (f.block n).isTerminated = false) (v : Value)
    (target : Ty) (loc : Loc) :
    ∃ w s' f', coerce v target loc s = .ok (w, s') ∧ At s' m f' n ∧
      (f'.block n).isTerminated = false ∧
      w.type = if target.isVoid || v.type.kind = target.kind then v.type else target := by
  by_cases h : (target.isVoid || decide (v.type.kind = target.kind)) = true
  · have hcoerce : coerce v target loc = pure v := by simp [coerce, h]
    exact ⟨v, s, f, by rw [hcoerce]; rfl, hs, ho, by rw [if_pos h]⟩
  rw [if_neg h]
  cases hconvert : v.convert? target with
  | some w =>
    have hcoerce : coerce v target loc = pure w := by simp [coerce, h, hconvert]
    exact ⟨w, s, f, by rw [hcoerce]; rfl, hs, ho, Value.type_convert? hconvert⟩
  | none =>
    have hcoerce : coerce v target loc = emit (Build.cast v target loc) := by
      simp [coerce, h, hconvert]
    rw [hcoerce]
    refine ⟨_, _, _, hs.emit_appendResult ho, hs.withTemp.withFunction (by simp), ?_, rfl⟩
    simp [Function.block_push hs.inside, IL.Block.isTerminated, IL.Block.terminator?,
      IL.Opcode.isTerminator]

theorem compare_inj (hs : At s m f n) (ho : (f.block n).isTerminated = false)
    (ht : At t m' f' n) (ho' : (f'.block n).isTerminated = false)
    (h : emit (Build.compare .cmpEq a b loc) s = emit (Build.compare .cmpEq c d loc) t) :
    a = c ∧ b = d := by
  have h := (hs.emit_appendResult ho).symm.trans (h.trans (ht.emit_appendResult ho'))
  injection h with h
  injection h with _ h
  have hfunction := congrArg (·.builder.function) h
  have hblock := congrArg (·.map fun f => (f.block n).instrs.getLast?.map (·.operands)) hfunction
  simpa [LowerState.withFunction, Function.block_push, hs.inside, ht.inside] using hblock

/-- A subject that no comparison would convert: `=` chooses its type. -/
def KeepsSubject (p : Place) (li ri : Note) (l r : Value) : Prop :=
  l.type.kind = r.type.kind ∨ l.type.isVoid = false ∧ comparedAs p li ri l r = l.type

instance : Decidable (KeepsSubject p li ri l r) :=
  inferInstanceAs (Decidable (_ ∨ _ ∧ _))

theorem unify_of_keeps (h : KeepsSubject p li ri l r) :
    unify p li ri l r = (do return (l, ← coerce r l.type ri.loc)) := by
  by_cases hk : l.type.kind = r.type.kind
  · simp [unify, hk, coerce_of_alike hk.symm]
  · obtain ⟨hvoid, hsame⟩ := h.resolve_left hk
    cases hl : l.isNull with
    | true => exact absurd (congrArg Ty.kind (by simpa [comparedAs, hl] using hsame)) (Ne.symm hk)
    | false =>
      cases hr : r.isNull with
      | true => simp [unify, hk, hl, hr, coerce_null hvoid (Ne.symm hk) hr]
      | false => simp [unify_of_values hk hl hr, hsame, coerce_of_alike]

/-- If `=` compares what the test of the case compares, then it keeps the subject as it is. -/
theorem keeps_of_compares (hs : At s m f n) (ho : (f.block n).isTerminated = false)
    (h : (do emit (Build.compare .cmpEq l (← coerce r l.type ri.loc) ri.loc)) s =
      (do
        let (l', r') ← unify p li ri l r
        emit (Build.compare .cmpEq l' r' ri.loc)) s) :
    KeepsSubject p li ri l r := by
  by_cases hk : l.type.kind = r.type.kind
  · exact .inl hk
  obtain ⟨v, t, g, hcase, ht, hopen, hv⟩ := coerce_open hs ho r l.type ri.loc
  rw [bind_apply, hcase] at h
  cases hl : l.isNull with
  | true =>
    have hunify : unify p li ri l r = pure (.null r.type, r) := by simp [unify, hk, hl]
    rw [hunify] at h
    have hsame := (compare_inj ht hopen hs ho h).1
    exact absurd (congrArg (·.type.kind) hsame) hk
  | false =>
    cases hr : r.isNull with
    | true =>
      have hunify : unify p li ri l r = pure (l, .null l.type) := by simp [unify, hk, hl, hr]
      rw [hunify] at h
      have hsame := congrArg (·.type) (compare_inj ht hopen hs ho h).2
      refine .inr ⟨Bool.eq_false_iff.mpr fun hvoid => hk ?_, by simp [comparedAs, hl, hr]⟩
      rw [hvoid, Bool.true_or, if_pos rfl] at hv
      exact congrArg Ty.kind (hsame.symm.trans hv)
    | false =>
      have hvoid := comparedAs_not_void p li ri hk hl hr
      generalize htarget : comparedAs p li ri l r = target at hvoid
      obtain ⟨l', s₁, f₁, hleft, hs₁, ho₁, hl'⟩ := coerce_open hs ho l target li.loc
      obtain ⟨r', s₂, f₂, hright, hs₂, ho₂, hr'⟩ := coerce_open hs₁ ho₁ r target ri.loc
      rw [unify_of_values hk hl hr, htarget, bind_apply, bind_apply, hleft] at h
      dsimp only at h
      rw [bind_apply, hright] at h
      obtain ⟨rfl, rfl⟩ := compare_inj ht hopen hs₂ ho₂ h
      -- The subject is as it was, so the chosen type is stored as it is; the value has both types.
      have hkind : l.type.kind = target.kind := by
        by_contra hne
        rw [if_neg (by simp [hvoid, hne])] at hl'
        exact hne (congrArg Ty.kind hl')
      have hsubject : l.type.isVoid = false := by
        rw [Ty.isVoid, hkind]
        exact hvoid
      rw [if_neg (by simp [hvoid, ← hkind, Ne.symm hk])] at hr'
      rw [if_neg (by simp [hsubject, Ne.symm hk])] at hv
      exact .inr ⟨hsubject, htarget.trans (hr'.symm.trans hv)⟩

end Lower

open Lower in
/-- The test of a `Case` is lowered as the comparison of the subject with the value by `=` exactly
when `=` keeps the subject as it is: both are stored alike, or the type of the pair is the type of
the subject. Otherwise the test converts the value to the type of the subject. -/
theorem caseTest_eq_equality_iff (hr : expr p e s = .ok (r, t)) (ht : At t m f n)
    (ho : (f.block n).isTerminated = false) :
    caseTest p l e s = (do binary p { loc := e.info.loc } .eq li e.info l (← expr p e)) s ↔
      KeepsSubject p li e.info l r := by
  have hcase : caseTest p l e s =
      (do emit (Build.compare .cmpEq l (← coerce r l.type e.info.loc) e.info.loc)) t := by
    unfold caseTest
    rw [bind_apply, hr]
  have hequality : (do binary p { loc := e.info.loc } .eq li e.info l (← expr p e)) s = (do
      let (l', r') ← unify p li e.info l r
      emit (Build.compare .cmpEq l' r' e.info.loc)) t := by
    rw [bind_apply, hr]
    rfl
  rw [hcase, hequality]
  constructor
  · exact keeps_of_compares ht ho
  · intro h
    rw [unify_of_keeps h]
    simp

section
open Lower

/-- The start of a procedure without parameters. -/
def LowerState.entry : LowerState where
  builder := { function := some (Draft.start "S" {} []).function, current := some 0 }

/-- A subject of type `Long` is compared with 3 as `=` compares them: 3 becomes a `Long`. -/
theorem longSubject_eq_equality :
    let p : Place := { types := .initial, tree := .initial }
    let e : Expr Note := .literal { loc := {}, type := some .integer } (.integer 3)
    let l : Value := .var "n" 1 .long
    let li : Note := { loc := {}, type := some .long }
    caseTest p l e .entry = (do binary p { loc := {} } .eq li e.info l (← expr p e)) .entry := by
  intro p e l li
  exact (caseTest_eq_equality_iff (r := .int 3 ⟨.i32, "Integer"⟩) (m := {}) (n := 0)
    (f := (Draft.start "S" {} []).function) rfl ⟨rfl, rfl, rfl, by decide⟩ rfl).mpr (by decide)

end

/-- The kinds of the operands of each test for equality. -/
def IL.Module.comparedKinds (m : Module) : List (List Kind) :=
  m.functions.flatMap fun f => f.blocks.flatMap fun b =>
    (b.instrs.filter (·.op = .cmpEq)).map (·.operands.map (·.type.kind))

/-- A value of a case that is no whole number, and its comparison with the subject. -/
def fractionCase : String :=
  "Sub S(n As Integer)\nSelect Case n\nCase 2.5\nEnd Select\nDim b As Boolean = n = 2.5\nEnd Sub\n"

/-- The case compares whole numbers, and `=` compares numbers with a fraction. -/
theorem fractionCase_differs : (module? 1 "main" fractionCase).map (·.comparedKinds) =
    some [[.i32, .i32], [.f64, .f64]] := by
  decide +kernel

end BasicSSA
