import BasicSSA.Lower.Expr
import BasicSSA.Proofs.Analysis.Growth
import BasicSSA.Proofs.Lower.Straight
import BasicSSA.Proofs.Types.Lineage

/-!
# Kinds of values

How the values of a type are stored, and what kind of value a step of lowering delivers.
-/

namespace BasicSSA

open IL (Value Ty Kind Opcode Instr Build)

/-! ### Kinds of types -/

/-- A type that is not of the initial catalog is no primitive type. -/
theorem TypeId.Added.kind? {t : TypeId} (h : t.Added) : t.kind? = none := by
  have hne (u : TypeId) (hu : u.index < Catalog.initial.types.size) : t ≠ u := by
    rintro rfl
    exact absurd hu (Nat.not_lt.mpr h)
  simp [TypeId.kind?, hne .integer (by decide), hne .long (by decide), hne .single (by decide),
    hne .double (by decide), hne .boolean (by decide), hne .string (by decide),
    hne .char (by decide)]

namespace Catalog.Lawful

variable {c : Catalog}

section

variable (hc : c.Lawful)

include hc

theorem isVoid_of_added (h : t.Added) : c.isVoid t = false := by
  unfold isVoid
  by_cases hhas : c.Has t
  · have hbasic := hc.later t hhas (Nat.not_lt.mpr h)
    refine decide_eq_false fun hvoid => ?_
    rw [hvoid] at hbasic
    cases hbasic
  · rw [shape, info, Array.getD_eq_getD_getElem?, Array.getElem?_eq_none (Nat.not_lt.mp hhas)]
    rfl

theorem kind_of_added (h : t.Added) : (c.lowered (some t)).kind = .ptr := by
  simp [lowered, h.kind?, hc.isVoid_of_added h]

theorem added_of_isParameter (h : c.isParameter t = true) : t.Added := by
  refine Nat.not_lt.mp fun hstart => ?_
  have hshape : initial.shape t = .parameter := by
    rw [shape, ← (hc.start t hstart).2.1.shape]
    exact of_decide_eq_true h
  have hall : ∀ i ∈ initial.types, i.shape ≠ .parameter := by
    simp [initial]
  refine hall (initial.info t) ?_ hshape
  rw [info, Array.getD_eq_getD_getElem?, Array.getElem?_eq_getElem hstart, Option.getD_some]
  exact Array.getElem_mem hstart

theorem kind_of_isParameter (h : c.isParameter t = true) :
    (c.lowered (some t)).kind = .ptr :=
  hc.kind_of_added (hc.added_of_isParameter h)

theorem kind_getD (o : Option TypeId) :
    (c.lowered (some (o.getD .object))).kind = (c.lowered o).kind := by
  cases o with
  | some t => rfl
  | none =>
    have hvoid : c.isVoid .object = false := by
      rw [isVoid, shape, (hc.start .object (by decide)).2.1.shape]
      rfl
    simp [lowered, TypeId.kind?, TypeId.object, TypeId.integer, TypeId.long, TypeId.single,
      TypeId.double, TypeId.boolean, TypeId.string, TypeId.char] at hvoid ⊢
    simp [hvoid]

end

end Catalog.Lawful

/-! ### Kinds of constants -/

/-- A number that is known now. -/
def IL.Value.isNumber : Value → Bool
  | int .. | float .. => true
  | _ => false

theorem IL.Value.type_convert? {target : Ty} {v w : Value} (h : v.convert? target = some w) :
    w.type = target := by
  unfold Value.convert? at h
  split at h
  · split at h
    · cases h
      rfl
    · split at h <;> cases h
      rfl
  · split at h <;> cases h
    rfl
  · cases h
    rfl
  · cases h

theorem IL.Ty.kind_zero? {t : Ty} (h : t.zero? = some v) : v.type.kind = t.kind := by
  unfold Ty.zero? at h
  split at h <;> cases h <;> simp_all [Value.type, Ty.boolean, Ty.string]

theorem IL.Ty.type_one (t : Ty) : t.one.type = t := by
  unfold Ty.one
  split <;> rfl

theorem Literal.kind_value (v : Literal) (c : Catalog) :
    (v.value (c.lowered (some v.typeId))).type.kind = (c.lowered (some v.typeId)).kind := by
  cases v <;> rfl

theorem Literal.kind_numeric? (h : numeric? type d = some v) :
    v.type = type ∧ type.kind ≠ .ptr := by
  unfold numeric? at h
  split at h
  · cases h
    refine ⟨rfl, fun hk => ?_⟩
    simp_all [Ty.isFloat]
  · split at h
    · cases h
      refine ⟨rfl, fun hk => ?_⟩
      simp_all [Ty.isInteger]
    · cases h

/-- A constant of a type is a value of its kind. An address that is known is no number. -/
theorem Literal.kind_constant? {l : Literal} (h : l.constant? type negate = some v) :
    v.type.kind = type.kind ∧ (type.kind = .ptr → v.isNumber = false) := by
  unfold constant? at h
  dsimp only at h
  split at h
  · obtain ⟨rfl, hk⟩ := kind_numeric? h
    exact ⟨rfl, fun hp => absurd hp hk⟩
  · split at h
    · cases h
      refine ⟨rfl, fun hk => ?_⟩
      simp_all [Ty.isInteger]
    · obtain ⟨rfl, hk⟩ := kind_numeric? h
      exact ⟨rfl, fun hp => absurd hp hk⟩
  · obtain ⟨rfl, hk⟩ := kind_numeric? h
    exact ⟨rfl, fun hp => absurd hp hk⟩
  · obtain ⟨rfl, hk⟩ := kind_numeric? h
    exact ⟨rfl, fun hp => absurd hp hk⟩
  · split at h <;> cases h
    simp_all [Value.type, Ty.string, Value.isNumber]
  · split at h <;> cases h
    simp_all [Value.type, Ty.boolean, Value.isNumber]
  · split at h <;> cases h
    exact ⟨rfl, fun _ => rfl⟩

theorem Expr.kind_constant? {e : Expr α} (h : e.constant? type = some v) :
    v.type.kind = type.kind ∧ (type.kind = .ptr → v.isNumber = false) := by
  unfold constant? at h
  split at h
  · exact Literal.kind_constant? h
  · exact Literal.kind_constant? h
  · cases h

namespace Lower

/-! ### What a step delivers -/

/-- What is true of the value of a step, whenever it has one. -/
def Delivers (x : Lower α) (Q : α → Prop) : Prop :=
  ∀ s a s', x s = .ok (a, s') → Q a

namespace Delivers

theorem pure (h : Q a) : Delivers (Pure.pure a) Q := by
  intro s b s' hx
  exact (pure_ok.mp hx).1 ▸ h

theorem throw (e : LowerError) : Delivers (MonadExcept.throw e : Lower α) Q := by
  intro s a s' hx
  cases hx

theorem any (x : Lower α) : Delivers x fun _ => True :=
  fun _ _ _ _ => trivial

theorem bind (hx : Delivers x Q)
    (hy : ∀ a, Q a → Delivers (y a) R) : Delivers (x >>= y) R := by
  intro s b s' h
  obtain ⟨a, t, ha, hb⟩ := bind_ok.mp h
  exact hy a (hx s a t ha) t b s' hb

/-- Only the last step matters. -/
theorem last (hy : ∀ a, Delivers (y a) R) :
    Delivers (x >>= y) R :=
  (any x).bind fun a _ => hy a

theorem imp {Q' : α → Prop} (hx : Delivers x Q) (h : ∀ a, Q a → Q' a) :
    Delivers x Q' :=
  fun s a s' hxa => h a (hx s a s' hxa)

theorem needed {Q : Value → Prop} (h : ∀ a, v = some a → Q a) :
    Delivers (needed e v) Q := by
  cases v with
  | none => exact .throw e
  | some v => exact .pure (h v rfl)

theorem appendResult :
    Delivers (emit (Build.appendResult i)) fun v => ∃ k, v = .temp k i.type := by
  rw [Build.appendResult, emit_bind]
  refine bind (Q := fun v => ∃ k, v = .temp k i.type) (fun s a s' h => ?_) fun v hv => ?_
  · cases h
    exact ⟨_, rfl⟩
  · rw [emit_bind]
    exact last fun _ => .pure hv

theorem type_appendResult : Delivers (emit (Build.appendResult i)) (·.type = i.type) :=
  appendResult.imp fun _ ⟨_, h⟩ => h ▸ rfl

/-- A call delivers a value of its type, or none if that is void. -/
theorem call : Delivers (emit (Build.call callee args type loc)) fun v =>
    ∀ a, v = some a → a.type = type := by
  unfold Build.call
  split
  · rw [emit_bind]
    exact last fun _ => .pure nofun
  · rw [emit_bind]
    refine type_appendResult.bind fun v hv => .pure ?_
    rintro _ ⟨⟩
    exact hv

end Delivers

theorem Straight.delivers
    (hx : Straight π m ds x Q) (h : Delivers x Q') : Straight π m ds x fun a => Q a ∧ Q' a := by
  intro s f n a s' hs hxa
  obtain ⟨f', code, hs', hg, hk, hq⟩ := hx s f n a s' hs hxa
  exact ⟨f', code, hs', hg, hk, hq, h s a s' hxa⟩

/-! ### Steps on values -/

theorem zero_delivers : Delivers (zero type) (·.type.kind = type.kind) :=
  .needed fun _ => Ty.kind_zero?

theorem coerce_delivers (h : target.isVoid = false) :
    Delivers (coerce v target loc) (·.type.kind = target.kind) := by
  unfold coerce
  rw [h, Bool.false_or]
  split
  · exact .pure (of_decide_eq_true ‹_›)
  · split
    · exact .pure (congrArg Ty.kind (Value.type_convert? ‹_›))
    · exact Delivers.type_appendResult.imp fun _ h => congrArg Ty.kind h

theorem runtime_delivers : Delivers (runtime function args type loc) (·.type = type) :=
  Delivers.call.bind fun _ hv => .needed hv

theorem toText_delivers : Delivers (toText v loc) (·.type.kind = .str) := by
  unfold toText
  split
  · exact .pure ‹_›
  · exact runtime_delivers.imp fun _ h => congrArg Ty.kind h

theorem readName_delivers : Delivers (readName name type) (·.type = type) :=
  .last fun _ => .pure rfl

theorem read_delivers : Delivers (read p x) (·.type = p.typeOfSymbol x) :=
  .last fun _ => readName_delivers

theorem arith_delivers :
    Delivers (arith op l r type loc) (·.type = if op = .concat then .string else type) := by
  unfold arith
  split
  · exact .last fun _ => .last fun _ => .type_appendResult
  · exact .last fun _ => .last fun _ => .type_appendResult

theorem binary_delivers : Delivers (binary p i op li ri l r) fun v =>
    v.type = if op.opcode.isCompare then .boolean
      else if op = .concat then .string else p.typeOf i := by
  unfold binary
  split
  · rename_i hop
    refine .last fun _ => ?_
    simp only [Build.compare, hop, if_true]
    exact .type_appendResult
  · exact arith_delivers

theorem cast_delivers (h : (p.typeOf i).isVoid = false) :
    Delivers (cast p i v) (·.type.kind = (p.typeOf i).kind) := by
  unfold cast
  dsimp only
  split
  · exact Delivers.type_appendResult.imp fun _ h => congrArg Ty.kind h
  · exact coerce_delivers h

theorem joined_delivers (hv : v.type.kind = .str) :
    Delivers (joined before v loc) (·.type.kind = .str) := by
  unfold joined
  split
  · exact .pure hv
  · exact Delivers.type_appendResult.imp fun _ h => congrArg Ty.kind h

theorem callProcedure_delivers : Delivers (callProcedure p site x self args) fun v =>
    ∀ a, v = some a → a.type = p.returnTypeAt site x ∧ (p.returnTypeAt site x).isVoid = false := by
  unfold callProcedure
  split
  · exact .throw _
  · intro s v s' h a ha
    refine ⟨Delivers.call s v s' h a ha, ?_⟩
    refine Bool.eq_false_iff.mpr fun hvoid => ?_
    subst ha
    simp only [Build.call, hvoid, if_true, emit_bind] at h
    obtain ⟨_, _, -, h⟩ := bind_ok.mp h
    cases h

theorem me_delivers (h : ∀ v, p.me = some v → v.type.kind = .ptr) :
    Delivers (me p) (·.type.kind = .ptr) :=
  .needed h

theorem parts_delivers
    (hb : ∀ v, before = some v → v.type.kind = .str) (ps : List (Part Note)) :
    Delivers (parts fields p loc before ps) fun v => ∀ a, v = some a → a.type.kind = .str := by
  induction ps generalizing before with
  | nil =>
    unfold parts
    exact .pure hb
  | cons q ps ih =>
    have hsome (v : Value) (hv : v.type.kind = .str) : ∀ w, some v = some w → w.type.kind = .str := by
      rintro _ ⟨⟩
      exact hv
    cases q with
    | text s =>
      unfold parts
      exact (joined_delivers rfl).bind fun v hv => ih (hsome v hv)
    | expr e =>
      unfold parts
      exact .last fun _ => toText_delivers.bind fun _ hv => (joined_delivers hv).bind fun v hv =>
        ih (hsome v hv)

end Lower

end BasicSSA
