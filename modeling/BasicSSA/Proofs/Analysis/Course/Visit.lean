import BasicSSA.Proofs.Analysis.Course.Types
import BasicSSA.Proofs.Analysis.Tables

/-!
# Steps of the third visit

The third visit looks at bodies and values. `Goes` says of a step of it what all of them keep, and
what holds of its value in the state after it. `Reads` says so of a step that defines nothing.
-/

namespace BasicSSA

namespace AnalysisState

variable {s : AnalysisState}

/-- What the third visit keeps. -/
structure Onward (s t : AnalysisState) : Prop extends s.Grown t where
  along : Along (fun _ => False) .bodies s t

namespace Onward

theorem refl (s : AnalysisState) : s.Onward s :=
  ⟨.refl s, .refl⟩

theorem trans (h : s.Onward t) (h' : t.Onward u) : s.Onward u :=
  ⟨h.toGrown.trans h'.toGrown, h.along.trans h'.along⟩

end Onward

/-- What the third visit keeps where it defines nothing. -/
structure Still (s t : AnalysisState) : Prop extends s.Onward t where
  quiet : s.Quiet t

namespace Still

theorem refl (s : AnalysisState) : s.Still s :=
  ⟨.refl s, .refl s⟩

theorem trans (h : s.Still t) (h' : t.Still u) : s.Still u :=
  ⟨h.toOnward.trans h'.toOnward, h.quiet.trans h'.quiet⟩

theorem kept (h : s.Still t) : s.Kept t :=
  h.quiet.kept

end Still

end AnalysisState

namespace Analyze

open AnalysisState

/-- A step of the third visit, and what it gives. -/
def Goes (s : AnalysisState) (x : Analyze α) (Q : AnalysisState → α → Prop) : Prop :=
  s.Valid .bodies → s.Ok → (x s).2.Ok ∧ s.Onward (x s).2 ∧ Q (x s).2 (x s).1

/-- A step of the third visit that defines nothing, and what it gives. -/
def Reads (s : AnalysisState) (x : Analyze α) (Q : AnalysisState → α → Prop) : Prop :=
  Goes s x fun t a => s.Still t ∧ Q t a

namespace Reads

theorem pure (h : Q s a) : Reads s (Pure.pure a) Q :=
  fun _ hok => ⟨hok, .refl s, .refl s, h⟩

theorem bind (hx : Reads s x Q)
    (hy : ∀ a t, s.Still t → Q t a → Reads t (y a) R) : Reads s (x >>= y) R := by
  intro hs hok
  obtain ⟨hok', -, ht, hq⟩ := hx hs hok
  obtain ⟨hok'', -, hu, hr⟩ := hy _ _ ht hq (ht.along.last hs) hok'
  exact ⟨hok'', ht.toOnward.trans hu.toOnward, ht.trans hu, hr⟩

theorem bindGoes (hx : Reads s x Q)
    (hy : ∀ a t, s.Still t → Q t a → Goes t (y a) R) : Goes s (x >>= y) R := by
  intro hs hok
  obtain ⟨hok', -, ht, hq⟩ := hx hs hok
  obtain ⟨hok'', hu, hr⟩ := hy _ _ ht hq (ht.along.last hs) hok'
  exact ⟨hok'', ht.toOnward.trans hu, hr⟩

theorem mono (hx : Reads s x Q) (h : ∀ t a, s.Still t → Q t a → Q' t a) : Reads s x Q' := by
  intro hs hok
  obtain ⟨hok', ht, hstill, hq⟩ := hx hs hok
  exact ⟨hok', ht, hstill, h _ _ hstill hq⟩

theorem of_valid (h : s.Valid .bodies → Reads s x Q) : Reads s x Q :=
  fun hs => h hs hs

theorem of_ok (h : s.Ok → Reads s x Q) : Reads s x Q :=
  fun hs hok => h hok hs hok

theorem of (h : Looks (fun _ => False) .bodies .bodies s x Q) : Reads s x Q := by
  intro hs hok
  obtain ⟨hok', ha, hg, -, hquiet, hq⟩ := h hs hok
  exact ⟨hok', ⟨hg, ha⟩, ⟨⟨hg, ha⟩, hquiet⟩, hq⟩

theorem get (h : Reads s (y s) R) :
    Reads s (MonadState.get >>= y) R :=
  h

theorem types (h : Reads s (y s.types) R) :
    Reads s (Analyze.types >>= y) R :=
  h

theorem tree (h : Reads s (y s.tree) R) :
    Reads s (Analyze.tree >>= y) R :=
  h

theorem typeText (h : Reads s (y (s.types.text c)) R) :
    Reads s (Analyze.typeText c >>= y) R :=
  h

theorem symbol (h : Reads s (y (s.tree.symbol x)) R) :
    Reads s (Analyze.symbol x >>= y) R :=
  h

theorem symbol? (h : Reads s (y (o.map s.tree.symbol)) R) :
    Reads s (Analyze.symbol? o >>= y) R := by
  cases o with
  | none => exact h
  | some x => exact h

theorem report (h : p.isInternal = false) :
    Reads s (report p loc n) fun t _ => p.severity = .error → t.Failed :=
  of (.report h)

theorem fails (h : p.isInternal = false := by rfl) (he : p.severity = .error := by rfl) :
    Reads s (Analyze.report p loc n) fun t _ => t.Failed :=
  (report h).mono fun _ _ _ hfail => hfail he

theorem reportAll (h : ∀ p ∈ ps, p.isInternal = false) :
    Reads s (reportAll ps loc) fun t _ => (∃ p ∈ ps, p.severity = .error) → t.Failed :=
  of (.reportAll h)

theorem refer : Reads s (refer loc n x) fun _ _ => True :=
  of .refer

theorem forIn {as : List α}
    (hf : ∀ a ∈ as, ∀ t, Reads t (f a ⟨⟩) fun _ r => r = .yield ⟨⟩) :
    Reads s (ForIn.forIn as PUnit.unit f) fun _ _ => True := by
  induction as generalizing s with
  | nil => exact .pure trivial
  | cons a as ih =>
    obtain ⟨ha, has⟩ := List.forall_mem_cons.mp hf
    rw [List.forIn_cons]
    refine (ha s).bind fun r t _ hr => ?_
    subst hr
    exact ih has

end Reads

theorem typeOf_reads : Reads s (typeOf scope r loc) fun t a => t.types.Has a :=
  .of (typeOf_looks r)

theorem typeOf?_reads : Reads s (typeOf? scope r loc) fun t a => t.types.Has a :=
  .of typeOf?_looks

theorem arrayOf_reads {f : Catalog → TypeId}
    (ha : s.Valid .bodies → s.types.Has (f s.types)) :
    Reads s (withTypes fun c => c.arrayOf (f c) n) fun t b => t.types.Has b :=
  .of (arrayOf_looks ha)

theorem pointerTo_reads (ha : s.types.Has a) :
    Reads s (withTypes (·.pointerTo a)) fun t b => b.Added ∧ t.types.Has b := by
  intro hs hok
  obtain ⟨hok', ht, hstill, hhas⟩ := Reads.of (pointerTo_looks ha) hs hok
  exact ⟨hok', ht, hstill, hs.types.added_make hok.made, hhas⟩

namespace Goes

theorem pure (h : Q s a) : Goes s (Pure.pure a) Q :=
  fun _ hok => ⟨hok, .refl s, h⟩

theorem bind (hx : Goes s x Q)
    (hy : ∀ a t, s.Onward t → Q t a → Goes t (y a) R) : Goes s (x >>= y) R := by
  intro hs hok
  obtain ⟨hok', ht, hq⟩ := hx hs hok
  obtain ⟨hok'', hu, hr⟩ := hy _ _ ht hq (ht.along.last hs) hok'
  exact ⟨hok'', ht.trans hu, hr⟩

theorem mono (hx : Goes s x Q) (h : ∀ t a, s.Onward t → Q t a → Q' t a) :
    Goes s x Q' :=
  fun hs hok => ⟨(hx hs hok).1, (hx hs hok).2.1, h _ _ (hx hs hok).2.1 (hx hs hok).2.2⟩

theorem of_valid (h : s.Valid .bodies → Goes s x Q) : Goes s x Q :=
  fun hs => h hs hs

theorem of (h : Runs (fun _ => False) .bodies .bodies s x Q) : Goes s x Q := by
  intro hs hok
  obtain ⟨hok', ha, hg, -, hq⟩ := h hs hok
  exact ⟨hok', ⟨hg, ha⟩, hq⟩

theorem get (h : Goes s (y s) R) :
    Goes s (MonadState.get >>= y) R :=
  h

theorem types (h : Goes s (y s.types) R) :
    Goes s (Analyze.types >>= y) R :=
  h

theorem tree (h : Goes s (y s.tree) R) :
    Goes s (Analyze.tree >>= y) R :=
  h

theorem define (hs : s.tree.HasScope scope) (ha : s.types.Has a)
    (hy : y.type = some a := by rfl) (hr : y.returnType = none := by rfl)
    (hp : y.params = [] := by rfl) (hc : y.isCallable = false := by rfl)
    (hn : decide (y.kind = .nspace) = false := by rfl) (hi : y.inner = none := by rfl)
    (hv : y.Valued := by rfl) :
    Goes s (define scope y) fun t new =>
      (∀ x, new = some x → t.tree.HasSymbol x ∧ t.tree.symbol x = { y with scope }) ∧
        s.Adds scope new.toList t ∧ ((s.tree.scope scope).symbols = [] → new ≠ none) ∧
        Declaration.InOrder s.tree.symbols.size t.tree.symbols.size (new.toList.map .new) := by
  obtain ⟨hadds, hsome⟩ := define_adds (y := y) hs
  exact of (RunsBut.and (Runs.define (by simp [hi]) hv fun _ => .of_type ha hy hr hp hc hn)
    ⟨hadds, hsome, define_inOrder s scope y⟩)

end Goes

end Analyze

end BasicSSA
