import BasicSSA.Proofs.Compile.Text
import BasicSSA.Proofs.Lower.Program

/-!
# Control flow is lowered faithfully

Walks through the function of a procedure do what the structured reading of its body says, for any
answers to the tests.
-/

namespace BasicSSA

open IL (Function)

/-- A function does what the body of a procedure says. The runs that end are those of the walk, and
so are the things that a run does before it ends, if it ever does. -/
structure AgreesWith (f : Function) (H : SourceMap) (body : List (Stmt Note)) (o : Oracle) :
    Prop where
  ended : ∀ t, (∃ fuel, Stmt.run o fuel body [] = (t, .stop)) ↔
    ∃ n, (Walk.walk f H o n).trace = t ∧ Walk.step f H o (Walk.walk f H o n) = none
  begun : ∀ t, (∃ fuel, t <+: (Stmt.run o fuel body []).1) ↔
    ∃ n, t <+: (Walk.walk f H o n).trace

/-- A walk that follows a reading outside of loops ends with it, or has taken as many steps as the
reading has rounds. -/
theorem Follows.walk {x : Reading} (h : Follows f H o [] fuel 0 0 (x.andThen (.give .stop)) j l) :
    ∃ n, (Walk.walk f H o n).trace = (x.andThen (.give .stop) []).1 ∧
      ((x.andThen (.give .stop) []).2 = .stop ∧ Walk.step f H o (Walk.walk f H o n) = none ∨
        (x.andThen (.give .stop) []).2 = .cut ∧ ∀ k < fuel,
          Walk.step f H o (Walk.walk f H o k) ≠ none ∧ k < n) := by
  have hnormal := Reading.andThen_ne_normal (x := x) (y := .give .stop) (fun _ h => by cases h) []
  obtain ⟨n, c, hp, htr, hl⟩ := h []
  have hw : Walk.walk f H o n = c := by
    have := hp.walk_eq (k := 0)
    rwa [Nat.zero_add] at this
  refine ⟨n, hw ▸ htr, ?_⟩
  generalize (x.andThen (.give .stop) []).2 = out at hnormal hl
  cases out with
  | normal => exact absurd rfl hnormal
  | leave kind =>
    obtain ⟨_, hf, -⟩ := hl
    cases hf
  | stop => exact .inl ⟨rfl, hw ▸ hl⟩
  | cut =>
    have hl : fuel ≤ n := hl
    exact .inr ⟨rfl, fun k hk => ⟨Walk.Path.not_ended (k := 0) hp (Nat.zero_le _) (by omega),
      by omega⟩⟩

theorem agreesWith_of_follows
    (h : ∀ fuel, Follows f H o [] fuel 0 0 (Stmt.run o fuel body) 0 0) :
    AgreesWith f H body o where
  ended t := by
    constructor
    · rintro ⟨fuel, hrun⟩
      obtain ⟨n, htr, hend⟩ := (h fuel).walk
      change _ = (Stmt.run o fuel body []).1 at htr
      change (Stmt.run o fuel body []).2 = _ ∧ _ ∨ (Stmt.run o fuel body []).2 = _ ∧ _ at hend
      rw [hrun] at htr hend
      rcases hend with ⟨-, hend⟩ | ⟨hcut, -⟩
      · exact ⟨n, htr, hend⟩
      · cases hcut
    · rintro ⟨n, rfl, hend⟩
      obtain ⟨k, htr, ⟨hstop, hend'⟩ | ⟨-, hlong⟩⟩ := (h (n + 1)).walk
      · refine ⟨n + 1, Prod.ext ?_ hstop⟩
        rw [Walk.walk_ended_unique hend hend']
        exact htr.symm
      · exact absurd hend (hlong n (Nat.lt_succ_self n)).1
  begun t := by
    constructor
    · rintro ⟨fuel, ht⟩
      obtain ⟨n, htr, -⟩ := (h fuel).walk
      exact ⟨n, htr ▸ ht⟩
    · rintro ⟨n, ht⟩
      obtain ⟨k, htr, ⟨-, hend⟩ | ⟨-, hlong⟩⟩ := (h (n + 1)).walk
      · refine ⟨n + 1, ?_⟩
        rcases Nat.le_total n k with hnk | hnk
        · exact htr ▸ ht.trans (Walk.trace_walk_mono hnk)
        · rw [Walk.walk_ended hend hnk] at ht
          exact htr ▸ ht
      · have hnk := (hlong n (Nat.lt_succ_self n)).2
        exact ⟨n + 1, htr ▸ ht.trans (Walk.trace_walk_mono (Nat.le_of_lt hnk))⟩

namespace Lower

/-- A policy that permits everything. -/
def anything : Policy where
  calls _ := True
  addresses _ := True
  stores _ := True
  returns _ := True
  ints _ := True
  counts _ := True

theorem permits_anything (env : Env) (n : Node Note) : env.Permits anything n := by
  unfold Env.Permits
  split
  · exact fun _ _ _ _ _ => trivial
  · exact fun _ _ _ _ => trivial
  · exact fun _ _ => trivial
  · exact fun _ _ => trivial
  · exact fun _ => trivial
  · exact fun _ _ _ _ => trivial
  · exact fun _ _ _ _ => trivial
  · exact fun _ _ => trivial
  · trivial

theorem keeps_anything (env : Env) (items : List Item) : env.Keeps (fun _ => anything) items where
  returns _ := trivial
  obeys _ _ _ := ⟨fun _ v _ => by cases v <;> trivial, fun _ _ _ => trivial, fun _ _ => trivial,
    fun _ _ => trivial, ⟨trivial, trivial, fun _ _ => trivial⟩, fun _ _ _ _ _ _ _ n _ => permits_anything env n⟩
  routines _ _ _ _ n _ := permits_anything env n
  deferred _ _ := ⟨trivial, fun n _ => permits_anything env n⟩

end Lower

open Lower

/-- The function of a procedure starts with the block `entry`, its blocks hold the code of the
statements and tests of the procedure, and for any answers to the tests a walk through it does what
the body says. -/
theorem lower_agrees {a : Analysis} {i : Nat} {r : Routine} (h : lower a name = .ok m)
    (hr : a.routines[i]? = some r) :
    ∃ f x H, m.functions[i]? = some f ∧ f.name = r.name ∧ f.label 0 = "entry" ∧
      r.procedure.info.symbol = some x ∧
      (∀ k < f.blocks.length, LaidOut m.globals (bodyPlace a.env x r.owner) (f.block k) (H k)) ∧
      ∀ o, AgreesWith f H r.body o := by
  have ha := lower_ok h (keeps_anything _ _)
  obtain ⟨fs, init, hfs, -, hall, -⟩ := ha.functions
  obtain ⟨f, hf, x, H, hx, -, hname, -, -, hbuilt, hcarry⟩ := hall i r hr
  refine ⟨f, x, H, ?_, hname, hbuilt.entry, hx, hcarry.laid, fun o =>
    agreesWith_of_follows fun fuel => hcarry.follows o fuel⟩
  rw [hfs, List.getElem?_append_left (List.getElem?_eq_some_iff.mp hf).1]
  exact hf

/-- A program with a loop, a variable of the module and a method. -/
def loopText : String :=
  "Dim total As Integer = 1 + 2\nClass C\nFunction F(n As Integer) As Integer\n" ++
    "While n > 0\nn = n - 1\nIf n = 7 Then Exit While\nEnd While\nReturn n\nEnd Function\n" ++
    "End Class\n"

theorem lower_agrees_loop : ∃ p m r f H, accepted? 1 loopText = some p ∧
    lower (analyze p) "main" = .ok m ∧ (analyze p).routines[0]? = some r ∧
    m.functions[0]? = some f ∧ f.label 0 = "entry" ∧ f.blocks.length = 6 ∧
    ∀ o, AgreesWith f H r.body o := by
  have hroutines : (accepted? 1 loopText).map (fun p => (analyze p).routines.length) = some 1 := by
    decide +kernel
  have hblocks : (module? 1 "main" loopText).map (fun m =>
      m.functions.map (·.blocks.length)) = some [6, 1] := by
    decide +kernel
  obtain ⟨m, hm, hlen⟩ := Option.map_eq_some_iff.mp hblocks
  obtain ⟨p, hp, hl⟩ := Option.bind_eq_some_iff.mp hm
  rw [hp, Option.map_some, Option.some.injEq] at hroutines
  have hr : (analyze p).routines[0]? = some ((analyze p).routines[0]) := List.getElem?_eq_getElem _
  have hlower := toOption_eq_some.mp hl
  obtain ⟨f, x, H, hf, -, hentry, -, -, hagree⟩ := lower_agrees hlower hr
  refine ⟨p, m, _, f, H, hp, hlower, hr, hf, hentry, ?_, hagree⟩
  have hfirst : (m.functions.map (·.blocks.length))[0]? = some f.blocks.length := by simp [hf]
  rw [hlen] at hfirst
  exact (Option.some.inj hfirst).symm

end BasicSSA
