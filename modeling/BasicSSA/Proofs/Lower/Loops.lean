import BasicSSA.Proofs.Lower.Control

/-!
# The code of loops
-/

namespace BasicSSA.Lower

open IL (Value Module Build)

variable {p : Place}

/-! ### Blocks of one piece -/

theorem Rest.test (h : Rest π q m c₀ (l ++ k :: r) s c)
    (hx : Straight π m ds x π.Fits)
    (hcode : ∀ v code, Emits m.globals x v code → ∃ p : Place, p.Within q ∧
      CodeOf m.globals p a code (some v))
    (hyes : c.Has yes) (hno : c.Has no) (hgoto : continueAt k s = .ok ((), t₁))
    (hv : x t₁ = .ok (v, t₂)) (hbranch : branch v yes no loc t₂ = .ok ((), s'))
    (hds : a.declarations = ds) :
    ∃ c', Rest π q m c₀ (l ++ r) s' c' ∧
      c.Adds [a] (fun f H => H.Does k 0 a ∧ Branches f H k 1 yes no) c' := by
  have hk := (h.blank k (by simp)).1
  obtain ⟨c₁, h₁, hp, hfits⟩ :=
    (Stage.startAt h.state h.ok hk hgoto).piece hx hk.isOpen hv (hcode v) hds
  rw [← hp.current] at h₁
  obtain ⟨c₂, h₂, hf, hF⟩ := h₁.branch hbranch (hyes.later hp.adds.ofGoto)
    (hno.later hp.adds.ofGoto) hp.last hfits
  have ha := (hp.adds.trans (hf.adds hF)).ofGoto
  rw [hp.current, hp.index, hk.index] at ha
  exact ⟨c₂, h.within h₂, ha⟩

theorem Rest.step (h : Rest π q m c₀ (l ++ k :: r) s c)
    (hx : Straight π m a.declarations x Q)
    (hcode : ∀ code, Emits m.globals x () code → ∃ p : Place, p.Within q ∧
      CodeOf m.globals p a code none)
    (hj : c.Has j) (hgoto : continueAt k s = .ok ((), t₁)) (hxs : x t₁ = .ok ((), t₂))
    (hjump : jump j loc t₂ = .ok ((), s')) :
    ∃ c', Rest π q m c₀ (l ++ r) s' c' ∧
      c.Adds [a] (fun f H => H.Does k 0 a ∧ Jumps f H k 1 j) c' := by
  have hk := (h.blank k (by simp)).1
  obtain ⟨c₁, h₁, hp, -⟩ := (Stage.startAt h.state h.ok hk hgoto).piece hx hk.isOpen hxs hcode rfl
  rw [← hp.current] at h₁
  obtain ⟨c₂, h₂, hf, hF⟩ := h₁.jump hjump (hj.later hp.adds.ofGoto)
  have ha := (hp.adds.trans (hf.adds hF)).ofGoto
  rw [hp.current, hp.index, hk.index] at ha
  exact ⟨c₂, h.within h₂, ha⟩

/-! ### Loops -/

/-- A loop that counts: a test, the body and a step to the next round. -/
theorem countedLoop_lowers
    (htest : Straight π m a.declarations test π.Fits)
    (htestCode : ∀ v code, Emits m.globals test v code → ∃ p : Place, p.Within q ∧
      CodeOf m.globals p a code (some v))
    (hnext : Straight π m a'.declarations next fun _ => True)
    (hnextCode : ∀ code, Emits m.globals next () code → ∃ p : Place, p.Within q ∧
      CodeOf m.globals p a' code none)
    (hbody : ∀ frame : LoopFrame, frame.kind = .forLoop →
      Lowers π q m (frame :: loops) R Λ (body frame)) :
    Lowers π q m loops
      (fun o fuel => .loop .forLoop fuel fun again =>
        .ask o a ((R o fuel).andThen ((Reading.act a').andThen again)) .skip)
      (Λ.loop .forLoop (some a) true (a :: (Λ.actions ++ [a'])))
      (countedLoop hint loc test next body) := by
  intro s c s' hs hok ho hl h
  obtain ⟨cond, t₁, hcond, h⟩ := bind_ok.mp h
  obtain ⟨inside, t₂, hinside, h⟩ := bind_ok.mp h
  obtain ⟨step, t₃, hstep, h⟩ := bind_ok.mp h
  obtain ⟨leave, t₄, hleave, h⟩ := bind_ok.mp h
  obtain ⟨_, t₅, hjump, h⟩ := bind_ok.mp h
  obtain ⟨_, t₆, hgoto, h⟩ := bind_ok.mp h
  obtain ⟨v, t₇, hv, h⟩ := bind_ok.mp h
  obtain ⟨_, t₈, hbranch, h⟩ := bind_ok.mp h
  obtain ⟨_, t₉, harm, h⟩ := bind_ok.mp h
  obtain ⟨_, t₁₀, hgoto', h⟩ := bind_ok.mp h
  obtain ⟨_, t₁₁, hn, h⟩ := bind_ok.mp h
  obtain ⟨_, t₁₂, hagain, hend⟩ := bind_ok.mp h
  obtain ⟨c₁, h₁⟩ := (Opened.start hs hok ho).newBlock hcond
  obtain ⟨c₂, h₂⟩ := h₁.newBlock hinside
  obtain ⟨c₃, h₃⟩ := h₂.newBlock hstep
  obtain ⟨c₄, h₄⟩ := h₃.newBlock hleave
  obtain ⟨c₅, h₅, ha₅⟩ := h₄.jump hjump (by simp)
  obtain ⟨c₆, h₆, ha₆⟩ := h₅.test (l := [leave, step, inside]) htest htestCode
    (h₅.has (by simp)) (h₅.has (by simp)) hgoto hv hbranch rfl
  have hcond : c₆.Has cond := (h₅.has (by simp)).later ha₆
  let frame : LoopFrame := { kind := .forLoop, leave, next := step }
  obtain ⟨c₇, h₇, ha₇⟩ := h₆.fill (l := [leave, step]) (arm_fills (hbody frame rfl))
    (.cons (hl.later (ha₅.trans ha₆)) (h₆.has (by simp [frame]))) (h₆.has (by simp)) harm
  obtain ⟨c₈, h₈, ha₈⟩ := h₇.step (l := [leave]) hnext hnextCode (hcond.later ha₇) hgoto' hn hagain
  refine h₈.ends (.start hs hok) (((ha₅.trans ha₆).trans ha₇).trans ha₈) (by simp [Shape.loop]) rfl
    (fun f H ⟨⟨⟨hstart, htest, hbr⟩, harm, hin⟩, hnext, hback⟩ => ⟨fun o fuel => ?_, ?_⟩) hend
  · refine (Follows.jump hstart ?_).mono (Nat.le_succ _)
    show Follows f H o loops fuel cond 0 (.loop frame.kind fuel _) frame.leave 0
    refine .loop fun n x hn hx => ?_
    have hround := ((hin o fuel).mono (Nat.le_of_lt hn)).andThen
      ((Follows.act hnext).andThen ((hx.jump hback).mono (Nat.le_succ _)))
    exact .ask htest hbr hround .skip
  · refine ⟨frame, cond, inside, rfl, rfl, ?_, harm⟩
    rintro _ ⟨⟩
    exact ⟨htest, hbr⟩

section

variable (hw : p.Within q) (hp : p.Obeys π m)
include hw hp

/-- The test of a loop goes on at the body or at the end of the loop. -/
theorem Rest.loopTest {cond body leave : Nat} {test : Option (LoopTest Note)}
    (h : Rest π q m c₀ (l ++ cond :: r) s c) (hbody : c.Has body) (hleave : c.Has leave)
    (ht : ∀ t, test = some t → p.PermitsAll π t.cond.nodes)
    (hx : Lower.loopTest p loc cond body leave test s = .ok ((), s')) :
    ∃ c', Rest π q m c₀ (l ++ r) s' c' ∧ c.Adds (test.map fun t => .test t.cond).toList
      (fun f H =>
        (∀ a, (test.map fun t => .test t.cond) = some a → H.Does cond 0 a ∧
          Branches f H cond 1 (if test.all (·.isWhile) then body else leave)
            (if test.all (·.isWhile) then leave else body)) ∧
        ∀ o loops fuel again, Follows f H o loops fuel body 0 again leave 0 →
          Follows f H o loops (fuel + 1) cond 0 (test.elim again (.askLoop o · again)) leave 0) c' := by
  cases test with
  | none =>
    obtain ⟨_, t₁, hgoto, hjump⟩ := bind_ok.mp hx
    have hcond := (h.blank cond (by simp)).1
    obtain ⟨c₂, h₂, hf, hF⟩ := (Stage.startAt h.state h.ok hcond hgoto).jump hjump hbody
    rw [hcond.index] at hF
    exact ⟨c₂, h.within h₂, (hf.adds hF).ofGoto.imp fun f H hj =>
      ⟨nofun, fun o loops fuel again hagain => hagain.jump hj⟩⟩
  | some t =>
    obtain ⟨_, t₁, hgoto, hx⟩ := bind_ok.mp hx
    obtain ⟨v, t₂, hv, hbranch⟩ := bind_ok.mp hx
    have hcode (v : Value) (code : List IL.Instr)
        (he : Emits m.globals (condition p t.cond t.cond.info.loc) v code) :
        ∃ p : Place, p.Within q ∧ CodeOf m.globals p (.test t.cond) code (some v) :=
      ⟨p, hw, .test he⟩
    simp only [Option.elim_some, Reading.askLoop, Option.map_some, Option.all_some,
      Option.some.injEq, forall_eq']
    split at hbranch
    · rename_i hwhile
      obtain ⟨c', h', ha⟩ :=
        h.test (condition_straight hp (ht t rfl)) hcode hbody hleave hgoto hv hbranch rfl
      simp only [hwhile, if_true]
      exact ⟨c', h', ha.imp fun f H hF => ⟨hF, fun o loops fuel again hagain =>
        .ask hF.1 hF.2 hagain .skip⟩⟩
    · rename_i hwhile
      obtain ⟨c', h', ha⟩ :=
        h.test (condition_straight hp (ht t rfl)) hcode hleave hbody hgoto hv hbranch rfl
      simp only [hwhile]
      exact ⟨c', h', ha.imp fun f H hF => ⟨hF, fun o loops fuel again hagain =>
        .ask hF.1 hF.2 .skip hagain⟩⟩

/-- A loop with its test before the body or after it, or without one. -/
theorem testedLoop_lowers {body : LoopFrame → Lower Unit}
    (ht : ∀ t, test = some t → p.PermitsAll π t.cond.nodes)
    (hbody : ∀ frame : LoopFrame, frame.kind = kind →
      Lowers π q m (frame :: p.loops) R Λ (body frame))
    (hactions : as = if test.all (·.atTop) then (test.map fun t => .test t.cond).toList ++ Λ.actions
      else Λ.actions ++ (test.map fun t => .test t.cond).toList) :
    Lowers π q m p.loops
      (fun o fuel => .loop kind fuel fun again =>
        if test.all (·.atTop) then
          test.elim ((R o fuel).andThen again) (.askLoop o · ((R o fuel).andThen again))
        else (R o fuel).andThen (test.elim again (.askLoop o · again)))
      (Λ.loop kind (test.map fun t => .test t.cond) (test.all (·.isWhile)) as)
      (testedLoop hint kind p loc test body) := by
  intro s c s' hs hok ho hl h
  obtain ⟨cond, t₁, hcond, h⟩ := bind_ok.mp h
  obtain ⟨inside, t₂, hinside, h⟩ := bind_ok.mp h
  obtain ⟨leave, t₃, hleave, h⟩ := bind_ok.mp h
  let frame : LoopFrame := { kind, leave, next := cond }
  obtain ⟨c₁, h₁⟩ := (Opened.start hs hok ho).newBlock hcond
  obtain ⟨c₂, h₂⟩ := h₁.newBlock hinside
  obtain ⟨c₃, h₃⟩ := h₂.newBlock hleave
  cases htop : test.all (·.atTop) with
  | true =>
    rw [htop] at h hactions
    obtain ⟨_, t₄, hjump, h⟩ := bind_ok.mp h
    obtain ⟨_, t₅, htest, h⟩ := bind_ok.mp h
    obtain ⟨_, t₆, harm, hend⟩ := bind_ok.mp h
    obtain ⟨c₄, h₄, ha₄⟩ := h₃.jump hjump (by simp)
    obtain ⟨c₅, h₅, ha₅⟩ := h₄.loopTest hw hp (l := [leave, inside]) (h₄.has (by simp))
      (h₄.has (by simp)) ht htest
    have hcond : c₅.Has cond := (h₄.has (by simp)).later ha₅
    obtain ⟨c₆, h₆, ha₆⟩ := h₅.fill (l := [leave]) (arm_fills (hbody frame rfl))
      (.cons (hl.later (ha₄.trans ha₅)) (h₅.has (by simp [frame]))) hcond harm
    refine h₆.ends (.start hs hok) ((ha₄.trans ha₅).trans ha₆) hactions.symm rfl
      (fun f H ⟨⟨hstart, htest, hagain⟩, harm, hin⟩ => ⟨fun o fuel => ?_, ?_⟩) hend
    · refine (Follows.jump hstart ?_).mono (Nat.le_succ _)
      show Follows f H o p.loops fuel cond 0 (.loop frame.kind fuel _) frame.leave 0
      exact .loop fun n x hn hx =>
        hagain o _ n _ (((hin o fuel).mono (Nat.le_of_lt hn)).andThen hx)
    · exact ⟨frame, cond, inside, rfl, rfl, htest, harm⟩
  | false =>
    rw [htop] at h hactions
    obtain ⟨_, t₄, hjump, h⟩ := bind_ok.mp h
    obtain ⟨_, t₅, harm, h⟩ := bind_ok.mp h
    obtain ⟨_, t₆, htest, hend⟩ := bind_ok.mp h
    obtain ⟨c₄, h₄, ha₄⟩ := h₃.jump hjump (by simp)
    have hinside : c₄.Has inside := h₄.has (by simp)
    obtain ⟨c₅, h₅, ha₅⟩ := h₄.fill (l := [leave]) (arm_fills (hbody frame rfl))
      (.cons (hl.later ha₄) (h₄.has (by simp [frame]))) (h₄.has (by simp)) harm
    obtain ⟨c₆, h₆, ha₆⟩ := h₅.loopTest hw hp (l := [leave]) (hinside.later ha₅)
      (h₅.has (by simp)) ht htest
    refine h₆.ends (.start hs hok) ((ha₄.trans ha₅).trans ha₆) hactions.symm rfl
      (fun f H ⟨⟨hstart, harm, hin⟩, htest, hagain⟩ => ⟨fun o fuel => ?_, ?_⟩) hend
    · refine (Follows.jump hstart ?_).mono (Nat.le_succ _)
      show Follows f H o p.loops fuel inside 0 (.loop frame.kind fuel _) frame.leave 0
      exact .loop fun n x hn hx => ((hin o fuel).mono hn).andThen (hagain o _ n x hx)
    · exact ⟨frame, cond, inside, rfl, rfl, htest, harm⟩

end

end BasicSSA.Lower
