import BasicSSA.Proofs.Lower.Definite
import BasicSSA.Proofs.Lower.SoundProgram
import BasicSSA.Proofs.Lower.Valid
import BasicSSA.Proofs.Parser.Members
import BasicSSA.Proofs.Phi.Verified

/-!
# What compilation comes to

A compilation that succeeds has gone through all steps, so its module is that of an accepted program.
With phis, nothing in such a module is used before it is defined.
-/

namespace BasicSSA

open IL (Function Module Instr Block)

/-! ### Successful compilations -/

namespace Log

theorem errorCount_eq_zero {log : Log} :
    log.errorCount = 0 ↔ ∀ d ∈ log.entries, d.severity ≠ .error := by
  simp [errorCount, count, Array.countP_eq_zero]

theorem errorCount_add_ne_zero {log : Log} (h : d.severity = .error) :
    (log.add d).errorCount ≠ 0 :=
  fun hz => errorCount_eq_zero.mp hz d (by simp [add]) h

end Log

theorem Analysis.errorCount_log {a : Analysis} : a.log.errorCount = 0 ↔ a.isAccepted = true := by
  simp [Log.errorCount_eq_zero, log, isAccepted, Finding.isError, Finding.diagnostic]

theorem Fatal.severity_diagnostic (f : Fatal) : f.diagnostic.severity = .error := by
  cases f <;> rfl

theorem Compilation.not_succeeded_failing (c : Compilation) (f : Fatal) :
    (c.failing f).succeeded = false :=
  decide_eq_false (Log.errorCount_add_ne_zero f.severity_diagnostic)

/-- The module that is verified at the end. -/
def CompileOptions.final (options : CompileOptions) (m : Module) : Module :=
  if options.placePhis then m.placePhis.1 else m

theorem Compilation.finish_eq (c : Compilation) (options : CompileOptions) (m : Module) :
    ∃ c' : Compilation, c'.log = c.log ∧ c.finish options m =
      match if options.verify then IL.verify (options.final m) else .ok () with
      | .error e => c'.failing (.verification e)
      | .ok _ => { c' with module := options.final m } := by
  unfold finish CompileOptions.final
  cases options.placePhis <;> cases options.verify
  · exact ⟨c, rfl, rfl⟩
  · exact ⟨c.noting [.verify], rfl, rfl⟩
  · exact ⟨c.noting [.phis m.placePhis.2], rfl, rfl⟩
  · exact ⟨(c.noting [.phis m.placePhis.2]).noting [.verify], rfl, rfl⟩

/-- After analysis accepts a program, only lowering and the verifier can end a compilation. -/
theorem compileFile_of_accepted (options : CompileOptions) (sources : Sources)
    (htokens : tokenize text file = .ok tokens) (hp : parse tokens = .ok p)
    (ha : (analyze p).isAccepted = true) :
    ∃ c : Compilation, c.log = (analyze p).log ∧ compileFile options sources file text =
      match lower (analyze p) options.moduleName with
      | .error e => c.failing (.lowering e)
      | .ok m => c.finish options m := by
  simp only [compileFile, htokens, hp, ha, Bool.not_true, Bool.false_eq_true, if_false]
  exact ⟨_, rfl, rfl⟩

section

variable (h : (compileFile options sources file text).succeeded = true)

include h

theorem accepted_of_compileFile :
    ∃ tokens p, tokenize text file = .ok tokens ∧ parse tokens = .ok p ∧
      (analyze p).isAccepted = true := by
  unfold compileFile at h
  split at h
  · cases (Compilation.not_succeeded_failing ..).symm.trans h
  · rename_i tokens htokens
    dsimp only at h
    split at h
    · cases (Compilation.not_succeeded_failing ..).symm.trans h
    · rename_i p hp
      refine ⟨tokens, p, htokens, hp, Decidable.byContradiction fun hrejected => ?_⟩
      rw [if_pos (by simpa using hrejected)] at h
      exact hrejected (Analysis.errorCount_log.mp (of_decide_eq_true h))

/-- A compilation succeeds only with the module of an accepted program. -/
theorem translates_of_compileFile :
    ∃ tokens p m, tokenize text file = .ok tokens ∧ Translates tokens options.moduleName p m ∧
      (compileFile options sources file text).module = options.final m := by
  obtain ⟨tokens, p, htokens, hp, ha⟩ := accepted_of_compileFile h
  obtain ⟨c, -, hc⟩ := compileFile_of_accepted options sources htokens hp ha
  rw [hc] at h ⊢
  split at h
  · cases (Compilation.not_succeeded_failing ..).symm.trans h
  · rename_i m hm
    obtain ⟨c', -, hc'⟩ := c.finish_eq options m
    rw [hc'] at h
    refine ⟨tokens, p, m, htokens, ⟨hp, ha, hm⟩, ?_⟩
    simp only [hc']
    split at h
    · cases (Compilation.not_succeeded_failing ..).symm.trans h
    · rfl

end

/-! ### Functions of a lowered module -/

namespace IL

namespace Function.Built

variable {f : Function} (h : f.Built π)

include h

theorem code_ne_nil (hn : n < f.blocks.length) : (f.block n).instrs ≠ [] := by
  obtain ⟨body, t, he, -⟩ := h.ended n hn
  simp [he]

theorem phiFree : f.PhiFree := by
  intro b hb i hi hop
  rcases h.instr hb hi with ha | ht
  · rw [Policy.Allows, hop] at ha
    exact ha.2
  · rw [Policy.Ends, hop] at ht
    exact ht.2

theorem ready : f.Ready :=
  ⟨List.length_pos_iff.mp h.nonempty, h.labels, h.phiFree⟩

theorem entryUntargeted (hπ : π.Strict f.returnType) : f.EntryUntargeted := by
  intro b hb hl
  obtain ⟨t, ht, hl⟩ := Block.mem_targets.mp hl
  obtain ⟨hlast, hop⟩ := Option.filter_eq_some_iff.mp ht
  exact ((h.structured hπ).targets b hb t (List.mem_of_getLast? hlast) hop _ hl).2 rfl

end Function.Built

end IL

namespace Translates

variable (h : Translates tokens name p m) (hf : f ∈ m.functions)

include h hf

theorem built : f.Built ((analyze p).policy f.returnType) :=
  (Lower.lower_ok h.lowered h.ready.keeps).built hf

theorem sound : f.Sound := by
  have hscoped := analyze_scoped (named_of_parse h.parsed) (formed_of_parse h.parsed) h.accepted
  have hproceeds := Lower.lower_proceeds name hscoped
  rw [h.lowered] at hproceeds
  exact hproceeds f hf

/-- Nothing is used undefined after phis are placed. -/
theorem definite : f.placePhis.1.Definite := by
  have hbuilt := h.built hf
  obtain ⟨A, next, hcert⟩ := (h.sound hf).certified
  exact hcert.definite hbuilt.ready (fun n => hbuilt.code_ne_nil)
    (hbuilt.entryUntargeted (Analysis.strict_policy h.named _))

end Translates

/-- If a text is compiled with phis, every temporary of the module has one definition, which comes
before all its uses, and only a parameter is read without a definition. -/
theorem compile_definite (hphis : options.placePhis = true)
    (h : (compile options path text).succeeded = true) :
    ∀ f ∈ (compile options path text).module.functions, f.Definite := by
  intro f hf
  obtain ⟨tokens, p, m, -, htranslates, hmodule⟩ := translates_of_compileFile h
  rw [show (compile options path text).module = _ from hmodule, CompileOptions.final, if_pos hphis,
    Module.functions_placePhis] at hf
  obtain ⟨g, hg, rfl⟩ := List.mem_map.mp hf
  exact htranslates.definite hg

theorem compile_definite_loop : (compile {} "loop.bas" loopText).succeeded = true ∧
    (compile {} "loop.bas" loopText).module.functions.map (·.name) = ["C.F", "__init"] ∧
    ∀ f ∈ (compile {} "loop.bas" loopText).module.functions, f.Definite := by
  have h : (fun c : Compilation => (c.succeeded, c.module.functions.map (·.name)))
      (compile {} "loop.bas" loopText) = (true, ["C.F", "__init"]) := by
    decide +kernel
  obtain ⟨hsucceeded, hnames⟩ := Prod.mk.inj h
  exact ⟨hsucceeded, hnames, compile_definite rfl hsucceeded⟩

/-! ### What analysis does not rule out -/

/-- What can end a compilation after analysis has accepted the program. -/
def Fatal.IsGap : Fatal → Prop
  | .lexical _ | .syntactic _ => False
  | .lowering e => e.IsGap
  | .verification e => (∃ name, e.problem = .duplicateFunction name) ∨
      ∃ name label g, e.problem = .inBlock name label (.storeToConstant g)

section

variable (h : Translates tokens name p m)

include h

end

end BasicSSA
