import BasicSSA.Proofs.Lower.Certificate
import BasicSSA.Proofs.Phi.StrictSSA

/-!
# Definitions before uses

A certificate says what is defined when a block starts. When phis are placed it gives that nothing
is used undefined: a temporary has one definition, which comes before every use on every way, and
version 0 is left to the parameters.
-/

namespace BasicSSA.IL

open IL.Graph

/-- Nothing in a function is used before it is defined, as far as a run can come. -/
structure Function.Definite (f : Function) : Prop where
  /-- No two instructions define the same temporary. -/
  once : (f.blocks.flatMap fun b => temps b.instrs).Nodup
  /-- A temporary is defined before its use, in the block or in one that strictly dominates it. -/
  temps : ∀ n pre i post t type, f.graph.Reachable n → (f.block n).instrs = pre ++ i :: post →
    .temp t type ∈ i.operands →
    t ∈ temps pre ∨ ∃ d, d ≠ n ∧ f.graph.Dominates d n ∧ t ∈ IL.temps (f.block d).instrs
  /-- So is a version of a variable. -/
  vars : ∀ n pre i post x v type, f.graph.Reachable n → (f.block n).instrs = pre ++ i :: post →
    i.op ≠ .phi → .var x v type ∈ i.operands → v ≠ 0 →
    (x, v) ∈ definitions pre ∨
      ∃ d, d ≠ n ∧ f.graph.Dominates d n ∧ (x, v) ∈ definitions (f.block d).instrs
  /-- Only parameters have a value without a definition. -/
  params : ∀ n i x type, f.graph.Reachable n → i ∈ (f.block n).instrs → i.op ≠ .phi →
    .var x 0 type ∈ i.operands → ∃ q ∈ f.params, q.name = x

/-! ### Keys of instructions -/

theorem Instr.temp?_eq_some {i : Instr} : i.temp? = some t ↔ i.key? = some (.temp t) := by
  unfold temp? key?
  cases hr : i.result with
  | none => simp
  | some v => cases v <;> simp [Value.key?]

theorem mem_temps {is : List Instr} : t ∈ temps is ↔ ∃ i ∈ is, i.key? = some (.temp t) := by
  simp [temps, Instr.temp?_eq_some]

theorem defines_of_key {is : List Instr} (hi : i ∈ is) (hk : i.key? = some (.var x)) :
    Defines is x := by
  obtain ⟨v, hv, hk⟩ := Option.bind_eq_some_iff.mp hk
  cases v with
  | var y n t =>
    cases hk
    exact ⟨i, hi, t, by simp [Instr.definedVar?, hv]⟩
  | _ => cases hk

/-! ### What is given for the blocks -/

/-- A reachable node has a run that does not come to it before. -/
theorem Graph.Reachable.exists_first {g : Graph} (h : g.Reachable n) :
    ∃ p, g.Run 0 (n :: p) ∧ n ∉ p := by
  obtain ⟨p, hp⟩ := h
  induction hlen : p.length using Nat.strongRecOn generalizing p with
  | _ k ih =>
    subst hlen
    by_cases hn : n ∈ p
    · obtain ⟨q, p', rfl, -⟩ := List.eq_append_cons_of_mem hn
      exact ih p'.length (by simp; omega) p' (hp.before (q := n :: q)) rfl
    · exact ⟨p, hp, hn⟩

namespace Function.Certified

variable {f : Function} (h : f.Certified A next)

include h

/-- What is given for a block is defined where an edge to it starts. -/
theorem out_of_edge (hl : (f.blocks.map (·.label)).Nodup) (hb : b ∈ f.graph.succs a) (hx : A b x) :
    f.Out A a x := by
  obtain ⟨l, hl', hidx⟩ := mem_succs_graph.mp hb
  obtain ⟨i, hi, hli⟩ := Block.mem_targets.mp hl'
  obtain ⟨j, hj⟩ := List.mem_iff_getElem?.mp
    (List.mem_of_getLast? (Option.filter_eq_some_iff.mp hi).1)
  obtain ⟨k, hk, hlabel, hgiven⟩ := h.edges a j i hj l hli
  rw [← hlabel, blockIdx?_label hl hk] at hidx
  exact hgiven x (Option.some.inj hidx ▸ hx)

/-- What is given for a block is a parameter or was defined on the way. -/
theorem given_of_run (hl : (f.blocks.map (·.label)).Nodup) (hrun : f.graph.Run 0 w) :
    ∀ n p, w = n :: p → A n x →
      (∃ q ∈ f.params, x = .var q.name) ∨ ∃ c ∈ p, ∃ i ∈ (f.block c).instrs, i.key? = some x := by
  induction hrun with
  | start =>
    rintro n p he hx
    obtain ⟨rfl, rfl⟩ := List.cons.inj he
    exact .inl (h.entry x hx)
  | @step a p b hrun hb ih =>
    rintro n p' he hx
    obtain ⟨rfl, rfl⟩ := List.cons.inj he
    rcases h.out_of_edge hl hb hx with hx | ⟨j, i, hi, hk⟩
    · refine (ih a p rfl hx).imp_right fun ⟨c, hc, hdef⟩ => ⟨c, List.mem_cons_of_mem a hc, hdef⟩
    · exact .inr ⟨a, List.mem_cons_self, i, List.mem_of_getElem? hi, hk⟩

/-- What an instruction uses is defined before it in the block, or given for the block. -/
theorem given_or_defined (hsplit : (f.block n).instrs = pre ++ i :: post) (hv : v ∈ i.operands)
    (hx : v.key? = some x) : A n x ∨ ∃ d ∈ pre, d.key? = some x := by
  have hi : f.instr? n pre.length = some i := by simp [instr?, hsplit]
  refine (h.uses n _ i hi v hv x hx).imp_right ?_
  rintro ⟨j, d, hj, hd, hk⟩
  refine ⟨d, ?_, hk⟩
  rw [instr?, hsplit, List.getElem?_append_left hj] at hd
  exact List.mem_of_getElem? hd

/-- The definition of a temporary that is given for a block is on every run to it, and before the
block on one that comes there once. -/
theorem temps_of_given (hl : (f.blocks.map (·.label)).Nodup) (hn : f.graph.Reachable n)
    (hgiven : A n (.temp t)) :
    ∃ d, d ≠ n ∧ f.graph.Dominates d n ∧ t ∈ temps (f.block d).instrs := by
  have hdef (p : List Nat) (hp : f.graph.Run 0 (n :: p)) :
      ∃ c ∈ p, t ∈ temps (f.block c).instrs := by
    rcases h.given_of_run hl hp n p rfl hgiven with ⟨q, -, hq⟩ | ⟨c, hc, hdef⟩
    · cases hq
    · exact ⟨c, hc, mem_temps.mpr hdef⟩
  obtain ⟨p, hp, hfirst⟩ := hn.exists_first
  obtain ⟨d, hd, ht⟩ := hdef p hp
  refine ⟨d, fun he => hfirst (he ▸ hd), fun p' hp' => ?_, ht⟩
  obtain ⟨c, hc, ht'⟩ := hdef p' hp'
  obtain ⟨i₁, hi₁, hk₁⟩ := mem_temps.mp ht
  obtain ⟨i₂, hi₂, hk₂⟩ := mem_temps.mp ht'
  obtain ⟨j₁, hj₁⟩ := List.mem_iff_getElem?.mp hi₁
  obtain ⟨j₂, hj₂⟩ := List.mem_iff_getElem?.mp hi₂
  rw [(h.once d j₁ i₁ c j₂ i₂ t hj₁ hj₂ hk₁ hk₂).1]
  exact List.mem_cons_of_mem n hc

theorem nodup_temps : (f.blocks.flatMap fun b => temps b.instrs).Nodup := by
  have hat {k b} (hb : f.blocks[k]? = some b) {j i} (hj : b.instrs[j]? = some i) :
      f.instr? k j = some i := by
    rw [instr?, block_eq hb, hj]
  refine List.nodup_flatMap.mpr ⟨fun b hb => ?_, ?_⟩
  · obtain ⟨k, hk⟩ := List.mem_iff_getElem?.mp hb
    refine List.Pairwise.filterMap _ (R := fun i j => ∀ t, i.temp? = some t → j.temp? ≠ some t)
      (fun i j hij t ht u hu => ?_) ?_
    · rintro rfl
      exact hij t ht hu
    · refine List.pairwise_iff_getElem.mpr fun j j' hj hj' hlt t ht ht' => ?_
      have := (h.once k j _ k j' _ t (hat hk (List.getElem?_eq_getElem hj))
        (hat hk (List.getElem?_eq_getElem hj')) (Instr.temp?_eq_some.mp ht)
        (Instr.temp?_eq_some.mp ht')).2
      omega
  · refine List.pairwise_iff_getElem.mpr fun k k' hk hk' hlt t ht ht' => ?_
    obtain ⟨i₁, hi₁, hk₁⟩ := mem_temps.mp ht
    obtain ⟨i₂, hi₂, hk₂⟩ := mem_temps.mp ht'
    obtain ⟨j₁, hj₁⟩ := List.mem_iff_getElem?.mp hi₁
    obtain ⟨j₂, hj₂⟩ := List.mem_iff_getElem?.mp hi₂
    have := (h.once k j₁ i₁ k' j₂ i₂ t (hat (List.getElem?_eq_getElem hk) hj₁)
      (hat (List.getElem?_eq_getElem hk') hj₂) hk₁ hk₂).1
    omega

end Function.Certified

/-! ### Renamed code -/

theorem temp?_renameInstr (env last : Versions) (i : Instr) :
    (renameInstr env last i).1.temp? = i.temp? := by
  unfold renameInstr Instr.temp?
  rcases i.result with _ | v
  · rfl
  · cases v <;> rfl

theorem temps_renameInstrs (env last : Versions) (is : List Instr) :
    temps (renameInstrs env last is).1 = temps is := by
  induction is generalizing env last with
  | nil => rfl
  | cons i is ih =>
    rw [renameInstrs_cons]
    simp only [temps, List.filterMap_cons, temp?_renameInstr] at ih ⊢
    rw [ih]

theorem temp_mem_renamed (hop : i.op ≠ .phi)
    (h : .temp t type ∈ (renameInstr env last i).1.operands) : .temp t type ∈ i.operands := by
  rw [operands_renameInstr hop] at h
  obtain ⟨v, hv, he⟩ := List.mem_map.mp h
  cases v with
  | temp u type' =>
    cases he
    exact hv
  | _ => cases he

theorem temps_map_phis (hphi : ∀ v, (phi v).temp? = none)
    (vs : List (String × Ty)) : temps (vs.map phi) = [] := by
  simp [temps, hphi]

namespace Function.Ready

variable {f : Function} (hf : f.Ready)

include hf

theorem temps_placePhis (hn : n < f.blocks.length) :
    temps (f.placePhis.1.block n).instrs = temps (f.block n).instrs := by
  by_cases hb : f.graph.Reachable n
  · obtain ⟨mid, last, h⟩ := hf.exists_placedBlock hb
    rw [h.block, temps_append, temps_renameInstrs, temps_map_phis fun _ => rfl, List.nil_append]
  · rw [hf.block_of_unreachable hn hb, hf.phiFree.block_withPhis hn, temps_append,
      temps_map_phis fun _ => rfl, List.nil_append]

theorem flatMap_temps_placePhis :
    (f.placePhis.1.blocks.flatMap fun b => temps b.instrs) =
      f.blocks.flatMap fun b => temps b.instrs := by
  have hlength : f.placePhis.1.blocks.length = f.blocks.length := by
    simpa using congrArg List.length (labels_placePhis f)
  rw [List.flatMap, List.flatMap]
  congr 1
  refine List.ext_getElem? fun n => ?_
  rw [List.getElem?_map, List.getElem?_map]
  by_cases hn : n < f.blocks.length
  · rw [getElem?_blocks hn, getElem?_blocks (hlength ▸ hn), Option.map_some, Option.map_some,
      hf.temps_placePhis hn]
  · rw [List.getElem?_eq_none (Nat.le_of_not_lt hn),
      List.getElem?_eq_none (hlength ▸ Nat.le_of_not_lt hn)]

/-- An instruction of the result that is no phi comes from one of the function. -/
theorem exists_original (hb : f.graph.Reachable n)
    (hsplit : (f.placePhis.1.block n).instrs = pre ++ i :: post) (hop : i.op ≠ .phi) :
    ∃ is j js env last, (f.block n).instrs = is ++ j :: js ∧ j.op ≠ .phi ∧
      i = (renameInstr env last j).1 ∧ (∀ t, t ∈ temps is → t ∈ temps pre) ∧
      ∀ x, Defines is x → Defines pre x := by
  obtain ⟨mid, last, hplaced⟩ := hf.exists_placedBlock hb
  rw [hplaced.block] at hsplit
  obtain ⟨before, rfl, hbody⟩ := split_after_phis (f.op_placedPhis _ _ _) hop hsplit
  obtain ⟨is, j, js, hinstrs, rfl, rfl⟩ := renameInstrs_split hbody
  rw [op_renameInstr] at hop
  refine ⟨is, j, js, _, _, hinstrs, hop, rfl, fun t ht => ?_, fun x hx => ?_⟩
  · rw [temps_append, temps_renameInstrs]
    exact List.mem_append_right _ ht
  · obtain ⟨k, hk, hdef⟩ := ((renameInstrs_numbered mid last is).defines x).mpr hx
    exact ⟨k, List.mem_append_right _ hk, hdef⟩

/-- The operands of phis are variables. -/
theorem not_phi_of_temp (hb : f.graph.Reachable n) (hi : i ∈ (f.placePhis.1.block n).instrs)
    (hv : .temp t type ∈ i.operands) : i.op ≠ .phi := by
  intro hop
  obtain ⟨mid, v, -, rfl⟩ := hf.exists_placedPhi hb hi hop
  obtain ⟨p, -, he⟩ := List.mem_map.mp hv
  cases he

/-- If a run to a block defines a live variable that has no phi there, the block does not start with
version 0. -/
theorem start_of_run (hentry : f.EntryUntargeted) (hlive : f.isLive f.graph.domTree x = true)
    (hphi : x ∉ (f.phiVars n).map (·.1)) (hrun : f.graph.Run 0 (n :: p)) (hc : c ∈ p)
    (hdef : Defines (f.block c).instrs x) : (f.start n).of x ≠ 0 := by
  cases hrun with
  | start => cases hc
  | @step a q _ hrun he =>
    rw [hf.start_of_edge hentry ⟨q, hrun⟩ he hlive hphi]
    refine hf.stop_of_run hentry hlive hrun hc ?_ a q rfl
    exact (hf.defines_placePhis (.of_mem hrun hc)).mpr (.inr hdef)

end Function.Ready

/-- Where a function has a certificate, nothing is used undefined after phis are placed. -/
theorem Function.Certified.definite {f : Function} (h : f.Certified A next)
    (hf : f.Ready) (hcode : ∀ n < f.blocks.length, (f.block n).instrs ≠ [])
    (hentry : f.EntryUntargeted) : f.placePhis.1.Definite := by
  have hgraph := Function.graph_placePhis (hf.coded hcode)
  constructor
  case once =>
    rw [hf.flatMap_temps_placePhis]
    exact h.nodup_temps
  case temps =>
    intro n pre i post t type hn hsplit hv
    rw [hgraph] at hn ⊢
    have hop := hf.not_phi_of_temp hn (by simp [hsplit]) hv
    obtain ⟨is, j, js, env, last, hinstrs, hj, rfl, htemps, -⟩ := hf.exists_original hn hsplit hop
    rcases h.given_or_defined hinstrs (temp_mem_renamed hj hv) rfl with hgiven | hpre
    · obtain ⟨d, hd, hdom, ht⟩ := h.temps_of_given hf.labels hn hgiven
      refine .inr ⟨d, hd, hdom, ?_⟩
      rwa [hf.temps_placePhis (hf.lt_length (hdom.reachable hn))]
    · exact .inl (htemps t (mem_temps.mpr hpre))
  case vars =>
    intro n pre i post x v type hn hsplit hop hread hv
    rw [hgraph] at hn ⊢
    rcases hf.read_cases hn hsplit hop hread with hpre | ⟨-, -, -, rfl⟩
    · exact .inl hpre
    · exact .inr (hf.start_defined hn hv)
  case params =>
    intro n i x type hn hi hop hread
    rw [hgraph] at hn
    obtain ⟨pre, post, hsplit⟩ := List.append_of_mem hi
    rcases hf.read_cases hn hsplit hop hread with hpre | ⟨hpre, hlive, hphi, hstart⟩
    · refine absurd rfl (hf.positive_placePhis (x := x) hn ?_)
      rw [hsplit, definitions_append]
      exact List.mem_append_left _ hpre
    · obtain ⟨is, j, js, env, last, hinstrs, hj, rfl, -, hdefines⟩ :=
        hf.exists_original hn hsplit hop
      obtain ⟨⟨y, type'⟩, hy, rfl⟩ := List.mem_map.mp (read_renameInstr hj hread).1
      obtain ⟨v, hv, hkey⟩ : ∃ v ∈ j.operands, v.key? = some (.var y) := by
        obtain ⟨v, hv, he⟩ := List.mem_filterMap.mp hy
        refine ⟨v, hv, ?_⟩
        cases v <;> cases he
        rfl
      rcases h.given_or_defined hinstrs hv hkey with hgiven | ⟨d, hd, hk⟩
      · obtain ⟨p, hp⟩ := hn
        rcases h.given_of_run hf.labels hp n p rfl hgiven with ⟨q, hq, he⟩ | ⟨c, hc, d, hd, hk⟩
        · injection he with he
          refine ⟨q, ?_, he.symm⟩
          rwa [placePhis_eq hf.nonempty, rename_eq, params_withPhis]
        · exact absurd hstart.symm
            (hf.start_of_run hentry hlive hphi hp hc (defines_of_key hd hk))
      · exact absurd (hdefines _ (defines_of_key hd hk)) hpre

end BasicSSA.IL
