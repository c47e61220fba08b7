import BasicSSA.Proofs.Lower.Draft

/-!
# Steps on drafts

What each step of lowering does to the draft of the function under construction.
-/

namespace BasicSSA

open IL (Value Opcode Instr Block Function Global Module Build)

namespace Lower.LaidOut

theorem nil (h : b.instrs = []) : LaidOut gs q b [] :=
  ⟨⟨[], by simp [h]⟩, by simp⟩

section

variable (h : LaidOut gs q b ps) (ho : b.isTerminated = false)

include h ho

/-- An open block holds the code of its pieces and nothing else. -/
theorem code_of_open :
    b.instrs.map Instr.anonymous = (ps.flatMap (·.code)).map Instr.anonymous := by
  obtain ⟨ending, hlen, hcode, hend⟩ := h.code
  match ending with
  | [] => simpa using hcode
  | t :: rest =>
    have hrest : rest = [] := List.eq_nil_of_length_eq_zero (by simpa using hlen)
    have hlast := congrArg List.getLast? hcode
    simp only [hrest, List.getLast?_map, List.getLast?_append, List.getLast?_singleton,
      Option.some_or, Option.map_some] at hlast
    obtain ⟨i, hi, hanon⟩ := Option.map_eq_some_iff.mp hlast
    have hterm : i.op.isTerminator = true := by
      rw [Instr.op_eq_of_anonymous hanon]
      exact (hend t List.mem_cons_self).1
    rw [IL.Block.isTerminated_iff.mpr ⟨i, hi, hterm⟩] at ho
    cases ho

/-- A block with one more piece, whose code may end the block. -/
theorem grow (hb : b'.instrs.map Instr.anonymous = (b.instrs ++ piece.code).map Instr.anonymous)
    (hp : ∃ p : Place, p.Within q ∧ CodeOf gs p piece.action piece.code piece.value) :
    LaidOut gs q b' (ps ++ [piece]) := by
  refine ⟨⟨[], by simp, ?_, by simp⟩, fun piece' h' => ?_⟩
  · rw [hb, List.map_append, h.code_of_open ho]
    simp
  · rcases List.mem_append.mp h' with h' | h'
    · exact h.pieces _ h'
    · exact List.mem_singleton.mp h' ▸ hp

theorem finish (ht : t.op.isTerminator = true)
    (hv : t.op = .cbr → ∃ v, ps.getLast?.bind (·.value) = some v ∧ t.operands = [v]) :
    LaidOut gs q { b with instrs := b.instrs ++ [t] } ps := by
  refine ⟨⟨[t], by simp, ?_, ?_⟩, h.pieces⟩
  · rw [List.map_append, List.map_append, h.code_of_open ho]
  · simpa using ⟨ht, hv⟩

end

end Lower.LaidOut

namespace Policy.Ends

theorem mono {π : Policy} {f f' : Function} (h : π.Ends f t)
    (hlen : f.blocks.length ≤ f'.blocks.length)
    (hlabel : ∀ k < f.blocks.length, f'.label k = f.label k) : π.Ends f' t := by
  refine ⟨h.1, ?_⟩
  replace h := h.2
  split
  · rename_i hop
    rw [hop] at h
    obtain ⟨k, h0, hk, hl⟩ := h
    exact ⟨k, h0, Nat.lt_of_lt_of_le hk hlen, hl.trans (by rw [hlabel k hk])⟩
  · rename_i hop
    rw [hop] at h
    obtain ⟨j, k, ⟨hj0, hj⟩, ⟨hk0, hk⟩, hl⟩ := h
    exact ⟨j, k, ⟨hj0, Nat.lt_of_lt_of_le hj hlen⟩, ⟨hk0, Nat.lt_of_lt_of_le hk hlen⟩,
      hl.trans (by rw [hlabel j hj, hlabel k hk])⟩
  · rename_i hop
    rw [hop] at h
    exact h
  · split at h <;> simp_all

end Policy.Ends

theorem IL.Block.Tidy.mono {f f' : Function} {b : Block} (h : b.Tidy π f)
    (hlen : f.blocks.length ≤ f'.blocks.length)
    (hlabel : ∀ k < f.blocks.length, f'.label k = f.label k) : b.Tidy π f' := by
  cases h with
  | code h => exact .code h
  | ended body t hb hbody ht => exact .ended body t hb hbody (ht.mono hlen hlabel)

theorem flatMap_perm_of_append {g g' : Nat → List α} {ks : List Nat} {as : List α}
    (hd : ks.Nodup) (hk : k ∈ ks) (hself : g' k = g k ++ as)
    (hother : ∀ j ∈ ks, j ≠ k → g' j = g j) :
    (ks.flatMap g').Perm (ks.flatMap g ++ as) := by
  induction ks with
  | nil => cases hk
  | cons j ks ih =>
    obtain ⟨hj, hd⟩ := List.nodup_cons.mp hd
    obtain ⟨hfirst, hrest⟩ := List.forall_mem_cons.mp hother
    rw [List.flatMap_cons, List.flatMap_cons]
    by_cases hjk : j = k
    · subst hjk
      have hsame : ks.flatMap g' = ks.flatMap g := by
        rw [List.flatMap_def, List.flatMap_def]
        exact congrArg List.flatten (List.map_congr_left fun i hi =>
          hrest i hi fun he => hj (he ▸ hi))
      rw [hsame, hself, List.append_assoc, List.append_assoc]
      exact List.perm_append_comm.append_left _
    · rw [hfirst hjk, List.append_assoc]
      exact (ih hd (List.mem_of_ne_of_mem (Ne.symm hjk) hk) hrest).append_left _

namespace Draft

open Lower (LaidOut CodeOf Emits Place At Straight)

variable {c : Draft}

namespace Ok

section

variable (h : c.Ok π q gs)

include h

theorem goto (hk : k < c.function.blocks.length) : (c.goto k).Ok π q gs :=
  { h with inside := hk }

theorem addBlock (hl : l ∉ c.function.blocks.map (·.label)) :
    (c.addBlock l).Ok π q gs := by
  have hg := Grown.addBlock c l
  have hcases {k : Nat} (hk : k < (c.addBlock l).function.blocks.length) :
      k < c.function.blocks.length ∨ k = c.function.blocks.length := by
    simp [Draft.addBlock] at hk
    omega
  refine ⟨Nat.lt_of_lt_of_le h.inside hg.length_le, ?_, fun k hk => ?_, fun k hk => ?_,
    fun k hk => h.beyond k (Nat.le_trans hg.length_le hk), ?_⟩
  · simp only [Draft.addBlock, Function.addBlock, List.map_append, List.map_cons, List.map_nil]
    exact List.nodup_append.mpr ⟨h.labels, by simp, fun x hx y hy => by
      rw [List.mem_singleton.mp hy]; exact fun he => hl (he ▸ hx)⟩
  · rcases hcases hk with hlt | rfl
    · rw [Draft.addBlock, Function.block_addBlock hlt]
      exact (h.tidy k hlt).mono hg.length_le hg.label
    · exact .code (by simp [Draft.addBlock])
  · rcases hcases hk with hlt | rfl
    · rw [Draft.addBlock, Function.block_addBlock hlt]
      exact h.laid k hlt
    · have hp : (c.addBlock l).pieces c.function.blocks.length = [] := h.beyond _ (Nat.le_refl _)
      rw [hp]
      exact .nil (by simp [Draft.addBlock])
  · have hnone : c.pieces.actions c.function.blocks.length = [] := by
      rw [SourceMap.actions, h.beyond _ (Nat.le_refl _), List.map_nil]
    simpa [Draft.addBlock, List.range_succ, hnone] using h.log

/-- Only the current block has changed. -/
theorem changed (hg : Grown c c')
    (hlen : c'.function.blocks.length = c.function.blocks.length) (hcur : c'.current = c.current)
    (hbeyond : ∀ k, c.function.blocks.length ≤ k → c'.pieces k = c.pieces k)
    (hnew : c'.pieces c.current = c.pieces c.current ++ ps)
    (hlog : c'.log = c.log ++ ps.map (·.action))
    (ht : (c'.function.block c.current).Tidy π c'.function)
    (hl : LaidOut gs q (c'.function.block c.current) (c.pieces c.current ++ ps)) :
    c'.Ok π q gs := by
  refine ⟨by rw [hcur, hlen]; exact h.inside, ?_, fun k hk => ?_, fun k hk => ?_, fun k hk => ?_,
    ?_⟩
  · have : c'.function.blocks.map (·.label) = c.function.blocks.map (·.label) := by
      refine List.ext_getElem (by simp [hlen]) fun k h₁ h₂ => ?_
      rw [List.length_map] at h₁ h₂
      simpa [Function.label, Function.block, h₁, h₂] using hg.label k h₂
    exact this ▸ h.labels
  · rw [hlen] at hk
    by_cases hc : k = c.current
    · exact hc ▸ ht
    · exact (hg.others k hk hc).1 ▸ (h.tidy k hk).mono hg.length_le hg.label
  · rw [hlen] at hk
    by_cases hc : k = c.current
    · rw [hc, hnew]
      exact hl
    · rw [(hg.others k hk hc).1, (hg.others k hk hc).2]
      exact h.laid k hk
  · rw [hlen] at hk
    exact (hbeyond k hk).trans (h.beyond k hk)
  · rw [hlog, hlen]
    refine (h.log.append_right _).trans (flatMap_perm_of_append List.nodup_range
      (List.mem_range.mpr h.inside) ?_ fun k hk hc => ?_).symm
    · rw [SourceMap.actions, hnew, List.map_append, SourceMap.actions]
    · rw [SourceMap.actions, (hg.others k (List.mem_range.mp hk) hc).2, SourceMap.actions]

theorem finish (ho : c.isOpen c.current) (ht : π.Ends c.function t)
    (hv : t.op = .cbr → ∃ v, (c.pieces c.current).getLast?.bind (·.value) = some v ∧
      t.operands = [v]) : (c.finish t).Ok π q gs := by
  have hg := Grown.finish ho t
  have hb : (c.finish t).function.block c.current =
      { c.function.block c.current with instrs := (c.function.block c.current).instrs ++ [t] } :=
    Function.block_push h.inside
  refine h.changed hg (by simp [Draft.finish]) rfl (fun _ _ => rfl) (List.append_nil _).symm
    (List.append_nil _).symm ?_ ?_
  · rw [hb]
    exact .ended _ t rfl ((h.tidy _ h.inside).allows ho) (ht.mono hg.length_le hg.label)
  · rw [hb, List.append_nil]
    exact (h.laid _ h.inside).finish ho ht.terminator hv

theorem grow (ho : c.isOpen c.current)
    (hf : c.function.Grows π c.current piece.code f)
    (hp : ∃ p : Place, p.Within q ∧ CodeOf gs p piece.action piece.code piece.value) :
    (c.grow f piece).Ok π q gs := by
  have hpieces : (c.grow f piece).pieces c.current = c.pieces c.current ++ [piece] := by
    simp [Draft.grow]
  refine h.changed (Grown.grow ho hf piece) hf.length rfl (fun k hk => ?_) hpieces rfl ?_ ?_
  · have hc : k ≠ c.current := by have := h.inside; omega
    simp [Draft.grow, hc]
  · exact .code (hf.block.kept ((h.tidy _ h.inside).allows ho))
  · exact (h.laid _ h.inside).grow ho (by rw [List.map_append]; exact hf.block.instrs) hp

theorem leave (ho : c.isOpen c.current)
    (hf : c.function.Grows π c.current code f) (ht : π.Ends f t)
    (hp : ∃ p : Place, p.Within q ∧ CodeOf gs p action (code ++ [t]) none) :
    ((c.grow f ⟨action, code ++ [t], none⟩).finish t).Ok π q gs := by
  have hinside : c.current < f.blocks.length := hf.length ▸ h.inside
  have ho' : (c.grow f ⟨action, code ++ [t], none⟩).isOpen c.current :=
    hf.block.isTerminated_eq.trans ho
  have hg := (Grown.grow ho hf ⟨action, code ++ [t], none⟩).trans (.finish ho' t)
  have hb : (f.push c.current t).block c.current =
      { f.block c.current with instrs := (f.block c.current).instrs ++ [t] } :=
    Function.block_push hinside
  have hpieces : ((c.grow f ⟨action, code ++ [t], none⟩).finish t).pieces c.current =
      c.pieces c.current ++ [⟨action, code ++ [t], none⟩] := by
    simp [Draft.grow, Draft.finish]
  refine h.changed hg ?_ rfl (fun k hk => ?_) hpieces rfl ?_ ?_
  · simpa [Draft.finish, Draft.grow] using hf.length
  · have hc : k ≠ c.current := by have := h.inside; omega
    simp [Draft.finish, Draft.grow, hc]
  · have hends : π.Ends (f.push c.current t) t := ht.mono (by simp) (by simp)
    have hallow := hf.block.kept ((h.tidy _ h.inside).allows ho)
    simp only [Draft.finish, Draft.grow, hb]
    exact .ended _ t rfl hallow hends
  · refine (h.laid _ h.inside).grow ho ?_ hp
    simp [Draft.finish, Draft.grow, hb, hf.block.instrs]

end

end Ok

end Draft

/-! ### Steps of lowering -/

namespace Lower

theorem Straight.emits (hx : Straight π m ds x Q) (hs : At s m f n)
    (h : x s = .ok (a, s')) :
    ∃ f' code, At s' m f' n ∧ f.Grows π n code f' ∧ KeepsApart ds s.names f s'.names f' ∧ Q a ∧
      Emits m.globals x a code := by
  obtain ⟨f', code, hs', hg, hk, hq⟩ := hx s f n a s' hs h
  refine ⟨f', code, hs', hg, hk, hq, s, s', f.block n, f'.block n, ?_, h, hs.block?, hs'.block?, ?_⟩
  · rw [hs.finished]
  · rw [List.map_append, hg.block.instrs]

section

variable (hs : At s m f n)

include hs

theorem At.of_builder (h : s'.builder = s.builder) : At s' m f n :=
  ⟨h ▸ hs.finished, h ▸ hs.function, h ▸ hs.current, hs.inside⟩

theorem addBlock_ok (h : emit (Build.addBlock l) s = .ok (k, s')) :
    k = f.blocks.length ∧ l ∉ f.blocks.map (·.label) ∧ At s' m (f.addBlock l) n := by
  obtain ⟨b, hrun, rfl⟩ := emit_ok.mp h
  simp only [Build.run_addBlock, hs.function] at hrun
  split at hrun
  · cases hrun
  · split at hrun
    · cases hrun
    · rename_i hhas
      cases hrun
      refine ⟨rfl, fun hmem => hhas ?_, hs.finished, ?_, hs.current, ?_⟩
      · obtain ⟨b, hb, rfl⟩ := List.mem_map.mp hmem
        simpa [Function.hasBlock, Function.blockIdx?] using ⟨b, hb, rfl⟩
      · simp [IL.Builder.modifyFunction, hs.function, Function.addBlock]
      · have := hs.inside
        simp
        omega

theorem continueAt_ok (h : continueAt k s = .ok (u, s'))
    (hk : k < f.blocks.length) : At s' m f k := by
  cases h
  exact ⟨hs.finished, hs.function, rfl, hk⟩

theorem append_ok (h : emit (Build.append i) s = .ok (u, s')) :
    (f.block n).isTerminated = false ∧ At s' m (f.push n i) n := by
  obtain ⟨b, hrun, rfl⟩ := emit_ok.mp h
  rw [hs.run_append] at hrun
  split at hrun
  · cases hrun
  · rename_i hopen
    cases hrun
    refine ⟨Bool.eq_false_iff.mpr hopen, ?_, ?_, ?_, by simpa using hs.inside⟩ <;>
      simp [IL.Builder.modifyBlock, IL.Builder.modifyFunction, hs.finished, hs.function, hs.current,
        Function.push]

theorem labelOf_ok (h : labelOf k s = .ok (l, s')) : s' = s ∧ l = f.label k := by
  cases h
  exact ⟨rfl, by simp [hs.function]⟩

theorem isTerminated_ok (h : isTerminated s = .ok (b, s')) :
    s' = s ∧ b = (f.block n).isTerminated := by
  cases h
  exact ⟨rfl, by simp [IL.Builder.isTerminated, hs.block?]⟩

end

theorem inScope_ok (h : inScope x s = .ok (a, s')) :
    ∃ t, x s = .ok (a, t) ∧ s'.builder = t.builder ∧ t.names.Keeps s'.names := by
  obtain ⟨s₁, t₁, h₁, h⟩ := bind_ok.mp h
  obtain ⟨b, t₂, h₂, h⟩ := bind_ok.mp h
  obtain ⟨_, t₃, h₃, h⟩ := bind_ok.mp h
  cases h₁
  cases h₃
  obtain ⟨rfl, rfl⟩ := pure_ok.mp h
  exact ⟨t₂, h₂, rfl, .alike rfl rfl⟩

theorem keeps_of_emit (h : emit step s = .ok (a, s')) :
    s.names.Keeps s'.names := by
  obtain ⟨b, -, rfl⟩ := emit_ok.mp h
  exact fun _ _ _ h => h

/-- The state of lowering is that of a draft. -/
structure Here (m : Module) (s : LowerState) (c : Draft) : Prop
    extends At s m c.function c.current where
  names : s.names.Lists c.declared c.function.slotNames

namespace Here

theorem keep (h : Here m s c) (hs : At s' m c'.function c'.current)
    (hn : s.names.Keeps s'.names)
    (hdeclared : c'.declared = c.declared)
    (hslots : c'.function.slotNames = c.function.slotNames) : Here m s' c' := by
  refine ⟨hs, fun hi ho => ?_⟩
  rw [hslots, hdeclared]
  exact hn hi _ _ (h.names hi (hdeclared ▸ ho))

theorem grow (h : Here m s c) (hs : At s' m f c.current)
    (hk : KeepsApart piece.action.declarations s.names c.function s'.names f) :
    Here m s' (c.grow f piece) := by
  refine ⟨hs, fun hi ho => ?_⟩
  have hdeclared : (c.grow f piece).declared = c.declared ++ piece.action.declarations := by
    simp [Draft.declared, Draft.grow]
  rw [hdeclared] at ho ⊢
  obtain ⟨mid, hbefore, hpiece⟩ := Declaration.inOrder_append.mp ho
  exact hk mid hi _ hpiece (h.names mid hbefore)

end Here

end Lower

end BasicSSA
