import ClassWeave.Proofs.Enhancer.Stamping
/-!
# Enhancer -- the calls of a chain and what they produced

Every pass that is given a unit leaves a call with what it was given, so
what it produced can be told from the call: passes decide by what they see
and nothing else (`Chain.Produced`). What a chain leaves for the marker was
there before it, or was produced by one of its calls (`unstamped_cases`).
-/


namespace ClassWeave

namespace Chain

variable {chain : Chain} {u : ClassUnit} {calls : List PassCall} {bytes : Bytes}

/-- **Octets that a pass of a chain produced** on one of some calls. -/
def Produced (chain : Chain) (calls : List PassCall) (bytes : Bytes) : Prop :=
  ∃ call ∈ calls, ∃ pass, chain[call.position]? = some pass ∧
    pass.run ⟨call.unit, call.compiled, call.current⟩ = .ok (some bytes)

theorem Produced.mono {calls' : List PassCall} (h : chain.Produced calls bytes)
    (hsub : ∀ call ∈ calls, call ∈ calls') : chain.Produced calls' bytes := by
  obtain ⟨call, hcall, hpass⟩ := h
  exact ⟨call, hsub call hcall, hpass⟩

/-- A pass that succeeds leaves the unit, or installs what it produced. -/
theorem applyPass_ok {p : Pass} {v : ClassUnit} (h : applyPass p u = .ok v) :
    v = u ∨ ∃ bytes, p.run ⟨u.name, u.compiled, u.current⟩ = .ok (some bytes) ∧
      v = u.install bytes := by
  unfold applyPass at h
  split at h
  · cases h
  · exact .inl (Except.ok.inj h).symm
  · next bytes hrun =>
    split at h
    · cases h
    · exact .inr ⟨bytes, hrun, (Except.ok.inj h).symm⟩

/-- The calls so far come first, and the others are about the unit. -/
theorem applyFrom_calls (position : Nat) (u : ClassUnit) (calls : List PassCall)
    (passes : List Pass) :
    calls <+: (applyFrom position u calls passes).calls ∧
      ∀ call ∈ (applyFrom position u calls passes).calls, call ∈ calls ∨ call.unit = u.name := by
  induction passes generalizing position u calls with
  | nil => exact ⟨List.prefix_rfl, fun call hcall => .inl hcall⟩
  | cons p rest ih =>
    have hsplit : ∀ call ∈ calls ++ [callOf position p u], call ∈ calls ∨ call.unit = u.name := by
      intro call hcall
      rcases List.mem_append.1 hcall with hcall | hcall
      · exact .inl hcall
      · exact .inr (List.mem_singleton.1 hcall ▸ rfl)
    simp only [applyFrom]
    rcases hp : applyPass p u with e | v
    · exact ⟨List.prefix_append _ _, hsplit⟩
    · have hname : v.name = u.name := by
        rcases applyPass_ok hp with rfl | ⟨bytes, -, rfl⟩ <;> rfl
      obtain ⟨hbefore, hcalls⟩ := ih (position + 1) v (calls ++ [callOf position p u])
      refine ⟨(List.prefix_append _ _).trans hbefore, fun call hcall => ?_⟩
      rcases hcalls call hcall with hcall | hunit
      · exact hsplit call hcall
      · exact .inr (hunit.trans hname)

/-- The enhanced octets behind passes are those before them, or produced by
one of their calls. -/
theorem applyFrom_produced (chain : Chain) (position : Nat) (u : ClassUnit) (calls : List PassCall) :
    (applyFrom position u calls (chain.drop position)).unit.enhanced = u.enhanced ∨
      ∃ bytes, (applyFrom position u calls (chain.drop position)).unit.enhanced = some bytes ∧
        chain.Produced (applyFrom position u calls (chain.drop position)).calls bytes := by
  generalize hpasses : chain.drop position = passes
  -- on the passes left, with the place of the first of them in the chain
  induction passes generalizing position u calls with
  | nil => exact .inl rfl
  | cons p rest ih =>
    have hpass : chain[position]? = some p := by
      rw [← List.head?_drop, hpasses]
      rfl
    have hrest : chain.drop (position + 1) = rest := by
      rw [← List.tail_drop, hpasses, List.tail_cons]
    simp only [applyFrom]
    rcases hp : applyPass p u with e | v
    · exact .inl rfl
    · rcases ih (position + 1) v (calls ++ [callOf position p u]) hrest with hsame | hmade
      · rcases applyPass_ok hp with rfl | ⟨bytes, hrun, rfl⟩
        · exact .inl hsame
        · refine .inr ⟨bytes, hsame, callOf position p u, ?_, p, hpass, hrun⟩
          exact (applyFrom_calls _ _ _ _).1.subset (List.mem_append_right _ List.mem_cons_self)
      · exact .inr hmade

/-- The calls of a chain are those of its passes. -/
theorem calls_apply (chain : Chain) (u : ClassUnit) :
    (chain.apply u).calls = (applyFrom 0 u [] chain).calls := by
  simp only [apply]
  split
  · rfl
  · split <;> rfl

theorem unit_of_mem_calls {call : PassCall} (h : call ∈ (chain.apply u).calls) :
    call.unit = u.name := by
  rw [calls_apply] at h
  exact ((applyFrom_calls _ _ _ _).2 call h).resolve_left List.not_mem_nil

/-- Passes are called in the order of their places, each once. -/
theorem positions_applyFrom (position : Nat) (u : ClassUnit) (calls : List PassCall)
    (passes : List Pass) :
    ∃ n, (applyFrom position u calls passes).calls.map PassCall.position =
      calls.map PassCall.position ++ List.range' position n := by
  induction passes generalizing position u calls with
  | nil => exact ⟨0, (List.append_nil _).symm⟩
  | cons p rest ih =>
    simp only [applyFrom]
    rcases applyPass p u with e | v
    · exact ⟨1, by rw [List.map_append]; rfl⟩
    · obtain ⟨n, hn⟩ := ih (position + 1) v (calls ++ [callOf position p u])
      refine ⟨n + 1, ?_⟩
      simp only [hn, List.map_append, List.append_assoc, List.range'_succ]
      rfl

/-- **No pass of a chain is called twice for a unit.** -/
theorem nodup_positions (chain : Chain) (u : ClassUnit) :
    ((chain.apply u).calls.map PassCall.position).Nodup := by
  obtain ⟨n, hn⟩ := positions_applyFrom 0 u [] chain
  rw [calls_apply, hn]
  exact List.nodup_range'

/-- **What is left for the marker** was there before the chain, or one of
its calls produced it. -/
theorem unstamped_cases (chain : Chain) (u : ClassUnit) :
    chain.unstamped u = u.current ∨ chain.Produced (chain.apply u).calls (chain.unstamped u) := by
  obtain ⟨e, hunit⟩ := applyFrom_unit 0 u [] chain
  have hdrop : chain.drop 0 = chain := rfl
  rw [calls_apply]
  rcases applyFrom_produced chain 0 u [] with hsame | ⟨bytes, hbytes, hmade⟩
  · rw [hdrop, hunit] at hsame
    left
    rw [unstamped, hunit, ClassUnit.current, ClassUnit.current]
    simp only at hsame ⊢
    rw [hsame]
  · rw [hdrop] at hbytes hmade
    right
    have hcurrent : chain.unstamped u = bytes := by rw [unstamped, ClassUnit.current, hbytes]; rfl
    rwa [hcurrent]

end Chain

end ClassWeave
