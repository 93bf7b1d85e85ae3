import ClassWeave.Proofs.Enhancer.Fold
import ClassWeave.Proofs.Processor
/-!
# Processor -- what a failed unit still holds

A failed unit leaves no trace on disk, but its own octets are those that it
had when its chain stopped. Whatever pass it stopped at, or the marker, that
is the last output that the chain accepted (`Chain.Accepts`), if there was
one; nothing takes it away when the unit fails. So a failed unit is as it was
compiled exactly if no pass in front of the failure had produced anything
(`process_failed_bare_iff`).
-/


namespace ClassWeave

namespace Chain

variable {chain : Chain} {u : ClassUnit} {n : Nat} {e : ChainError}

/-- **Octets that a chain accepts** for a unit: a pass produced them that the
chain comes to, and nothing is wrong with them. -/
def Accepts (chain : Chain) (u : ClassUnit) (bytes : Bytes) : Prop :=
  ∃ j p, chain[j]? = some p ∧ p.outputOn u (chain.octetsAfter u j) = some bytes ∧
    ∀ i ≤ j, chain.faultAt? u i = none

/-- Behind passes that nothing is wrong with a unit has accepted octets, or
none of them produced any. -/
theorem enhancedAfter_cases (hn : n ≤ chain.length) (hpassed : ∀ j < n, chain.faultAt? u j = none) :
    (chain.enhancedAfter u n = u.enhanced ∧
        ∀ j < n, ∀ p, chain[j]? = some p → p.outputOn u (chain.octetsAfter u j) = none) ∨
      ∃ bytes, chain.enhancedAfter u n = some bytes ∧ chain.Accepts u bytes := by
  induction n with
  | zero => exact .inl ⟨rfl, nofun⟩
  | succ n ih =>
    have hp : chain[n]? = some chain[n] := List.getElem?_eq_getElem hn
    rw [enhancedAfter_succ hp]
    rcases houtput : (chain[n]).outputOn u (chain.octetsAfter u n) with _ | bytes
    · rw [Option.none_or]
      refine (ih (Nat.le_of_succ_le hn) fun j hj => hpassed j (Nat.lt_succ_of_lt hj)).imp_left ?_
      rintro ⟨hsame, hnone⟩
      refine ⟨hsame, fun j hj p hpj => ?_⟩
      rcases Nat.lt_succ_iff_lt_or_eq.1 hj with hlt | rfl
      · exact hnone j hlt p hpj
      · obtain rfl := Option.some.inj (hp.symm.trans hpj)
        exact houtput
    · rw [Option.some_or]
      exact .inr ⟨bytes, rfl, n, chain[n], hp, houtput, fun i hi =>
        hpassed i (Nat.lt_succ_of_le hi)⟩

/-- **A chain that fails** has come past some passes and no further. -/
theorem apply_failed (h : (chain.apply u).error = some e) :
    ∃ n ≤ chain.length, (chain.apply u).unit = chain.unitAfter u n ∧
      (∀ j < n, chain.faultAt? u j = none) ∧ (n = chain.length ∨ chain.faultAt? u n ≠ none) := by
  rcases passed_or_stops chain u with hpassed | ⟨i, p, fault, hstops⟩
  · refine ⟨chain.length, Nat.le_refl _, ?_, fun j _ => hpassed j, .inl rfl⟩
    rw [apply_passed hpassed] at h ⊢
    split at h
    · cases h
    · rfl
  · have hlt := (List.getElem?_eq_some_iff.1 hstops.pass).1
    refine ⟨i, Nat.le_of_lt hlt, by rw [hstops.apply], hstops.passed, .inr ?_⟩
    rw [faultAt?, hstops.pass, Option.bind_some, hstops.fault]
    exact Option.some_ne_none fault

/-- **What a chain that fails leaves**: octets that it accepted, or what the
unit had before, if it accepted none. -/
theorem enhanced_apply_failed (h : (chain.apply u).error = some e) :
    ((chain.apply u).unit.enhanced = u.enhanced ∧ ∀ bytes, ¬ chain.Accepts u bytes) ∨
      ∃ bytes, (chain.apply u).unit.enhanced = some bytes ∧ chain.Accepts u bytes := by
  obtain ⟨n, hn, hunit, hpassed, hend⟩ := apply_failed h
  rw [hunit]
  refine (enhancedAfter_cases hn hpassed).imp_left ?_
  rintro ⟨hsame, hnone⟩
  refine ⟨hsame, ?_⟩
  rintro bytes ⟨j, p, hp, houtput, hupto⟩
  -- an accepting pass is in front of where the chain ended
  have hj : j < n := by
    by_contra hj
    rcases hend with rfl | hfault
    · rw [List.getElem?_eq_none (Nat.not_lt.1 hj)] at hp
      cases hp
    · exact hfault (hupto n (Nat.not_lt.1 hj))
  rw [hnone j hj p hp] at houtput
  cases houtput

end Chain

namespace Processor

variable {p : Processor} {w : Workspace} {u : ClassUnit}

/-- **A unit that ends failed** has changed no file and no ledger. Either it
was malformed, and holds what it held, or its chain failed, and it holds what
that left. -/
theorem process_failed_cases (hstate : u.state = .unprocessed)
    (hfailed : (p.process w u).unit.state = .failed) :
    (p.process w u).workspace.files = w.files ∧ (p.process w u).workspace.ledgers = w.ledgers ∧
    (p.process w u).unit.compiled = u.compiled ∧
    ((∃ cause, p.filter.classify w.files u = .error cause) ∧
        (p.process w u).unit.enhanced = u.enhanced ∨
      ∃ events e, p.filter.classify w.files u = .ok (.proceed, events) ∧
        (p.chain.apply (started u)).error = some e ∧
        (p.process w u).unit.enhanced = (p.chain.apply (started u)).unit.enhanced) := by
  rcases hv : p.filter.classify w.files u with cause | ⟨verdict, events⟩
  · rw [process_malformed hstate hv]
    exact ⟨rfl, rfl, rfl, .inl ⟨⟨cause, rfl⟩, rfl⟩⟩
  rcases hreason : verdict.skipReason? with _ | reason
  swap
  · rw [process_skipped hstate hv hreason] at hfailed
    cases hfailed
  obtain rfl : verdict = .proceed := by
    cases verdict with
    | proceed => rfl
    | exempt reason => cases hreason
    | alreadyEnhanced prior => cases hreason
  rw [process_proceed hstate hv] at hfailed ⊢
  rcases herror : (p.chain.apply (started u)).error with _ | e
  · -- a unit that its chain does not fail on is enhanced
    obtain ⟨out, hstamp, hunit⟩ := Chain.apply_ok herror
    rw [enhance_ok herror hunit, (writeBack_enhanced rfl rfl (ClassFile.stamp_ne_nil hstamp)).1]
      at hfailed
    cases hfailed
  have hleft : (p.enhance (w.report events) (started u)).unit.enhanced =
      (p.chain.apply (started u)).unit.enhanced := by
    obtain ⟨enhanced, hunit⟩ := Chain.apply_unit p.chain (started u)
    simp only [enhance, herror, hunit]
    rfl
  obtain ⟨enhanced, henhance⟩ := enhance_failed (w := w.report events) herror
  refine ⟨?_, ?_, ?_, .inr ⟨events, e, rfl, rfl, hleft⟩⟩ <;> rw [henhance] <;> rfl

/-- **What a failed unit holds.** For every filter, chain and unit that
nothing was done with yet: if it ends failed, neither the files nor any
ledger has changed, and neither have its compiled octets; what it holds
beside them it held before, or its chain accepted it; and it has no enhanced
octets, so that its current ones are the compiled ones, exactly if it had
none before and the chain that it was given to accepted none. -/
theorem process_failed_bare_iff (hstate : u.state = .unprocessed)
    (hfailed : (p.process w u).unit.state = .failed) :
    (p.process w u).workspace.files = w.files ∧
    (p.process w u).workspace.ledgers = w.ledgers ∧
    (p.process w u).unit.compiled = u.compiled ∧
    (∀ bytes, (p.process w u).unit.enhanced = some bytes →
      u.enhanced = some bytes ∨ p.chain.Accepts (started u) bytes) ∧
    ((p.process w u).unit.enhanced = none ∧ (p.process w u).unit.current = u.compiled ↔
      u.enhanced = none ∧ ∀ events, p.filter.classify w.files u = .ok (.proceed, events) →
        ∀ bytes, ¬ p.chain.Accepts (started u) bytes) := by
  obtain ⟨hfiles, hledgers, hcompiled, hcases⟩ := process_failed_cases hstate hfailed
  have hbare : (p.process w u).unit.enhanced = none ∧ (p.process w u).unit.current = u.compiled ↔
      (p.process w u).unit.enhanced = none := by
    refine and_iff_left_of_imp fun hnone => ?_
    rw [ClassUnit.current, hnone, Option.getD_none, hcompiled]
  rw [hbare]
  refine ⟨hfiles, hledgers, hcompiled, ?_⟩
  rcases hcases with ⟨⟨cause, hv⟩, hheld⟩ | ⟨events, e, hv, herror, hleft⟩
  · rw [hheld, hv]
    exact ⟨fun bytes => .inl, fun hnone => ⟨hnone, nofun⟩, And.left⟩
  rw [hleft]
  rcases Chain.enhanced_apply_failed herror with ⟨hsame, hnot⟩ | ⟨out, hout, haccepts⟩
  · -- what the unit was given to its chain with
    rw [hsame]
    exact ⟨fun bytes => .inl, fun hnone => ⟨hnone, fun _ _ => hnot⟩, And.left⟩
  · rw [hout]
    refine ⟨?_, nofun, fun ⟨_, hnot⟩ => absurd haccepts (hnot events hv out)⟩
    rintro _ ⟨⟩
    exact .inr haccepts

/-- A processor whose one pass fails. -/
def failing : Processor := .ofChain [Chain.spoiling] [] none

/-- A unit that fails in its first pass is as it was compiled. -/
theorem process_failed_bare_iff_first :
    (failing.process bareWorkspace Chain.roomyUnit).unit.state = .failed ∧
      (failing.process bareWorkspace Chain.roomyUnit).unit.enhanced = none ∧
      (failing.process bareWorkspace Chain.roomyUnit).unit.current = Chain.roomyUnit.compiled := by
  have hfailed : (failing.process bareWorkspace Chain.roomyUnit).unit.state = .failed := by
    decide +kernel
  obtain ⟨-, -, -, -, hiff⟩ := process_failed_bare_iff (p := failing) rfl hfailed
  refine ⟨hfailed, hiff.2 ⟨rfl, fun events _ bytes haccepts => ?_⟩⟩
  -- there is one place in the chain, and something is wrong with the pass there
  obtain ⟨j, p, -, -, hupto⟩ := haccepts
  have hfault : failing.chain.faultAt? (started Chain.roomyUnit) 0 =
      some (.malformedOutput (.truncated 0 4)) := by decide +kernel
  rw [hupto 0 (Nat.zero_le j)] at hfault
  cases hfault

/-- A processor with a pass that fails behind one that adds an attribute. -/
def spoiling : Processor := .ofChain Chain.spoiltChain [] none

/-- **A unit that fails later holds what the passes in front left of it**: the
new unit ends failed with enhanced octets, which are not the compiled ones. -/
theorem process_failed_exposed :
    Chain.roomyUnit.state = .unprocessed ∧ Chain.roomyUnit.enhanced = none ∧
      (spoiling.process bareWorkspace Chain.roomyUnit).unit.state = .failed ∧
      (spoiling.process bareWorkspace Chain.roomyUnit).unit.enhanced ≠ none ∧
      (spoiling.process bareWorkspace Chain.roomyUnit).unit.current ≠ Chain.roomyUnit.compiled :=
  ⟨rfl, rfl, by decide +kernel, by decide +kernel, by decide +kernel⟩

end Processor

end ClassWeave
