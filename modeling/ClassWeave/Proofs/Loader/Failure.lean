import ClassWeave.Proofs.Loader
/-!
# Loader -- what a failed request leaves

A request reaches a unit of the source tree or none (`Loader.Reaches`), and
what is written for it is what the unit is enhanced to
(`Processor.Enhances`). So a request that fails leaves the files as they
were, with one exception: the answer is made of the octets after they are
written, and if they do not define the class that was asked for, they stay
behind (`Loader.Strands`). Which octets these are can be told from what the
passes left (`Strands.wrongName`): every output of a pass is read, but the
name that it declares is not looked at until then.
-/


namespace ClassWeave

namespace Processor

variable {p : Processor} {w : Workspace} {u : ClassUnit} {out : Bytes}

/-! ## What is written -/

/-- **Octets that a processor enhances a unit to**, of which nothing was
done before. -/
structure Enhances (p : Processor) (w : Workspace) (u : ClassUnit) (out : Bytes) : Prop where
  state : u.state = .unprocessed
  fate : p.fateOn u (p.filter.classify w.files u) = .enhanced out

/-- What a unit is enhanced to is installed and written to its output. -/
theorem Enhances.process (h : p.Enhances w u out) :
    (p.process w u).unit = { u with state := .enhanced, enhanced := some out } ∧
      (p.process w u).report.state = .enhanced ∧
      (p.process w u).workspace.files = (w.files.writeWhole u.location.output out).1 := by
  obtain ⟨-, hreport, hfiles, -, hunit⟩ := process_fate h.state h.fate
  exact ⟨hunit out rfl, hreport, hfiles⟩

/-- A unit that was started or settled before is not written. -/
theorem files_process_of_state (hstate : u.state ≠ .unprocessed) :
    (p.process w u).workspace.files = w.files := by
  have hsettle : ∀ (w : Workspace) step, (settle w u step).workspace.files = w.files := by
    rintro w (e | v) <;> rfl
  have hrefused : u.advance .inProgress = .error ⟨u.name, u.state, .inProgress⟩ := by
    rw [ClassUnit.advance, if_neg]
    cases hu : u.state with
    | unprocessed => exact absurd hu hstate
    | inProgress => decide
    | enhanced => decide
    | skipped => decide
    | failed => decide
  unfold Processor.process
  split
  · rfl
  split
  · exact hsettle _ _
  split
  · exact hsettle _ _
  · rw [hrefused]
    rfl

/-- **Only what is enhanced is written.** -/
theorem files_process (h : ∀ out, ¬ p.Enhances w u out) :
    (p.process w u).workspace.files = w.files := by
  by_cases hstate : u.state = .unprocessed
  · obtain ⟨f, hfate⟩ : ∃ f, p.fateOn u (p.filter.classify w.files u) = f := ⟨_, rfl⟩
    obtain ⟨-, -, hfiles, -⟩ := process_fate hstate hfate
    cases f with
    | skipped reason => exact hfiles
    | failed message enhancer => exact hfiles
    | enhanced out => exact absurd ⟨hstate, hfate⟩ (h out)
  · exact files_process_of_state hstate

end Processor

namespace Loader

variable {l : Loader} {w : Workspace} {raw : String} {u : ClassUnit} {out : Bytes} {e : LoadError}

/-! ## Failures -/

/-- **Octets that a request strands**: it reaches a unit that is enhanced to
them, and they do not define the class that was asked for. -/
structure Strands (l : Loader) (w : Workspace) (raw : String) (u : ClassUnit) (out : Bytes)
    (e : LoadError) : Prop where
  reached : l.Reaches w raw u
  enhanced : l.processor.Enhances w u out
  undefined : DefinedClass.define (normalName raw) out (.project .enhanced) = .error e

/-- Stranded octets are written, and kept as those of an enhanced unit, and
then the request fails. -/
theorem Strands.resolve (h : l.Strands w raw u out e) :
    (l.resolve w raw).answer = .error e ∧
      (l.resolve w raw).workspace.files = (w.files.writeWhole u.location.output out).1 ∧
      (l.resolve w raw).loader.cache.get? (normalName raw) =
        some { u with state := .enhanced, enhanced := some out } := by
  obtain ⟨hunit, hstate, hfiles⟩ := h.enhanced.process
  rw [resolve_reached h.reached]
  refine ⟨?_, hfiles, ?_⟩
  · simp only [answerLocal, hstate, hunit]
    exact h.undefined
  · simp only [answerLocal, hunit, UnitCache.get?_put_self]

/-- **Why octets are stranded**: where what the passes left has a complete
pool, it declares another name than the one that was asked for. -/
theorem Strands.wrongName (h : l.Strands w raw u out e)
    (hcomplete : ClassFile.PoolComplete (l.processor.chain.unstamped (Processor.started u))) :
    ∃ c, ClassFile.parse (l.processor.chain.unstamped (Processor.started u)) = .ok c ∧
      c.qualifiedName ≠ normalName raw ∧ e = .wrongName (normalName raw) c.qualifiedName := by
  obtain ⟨hstamp, -⟩ := Processor.stamp_of_fateOn h.enhanced.fate
  obtain ⟨k, -, hread, -, -⟩ := ClassFile.withAttribute_ok.1 hstamp
  obtain ⟨k', -, hread', hview⟩ :=
    ClassFile.read_withAttribute hread hstamp (.inl (hcomplete k hread))
  have hparse : ClassFile.parse out = .ok k'.view := ClassFile.parse_ok.2 ⟨k', hread', rfl⟩
  -- the marker is added behind the name, which stays
  have hname : k'.view.qualifiedName = k.view.qualifiedName := by
    rw [hview]
    rfl
  have hundefined := h.undefined
  simp only [DefinedClass.define, hparse, hname] at hundefined
  split at hundefined
  · next hother =>
    exact ⟨k.view, ClassFile.parse_ok.2 ⟨k, hread, rfl⟩, hother,
      (Except.error.inj hundefined).symm⟩
  · cases hundefined

/-- **What a failed request leaves.** Whatever a loader has answered before,
and whatever its passes make of a class: a request that fails leaves the
files as they were, unless it strands what it enhanced a unit to. Then the
octets are written to the unit's output, and the unit is kept as enhanced;
and if what the passes left has a complete pool, this is because it declares
another name. -/
theorem resolve_failed_files (hanswer : (l.resolve w raw).answer = .error e) :
    ((l.resolve w raw).workspace.files = w.files ∧ ¬ ∃ u out e', l.Strands w raw u out e') ∨
      ∃ u out, l.Strands w raw u out e ∧
        (l.resolve w raw).workspace.files = (w.files.writeWhole u.location.output out).1 ∧
        (l.resolve w raw).loader.cache.get? (normalName raw) =
          some { u with state := .enhanced, enhanced := some out } ∧
        (ClassFile.PoolComplete (l.processor.chain.unstamped (Processor.started u)) →
          ∃ c, ClassFile.parse (l.processor.chain.unstamped (Processor.started u)) = .ok c ∧
            c.qualifiedName ≠ normalName raw ∧
            e = .wrongName (normalName raw) c.qualifiedName) := by
  by_cases hstrands : ∃ u out e', l.Strands w raw u out e'
  · obtain ⟨u, out, e', hstrands⟩ := hstrands
    obtain ⟨hfailed, hfiles, hkept⟩ := hstrands.resolve
    obtain rfl := Except.error.inj (hfailed.symm.trans hanswer)
    exact .inr ⟨u, out, hstrands, hfiles, hkept, hstrands.wrongName⟩
  refine .inl ⟨?_, hstrands⟩
  by_cases hreached : ∃ u, l.Reaches w raw u
  · obtain ⟨u, hreached⟩ := hreached
    rw [resolve_reached hreached] at hanswer ⊢
    refine Processor.files_process fun out henhances => ?_
    -- a unit that is enhanced fails in no other way than to be stranded
    obtain ⟨hunit, hstate, -⟩ := henhances.process
    simp only [answerLocal, hstate, hunit] at hanswer
    exact hstrands ⟨u, out, e, hreached, henhances, hanswer⟩
  · rw [(resolve_unreached (not_exists.1 hreached)).1]

/-- A loader over the source tree with a pass that refuses every class. -/
def refusingLoader : Loader :=
  .fresh ⟨"src"⟩ none
    (.ofChain [⟨⟨"refuse", "1.0.0"⟩, fun _ => .error (.reported ["refused"])⟩] [] none) .noParent

/-- A class that the pass refuses is reached and fails, and nothing is
written for it. -/
theorem resolve_failed_files_refused :
    (∃ u, refusingLoader.Reaches plainWorkspace "A" u) ∧
      (∃ reason, (refusingLoader.resolve plainWorkspace "A").answer =
        .error (.enhancement "A" reason)) ∧
      (refusingLoader.resolve plainWorkspace "A").workspace.files = plainWorkspace.files := by
  obtain ⟨hlocal, hunit⟩ : (normalName "A" = "A" ∧ nameFault? "A" = none ∧
        refusingLoader.processor.filter.platformNamespace? "A" = none) ∧
      ((refusingLoader.unit? plainWorkspace "A").toOption.join).isSome = true := by
    decide +kernel
  obtain ⟨hkept, hfailed⟩ :
      ((refusingLoader.resolve plainWorkspace "A").loader.cache.get? (normalName "A")).map
        ClassUnit.state = some .failed ∧
      ∃ reason, (refusingLoader.resolve plainWorkspace "A").answer =
        .error (.enhancement "A" reason) := ⟨by decide +kernel, _, rfl⟩
  obtain ⟨reason, hanswer⟩ := hfailed
  refine ⟨?_, ⟨reason, hanswer⟩, ?_⟩
  · rcases hreached : refusingLoader.unit? plainWorkspace "A" with e | _ | u
    · rw [hreached] at hunit
      cases hunit
    · rw [hreached] at hunit
      cases hunit
    · obtain ⟨hname, hfault, hunreserved⟩ := hlocal
      exact ⟨u, ⟨by rw [hname]; decide, by rw [hname, hfault], by rw [hname, hunreserved]⟩,
        by rw [hname, hreached]⟩
  · rcases resolve_failed_files hanswer with ⟨hfiles, -⟩ | ⟨u, out, -, -, henhanced, -⟩
    · exact hfiles
    · -- a unit that is stranded is kept as enhanced
      rw [henhanced] at hkept
      cases hkept

/-- The same class under the name `B`. -/
def renamedClass : Bytes :=
  [0xca, 0xfe, 0xba, 0xbe, 0, 0, 0, 0x34, 0, 3, 1, 0, 1, 0x42, 7, 0, 1, 0, 0x21, 0, 2, 0, 0,
    0, 0, 0, 0, 0, 0, 0, 0]

/-- A pass that makes it of everything. -/
def swapping : Pass := ⟨⟨"swap", "1.0.0"⟩, fun _ => .ok (some renamedClass)⟩

/-- A loader over the source tree with that pass. -/
def swappingLoader : Loader := .fresh ⟨"src"⟩ none (.ofChain [swapping] [] none) .noParent

/-- The other class is a class file, and stands in the place of the one that
was asked for when the request fails. -/
theorem resolve_failed_written :
    (∃ c, ClassFile.parse renamedClass = .ok c) ∧
      (swappingLoader.resolve plainWorkspace "A").answer = .error (.wrongName "A" "B") ∧
      plainWorkspace.files.read ⟨"src/A.class"⟩ = .ok plainClass ∧
      (swappingLoader.resolve plainWorkspace "A").workspace.files.read ⟨"src/A.class"⟩ ≠
        .ok plainClass :=
  ⟨⟨_, rfl⟩, by decide +kernel⟩

end Loader

end ClassWeave
