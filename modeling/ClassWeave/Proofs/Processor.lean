import ClassWeave.Processor
import ClassWeave.Proofs.Enhancer.Stamping
/-!
# Processor -- what becomes of a unit

A unit that nothing was done with ends in one of four ways, one equation
each: refused as no class file, skipped, failed in the chain, or enhanced
and given to be written back. From the last one comes what a processor
leaves in the tree: octets that it can read back exactly under the
condition on pools that the stamp has (`process_readable_iff`).
-/


namespace ClassWeave

namespace Processor

variable {p : Processor} {w : Workspace} {u : ClassUnit}

/-! ## The four ways -/

/-- A unit in progress, before the chain. -/
def started (u : ClassUnit) : ClassUnit := { u with state := .inProgress }

/-- An unprocessed unit can be started. -/
theorem advance_inProgress (hstate : u.state = .unprocessed) :
    u.advance .inProgress = .ok (started u) := by
  rw [ClassUnit.advance, hstate]
  rfl

/-- A unit whose octets are no class file fails, and nothing is written. -/
theorem process_malformed {cause : ClassFile.FormatError} (hstate : u.state = .unprocessed)
    (h : p.filter.classify w.files u = .error cause) :
    p.process w u = rest (w.report [.classMalformed u.name cause])
      { u with state := .failed, failure := some ("malformed class file: " ++ cause.message) } := by
  have hfail : u.fail ("malformed class file: " ++ cause.message) = .ok
      { u with state := .failed, failure := some ("malformed class file: " ++ cause.message) } := by
    simp only [ClassUnit.fail, if_pos hstate, advance_inProgress hstate]
    rfl
  have hfinal : u.state.isFinal = false := by rw [hstate]; rfl
  simp only [process, hfinal, h, hfail, settle]
  rfl

/-- A unit with a reason to be skipped is skipped, and nothing is written. -/
theorem process_skipped {verdict : Verdict} {events : List Event} {reason : SkipReason}
    (hstate : u.state = .unprocessed)
    (h : p.filter.classify w.files u = .ok (verdict, events))
    (hreason : verdict.skipReason? = some reason) :
    p.process w u = rest (w.report events)
      { u with state := .skipped, skipReason := some reason } := by
  have hskip : u.skip reason = .ok { u with state := .skipped, skipReason := some reason } := by
    rw [ClassUnit.skip, ClassUnit.advance, hstate]
    rfl
  have hfinal : u.state.isFinal = false := by rw [hstate]; rfl
  simp only [process, hfinal, h, hreason, hskip, settle]
  rfl

/-- A unit that is to be enhanced goes through the chain. -/
theorem process_proceed {events : List Event} (hstate : u.state = .unprocessed)
    (h : p.filter.classify w.files u = .ok (.proceed, events)) :
    p.process w u = p.enhance (w.report events) (started u) := by
  have hfinal : u.state.isFinal = false := by rw [hstate]; rfl
  simp only [process, hfinal, h, Verdict.skipReason?, advance_inProgress hstate]
  rfl

/-- A unit that its chain fails on fails, and nothing is written. -/
theorem enhance_failed {e : ChainError} (h : (p.chain.apply (started u)).error = some e) :
    ∃ enhanced, p.enhance w (started u) =
      ⟨(w.noteCalls (p.chain.apply (started u)).calls).report [.enhancementFailed e],
        { u with state := .failed, enhanced := enhanced, failure := some e.message },
        { UnitReport.settled
            { u with state := .failed, enhanced := enhanced, failure := some e.message } with
          enhancer := some e.enhancer }⟩ := by
  obtain ⟨enhanced, hunit⟩ := Chain.apply_unit p.chain (started u)
  refine ⟨enhanced, ?_⟩
  simp only [enhance, h, hunit]
  rfl

/-- A unit that its chain does not fail on is enhanced, and given to be
written back with the stamped octets. -/
theorem enhance_ok {out : Bytes} (h : (p.chain.apply (started u)).error = none)
    (hunit : (p.chain.apply (started u)).unit = (started u).install out) :
    p.enhance w (started u) =
      p.writeBack (w.noteCalls (p.chain.apply (started u)).calls)
        { u with state := .enhanced, enhanced := some out } := by
  simp only [enhance, h, hunit]
  rfl

/-! ## Writing back -/

/-- The ledger is no part of the files. -/
theorem record_files (p : Processor) (w : Workspace) (u : ClassUnit) (receipt : CommitReceipt) :
    (p.record w u receipt).files = w.files := by
  unfold record
  split
  · rfl
  · next ledger _ =>
    simp only [Ledger.record]
    cases LedgerTable.key? w.home receipt.path <;> rfl

/-- The ledger is no part of the calls. -/
theorem record_calls (p : Processor) (w : Workspace) (u : ClassUnit) (receipt : CommitReceipt) :
    (p.record w u receipt).calls = w.calls := by
  unfold record
  split
  · rfl
  · next ledger _ =>
    simp only [Ledger.record]
    cases LedgerTable.key? w.home receipt.path <;> rfl

/-- **An enhanced unit is written back** to its output, with the octets it
was enhanced to; the unit stays, and its report says how the writing went. -/
theorem writeBack_enhanced {out : Bytes} (hstate : u.state = .enhanced)
    (henhanced : u.enhanced = some out) (hout : out ≠ []) :
    (p.writeBack w u).unit = u ∧ (p.writeBack w u).workspace.calls = w.calls ∧
      (p.writeBack w u).workspace.files = (w.files.writeWhole u.location.output out).1 ∧
      (p.writeBack w u).report = match (w.files.writeWhole u.location.output out).2 with
        | .error fault => { UnitReport.settled u with
            persistenceError := some ⟨u.name, u.location.output, fault⟩ }
        | .ok () => { UnitReport.settled u with
            committed := some ⟨u.location.output, out.length, Bytes.sha256Hex out⟩ } := by
  have houtput : u.output? = some out := by
    rw [ClassUnit.output?, if_pos hstate, henhanced, Option.filter_some]
    simp [hout]
  rcases hwrite : w.files.writeWhole u.location.output out with ⟨files, fault | ⟨⟩⟩
  · simp only [writeBack, ClassUnit.commit, houtput, hwrite]
    exact ⟨trivial, rfl, rfl, trivial⟩
  · simp only [writeBack, ClassUnit.commit, houtput, hwrite]
    exact ⟨trivial, record_calls .., record_files .., trivial⟩

/-! ## What can be read back -/

/-- **What a processor leaves can be read back** exactly if the pool of what
the passes made is complete or has the marker's name: for every unit that
is to be enhanced and every chain that does not fail on it, the stamped
octets stay installed and are the ones written to its output, and they are
a class file with the marker under that condition and no other. -/
theorem process_readable_iff {events : List Event} (hstate : u.state = .unprocessed)
    (hverdict : p.filter.classify w.files u = .ok (.proceed, events))
    (hok : (p.chain.apply (started u)).error = none) :
    ∃ l out, ClassFile.Layout.read (p.chain.unstamped (started u)) = .ok l ∧
      (p.process w u).unit.enhanced = some out ∧
      (p.process w u).workspace.files = (w.files.writeWhole u.location.output out).1 ∧
      ((∃ c, ClassFile.parse out = .ok c ∧ c.isMarked = true) ↔
        l.IsComplete ∨ l.Holds MarkerRecord.attributeName) := by
  obtain ⟨out, hstamp, hunit⟩ := Chain.apply_ok hok
  -- there is a stamp, so what the passes left was read once more for it
  obtain ⟨l, l', hread, -, -⟩ := ClassFile.withAttribute_ok.1 hstamp
  obtain ⟨hdone, -, hfiles, -⟩ := writeBack_enhanced (p := p)
    (w := (w.report events).noteCalls (p.chain.apply (started u)).calls)
    (u := { u with state := .enhanced, enhanced := some out }) rfl rfl
    (ClassFile.stamp_ne_nil hstamp)
  rw [process_proceed hstate hverdict, enhance_ok hok hunit]
  exact ⟨l, out, hread, by rw [hdone], hfiles, ClassFile.stamp_readable_iff hread hstamp⟩

/-- A class in a file of its own, ending its pool in a `long`. -/
def wideUnit (count : UInt16) : ClassUnit :=
  .fresh "A" (.inPlace ⟨"A.class"⟩) (ClassFile.Layout.endingWide count).encode

/-- A workspace with nothing in it. -/
def bareWorkspace : Workspace := ⟨⟨[], []⟩, [], 0, [], []⟩

/-- A processor with no passes, which only marks. -/
def marking : Processor := .ofChain [] [] none

/-- A `long` with both its slots leaves room for the marker's name. -/
theorem process_readable_iff_complete :
    marking.filter.classify bareWorkspace.files (wideUnit 5) = .ok (.proceed, []) ∧
      ∃ out, (marking.process bareWorkspace (wideUnit 5)).unit.enhanced = some out ∧
        ∃ c, ClassFile.parse out = .ok c ∧ c.isMarked = true := by
  have hverdict : marking.filter.classify bareWorkspace.files (wideUnit 5) = .ok (.proceed, []) := by
    decide +kernel
  obtain ⟨l, out, hread, hunit, -, hiff⟩ := process_readable_iff (p := marking)
    (w := bareWorkspace) (u := wideUnit 5) rfl hverdict (by decide +kernel)
  refine ⟨hverdict, out, hunit, hiff.2 (.inl ?_)⟩
  have hlayout : ClassFile.Layout.read (marking.chain.unstamped (started (wideUnit 5))) =
      .ok (.endingWide 5) := by decide
  obtain rfl := Except.ok.inj (hlayout.symm.trans hread)
  intro c hlast
  cases hlast

/-- A `long` that reaches over leaves none: the class is read and enhanced,
and what is installed and written in its place is no class file. -/
theorem process_unreadable :
    (∃ c, ClassFile.parse (wideUnit 4).compiled = .ok c) ∧
      marking.filter.classify bareWorkspace.files (wideUnit 4) = .ok (.proceed, []) ∧
      (marking.chain.apply (started (wideUnit 4))).error = none ∧
      ((marking.process bareWorkspace (wideUnit 4)).unit.enhanced.map ClassFile.parse) =
        some (.error (.badReference 0x1a6f "Class")) :=
  ⟨⟨_, rfl⟩, by decide +kernel⟩

end Processor

end ClassWeave
