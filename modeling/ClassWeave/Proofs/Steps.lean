import ClassWeave.Proofs.Fate
import ClassWeave.Proofs.Files.Steps
import ClassWeave.Steps
/-!
# Steps -- what the steps amount to

With nothing in between, the steps that processing is taken apart into amount
to processing, and none of them has to wait (`Processor.run_job`). Whatever
others do in between, a unit meets the fate that it meets by itself, if they
leave the verdict on it as it is and the writing of its output comes to the
same (`Processor.promises_job`): no other step looks at the files.
-/


namespace ClassWeave

theorem ClassUnit.run_commitJob (u : ClassUnit) (t : FileTree) :
    u.commitJob.run t = u.commit t ∧ u.commitJob.Unhindered t := by
  unfold commitJob commit
  rcases u.output? with _ | bytes
  · exact ⟨rfl, trivial⟩
  obtain ⟨hrun, hfree⟩ := FileTree.run_writeJob u.location.output bytes t
  dsimp only
  rw [Job.run_bind, Job.unhindered_bind, hrun]
  rcases t.writeWhole u.location.output bytes with ⟨t₁, fault | ⟨⟩⟩ <;> exact ⟨rfl, hfree, trivial⟩

namespace Workspace

variable {α : Type} {w : Workspace}

theorem isPart_files : Job.IsPart files fun t (w : Workspace) => w.withFiles t :=
  ⟨fun _ _ => rfl, fun _ _ _ => rfl, fun _ => rfl⟩

@[simp] theorem run_onFiles (job : Job FileTree α) :
    (onFiles job).run w = (w.withFiles (job.run w.files).1, (job.run w.files).2) :=
  Job.run_within isPart_files job w

@[simp] theorem unhindered_onFiles {job : Job FileTree α} :
    (onFiles job).Unhindered w ↔ job.Unhindered w.files := Job.unhindered_within isPart_files

@[simp] theorem run_reportJob (events : List Event) :
    (reportJob events).run w = (w.report events, ()) := rfl

@[simp] theorem unhindered_reportJob (events : List Event) : (reportJob events).Unhindered w :=
  ⟨rfl, trivial⟩

/-- Calls noted one by one are noted. -/
theorem run_callsJob (calls : List PassCall) (w : Workspace) :
    (callsJob calls).run w = (w.noteCalls calls, ()) ∧ (callsJob calls).Unhindered w := by
  induction calls generalizing w with
  | nil => exact ⟨by rw [noteCalls, List.append_nil]; rfl, trivial⟩
  | cons call calls ih =>
    obtain ⟨hrun, hfree⟩ := ih (w.noteCalls [call])
    rw [callsJob, Job.run_bind, Job.unhindered_bind, Job.run_act, hrun]
    refine ⟨?_, ⟨rfl, trivial⟩, hfree⟩
    rw [noteCalls, noteCalls, noteCalls, List.append_assoc]
    rfl

end Workspace

namespace Processor

open Workspace (onFiles reportJob callsJob)

variable {p : Processor} {w : Workspace} {u : ClassUnit}

theorem run_settleJob (u : ClassUnit) (step : Except StateError ClassUnit) (w : Workspace) :
    (settleJob u step).run w =
        ((settle w u step).workspace, (settle w u step).unit, (settle w u step).report) ∧
      (settleJob u step).Unhindered w := by
  rcases step with e | v
  · exact ⟨rfl, ⟨rfl, trivial⟩⟩
  · exact ⟨rfl, trivial⟩

theorem run_writeBackJob (p : Processor) (u : ClassUnit) (w : Workspace) :
    (p.writeBackJob u).run w = ((p.writeBack w u).workspace, (p.writeBack w u).report) ∧
      (p.writeBack w u).unit = u ∧ (p.writeBackJob u).Unhindered w := by
  obtain ⟨hrun, hfree⟩ := u.run_commitJob w.files
  simp only [writeBackJob, writeBack, Job.run_bind, Job.unhindered_bind, Workspace.run_onFiles,
    Workspace.unhindered_onFiles, hrun, hfree, true_and]
  rcases u.commit w.files with ⟨files, e | _ | receipt⟩
  · exact ⟨rfl, rfl, rfl, trivial⟩
  · exact ⟨rfl, rfl, trivial⟩
  · exact ⟨rfl, rfl, rfl, trivial⟩

theorem run_enhanceJob (p : Processor) (u : ClassUnit) (w : Workspace) :
    (p.enhanceJob u).run w =
        ((p.enhance w u).workspace, (p.enhance w u).unit, (p.enhance w u).report) ∧
      (p.enhanceJob u).Unhindered w := by
  obtain ⟨hrun, hfree⟩ := Workspace.run_callsJob (p.chain.apply u).calls w
  simp only [enhanceJob, enhance, Job.run_bind, Job.unhindered_bind, hrun, hfree, true_and]
  rcases (p.chain.apply u).error with _ | e
  · obtain ⟨hsettle, hfree⟩ := run_settleJob (p.chain.apply u).unit
      ((p.chain.apply u).unit.advance .enhanced) (w.noteCalls (p.chain.apply u).calls)
    simp only [Job.run_bind, Job.unhindered_bind, hsettle, hfree, true_and]
    obtain ⟨hback, hunit, hfree⟩ := p.run_writeBackJob
      (settle (w.noteCalls (p.chain.apply u).calls) (p.chain.apply u).unit
        ((p.chain.apply u).unit.advance .enhanced)).unit
      (settle (w.noteCalls (p.chain.apply u).calls) (p.chain.apply u).unit
        ((p.chain.apply u).unit.advance .enhanced)).workspace
    simp only [hback, hfree, hunit, Job.run_pure, Job.unhindered_pure, and_self]
  · obtain ⟨hsettle, hfree⟩ := run_settleJob (p.chain.apply u).unit
      ((p.chain.apply u).unit.fail e.message)
      ((w.noteCalls (p.chain.apply u).calls).report [.enhancementFailed e])
    simp only [Job.run_bind, Job.unhindered_bind, Workspace.run_reportJob,
      Workspace.unhindered_reportJob, hsettle, hfree, Job.run_pure, Job.unhindered_pure, and_self]

/-- **The steps of a unit, with nothing in between, are its processing.** -/
theorem run_job (p : Processor) (u : ClassUnit) (w : Workspace) :
    (p.job u).run w = ((p.process w u).workspace, (p.process w u).unit, (p.process w u).report) ∧
      (p.job u).Unhindered w := by
  unfold job process
  split
  · exact ⟨rfl, trivial⟩
  rw [Job.run_bind, Job.unhindered_bind, Job.run_look]
  unfold verdictJob
  rcases p.filter.classify w.files u with cause | ⟨verdict, events⟩
  · obtain ⟨hsettle, hfree⟩ := run_settleJob u
      (u.fail ("malformed class file: " ++ cause.message))
      (w.report [.classMalformed u.name cause])
    exact ⟨hsettle, ⟨rfl, trivial⟩, rfl, hfree⟩
  simp only [Job.run_bind, Job.unhindered_bind, Workspace.run_reportJob,
    Workspace.unhindered_reportJob, true_and]
  rcases verdict.skipReason? with _ | reason
  · rcases u.advance .inProgress with e | v
    · exact ⟨rfl, ⟨rfl, trivial⟩, rfl, trivial⟩
    · obtain ⟨hrun, hfree⟩ := p.run_enhanceJob v (w.report events)
      exact ⟨hrun, ⟨rfl, trivial⟩, hfree⟩
  · obtain ⟨hsettle, hfree⟩ := run_settleJob u (u.skip reason) (w.report events)
    exact ⟨hsettle, ⟨rfl, trivial⟩, hfree⟩

end Processor

/-! ## What is promised -/

section Promised

variable {t : FileTree} {w : Workspace} {R G : FileTree → FileTree → Prop} {K : FileTree → Prop}
  (hR : Job.Composes R) (hG : Job.Composes G)

namespace Workspace

include hR hG

/-- A step beside the files leaves them to the others. -/
theorem promises_beside {f : Workspace → Workspace} (hf : ∀ w, (f w).files = w.files)
    (hw : R t w.files) :
    (Job.act f).Promises (InvImage R files) (InvImage G files) (fun _ w' => R t w'.files) w := by
  refine Job.promises_once fun s hs => ⟨?_, fun s' hs' => ?_⟩
  · show G s.files (f s).files
    rw [hf]
    exact hG.refl _
  · have hlater : R (f s).files s'.files := hs'
    rw [hf] at hlater
    exact hR.trans hw (hR.trans hs hlater)

theorem promises_reportJob (events : List Event) (hw : R t w.files) :
    (reportJob events).Promises (InvImage R files) (InvImage G files) (fun _ w' => R t w'.files) w :=
  promises_beside (f := fun w => w.report events) hR hG (fun _ => rfl) hw

theorem promises_callsJob (calls : List PassCall) (hw : R t w.files) :
    (callsJob calls).Promises (InvImage R files) (InvImage G files) (fun _ w' => R t w'.files) w := by
  induction calls generalizing w with
  | nil => exact Job.promises_pure fun w' hw' => hR.trans hw hw'
  | cons call calls ih =>
    exact (promises_beside (f := fun w => w.noteCalls [call]) hR hG (fun _ => rfl) hw).bind
      (hR.onto files) fun _ w' hw' => ih hw'

end Workspace

namespace Processor

open Workspace (reportJob callsJob promises_beside promises_reportJob promises_callsJob)

variable {p : Processor} {u : ClassUnit} {out : Bytes} {outcome : Except Fault Unit}

/-- The report of an enhanced unit that was written, or not. -/
def written (u : ClassUnit) (out : Bytes) : Except Fault Unit → UnitReport
  | .error fault => { UnitReport.settled u with
      persistenceError := some ⟨u.name, u.location.output, fault⟩ }
  | .ok () => { UnitReport.settled u with
      committed := some ⟨u.location.output, out.length, Bytes.sha256Hex out⟩ }

include hR hG

/-- **An enhanced unit is written back** as its output is written. -/
theorem promises_writeBackJob (hstate : u.state = .enhanced) (henhanced : u.enhanced = some out)
    (hout : out ≠ []) (hK : ∀ t t', R t t' → K t → K t')
    (hwrite : (FileTree.writeJob u.location.output out).Promises R G
      (fun made t' => made = outcome ∧ K t') w.files) :
    (p.writeBackJob u).Promises (InvImage R Workspace.files) (InvImage G Workspace.files)
      (fun report w' => report = written u out outcome ∧ K w'.files) w := by
  have houtput : u.output? = some out := by
    rw [ClassUnit.output?, if_pos hstate, henhanced, Option.filter_some]
    simp [hout]
  have hcommit : u.commitJob.Promises R G (fun result t' => result =
      (outcome.mapError fun fault => ⟨u.name, u.location.output, fault⟩).map (fun _ =>
        some ⟨u.location.output, out.length, Bytes.sha256Hex out⟩) ∧ K t') w.files := by
    rw [ClassUnit.commitJob, houtput]
    refine hwrite.bind hR ?_
    rintro made t ⟨rfl, hkept⟩
    rcases made with fault | ⟨⟩ <;>
      exact Job.promises_pure fun t' ht' => ⟨rfl, hK t t' ht' hkept⟩
  rw [writeBackJob]
  refine (hcommit.within Workspace.isPart_files (fun _ _ h => h) (fun _ _ h => h)).bind
    (hR.onto _) ?_
  rintro _ w' ⟨rfl, hkept⟩
  rcases outcome with fault | ⟨⟩
  · refine (promises_reportJob hR hG _ (hR.refl _)).bind (hR.onto _) fun _ w₁ hw₁ => ?_
    exact Job.promises_pure fun w₂ hw₂ => ⟨rfl, hK _ _ (hR.trans hw₁ hw₂) hkept⟩
  · refine (promises_beside hR hG (fun w => p.record_files w u _) (hR.refl _)).bind (hR.onto _)
      fun _ w₁ hw₁ => ?_
    exact Job.promises_pure fun w₂ hw₂ => ⟨rfl, hK _ _ (hR.trans hw₁ hw₂) hkept⟩

omit hR hG

/-- A unit that its chain fails on fails. -/
theorem enhanceJob_failed {e : ChainError} (h : (p.chain.apply (started u)).error = some e) :
    ∃ enhanced, p.enhanceJob (started u) = (do
      callsJob (p.chain.apply (started u)).calls
      reportJob [.enhancementFailed e]
      return ({ u with state := .failed, enhanced := enhanced, failure := some e.message },
        { UnitReport.settled
            { u with state := .failed, enhanced := enhanced, failure := some e.message } with
          enhancer := some e.enhancer })) := by
  obtain ⟨enhanced, hunit⟩ := Chain.apply_unit p.chain (started u)
  refine ⟨enhanced, ?_⟩
  simp only [enhanceJob, h, hunit]
  rfl

/-- A unit that its chain does not fail on is written back. -/
theorem enhanceJob_ok (h : (p.chain.apply (started u)).error = none)
    (hunit : (p.chain.apply (started u)).unit = (started u).install out) :
    p.enhanceJob (started u) = (do
      callsJob (p.chain.apply (started u)).calls
      return ({ u with state := .enhanced, enhanced := some out },
        ← p.writeBackJob { u with state := .enhanced, enhanced := some out })) := by
  simp only [enhanceJob, h, hunit]
  rfl

include hR hG

omit hG in
/-- A unit that is settled and not written leaves what was promised of the
files to the others. -/
theorem promises_settled {done : ClassUnit × UnitReport} {report : UnitReport} (hw : R t w.files)
    (hK : ∀ t t', R t t' → K t → K t') (hkept : K t) (hdone : done.2 = report) :
    (pure done : Job Workspace _).Promises (InvImage R Workspace.files) (InvImage G Workspace.files)
      (fun done w' => done.2 = report ∧ K w'.files) w :=
  Job.promises_pure fun _ hw' => ⟨hdone, hK _ _ (hR.trans hw hw') hkept⟩

/-- **A unit that is given to the chain meets its fate**, if what it is
enhanced to is written as by itself. -/
theorem promises_enhanceJob (p : Processor) (events : List Event)
    (hclean : u.skipReason = none ∧ u.failure = none) (hw : R t w.files)
    (hK : ∀ t t', R t t' → K t → K t')
    (hrest : (∀ out, p.fateOn u (.ok (.proceed, events)) ≠ .enhanced out) → K t)
    (hwrite : ∀ out, p.fateOn u (.ok (.proceed, events)) = .enhanced out → ∀ t', R t t' →
      (FileTree.writeJob u.location.output out).Promises R G
        (fun made t'' => made = (t.writeWhole u.location.output out).2 ∧ K t'') t') :
    (p.enhanceJob (started u)).Promises (InvImage R Workspace.files) (InvImage G Workspace.files)
      (fun done w' => done.2 = (p.fateOn u (.ok (.proceed, events))).report t u.location.output u.name ∧
        K w'.files) w := by
  obtain ⟨hreasonless, hfaultless⟩ := hclean
  rcases herror : (p.chain.apply (started u)).error with _ | e
  · obtain ⟨out, hstamp, hunit, hfate⟩ := fateOn_ok events herror
    rw [enhanceJob_ok herror hunit]
    refine (promises_callsJob hR hG _ hw).bind (hR.onto _) fun _ w₁ hw₁ => ?_
    refine (promises_writeBackJob hR hG (u := { u with state := .enhanced, enhanced := some out }) rfl rfl
      (ClassFile.stamp_ne_nil hstamp) hK (hwrite out hfate _ hw₁)).bind (hR.onto _) ?_
    rintro _ w₂ ⟨rfl, hkept⟩
    refine Job.promises_pure fun w₃ hw₃ => ⟨?_, hK _ _ hw₃ hkept⟩
    rw [hfate]
    simp only [Fate.report]
    rcases (t.writeWhole u.location.output out).2 with fault | ⟨⟩ <;>
      simp only [written, UnitReport.settled, Fate.settled, hreasonless, hfaultless]
  · obtain ⟨enhanced, hjob⟩ := enhanceJob_failed herror
    have hfate : p.fateOn u (.ok (.proceed, events)) = _ := fateOn_error herror
    rw [hfate] at hrest ⊢
    rw [hjob]
    refine (promises_callsJob hR hG _ hw).bind (hR.onto _) fun _ w₁ hw₁ => ?_
    refine (promises_reportJob hR hG _ hw₁).bind (hR.onto _) fun _ w₂ hw₂ =>
      promises_settled hR hw₂ hK (hrest (by rintro out ⟨⟩)) ?_
    simp only [UnitReport.settled, Fate.report, Fate.settled, hreasonless]

/-- **A unit that nothing was done with meets its fate** on the verdict on it,
whatever others do in between, if what it is enhanced to is written as by
itself. -/
theorem promises_verdictJob (p : Processor) (hstate : u.state = .unprocessed)
    (hclean : u.skipReason = none ∧ u.failure = none)
    (v : Except ClassFile.FormatError (Verdict × List Event)) (hw : R t w.files)
    (hK : ∀ t t', R t t' → K t → K t') (hrest : (∀ out, p.fateOn u v ≠ .enhanced out) → K t)
    (hwrite : ∀ out, p.fateOn u v = .enhanced out → ∀ t', R t t' →
      (FileTree.writeJob u.location.output out).Promises R G
        (fun made t'' => made = (t.writeWhole u.location.output out).2 ∧ K t'') t') :
    (p.verdictJob u v).Promises (InvImage R Workspace.files) (InvImage G Workspace.files)
      (fun done w' => done.2 = (p.fateOn u v).report t u.location.output u.name ∧ K w'.files) w := by
  rcases v with cause | ⟨verdict, events⟩
  · have hfail : u.fail ("malformed class file: " ++ cause.message) = .ok
        { u with state := .failed, failure := some ("malformed class file: " ++ cause.message) } := by
      simp only [ClassUnit.fail, if_pos hstate, advance_inProgress hstate]
      rfl
    rw [verdictJob, hfail]
    refine (promises_reportJob hR hG _ hw).bind (hR.onto _) fun _ w₁ hw₁ =>
      promises_settled hR hw₁ hK (hrest (by rintro out ⟨⟩)) ?_
    simp only [UnitReport.settled, fateOn, Fate.report, Fate.settled, hclean.1]
  rw [verdictJob]
  refine (promises_reportJob hR hG _ hw).bind (hR.onto _) fun _ w₁ hw₁ => ?_
  rcases hreason : verdict.skipReason? with _ | reason
  · obtain rfl := Verdict.skipReason?_eq_none.1 hreason
    simp only [advance_inProgress hstate]
    exact promises_enhanceJob hR hG p events hclean hw₁ hK hrest hwrite
  · have hskip : u.skip reason = .ok { u with state := .skipped, skipReason := some reason } := by
      rw [ClassUnit.skip, ClassUnit.advance, hstate]
      rfl
    obtain ⟨hfate, -⟩ := p.fateOn_skip u events hreason
    rw [hfate] at hrest ⊢
    simp only [hskip]
    refine promises_settled hR hw₁ hK (hrest (by rintro out ⟨⟩)) ?_
    simp only [UnitReport.settled, Fate.report, Fate.settled, hclean.2]

/-- So it is from the start, if they leave the verdict as it is. -/
theorem promises_job (p : Processor) (hstate : u.state = .unprocessed)
    (hclean : u.skipReason = none ∧ u.failure = none)
    {v : Except ClassFile.FormatError (Verdict × List Event)}
    (hverdict : ∀ t, R w.files t → p.filter.classify t u = v)
    (hK : ∀ t t', R t t' → K t → K t')
    (hrest : (∀ out, p.fateOn u v ≠ .enhanced out) → K w.files)
    (hwrite : ∀ out, p.fateOn u v = .enhanced out → ∀ t, R w.files t →
      (FileTree.writeJob u.location.output out).Promises R G
        (fun made t' => made = (w.files.writeWhole u.location.output out).2 ∧ K t') t) :
    (p.job u).Promises (InvImage R Workspace.files) (InvImage G Workspace.files)
      (fun done w' => done.2 = (p.fateOn u v).report w.files u.location.output u.name ∧
        K w'.files) w := by
  rw [job, if_neg (by rw [hstate]; decide)]
  have hlook : (Job.look fun w => p.filter.classify w.files u).Promises
      (InvImage R Workspace.files) (InvImage G Workspace.files)
      (fun seen w' => seen = v ∧ InvImage R Workspace.files w w') w :=
    Job.promises_look (hG.onto _) (fun s hs => ⟨hverdict _ hs, hs⟩)
      fun _ s s' hs hs' => ⟨hs.1, (hR.onto _).trans hs.2 hs'⟩
  refine hlook.bind (hR.onto _) ?_
  rintro _ w₁ ⟨rfl, hw₁⟩
  exact promises_verdictJob hR hG p hstate hclean _ hw₁ hK hrest hwrite

end Processor

end Promised

end ClassWeave
