import ClassWeave.Proofs.Enhancer.Calls
import ClassWeave.Proofs.Marker
import ClassWeave.Proofs.Processor
/-!
# Processor -- the fate of a unit

What becomes of a unit is settled by the verdict on it and by what the
chain makes of it: `fateOn` is that decision and `callsOn` are the calls it
costs. A processor carries out no more and no less (`process_meets`). A
unit that is written in place is decided by its name and its octets alone,
since there is no copy to compare with; its fate is `fateOf`. What was
enhanced with complete pools carries the marker (`marked_of_fateOn`), so
that its own fate is to be skipped, without a call (`fateOf_enhanced`).
-/


namespace ClassWeave

/-- Octets that, if they are a class file, have a complete pool. -/
def ClassFile.PoolComplete (bytes : Bytes) : Prop :=
  ∀ l, ClassFile.Layout.read bytes = .ok l → l.IsComplete

/-- Octets that, if they are a class file, carry no marker. -/
def ClassFile.Unmarked (bytes : Bytes) : Prop :=
  ∀ c, ClassFile.parse bytes = .ok c → c.isMarked = false

instance ClassFile.decidablePoolComplete (bytes : Bytes) : Decidable (PoolComplete bytes) :=
  decidable_of_iff (∀ l ∈ (Layout.read bytes).toOption, l.IsComplete) <| by
    rcases hread : Layout.read bytes with e | l <;> simp [PoolComplete, hread, Except.toOption]

/-- What becomes of a unit. -/
inductive Fate where
  | skipped (reason : SkipReason)
  | failed (message : String) (enhancer : Option EnhancerId)
  | enhanced (out : Bytes)

namespace Fate

/-- The report of a unit that met its fate before. -/
def settled (name : String) : Fate → UnitReport
  | .skipped reason => ⟨name, .skipped, some reason, none, none, none, none⟩
  | .failed message _ => ⟨name, .failed, none, some message, none, none, none⟩
  | .enhanced _ => ⟨name, .enhanced, none, none, none, none, none⟩

/-- The files after a fate: only what is enhanced is written. -/
def filesAfter (t : FileTree) (path : Path) : Fate → FileTree
  | .enhanced out => (t.writeWhole path out).1
  | _ => t

/-- The report of a unit that meets its fate: it names the pass that
failed, and says how the writing went. -/
def report (t : FileTree) (path : Path) (name : String) : Fate → UnitReport
  | .skipped reason => settled name (.skipped reason)
  | .failed message enhancer => { settled name (.failed message enhancer) with enhancer := enhancer }
  | .enhanced out =>
    match (t.writeWhole path out).2 with
    | .error fault => { settled name (.enhanced out) with
        persistenceError := some ⟨name, path, fault⟩ }
    | .ok () => { settled name (.enhanced out) with
        committed := some ⟨path, out.length, Bytes.sha256Hex out⟩ }

/-- What stands at an output after a fate, if that stood there before which
is told. -/
def outputAfter (old : Bytes) : Fate → Bytes
  | .enhanced out => out
  | _ => old

variable {f : Fate} {t : FileTree} {path : Path} {name : String}

@[simp] theorem committed_settled : (f.settled name).committed = none := by
  cases f <;> rfl

@[simp] theorem unit_settled : (f.settled name).unit = name := by
  cases f <;> rfl

@[simp] theorem unit_report : (f.report t path name).unit = name := by
  cases f with
  | skipped reason => rfl
  | failed message enhancer => rfl
  | enhanced out =>
    simp only [report]
    split <;> rfl

/-- How the writing went is no part of the state that is reported. -/
theorem state_report : (f.report t path name).state = (f.settled name).state := by
  cases f with
  | skipped reason => rfl
  | failed message enhancer => rfl
  | enhanced out =>
    simp only [report]
    split <;> rfl

/-- What stands at an output is what was enhanced, or nothing is done. -/
theorem outputAfter_cases (f : Fate) (old : Bytes) :
    (∃ out, f = .enhanced out ∧ f.outputAfter old = out) ∨
      (f.outputAfter old = old ∧ ∀ t path, f.filesAfter t path = t) := by
  rcases f with reason | ⟨message, enhancer⟩ | out
  · exact .inr ⟨rfl, fun _ _ => rfl⟩
  · exact .inr ⟨rfl, fun _ _ => rfl⟩
  · exact .inl ⟨out, rfl, rfl⟩

/-- Only what was enhanced is written back. -/
theorem of_committed {receipt : CommitReceipt}
    (h : (f.report t path name).committed = some receipt) :
    ∃ out, f = .enhanced out ∧ (t.writeWhole path out).2 = .ok () := by
  rcases f with reason | ⟨message, enhancer⟩ | out
  · cases h
  · cases h
  · simp only [report] at h
    split at h
    · rw [committed_settled] at h
      cases h
    · next hwrite => exact ⟨out, rfl, hwrite⟩

theorem state_report_enhanced (out : Bytes) :
    ((enhanced out).report t path name).state = .enhanced := state_report

end Fate

theorem Verdict.skipReason?_eq_none {verdict : Verdict} :
    verdict.skipReason? = none ↔ verdict = .proceed := by
  cases verdict <;> simp [Verdict.skipReason?]

namespace Processor

variable {p : Processor} {u : ClassUnit} {out : Bytes}

/-! ## The decision -/

/-- **What becomes of a unit** on a verdict. -/
def fateOn (p : Processor) (u : ClassUnit) :
    Except ClassFile.FormatError (Verdict × List Event) → Fate
  | .error cause => .failed ("malformed class file: " ++ cause.message) none
  | .ok (verdict, _) =>
    match verdict.skipReason? with
    | some reason => .skipped reason
    | none =>
      let outcome := p.chain.apply (started u)
      match outcome.error with
      | some e => .failed e.message (some e.enhancer)
      | none => .enhanced outcome.unit.current

/-- The calls that it takes. -/
def callsOn (p : Processor) (u : ClassUnit) :
    Except ClassFile.FormatError (Verdict × List Event) → List PassCall
  | .ok (.proceed, _) => (p.chain.apply (started u)).calls
  | _ => []

/-- The calls are those of the passes, whatever comes of the marker. -/
theorem callsOn_eq (p : Processor) (u : ClassUnit)
    (v : Except ClassFile.FormatError (Verdict × List Event)) :
    p.callsOn u v = match v with
      | .ok (.proceed, _) => (Chain.applyFrom 0 (started u) [] p.chain).calls
      | _ => [] := by
  rw [callsOn.eq_def]
  split
  · rw [Chain.calls_apply]
  · rfl

theorem callsOn_of_nil (h : p.chain = [])
    (v : Except ClassFile.FormatError (Verdict × List Event)) : p.callsOn u v = [] := by
  rw [callsOn_eq, h]
  split
  · rw [Chain.applyFrom]
  · rfl

/-- The verdict on a unit without a copy, for which the files do not
matter. -/
@[irreducible]
def verdictOn (p : Processor) (u : ClassUnit) :
    Except ClassFile.FormatError (Verdict × List Event) :=
  p.filter.classify ⟨[], []⟩ u

/-- What becomes of a unit by itself. -/
def fateOf (p : Processor) (u : ClassUnit) : Fate := p.fateOn u (p.verdictOn u)

/-- The calls that it takes. -/
def callsOf (p : Processor) (u : ClassUnit) : List PassCall := p.callsOn u (p.verdictOn u)

variable {v : Except ClassFile.FormatError (Verdict × List Event)} {verdict : Verdict}
  {events : List Event}

theorem unit_of_mem_callsOn {call : PassCall} (h : call ∈ p.callsOn u v) : call.unit = u.name := by
  unfold callsOn at h
  split at h
  · have hunit : call.unit = (started u).name := Chain.unit_of_mem_calls h
    exact hunit
  · cases h

/-- A unit that is to be skipped takes no calls. -/
theorem fateOn_skip (p : Processor) (u : ClassUnit) (events : List Event) {reason : SkipReason}
    (hreason : verdict.skipReason? = some reason) :
    p.fateOn u (.ok (verdict, events)) = .skipped reason ∧
      p.callsOn u (.ok (verdict, events)) = [] := by
  refine ⟨by simp only [fateOn, hreason], ?_⟩
  unfold callsOn
  split
  · next hproceed =>
    obtain ⟨rfl, -⟩ := Prod.mk.inj (Except.ok.inj hproceed)
    cases hreason
  · rfl

/-- A unit fails on a chain that fails on it. -/
theorem fateOn_error {e : ChainError} (herror : (p.chain.apply (started u)).error = some e) :
    p.fateOn u (.ok (.proceed, events)) = .failed e.message (some e.enhancer) := by
  simp only [fateOn, Verdict.skipReason?, herror]

/-- A unit is enhanced to the stamp on what the passes left of it, by a
chain that does not fail on it. -/
theorem fateOn_ok (events : List Event) (herror : (p.chain.apply (started u)).error = none) :
    ∃ out, ClassFile.stamp (p.chain.unstamped (started u)) (p.chain.record (started u)) = .ok out ∧
      (p.chain.apply (started u)).unit = (started u).install out ∧
      p.fateOn u (.ok (.proceed, events)) = .enhanced out := by
  obtain ⟨out, hstamp, hunit⟩ := Chain.apply_ok herror
  refine ⟨out, hstamp, hunit, ?_⟩
  simp only [fateOn, Verdict.skipReason?, herror, hunit]
  rfl

/-- The reason to skip that a verdict gives is the one that is reported. -/
theorem skipReason_fateOn (p : Processor) (u : ClassUnit) (name : String) :
    ((p.fateOn u v).settled name).skipReason =
      match v with
      | .error _ => none
      | .ok (verdict, _) => verdict.skipReason? := by
  rcases v with cause | ⟨verdict, events⟩
  · rfl
  rcases hreason : verdict.skipReason? with _ | reason
  · obtain rfl := Verdict.skipReason?_eq_none.1 hreason
    rcases herror : (p.chain.apply (started u)).error with _ | e
    · obtain ⟨out, -, -, hfate⟩ := fateOn_ok events herror
      rw [hfate]
      rfl
    · rw [fateOn_error herror]
      rfl
  · rw [(p.fateOn_skip u events hreason).1]
    exact hreason.symm

/-! ## Carried out -/

/-- **A unit that met its fate**: it is in a final state with the fate's
reason or failure, its octets are the compiled ones unless it was enhanced,
the files are those after the fate, and its report says how that went. -/
structure Meets (w : Workspace) (u : ClassUnit) (f : Fate) (calls : List PassCall)
    (done : Processed) : Prop where
  final : done.unit.state.isFinal = true
  settled : UnitReport.settled done.unit = f.settled u.name
  kept : done.unit.name = u.name ∧ done.unit.location = u.location ∧
    done.unit.compiled = u.compiled
  skipped : ∀ reason, f = .skipped reason → done.unit.current = u.compiled
  enhanced : ∀ out, f = .enhanced out → done.unit.current = out
  files : done.workspace.files = f.filesAfter w.files u.location.output
  calls : done.workspace.calls = w.calls ++ calls
  report : done.report = f.report w.files u.location.output u.name

/-- **A processor carries out the fate of a unit** that nothing was done
with, on the verdict that its filter gives. -/
theorem process_meets (p : Processor) (w : Workspace) (name : String) (location : UnitLocation)
    (bytes : Bytes) :
    Meets w (.fresh name location bytes)
      (p.fateOn (.fresh name location bytes)
        (p.filter.classify w.files (.fresh name location bytes)))
      (p.callsOn (.fresh name location bytes)
        (p.filter.classify w.files (.fresh name location bytes)))
      (p.process w (.fresh name location bytes)) := by
  obtain ⟨u, hu⟩ : ∃ u, ClassUnit.fresh name location bytes = u := ⟨_, rfl⟩
  have hstate : u.state = .unprocessed := by rw [← hu]; rfl
  have hbare : u.current = u.compiled := by rw [← hu]; rfl
  have hclean : u.skipReason = none ∧ u.failure = none := by rw [← hu]; exact ⟨rfl, rfl⟩
  obtain ⟨hreasonless, hfaultless⟩ := hclean
  rw [hu]
  -- one case for each way that a unit ends, and the equation for it
  rcases hv : p.filter.classify w.files u with cause | ⟨verdict, events⟩
  · rw [process_malformed hstate hv]
    exact
      { final := rfl
        settled := by simp only [UnitReport.settled, rest, fateOn, Fate.settled, hreasonless]
        kept := ⟨rfl, rfl, rfl⟩
        skipped := fun _ h => by cases h
        enhanced := fun _ h => by cases h
        files := rfl
        calls := (List.append_nil _).symm
        report := by simp only [UnitReport.settled, rest, fateOn, Fate.report, Fate.settled, hreasonless] }
  rcases hreason : verdict.skipReason? with _ | reason
  · obtain rfl := Verdict.skipReason?_eq_none.1 hreason
    rw [process_proceed hstate hv]
    rcases herror : (p.chain.apply (started u)).error with _ | e
    · obtain ⟨out, hstamp, hunit, hfate⟩ := fateOn_ok events herror
      obtain ⟨hkept, hcalled, hfiles, hreport⟩ := writeBack_enhanced (p := p)
        (w := (w.report events).noteCalls (p.chain.apply (started u)).calls)
        (u := { u with state := .enhanced, enhanced := some out }) rfl rfl
        (ClassFile.stamp_ne_nil hstamp)
      rw [enhance_ok herror hunit, hfate]
      exact
        { final := by rw [hkept]; rfl
          settled := by
            rw [hkept]
            simp only [UnitReport.settled, Fate.settled, hreasonless, hfaultless]
          kept := by rw [hkept]; exact ⟨rfl, rfl, rfl⟩
          skipped := fun _ h => by cases h
          enhanced := fun out' h => by rw [hkept, ← Fate.enhanced.inj h]; rfl
          files := hfiles
          calls := hcalled
          report := by
            rw [hreport]
            simp only [UnitReport.settled, Fate.settled, Fate.report, hreasonless, hfaultless]
            rfl }
    · obtain ⟨enhanced, hprocess⟩ := enhance_failed (w := w.report events) herror
      rw [hprocess, fateOn_error herror]
      exact
        { final := rfl
          settled := by simp only [UnitReport.settled, Fate.settled, hreasonless]
          kept := ⟨rfl, rfl, rfl⟩
          skipped := fun _ h => by cases h
          enhanced := fun _ h => by cases h
          files := rfl
          calls := rfl
          report := by simp only [UnitReport.settled, Fate.report, Fate.settled, hreasonless] }
  · obtain ⟨hfate, hcalls⟩ := p.fateOn_skip u events hreason
    rw [process_skipped hstate hv hreason, hfate, hcalls]
    exact
      { final := rfl
        settled := by simp only [UnitReport.settled, rest, Fate.settled, hfaultless]
        kept := ⟨rfl, rfl, rfl⟩
        skipped := fun _ _ => hbare
        enhanced := fun _ h => by cases h
        files := rfl
        calls := (List.append_nil _).symm
        report := by simp only [UnitReport.settled, rest, Fate.report, Fate.settled, hfaultless] }

/-- What a unit comes to that nothing was done with, even if octets are
installed already: its state, and the files. -/
theorem process_fate {f : Fate} (hstate : u.state = .unprocessed)
    (hfate : p.fateOn u (p.filter.classify w.files u) = f) :
    (p.process w u).unit.state = (f.settled u.name).state ∧
      (p.process w u).report.state = (f.settled u.name).state ∧
      (p.process w u).workspace.files = f.filesAfter w.files u.location.output ∧
      (∀ reason, f = .skipped reason →
        (p.process w u).unit = { u with state := .skipped, skipReason := some reason }) ∧
      ∀ out, f = .enhanced out →
        (p.process w u).unit = { u with state := .enhanced, enhanced := some out } := by
  rcases hv : p.filter.classify w.files u with cause | ⟨verdict, events⟩
  · rw [hv] at hfate
    subst hfate
    rw [process_malformed hstate hv]
    exact ⟨rfl, rfl, rfl, nofun, nofun⟩
  rw [hv] at hfate
  rcases hreason : verdict.skipReason? with _ | reason
  · obtain rfl := Verdict.skipReason?_eq_none.1 hreason
    rw [process_proceed hstate hv]
    rcases herror : (p.chain.apply (started u)).error with _ | e
    · obtain ⟨out, hstamp, hunit, hout⟩ := fateOn_ok events herror
      obtain rfl := hout.symm.trans hfate
      obtain ⟨hkept, -, hfiles, hreport⟩ := writeBack_enhanced (p := p)
        (w := (w.report events).noteCalls (p.chain.apply (started u)).calls)
        (u := { u with state := .enhanced, enhanced := some out }) rfl rfl
        (ClassFile.stamp_ne_nil hstamp)
      rw [enhance_ok herror hunit, hkept, hreport, hfiles]
      refine ⟨rfl, ?_, rfl, nofun, fun out' h => ?_⟩
      · split <;> rfl
      · rw [Fate.enhanced.inj h]
    · rw [fateOn_error herror] at hfate
      subst hfate
      obtain ⟨enhanced, hfailed⟩ := enhance_failed (w := w.report events) herror
      rw [hfailed]
      exact ⟨rfl, rfl, rfl, nofun, nofun⟩
  · rw [(p.fateOn_skip u events hreason).1] at hfate
    subst hfate
    rw [process_skipped hstate hv hreason]
    refine ⟨rfl, rfl, rfl, fun reason' h => ?_, nofun⟩
    rw [← Fate.skipped.inj h]
    rfl

/-- **What becomes of a unit itself** is a matter of the verdict on it, and
of nothing else in a workspace. -/
theorem unit_process_congr {w w' : Workspace}
    (h : p.filter.classify w'.files u = p.filter.classify w.files u) :
    (p.process w' u).unit = (p.process w u).unit := by
  have hsettle : ∀ (w w' : Workspace) (u : ClassUnit) (step : Except StateError ClassUnit),
      (settle w' u step).unit = (settle w u step).unit := by
    rintro w w' u (e | v) <;> rfl
  have hwriteBack : ∀ (w : Workspace) (u : ClassUnit), (p.writeBack w u).unit = u := by
    intro w u
    unfold writeBack
    split <;> rfl
  unfold process
  rw [h]
  split
  · rfl
  split
  · exact hsettle ..
  split
  · exact hsettle ..
  split
  · rfl
  · simp only [enhance]
    split
    · exact hsettle ..
    · rw [hwriteBack, hwriteBack]
      exact hsettle ..

/-- A unit is skipped on no other verdict than one with that reason. -/
theorem fateOn_eq_skipped {reason : SkipReason} :
    p.fateOn u v = .skipped reason ↔
      ∃ verdict events, v = .ok (verdict, events) ∧ verdict.skipReason? = some reason := by
  constructor
  · intro hfate
    rcases v with cause | ⟨verdict, events⟩
    · cases hfate
    rcases hreason : verdict.skipReason? with _ | reason'
    · obtain rfl := Verdict.skipReason?_eq_none.1 hreason
      rcases herror : (p.chain.apply (started u)).error with _ | e
      · obtain ⟨out, -, -, hout⟩ := fateOn_ok events herror
        cases hout.symm.trans hfate
      · cases (fateOn_error herror).symm.trans hfate
    · rw [(p.fateOn_skip u events hreason).1] at hfate
      exact ⟨verdict, events, rfl, hreason.trans (congrArg some (Fate.skipped.inj hfate))⟩
  · rintro ⟨verdict, events, rfl, hreason⟩
    exact (p.fateOn_skip u events hreason).1

/-- No file has a say in the verdict on a unit that is written in place. -/
theorem classify_inPlace (t : FileTree) (h : u.location.isInPlace = true) :
    p.filter.classify t u = p.verdictOn u := by
  have hcopy : ∀ t : FileTree, EligibilityFilter.freshCopy? t u = none := fun t => by
    rw [EligibilityFilter.freshCopy?, if_pos h]
  simp only [verdictOn, EligibilityFilter.classify, hcopy]

/-- A unit that is written in place meets the fate that it has by itself. -/
theorem process_inPlace (p : Processor) (w : Workspace) (name : String) (path : Path)
    (bytes : Bytes) :
    Meets w (.fresh name (.inPlace path) bytes) (p.fateOf (.fresh name (.inPlace path) bytes))
      (p.callsOf (.fresh name (.inPlace path) bytes))
      (p.process w (.fresh name (.inPlace path) bytes)) := by
  have hverdict : p.filter.classify w.files (.fresh name (.inPlace path) bytes) =
      p.verdictOn (.fresh name (.inPlace path) bytes) := by
    refine classify_inPlace w.files ?_
    rw [UnitLocation.isInPlace, Path.same]
    exact beq_self_eq_true path.components
  have hmeets := p.process_meets w name (.inPlace path) bytes
  rw [hverdict] at hmeets
  exact hmeets

/-! ## Enhanced before -/

/-- A class with the marker is to be skipped. -/
theorem fateOf_marked {c : ClassFile} (hc : ClassFile.parse u.compiled = .ok c)
    (hmarked : c.isMarked = true) : (∃ reason, p.fateOf u = .skipped reason) ∧ p.callsOf u = [] := by
  obtain ⟨a, ha⟩ := Option.isSome_iff_exists.1 hmarked
  have hmarker : c.marker? = some (MarkerRecord.decode a.data) := by
    rw [ClassFile.marker?, ha, Option.map_some]
  have hverdict : ∃ verdict events reason, p.verdictOn u = .ok (verdict, events) ∧
      verdict.skipReason? = some reason := by
    simp only [verdictOn, EligibilityFilter.classify, hc, hmarker]
    split
    · exact ⟨_, _, _, rfl, rfl⟩
    · split <;> exact ⟨_, _, _, rfl, rfl⟩
  obtain ⟨verdict, events, reason, hv, hreason⟩ := hverdict
  obtain ⟨hfate, hcalls⟩ := p.fateOn_skip u events hreason
  rw [fateOf, callsOf, hv]
  exact ⟨⟨reason, hfate⟩, hcalls⟩

/-- A unit is enhanced on no other verdict than to proceed, by a chain that
does not fail on it. -/
theorem of_fateOn_enhanced (hfate : p.fateOn u v = .enhanced out) :
    ∃ events, v = .ok (.proceed, events) ∧ (p.chain.apply (started u)).error = none := by
  rcases v with cause | ⟨verdict, events⟩
  · cases hfate
  rcases hreason : verdict.skipReason? with _ | reason
  · obtain rfl := Verdict.skipReason?_eq_none.1 hreason
    refine ⟨events, rfl, ?_⟩
    rcases herror : (p.chain.apply (started u)).error with _ | e
    · rfl
    · rw [fateOn_error herror] at hfate
      cases hfate
  · rw [(p.fateOn_skip u events hreason).1] at hfate
    cases hfate

/-- What a unit is enhanced to is a stamp on what the passes left. -/
theorem stamp_of_fateOn (hfate : p.fateOn u v = .enhanced out) :
    ClassFile.stamp (p.chain.unstamped (started u)) (p.chain.record (started u)) = .ok out ∧
      p.callsOn u v = (p.chain.apply (started u)).calls := by
  obtain ⟨events, rfl, herror⟩ := of_fateOn_enhanced hfate
  obtain ⟨out', hstamp, -, hfate'⟩ := fateOn_ok events herror
  obtain rfl := Fate.enhanced.inj (hfate'.symm.trans hfate)
  exact ⟨hstamp, rfl⟩

/-- **What the passes leave for the marker** is the unit's own octets or
was produced on the way, so what holds of all those holds of it. -/
theorem unstamped_of_all {P : Bytes → Prop} (hfresh : u.enhanced = none) (hcompiled : P u.compiled)
    (hproduced : ∀ bytes, p.chain.Produced (p.chain.apply (started u)).calls bytes → P bytes) :
    P (p.chain.unstamped (started u)) := by
  rcases Chain.unstamped_cases p.chain (started u) with hsame | hmade
  · have hcurrent : (started u).current = u.compiled := by
      simp only [started, ClassUnit.current, hfresh, Option.getD_none]
    rwa [hsame, hcurrent]
  · exact hproduced _ hmade

/-- **What was enhanced carries the marker**, if the pools of the unit and
of all that was produced from it are complete. -/
theorem marked_of_fateOn (hfresh : u.enhanced = none) (hfate : p.fateOn u v = .enhanced out)
    (hcompiled : ClassFile.PoolComplete u.compiled)
    (hproduced : ∀ bytes, p.chain.Produced (p.callsOn u v) bytes → ClassFile.PoolComplete bytes) :
    ∃ c, ClassFile.parse out = .ok c ∧ c.isMarked = true := by
  obtain ⟨hstamp, hcalls⟩ := stamp_of_fateOn hfate
  rw [hcalls] at hproduced
  have hcomplete := unstamped_of_all hfresh hcompiled hproduced
  obtain ⟨l, l', hread, -, -⟩ := ClassFile.withAttribute_ok.1 hstamp
  exact (ClassFile.stamp_readable_iff hread hstamp).2 (.inl (hcomplete l hread))

/-- **What was enhanced says which octets it was made from**, if the unit and
all that was produced from it have complete pools and no marker. -/
theorem marker_of_fateOn (hfresh : u.enhanced = none) (hfate : p.fateOn u v = .enhanced out)
    (hcompiled : ClassFile.PoolComplete u.compiled ∧ ClassFile.Unmarked u.compiled)
    (hproduced : ∀ bytes, p.chain.Produced (p.callsOn u v) bytes →
      ClassFile.PoolComplete bytes ∧ ClassFile.Unmarked bytes) :
    ∃ c r, ClassFile.parse out = .ok c ∧ c.marker? = some r ∧
      r.sourceSha256 = some (Bytes.sha256Hex u.compiled) := by
  obtain ⟨hstamp, hcalls⟩ := stamp_of_fateOn hfate
  rw [hcalls] at hproduced
  obtain ⟨hcomplete, hunmarked⟩ := unstamped_of_all hfresh hcompiled hproduced
  obtain ⟨l, l', hread, -, -⟩ := ClassFile.withAttribute_ok.1 hstamp
  obtain ⟨c, hc, hmarker⟩ := ClassFile.marker?_stamp hread hstamp (hcomplete l hread)
    (hunmarked _ (ClassFile.parse_ok.2 ⟨l, hread, rfl⟩))
  exact ⟨c, _, hc, hmarker, MarkerRecord.sourceSha256_decode _ fun _ => Bytes.isBlank_toHex⟩

theorem fateOf_enhanced (hfresh : u.enhanced = none) (hfate : p.fateOf u = .enhanced out)
    (hcompiled : ClassFile.PoolComplete u.compiled)
    (hproduced : ∀ bytes, p.chain.Produced (p.callsOf u) bytes → ClassFile.PoolComplete bytes) :
    (∃ reason, p.fateOf { u with compiled := out } = .skipped reason) ∧
      p.callsOf { u with compiled := out } = [] := by
  obtain ⟨c, hc, hmarked⟩ := marked_of_fateOn hfresh hfate hcompiled hproduced
  exact fateOf_marked (u := { u with compiled := out }) hc hmarked

end Processor

end ClassWeave
