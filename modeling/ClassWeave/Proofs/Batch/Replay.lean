import ClassWeave.Batch
import ClassWeave.Proofs.Fate
/-!
# Batch -- a run in place as a replay of fates

A run that writes in place asks of each class file only whether its name
was met before. If not, the class file meets its fate; if so, the fate of
the first of that name is reported once more. `Batch.replay` says this
without units and without a cache, and `run_replay` that a run does just
that: the cache keeps the fate of each name that was met
(`Batch.Keeps`).
-/


namespace ClassWeave

namespace Batch

variable {p : Processor} {seen units : List ScannedUnit} {t : FileTree} {s s₀ : ScannedUnit}
  {cache : UnitCache} {name : String}

/-! ## The replay -/

/-- The unit that a class file stands for, met first and written in
place. -/
def firstUnit (s : ScannedUnit) : ClassUnit := .fresh s.qualifiedName (.inPlace s.path) s.bytes

theorem name_firstUnit (s : ScannedUnit) : (firstUnit s).name = s.qualifiedName := by
  simp only [firstUnit, ClassUnit.fresh]

theorem output_firstUnit (s : ScannedUnit) : (firstUnit s).location.output = s.path := by
  simp only [firstUnit, ClassUnit.fresh, UnitLocation.inPlace]

/-- The class file that was the first of a name. -/
def first? (seen : List ScannedUnit) (name : String) : Option ScannedUnit :=
  seen.find? fun s => s.qualifiedName == name

/-- What a replay comes to: the files, and what it added to the reports and
the calls. -/
structure Replay where
  files : FileTree
  reports : List UnitReport
  calls : List PassCall

/-- **The class files of a scan, one after another**, behind those that
were the first of their names so far. -/
def replay (p : Processor) (seen : List ScannedUnit) (t : FileTree) :
    List ScannedUnit → Replay
  | [] => ⟨t, [], []⟩
  | s :: units =>
    match first? seen s.qualifiedName with
    | some s₀ =>
      let rest := replay p seen t units
      { rest with reports := (p.fateOf (firstUnit s₀)).settled s.qualifiedName :: rest.reports }
    | none =>
      let fate := p.fateOf (firstUnit s)
      let rest := replay p (seen ++ [s]) (fate.filesAfter t s.path) units
      { files := rest.files
        reports := fate.report t s.path s.qualifiedName :: rest.reports
        calls := p.callsOf (firstUnit s) ++ rest.calls }

theorem replay_again (h : first? seen s.qualifiedName = some s₀) :
    replay p seen t (s :: units) = { replay p seen t units with
      reports := (p.fateOf (firstUnit s₀)).settled s.qualifiedName ::
        (replay p seen t units).reports } := by
  simp only [replay, h]

/-- A name met first. -/
theorem replay_first (h : first? seen s.qualifiedName = none) :
    replay p seen t (s :: units) =
      { files := (replay p (seen ++ [s])
          ((p.fateOf (firstUnit s)).filesAfter t s.path) units).files
        reports := (p.fateOf (firstUnit s)).report t s.path s.qualifiedName ::
          (replay p (seen ++ [s]) ((p.fateOf (firstUnit s)).filesAfter t s.path) units).reports
        calls := p.callsOf (firstUnit s) ++ (replay p (seen ++ [s])
          ((p.fateOf (firstUnit s)).filesAfter t s.path) units).calls } := by
  simp only [replay, h]

theorem of_first?_eq_some (h : first? seen name = some s₀) :
    s₀ ∈ seen ∧ s₀.qualifiedName = name := by
  have hname := List.find?_some (p := fun s : ScannedUnit => s.qualifiedName == name) h
  exact ⟨List.mem_of_find?_eq_some h, eq_of_beq hname⟩

theorem first?_eq_none : first? seen name = none ↔ ∀ s ∈ seen, s.qualifiedName ≠ name := by
  simp [first?]

/-- The first of a name stays so, whatever comes behind. -/
theorem first?_concat (hs : first? seen s.qualifiedName = none) :
    first? (seen ++ [s]) name =
      if name = s.qualifiedName then some s else first? seen name := by
  rw [first?, List.find?_append, ← first?]
  by_cases hname : name = s.qualifiedName
  · rw [if_pos hname, hname, hs, List.find?_singleton, beq_self_eq_true, if_pos rfl]
    rfl
  · have hother : (s.qualifiedName == name) = false := beq_eq_false_iff_ne.2 (Ne.symm hname)
    rw [if_neg hname, List.find?_singleton, hother, if_neg Bool.false_ne_true, Option.or_none]

theorem first?_again (hs : first? seen s.qualifiedName = some s₀) :
    first? (seen ++ [s]) name = first? seen name := by
  rw [first?, List.find?_append, ← first?, List.find?_singleton]
  by_cases hname : s.qualifiedName = name
  · rw [← hname, hs, Option.some_or]
  · rw [beq_eq_false_iff_ne.2 hname, if_neg Bool.false_ne_true, Option.or_none]

/-- What is not met behind one is of another name, and was not met before
it. -/
theorem first?_concat_eq_none :
    first? (seen ++ [s]) name = none ↔ name ≠ s.qualifiedName ∧ first? seen name = none := by
  rw [first?_eq_none, List.forall_mem_append, List.forall_mem_singleton, ← first?_eq_none,
    and_comm, ne_comm]

/-! ## A run does just that -/

/-- **A cache keeps the fates of the names met so far**: a final unit for
each of them, and none for the others. -/
structure Keeps (p : Processor) (seen : List ScannedUnit) (cache : UnitCache) : Prop where
  unmet : ∀ name, first? seen name = none → cache.get? name = none
  met : ∀ name s₀, first? seen name = some s₀ → ∃ u, cache.get? name = some u ∧
    u.state.isFinal = true ∧ UnitReport.settled u = (p.fateOf (firstUnit s₀)).settled name

theorem Keeps.put_again {u : ClassUnit} (h : Keeps p seen cache)
    (hu : cache.get? name = some u) : Keeps p seen (cache.put name u) := by
  refine ⟨fun other hnone => ?_, fun other s₀ hsome => ?_⟩
  · rw [UnitCache.get?_put_again hu]
    exact h.unmet other hnone
  · rw [UnitCache.get?_put_again hu]
    exact h.met other s₀ hsome

/-- A cache keeps one name more when the unit that met its fate is put. -/
theorem Keeps.put_first {u : ClassUnit} (h : Keeps p seen cache)
    (hs : first? seen s.qualifiedName = none) (hfinal : u.state.isFinal = true)
    (hu : UnitReport.settled u = (p.fateOf (firstUnit s)).settled s.qualifiedName) :
    Keeps p (seen ++ [s]) (cache.put s.qualifiedName u) := by
  refine ⟨fun other hnone => ?_, fun other s₀ hsome => ?_⟩
  · obtain ⟨hne, hunmet⟩ := first?_concat_eq_none.1 hnone
    rw [UnitCache.get?_put_of_ne _ _ hne]
    exact h.unmet other hunmet
  · rw [first?_concat hs] at hsome
    split at hsome
    · next heq =>
      obtain rfl := Option.some.inj hsome
      rw [heq]
      exact ⟨u, UnitCache.get?_put_self _ _ _, hfinal, hu⟩
    · next hne =>
      rw [UnitCache.get?_put_of_ne _ _ hne]
      exact h.met other s₀ hsome

/-- A step over a name met again: it is reported, and nothing else. -/
theorem step_again {r : Progress} (hdest : r.batch.destination = none)
    (hkeeps : Keeps r.batch.processor seen r.batch.cache)
    (hs : first? seen s.qualifiedName = some s₀) :
    (step r s).workspace = r.workspace ∧
      (step r s).batch.processor = r.batch.processor ∧ (step r s).batch.destination = none ∧
      Keeps r.batch.processor seen (step r s).batch.cache ∧
      (step r s).reports =
        (r.batch.processor.fateOf (firstUnit s₀)).settled s.qualifiedName :: r.reports := by
  obtain ⟨u, hu, hfinal, hsettled⟩ := hkeeps.met _ _ hs
  have hunit : r.batch.unitOf s = u := by rw [unitOf, hu, Option.getD_some]
  have hprocess : r.batch.processor.process r.workspace u = Processor.rest r.workspace u := by
    rw [Processor.process, if_pos hfinal]
  simp only [step, hunit, hprocess, Processor.rest, hsettled]
  exact ⟨trivial, trivial, hdest, hkeeps.put_again hu, trivial⟩

/-- A step over a name met first: the class file meets its fate. -/
theorem step_first {r : Progress} (hdest : r.batch.destination = none)
    (hkeeps : Keeps r.batch.processor seen r.batch.cache)
    (hs : first? seen s.qualifiedName = none) :
    (step r s).workspace.files =
        (r.batch.processor.fateOf (firstUnit s)).filesAfter r.workspace.files s.path ∧
      (step r s).workspace.calls =
        r.workspace.calls ++ r.batch.processor.callsOf (firstUnit s) ∧
      (step r s).batch.processor = r.batch.processor ∧ (step r s).batch.destination = none ∧
      Keeps r.batch.processor (seen ++ [s]) (step r s).batch.cache ∧
      (step r s).reports = (r.batch.processor.fateOf (firstUnit s)).report r.workspace.files
        s.path s.qualifiedName :: r.reports := by
  have hunit : r.batch.unitOf s = firstUnit s := by
    rw [unitOf, hkeeps.unmet _ hs, Option.getD_none, hdest, locate, firstUnit]
  obtain ⟨hfinal, hsettled, -, -, -, hfiles, hcalls, hreport⟩ :=
    r.batch.processor.process_inPlace r.workspace s.qualifiedName s.path s.bytes
  rw [← firstUnit] at hfinal hsettled hfiles hcalls hreport
  rw [name_firstUnit] at hsettled hreport
  rw [output_firstUnit] at hfiles hreport
  simp only [step, hunit]
  refine ⟨hfiles, hcalls, trivial, hdest, hkeeps.put_first hs hfinal hsettled, ?_⟩
  rw [hreport]

/-- **Processing class files is replaying their fates.** -/
theorem foldl_step (units : List ScannedUnit) {r : Progress} (hdest : r.batch.destination = none)
    (hkeeps : Keeps r.batch.processor seen r.batch.cache) :
    (units.foldl step r).workspace.files =
        (replay r.batch.processor seen r.workspace.files units).files ∧
      (units.foldl step r).workspace.calls =
        r.workspace.calls ++ (replay r.batch.processor seen r.workspace.files units).calls ∧
      (units.foldl step r).reports =
        (replay r.batch.processor seen r.workspace.files units).reports.reverse ++ r.reports := by
  -- on the class files left, the cache keeping the fates of those behind
  induction units generalizing seen r with
  | nil => exact ⟨rfl, (List.append_nil _).symm, rfl⟩
  | cons s units ih =>
    rw [List.foldl_cons]
    rcases hs : first? seen s.qualifiedName with _ | s₀
    · obtain ⟨hfiles, hcalls, hproc, hdest', hkeeps', hreports⟩ := step_first hdest hkeeps hs
      rw [← hproc] at hkeeps'
      obtain ⟨ihfiles, ihcalls, ihreports⟩ := ih hdest' hkeeps'
      rw [replay_first hs, ihfiles, ihcalls, ihreports, hproc, hfiles, hcalls, hreports]
      simp
    · obtain ⟨hspace, hproc, hdest', hkeeps', hreports⟩ := step_again hdest hkeeps hs
      rw [← hproc] at hkeeps'
      obtain ⟨ihfiles, ihcalls, ihreports⟩ := ih hdest' hkeeps'
      rw [replay_again hs, ihfiles, ihcalls, ihreports, hproc, hspace, hreports]
      simp

/-- **A fresh run in place replays the fates** of what its scan found. -/
theorem run_replay {w : Workspace} {root : Path} {recursive : Bool} {scan : ScanReport}
    {events : List Event} (hscan : w.files.scan root recursive = .ok (scan, events)) :
    ∃ w' b' r, run (fresh p none) w root recursive = .ok (w', b', r) ∧
      w'.files = (replay p [] w.files scan.units).files ∧
      w'.calls = w.calls ++ (replay p [] w.files scan.units).calls ∧
      r.units = (replay p [] w.files scan.units).reports := by
  have hempty : Keeps p [] [] := ⟨fun _ _ => rfl, fun _ _ h => by cases h⟩
  obtain ⟨hfiles, hcalls, hreports⟩ := foldl_step scan.units
    (r := ⟨w.report events, fresh p none, []⟩) rfl hempty
  rw [List.append_nil] at hreports
  rw [run, hscan]
  refine ⟨_, _, _, rfl, hfiles, hcalls, ?_⟩
  rw [reportOf, processAll, hreports, List.reverse_reverse]
  rfl

/-! ## Names -/

/-- The calls of a replay are about names met first. -/
theorem unit_of_mem_replay {call : PassCall} (h : call ∈ (replay p seen t units).calls) :
    first? seen call.unit = none := by
  induction units generalizing seen t with
  | nil => cases h
  | cons s units ih =>
    rcases hs : first? seen s.qualifiedName with _ | s₀
    · rw [replay_first hs] at h
      rcases List.mem_append.1 h with hcall | hcall
      · rw [Processor.unit_of_mem_callsOn hcall, name_firstUnit, hs]
      · exact (first?_concat_eq_none.1 (ih hcall)).2
    · rw [replay_again hs] at h
      exact ih h

/-- The units that a replay reports as written are of names met first. -/
theorem unit_of_committed {r : UnitReport} (h : r ∈ (replay p seen t units).reports)
    (hcommitted : r.committed.isSome = true) : first? seen r.unit = none := by
  induction units generalizing seen t with
  | nil => cases h
  | cons s units ih =>
    rcases hs : first? seen s.qualifiedName with _ | s₀
    · rw [replay_first hs] at h
      rcases List.mem_cons.1 h with rfl | hrest
      · rw [Fate.unit_report, hs]
      · exact (first?_concat_eq_none.1 (ih hrest)).2
    · rw [replay_again hs] at h
      rcases List.mem_cons.1 h with rfl | hrest
      · rw [Fate.committed_settled] at hcommitted
        cases hcommitted
      · exact ih hrest

end Batch

end ClassWeave
