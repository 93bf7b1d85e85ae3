import ClassWeave.Proofs.Batch.Accounts
import ClassWeave.Proofs.Loader
/-!
# Driver -- one enhancement for each name

A batch and a loader keep one unit for a name and process it each time that
the name is met. The first time it is made of what was read, and processing
settles it; from then on it is final, and nothing is done with it
(`Once.visit`, `Once.again`). So over any history of runs or requests, with
the files edited in between, no pass is called twice for a name, and what is
kept of a name stays (`History.once_each`). A request that loads no unit
keeps none, though it leaves a slot for one, and may be repeated.
-/


namespace ClassWeave

namespace UnitReport

/-- A report that says of a unit how it stands. -/
structure Says (r : UnitReport) (u : ClassUnit) : Prop where
  state : r.state = u.state
  skipReason : r.skipReason = u.skipReason
  failure : r.failure = u.failure

/-- What a report says of a unit that it tells of behind its fate. -/
theorem says_of_settled {f : Fate} {u : ClassUnit} (t : FileTree) (path : Path) (name : String)
    (h : settled u = f.settled name) : (f.report t path name).Says u := by
  have hstate : u.state = (f.settled name).state := by rw [← h, settled]
  have hreason : u.skipReason = (f.settled name).skipReason := by rw [← h, settled]
  have hfailure : u.failure = (f.settled name).failure := by rw [← h, settled]
  cases f with
  | skipped reason => exact ⟨hstate.symm, hreason.symm, hfailure.symm⟩
  | failed message enhancer => exact ⟨hstate.symm, hreason.symm, hfailure.symm⟩
  | enhanced out =>
    simp only [Fate.report]
    split <;> exact ⟨hstate.symm, hreason.symm, hfailure.symm⟩

end UnitReport

namespace BatchReport

/-- Where every unit is settled, the three ways to be settled account for
all of them. -/
theorem count_settled {r : BatchReport} (h : ∀ u ∈ r.units, u.state.isFinal = true) :
    r.count .enhanced + r.count .skipped + r.count .failed = r.units.length := by
  unfold count
  generalize r.units = units at h ⊢
  induction units with
  | nil => rfl
  | cons u units ih =>
    have hcount := ih fun v hv => h v (List.mem_cons_of_mem _ hv)
    have hfinal := h u List.mem_cons_self
    cases hstate : u.state with
    | unprocessed => rw [hstate] at hfinal; cases hfinal
    | inProgress => rw [hstate] at hfinal; cases hfinal
    | enhanced => simp [hstate]; omega
    | skipped => simp [hstate]; omega
    | failed => simp [hstate]; omega

end BatchReport

namespace Processor

variable {p : Processor} {u : ClassUnit}

/-- No pass is called twice for a unit. -/
theorem nodup_callsOn {v : Except ClassFile.FormatError (Verdict × List Event)} :
    ((p.callsOn u v).map PassCall.position).Nodup := by
  unfold callsOn
  split
  · exact Chain.nodup_positions _ _
  · exact List.nodup_nil

end Processor

/-! ## A name that is met -/

/-- **A unit that stands for a name**: the one that is kept, or else a new
one. -/
inductive UnitCache.StandsFor (cache : UnitCache) (name : String) : ClassUnit → Prop
  | kept {u : ClassUnit} : cache.get? name = some u → StandsFor cache name u
  | new (location : UnitLocation) (bytes : Bytes) : cache.get? name = none →
    StandsFor cache name (.fresh name location bytes)

/-- **What was done once for each name** since some calls were taken: the
units that are kept are settled, no pass was called twice for a name, and
none for a name of which no unit is kept. -/
structure Once (before : List PassCall) (w : Workspace) (cache : UnitCache) : Prop where
  final : ∀ name u, cache.get? name = some u → u.state.isFinal = true
  calls : ∃ calls, w.calls = before ++ calls ∧
    (calls.map fun call => (call.position, call.unit)).Nodup ∧
    ∀ call ∈ calls, cache.get? call.unit ≠ none

namespace Once

variable {p : Processor} {before : List PassCall} {w w' : Workspace} {cache : UnitCache}
  {name : String} {u : ClassUnit} {done : Processed}

theorem start (w : Workspace) : Once w.calls w [] where
  final name u hu := by cases hu
  calls := ⟨[], (List.append_nil _).symm, List.nodup_nil, List.forall_mem_nil _⟩

theorem edit (h : Once before w cache) (hcalls : w'.calls = w.calls) : Once before w' cache where
  final := h.final
  calls := by
    rw [hcalls]
    exact h.calls

theorem same {cache' : UnitCache} (h : Once before w cache) (hsame : cache.Same cache') :
    Once before w cache' where
  final name u hu := h.final name u ((hsame.get? name).symm.trans hu)
  calls := by
    obtain ⟨calls, hcalls, hnodup, hmet⟩ := h.calls
    exact ⟨calls, hcalls, hnodup, fun call hcall => by rw [hsame.get?]; exact hmet call hcall⟩

/-- **A unit that is kept is reported as it stands**, and nothing is done. -/
theorem again (h : Once before w cache) (hu : cache.get? name = some u) (p : Processor)
    (w' : Workspace) : p.process w' u = Processor.rest w' u := by
  rw [Processor.process, if_pos (h.final name u hu)]

/-- **A new name is settled**: its calls are the only ones for the name. -/
theorem put_new {calls : List PassCall} (h : Once before w cache) (hnone : cache.get? name = none)
    (hfinal : u.state.isFinal = true) (hadded : w'.calls = w.calls ++ calls)
    (hname : ∀ call ∈ calls, call.unit = name) (hnodup : (calls.map PassCall.position).Nodup) :
    Once before w' (cache.put name u) where
  final other v hv := by
    rcases UnitCache.of_get?_put hv with ⟨-, rfl⟩ | hkept
    · exact hfinal
    · exact h.final other v hkept
  calls := by
    obtain ⟨front, hfront, hnodupFront, hmet⟩ := h.calls
    refine ⟨front ++ calls, by rw [hadded, hfront, List.append_assoc], ?_, fun call hcall => ?_⟩
    · rw [List.map_append, List.nodup_append]
      refine ⟨hnodupFront, .of_map Prod.fst (by rwa [List.map_map]), ?_⟩
      -- the calls so far are for names that are kept, and this one was not
      intro x hx y hy hxy
      obtain ⟨old, hold, rfl⟩ := List.mem_map.1 hx
      obtain ⟨new, hnew, rfl⟩ := List.mem_map.1 hy
      have hunit : old.unit = name := (Prod.mk.inj hxy).2.trans (hname new hnew)
      exact hmet old hold (hunit ▸ hnone)
    · rcases List.mem_append.1 hcall with hold | hnew
      · obtain ⟨v, hv⟩ := Option.ne_none_iff_exists'.1 (hmet call hold)
        rw [UnitCache.get?_put_new hnone hv]
        exact Option.some_ne_none v
      · rw [hname call hnew, UnitCache.get?_put_self]
        exact Option.some_ne_none _

/-- **A name that is met is settled**: its unit is final and is told as it
stands, its calls are the only ones for the name, and the other units stay. -/
theorem visit (h : Once before w cache) (hu : cache.StandsFor name u)
    (hdone : p.process w u = done) :
    Once before done.workspace (cache.put name done.unit) ∧ done.unit.state.isFinal = true ∧
      done.report.Says done.unit ∧
      ∀ other v, cache.get? other = some v → (cache.put name done.unit).get? other = some v := by
  cases hu with
  | kept hkept =>
    rw [h.again hkept p w] at hdone
    subst hdone
    have hsame : ∀ other, (cache.put name u).get? other = cache.get? other :=
      UnitCache.get?_put_again hkept
    refine ⟨⟨fun other v hv => ?_, ?_⟩, h.final name u hkept, ⟨rfl, rfl, rfl⟩,
      fun other v hv => ?_⟩
    · exact h.final other v ((hsame other).symm.trans hv)
    · obtain ⟨calls, hcalls, hnodup, hmet⟩ := h.calls
      exact ⟨calls, hcalls, hnodup, fun call hcall =>
        (hsame call.unit).symm ▸ hmet call hcall⟩
    · exact (hsame other).trans hv
  | new location bytes hnone =>
    obtain ⟨hfinal, hsettled, -, -, -, -, hadded, hreport⟩ := p.process_meets w name location bytes
    rw [hdone] at hfinal hsettled hadded hreport
    have honce : Once before done.workspace (cache.put name done.unit) :=
      h.put_new hnone hfinal hadded (fun call hcall => Processor.unit_of_mem_callsOn hcall)
        Processor.nodup_callsOn
    refine ⟨honce, hfinal, ?_, fun other v hv => UnitCache.get?_put_new hnone hv⟩
    rw [hreport]
    exact UnitReport.says_of_settled _ _ _ hsettled

end Once

/-! ## Runs -/

namespace Batch

variable {before : List PassCall} {w : Workspace} {b : Batch} {s : ScannedUnit}

/-- **A run that looks at each name once**, after its scan: it counts every
class file, and keeps a settled unit for each name, which it tells. A class
file whose name it met before, or kept before, is told as its unit stands,
and the workspace is left as it was. -/
structure RunsOnce (b : Batch) (w : Workspace) (units : List ScannedUnit) (b' : Batch)
    (r : BatchReport) : Prop where
  counted : r.count .enhanced + r.count .skipped + r.count .failed = units.length
  told : ∀ front s back, units = front ++ s :: back →
    ∃ u report, b'.cache.get? s.qualifiedName = some u ∧ u.state.isFinal = true ∧
      r.units[front.length]? = some report ∧ report.Says u ∧
      (b.cache.get? s.qualifiedName ≠ none ∨
          s.qualifiedName ∈ front.map ScannedUnit.qualifiedName →
        report = .settled u ∧
          (b.processAll w (front ++ [s])).workspace = (b.processAll w front).workspace)

theorem standsFor_unitOf (b : Batch) (s : ScannedUnit) :
    b.cache.StandsFor s.qualifiedName (b.unitOf s) := by
  unfold unitOf
  rcases hkept : b.cache.get? s.qualifiedName with _ | u
  · exact .new _ _ hkept
  · exact .kept hkept

/-- **One class file**: its unit is settled, kept and told, and what was kept
stays. -/
theorem step_once {r : Progress} (h : Once before r.workspace r.batch.cache) (s : ScannedUnit) :
    ∃ done, r.batch.processor.process r.workspace (r.batch.unitOf s) = done ∧
      done.unit.state.isFinal = true ∧ done.report.Says done.unit ∧
      (step r s).workspace = done.workspace ∧ (step r s).reports = done.report :: r.reports ∧
      Once before (step r s).workspace (step r s).batch.cache ∧
      (step r s).batch.cache.get? s.qualifiedName = some done.unit ∧
      ∀ name u, r.batch.cache.get? name = some u → (step r s).batch.cache.get? name = some u := by
  obtain ⟨done, hdone⟩ : ∃ done, r.batch.processor.process r.workspace (r.batch.unitOf s) = done :=
    ⟨_, rfl⟩
  obtain ⟨honce, hfinal, hsays, hstays⟩ := h.visit (r.batch.standsFor_unitOf s) hdone
  have hstep : step r s = ⟨done.workspace, { r.batch with
      cache := r.batch.cache.put s.qualifiedName done.unit }, done.report :: r.reports⟩ := by
    simp only [step, hdone]
  rw [hstep]
  exact ⟨done, hdone, hfinal, hsays, rfl, rfl, honce, UnitCache.get?_put_self _ _ _, hstays⟩

/-- **Class files one after another**: each is settled and told, and what was
kept stays. -/
theorem foldl_once (units : List ScannedUnit) {r : Progress}
    (h : Once before r.workspace r.batch.cache) :
    Once before (units.foldl step r).workspace (units.foldl step r).batch.cache ∧
      (∀ name u, r.batch.cache.get? name = some u →
        (units.foldl step r).batch.cache.get? name = some u) ∧
      (∀ s ∈ units, (units.foldl step r).batch.cache.get? s.qualifiedName ≠ none) ∧
      ∃ reports, (units.foldl step r).reports = reports ++ r.reports ∧
        reports.length = units.length ∧ ∀ report ∈ reports, report.state.isFinal = true := by
  -- on the class files left
  induction units generalizing r with
  | nil =>
    refine ⟨h, fun name u hu => hu, fun s hs => ?_, [], rfl, rfl, fun report hreport => ?_⟩
    · cases hs
    · cases hreport
  | cons s units ih =>
    obtain ⟨done, -, hfinal, hsays, -, htold, honce, hkept, hstays⟩ := step_once h s
    obtain ⟨ihonce, ihstays, ihmet, reports, hreports, hlength, hsettled⟩ := ih honce
    rw [List.foldl_cons]
    refine ⟨ihonce, fun name u hu => ihstays name u (hstays name u hu), fun s' hs' => ?_,
      reports ++ [done.report], ?_, ?_, fun report hreport => ?_⟩
    · rcases List.mem_cons.1 hs' with rfl | hs'
      · rw [ihstays _ _ hkept]
        exact Option.some_ne_none _
      · exact ihmet s' hs'
    · rw [hreports, htold, List.append_assoc]
      rfl
    · rw [List.length_append, hlength]
      rfl
    · rcases List.mem_append.1 hreport with hreport | hlast
      · exact hsettled report hreport
      · rw [List.mem_singleton.1 hlast, hsays.state]
        exact hfinal

/-- **A run looks at each name once**, and what was kept before it stays. -/
theorem run_once {root : Path} {recursive : Bool} {scan : ScanReport} {events : List Event}
    (h : Once before w b.cache) (hscan : w.files.scan root recursive = .ok (scan, events)) :
    ∃ w' b' r, b.run w root recursive = .ok (w', b', r) ∧ Once before w' b'.cache ∧
      (∀ name u, b.cache.get? name = some u → b'.cache.get? name = some u) ∧
      b.RunsOnce (w.report events) scan.units b' r := by
  have hstart : Once before (w.report events) b.cache := h.edit rfl
  obtain ⟨honce, hstays, -, reports, hreports, hlength, hsettled⟩ :=
    foldl_once scan.units (r := ⟨w.report events, b, []⟩) hstart
  rw [List.append_nil] at hreports
  rw [run, hscan]
  refine ⟨_, _, _, rfl, honce, hstays, ?_, fun front s back hunits => ?_⟩
  · rw [BatchReport.count_settled, reportOf, processAll, hreports]
    · rw [List.length_reverse, hlength]
    · intro report hreport
      rw [reportOf, processAll, hreports, List.mem_reverse] at hreport
      exact hsettled report hreport
  -- up to the class file, over it, and from there to the end
  obtain ⟨hmid, hstaysMid, hmet, reportsMid, hreportsMid, hlengthMid, -⟩ :=
    foldl_once front (r := ⟨w.report events, b, []⟩) hstart
  rw [List.append_nil] at hreportsMid
  obtain ⟨mid, hmidEq⟩ : ∃ mid, b.processAll (w.report events) front = mid := ⟨_, rfl⟩
  rw [← processAll, hmidEq] at hmid hstaysMid hmet hreportsMid
  obtain ⟨done, hdone, hfinal, hsays, hworkspace, htold, honceStep, hkeptStep, -⟩ :=
    step_once hmid s
  obtain ⟨-, hstaysEnd, -, reportsEnd, hreportsEnd, -⟩ := foldl_once back honceStep
  have hwhole : b.processAll (w.report events) scan.units = back.foldl step (step mid s) := by
    rw [processAll, hunits, List.foldl_append, List.foldl_cons, ← processAll, hmidEq]
  refine ⟨done.unit, done.report, ?_, hfinal, ?_, hsays, fun hbefore => ?_⟩
  · rw [hwhole]
    exact hstaysEnd _ _ hkeptStep
  · have hfront : front.length = mid.reports.reverse.length := by
      rw [hreportsMid, List.length_reverse, hlengthMid]
    rw [reportOf, hwhole, hreportsEnd, htold, hfront]
    simp
  · -- the unit is kept, since its name was met in front or before
    have hkept : mid.batch.cache.get? s.qualifiedName ≠ none := by
      rcases hbefore with hbefore | hbefore
      · obtain ⟨u, hu⟩ := Option.ne_none_iff_exists'.1 hbefore
        rw [hstaysMid _ _ hu]
        exact Option.some_ne_none u
      · obtain ⟨s', hs', heq⟩ := List.mem_map.1 hbefore
        rw [← heq]
        exact hmet s' hs'
    obtain ⟨u, hu⟩ := Option.ne_none_iff_exists'.1 hkept
    have hunit : mid.batch.unitOf s = u := by rw [unitOf, hu, Option.getD_some]
    rw [hunit, hmid.again hu] at hdone
    rw [processAll, List.foldl_append, List.foldl_cons, List.foldl_nil, ← processAll, hmidEq,
      hworkspace, ← hdone]
    exact ⟨rfl, rfl⟩

end Batch

/-! ## Requests -/

namespace Loader

variable {before : List PassCall} {w : Workspace} {l : Loader} {raw name : String} {u : ClassUnit}
  {done : Processed}

/-- The answer that a unit gives as it stands. -/
def answerOf (name : String) (u : ClassUnit) : Except LoadError DefinedClass :=
  if u.state = .failed then .error (.enhancement name (u.failure.getD ""))
  else DefinedClass.define name u.current (.project u.state)

/-- **A request that looks at its name once**: if it loads no unit, it leaves
no more than an empty slot for the name, with which the same units are kept,
under the same names and as many of them; if it reaches one, that is settled,
kept, and answers as it stands; and if one is kept already, that answers, and
the workspace is left as it was. -/
structure ResolvesOnce (l : Loader) (w : Workspace) (raw : String) : Prop where
  unloaded : l.cache.get? (normalName raw) = none →
    (∀ u, l.readLocal w (normalName raw) ≠ .ok (some u)) →
    (l.resolve w raw).workspace = w ∧ l.cache.Same (l.resolve w raw).loader.cache ∧
      (l.resolve w raw).loader.cache.length = l.cache.length ∧
      (l.IsLocal (normalName raw) →
        (l.resolve w raw).loader.cache = l.cache.reserve (normalName raw))
  reached : ∀ u, l.Reaches w raw u → ∃ v,
    (l.resolve w raw).loader.cache.get? (normalName raw) = some v ∧ v.state.isFinal = true ∧
      (l.resolve w raw).answer = answerOf (normalName raw) v
  again : ∀ u, l.cache.get? (normalName raw) = some u →
    (l.resolve w raw).workspace = w ∧ (l.resolve w raw).answer = answerOf (normalName raw) u

theorem standsFor_unit? (h : l.unit? w name = .ok (some u)) : l.cache.StandsFor name u := by
  rcases hkept : l.cache.get? name with _ | v
  · obtain ⟨bytes, rfl⟩ := (unit?_ok h).resolve_left (by rw [hkept]; rintro ⟨⟩)
    exact .new _ _ hkept
  · refine .kept ?_
    rw [unit?, hkept] at h
    rw [hkept, Option.some.inj (Except.ok.inj h)]

theorem answerLocal_eq (hdone : l.processor.process w u = done) (h : done.report.Says done.unit)
    (name : String) :
    l.answerLocal w name u = ⟨done.workspace, { l with cache := l.cache.put name done.unit },
      answerOf name done.unit⟩ := by
  simp only [answerLocal, answerOf, hdone, h.state, h.failure]

/-- **A request looks at its name once**, what was kept before it stays, and
only names that are looked for in the source tree are kept. -/
theorem resolve_once (h : Once before w l.cache)
    (hlocal : ∀ name u, l.cache.get? name = some u → l.IsLocal name) (raw : String) :
    Once before (l.resolve w raw).workspace (l.resolve w raw).loader.cache ∧
      (∀ name u, l.cache.get? name = some u →
        (l.resolve w raw).loader.cache.get? name = some u) ∧
      (∀ name u, (l.resolve w raw).loader.cache.get? name = some u → l.IsLocal name) ∧
      l.ResolvesOnce w raw := by
  by_cases hreached : ∃ u, l.Reaches w raw u
  · obtain ⟨u, hreached⟩ := hreached
    obtain ⟨done, hdone⟩ : ∃ done, l.processor.process w u = done := ⟨_, rfl⟩
    obtain ⟨honce, hfinal, hsays, hstays⟩ := h.visit (standsFor_unit? hreached.unit) hdone
    have hresolve : l.resolve w raw = ⟨done.workspace,
        { l with cache := l.cache.put (normalName raw) done.unit },
        answerOf (normalName raw) done.unit⟩ := by
      rw [resolve_reached hreached, answerLocal_eq hdone hsays]
    have hunit := hreached.unit
    rw [unit?] at hunit
    rw [hresolve]
    refine ⟨honce, hstays, fun name v hv => ?_, fun hnone hunloaded => ?_, fun v _ => ?_,
      fun v hv => ?_⟩
    · rcases UnitCache.of_get?_put hv with ⟨rfl, -⟩ | hkept
      · exact hreached.isLocal
      · exact hlocal name v hkept
    · rw [hnone] at hunit
      exact absurd hunit (hunloaded u)
    · rw [hresolve]
      exact ⟨_, UnitCache.get?_put_self _ _ _, hfinal, rfl⟩
    · rw [hv] at hunit
      obtain rfl := Option.some.inj (Except.ok.inj hunit)
      rw [hresolve, ← hdone, h.again hv]
      exact ⟨rfl, rfl⟩
  · obtain ⟨hworkspace, delegated, cache, hsame, hloader⟩ :=
      resolve_unreached (not_exists.1 hreached)
    rw [hworkspace, hloader]
    refine ⟨h.same hsame, fun name u hu => (hsame.get? name).trans hu,
      fun name u hu => hlocal name u ((hsame.get? name).symm.trans hu), fun _ _ => ⟨hworkspace, ?_⟩,
      fun u hu => absurd ⟨u, hu⟩ hreached, fun u hu => absurd ⟨u, hlocal _ u hu, ?_⟩ hreached⟩
    · refine ⟨by rw [hloader]; exact hsame, by rw [hloader]; exact hsame.length,
        fun hasked => resolve_reserves hasked (not_exists.1 hreached)⟩
    · rw [unit?, hu]

end Loader

/-! ## Histories -/

/-- What keeps units by name: a batch, or one generation of a loader. -/
inductive Driver where
  | batch (b : Batch)
  | loader (l : Loader)

namespace Driver

/-- The units that are kept. -/
def cache : Driver → UnitCache
  | .batch b => b.cache
  | .loader l => l.cache

/-- **The histories of a driver**: runs of a batch, over any roots, or
requests to a loader, of any names, with anything edited in between. -/
inductive History (w₀ : Workspace) (d₀ : Driver) : Workspace → Driver → Prop
  | start : History w₀ d₀ w₀ d₀
  | edit {w w' : Workspace} {d : Driver} : History w₀ d₀ w d → w'.calls = w.calls →
    History w₀ d₀ w' d
  | run {w w' : Workspace} {b b' : Batch} {root : Path} {recursive : Bool} {r : BatchReport} :
    History w₀ d₀ w (.batch b) → b.run w root recursive = .ok (w', b', r) →
    History w₀ d₀ w' (.batch b')
  | resolve {w : Workspace} {l : Loader} (raw : String) : History w₀ d₀ w (.loader l) →
    History w₀ d₀ (l.resolve w raw).workspace (.loader (l.resolve w raw).loader)

/-- A driver whose names can all be met again. -/
def KeepsLocal : Driver → Prop
  | .batch _ => True
  | .loader l => ∀ name u, l.cache.get? name = some u → l.IsLocal name

/-- **What a driver does next looks at each name once**: a run over any root
that can be scanned, or a request for any name. -/
def NextOnce (w : Workspace) : Driver → Prop
  | .batch b => ∀ root recursive scan events, w.files.scan root recursive = .ok (scan, events) →
    ∃ w' b' r, b.run w root recursive = .ok (w', b', r) ∧
      b.RunsOnce (w.report events) scan.units b' r
  | .loader l => ∀ raw, l.ResolvesOnce w raw

variable {before : List PassCall} {w₀ w w' : Workspace} {d₀ d d' : Driver}

/-- **What a history preserves**: all was done once, and what was kept at its
start stays. -/
theorem History.once (h : History w d w' d') (honce : Once before w d.cache)
    (hlocal : d.KeepsLocal) :
    Once before w' d'.cache ∧ d'.KeepsLocal ∧
      ∀ name u, d.cache.get? name = some u → d'.cache.get? name = some u := by
  induction h with
  | start => exact ⟨honce, hlocal, fun _ _ hu => hu⟩
  | edit _ hcalls ih => exact ⟨ih.1.edit hcalls, ih.2⟩
  | @run w w' b b' root recursive r _ hrun ih =>
    obtain ⟨ihonce, -, ihstays⟩ := ih
    rcases hscan : w.files.scan root recursive with e | ⟨scan, events⟩
    · rw [Batch.run, hscan] at hrun
      cases hrun
    obtain ⟨w'', b'', r', hrun', hdone, hstays, -⟩ := Batch.run_once ihonce hscan
    obtain ⟨rfl, hbatch⟩ := Prod.mk.inj (Except.ok.inj (hrun'.symm.trans hrun))
    obtain ⟨rfl, -⟩ := Prod.mk.inj hbatch
    exact ⟨hdone, trivial, fun name u hu => hstays name u (ihstays name u hu)⟩
  | @resolve w l raw _ ih =>
    obtain ⟨ihonce, ihlocal, ihstays⟩ := ih
    obtain ⟨hdone, hstays, hlocal', -⟩ := l.resolve_once ihonce ihlocal raw
    refine ⟨hdone, fun name u hu => ?_, fun name u hu => hstays name u (ihstays name u hu)⟩
    obtain ⟨harray, hfault, hunreserved⟩ := hlocal' name u hu
    exact ⟨harray, hfault, by rw [(l.configuration_resolve w raw).1]; exact hunreserved⟩

/-- **One enhancement for each name.** Over any history of a batch, or of one
generation of a loader, that had met no names: no pass of the chain was
called twice for one name; every unit that is kept is settled, and is the
same at the end of any history that goes on from there; and whatever is done
next looks at each name once, leaving alone the names that were met. -/
theorem History.once_each (hempty : d₀.cache = []) (h : History w₀ d₀ w d) :
    (∃ calls, w.calls = w₀.calls ++ calls ∧
      (calls.map fun call => (call.position, call.unit)).Nodup) ∧
    (∀ name u, d.cache.get? name = some u → u.state.isFinal = true ∧
      ∀ w' d', History w d w' d' → d'.cache.get? name = some u) ∧
    d.NextOnce w := by
  have hstart : Once w₀.calls w₀ d₀.cache := by
    rw [hempty]
    exact .start w₀
  have hlocal : d₀.KeepsLocal := by
    cases d₀ with
    | batch b => trivial
    | loader l =>
      intro name u hu
      rw [show l.cache = [] from hempty] at hu
      cases hu
  obtain ⟨honce, hlocal', -⟩ := h.once hstart hlocal
  obtain ⟨calls, hcalls, hnodup, -⟩ := honce.calls
  refine ⟨⟨calls, hcalls, hnodup⟩, fun name u hu => ⟨honce.final name u hu, fun w' d' hmore =>
    (hmore.once honce hlocal').2.2 name u hu⟩, ?_⟩
  cases d with
  | batch b =>
    intro root recursive scan events hscan
    obtain ⟨w', b', r, hrun, -, -, hruns⟩ := Batch.run_once honce hscan
    exact ⟨w', b', r, hrun, hruns⟩
  | loader l => exact fun raw => (l.resolve_once honce hlocal' raw).2.2.2

/-- A loader with a pass that only looks. -/
def watchingLoader : Loader :=
  .fresh ⟨"src"⟩ none (.ofChain [⟨⟨"watch", "1.0.0"⟩, fun _ => .ok none⟩] [] none) .noParent

/-- The pass is called once for a class that is asked for twice, although the
file is put back in between, and is told so whenever it is asked for again. -/
theorem History.once_each_edited : ∃ w l,
    History Loader.plainWorkspace (.loader watchingLoader) w (.loader l) ∧
      w.calls.map (fun call => (call.position, call.unit)) = [(0, "A")] ∧
      (∃ u, l.cache.get? "A" = some u ∧ u.state = .enhanced) ∧ l.ResolvesOnce w "A" := by
  obtain ⟨first, hfirst⟩ : ∃ first, watchingLoader.resolve Loader.plainWorkspace "A" = first :=
    ⟨_, rfl⟩
  obtain ⟨second, hsecond⟩ : ∃ second, first.loader.resolve
    (first.workspace.withFiles Loader.plainWorkspace.files) "A" = second := ⟨_, rfl⟩
  have hasked : History Loader.plainWorkspace (.loader watchingLoader) first.workspace
      (.loader first.loader) := hfirst ▸ .resolve (l := watchingLoader) "A" .start
  have hedited : History Loader.plainWorkspace (.loader watchingLoader)
      (first.workspace.withFiles Loader.plainWorkspace.files) (.loader first.loader) :=
    hasked.edit rfl
  have hhistory : History Loader.plainWorkspace (.loader watchingLoader) second.workspace
      (.loader second.loader) := hsecond ▸ .resolve (l := first.loader) "A" hedited
  have hkept : second.workspace.calls.map (fun call => (call.position, call.unit)) = [(0, "A")] ∧
      (second.loader.cache.get? "A").map ClassUnit.state = some .enhanced := by
    rw [← hsecond, ← hfirst]
    decide +kernel
  obtain ⟨-, -, hnext⟩ := History.once_each rfl hhistory
  obtain ⟨u, hu, hstate⟩ := Option.map_eq_some_iff.1 hkept.2
  exact ⟨second.workspace, second.loader, hhistory, hkept.1, ⟨u, hu, hstate⟩, hnext "A"⟩

end Driver

end ClassWeave
