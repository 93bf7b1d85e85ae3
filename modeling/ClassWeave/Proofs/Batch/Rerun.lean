import ClassWeave.Proofs.Batch.Replay
import ClassWeave.Proofs.Batch.Written
import Mathlib
/-!
# Batch -- a second run in place

A second run over what a first one left meets the same class files with the
octets that stand there now. Those that the first run wrote carry the
marker; the others are as they were, and meet the fate that they met.
`replay_refreshed` carries this through a run, behind any class files that
were met before, and `rerun_idempotent` says it of two whole runs.
-/


namespace ClassWeave

namespace Batch

open Scan

variable {p : Processor} {seen units : List ScannedUnit} {t t' : FileTree} {root : Path}
  {top : Location} {s s₀ : ScannedUnit}

/-- **What a second run says of a unit** that a first run reported. -/
structure Rerun (r r' : UnitReport) : Prop where
  unit : r'.unit = r.unit
  committed : r.committed.isSome = true → r'.state = .skipped
  skipped : r.state = .skipped → r'.state = .skipped ∧ r'.skipReason = r.skipReason
  failed : r.state = .failed → r'.state = .failed ∧ r'.failure = r.failure

/-! ## Refreshed class files -/

theorem first?_refreshed (seen : List ScannedUnit) (name : String) :
    first? (seen.map (refreshed t)) name = (first? seen name).map (refreshed t) := by
  have hname : (fun s : ScannedUnit => s.qualifiedName == name) ∘ refreshed t =
      fun s => s.qualifiedName == name := by
    funext s
    rw [Function.comp_apply, qualifiedName_refreshed]
  rw [first?, List.find?_map, hname, first?]

/-! ## What a run leaves alone -/

/-- **Class files that are to be met**, below a class root: those of names
that were not met before are there. -/
structure Awaited (t : FileTree) (root : Path) (top : Location) (seen units : List ScannedUnit) :
    Prop where
  classRoot : t.ClassRoot root top
  found : ∀ s ∈ units, first? seen s.qualifiedName = none → Found t root top s

theorem Awaited.again (h : Awaited t root top seen (s :: units)) : Awaited t root top seen units :=
  ⟨h.classRoot, fun s' hs' => h.found s' (List.mem_cons_of_mem _ hs')⟩

theorem Awaited.first (h : Awaited t root top seen (s :: units))
    (hs : first? seen s.qualifiedName = none) (f : Fate) :
    Awaited (f.filesAfter t s.path) root top (seen ++ [s]) units := by
  obtain ⟨-, hroot, hothers⟩ := (h.found s List.mem_cons_self hs).meet h.classRoot f
  refine ⟨hroot, fun s' hs' hnone => ?_⟩
  obtain ⟨hne, hunmet⟩ := first?_concat_eq_none.1 hnone
  exact hothers s' (h.found s' (List.mem_cons_of_mem _ hs') hunmet) hne

/-- **What a replay leaves alone**: the tree evolves, the class root stays,
and so do the class files of names that were met before. -/
theorem replay_evolved (h : Awaited t root top seen units) :
    FileTree.Evolved t (replay p seen t units).files ∧
      (replay p seen t units).files.ClassRoot root top ∧
      ∀ s, first? seen s.qualifiedName ≠ none → Found t root top s →
        Found (replay p seen t units).files root top s := by
  induction units generalizing seen t with
  | nil => exact ⟨.refl t, h.classRoot, fun s _ hs => hs⟩
  | cons s units ih =>
    rcases hs : first? seen s.qualifiedName with _ | s₀
    · obtain ⟨hevolved, -, hothers⟩ := (h.found s List.mem_cons_self hs).meet h.classRoot
        (p.fateOf (firstUnit s))
      obtain ⟨ihevolved, ihroot, ihkept⟩ := ih (h.first hs (p.fateOf (firstUnit s)))
      rw [replay_first hs]
      refine ⟨hevolved.trans ihevolved, ihroot, fun s' hmet hs' => ihkept s' ?_ (hothers s' hs' ?_)⟩
      · rw [first?_concat hs]
        split
        · exact Option.some_ne_none s
        · exact hmet
      · intro heq
        rw [heq] at hmet
        exact hmet hs
    · rw [replay_again hs]
      exact ih h.again

/-! ## The second run -/

/-- The report of a fate that was not written is repeated. -/
theorem Rerun.report {f : Fate} {path : Path} {name : String}
    (hcommitted : (f.report t path name).committed = none) :
    Rerun (f.report t path name) (f.report t' path name) where
  unit := by rw [Fate.unit_report, Fate.unit_report]
  committed := by
    intro h
    rw [hcommitted] at h
    cases h
  skipped := by
    intro h
    cases f with
    | skipped reason => exact ⟨h, rfl⟩
    | failed message enhancer => cases h
    | enhanced out =>
      rw [Fate.state_report_enhanced] at h
      cases h
  failed := by
    intro h
    cases f with
    | skipped reason => cases h
    | failed message enhancer => exact ⟨h, rfl⟩
    | enhanced out =>
      rw [Fate.state_report_enhanced] at h
      cases h

/-- The report of a name met again is repeated, if a fate that does not
enhance is met again. -/
theorem Rerun.settled {f f' : Fate} {name : String}
    (hsame : (∀ out, f ≠ .enhanced out) → f' = f) : Rerun (f.settled name) (f'.settled name) where
  unit := by rw [Fate.unit_settled, Fate.unit_settled]
  committed := by
    intro h
    rw [Fate.committed_settled] at h
    cases h
  skipped := by
    intro h
    cases f with
    | skipped reason =>
      rw [hsame fun out heq => by cases heq]
      exact ⟨h, rfl⟩
    | failed message enhancer => cases h
    | enhanced out => cases h
  failed := by
    intro h
    cases f with
    | skipped reason => cases h
    | failed message enhancer =>
      rw [hsame fun out heq => by cases heq]
      exact ⟨h, rfl⟩
    | enhanced out => cases h

/-- A unit that was enhanced is skipped when its fate has become that. -/
theorem Rerun.enhanced {out : Bytes} {reason : SkipReason} {path : Path} {name : String} :
    Rerun ((Fate.enhanced out).report t path name)
      ((Fate.skipped reason).report t' path name) where
  unit := by rw [Fate.unit_report, Fate.unit_report]
  committed := fun _ => rfl
  skipped := by
    intro h
    rw [Fate.state_report_enhanced] at h
    cases h
  failed := by
    intro h
    rw [Fate.state_report_enhanced] at h
    cases h

/-- **A class file met first, in two runs.** If the first run wrote it, the
second skips it, without a call; if not, it is as it was. Either way the
second run writes nothing. -/
theorem rerun_first (h : t.ClassRoot root top) (h' : t'.ClassRoot root top)
    (hs : Found t root top s)
    (hevolved : FileTree.Evolved t t')
    (hkept : ∀ bytes, Found ((p.fateOf (firstUnit s)).filesAfter t s.path) root top
      { s with bytes := bytes } → Found t' root top { s with bytes := bytes })
    (hscanned : ClassFile.PoolComplete s.bytes)
    (hproduced : ∀ bytes, p.chain.Produced (p.callsOf (firstUnit s)) bytes →
      ClassFile.PoolComplete bytes) :
    (p.fateOf (firstUnit (refreshed t' s))).filesAfter t' s.path = t' ∧
      Rerun ((p.fateOf (firstUnit s)).report t s.path s.qualifiedName)
        ((p.fateOf (firstUnit (refreshed t' s))).report t' s.path s.qualifiedName) ∧
      (((p.fateOf (firstUnit s)).report t s.path s.qualifiedName).committed.isSome = true →
        p.callsOf (firstUnit (refreshed t' s)) = []) ∧
      ((∀ out, p.fateOf (firstUnit s) ≠ .enhanced out) →
        p.fateOf (firstUnit (refreshed t' s)) = p.fateOf (firstUnit s)) := by
  rcases hs.meet_cases h (p.fateOf (firstUnit s)) with ⟨out, hfate, hfound⟩ | ⟨hidle, hnever⟩
  · -- the stamped octets stand there now, and the marker in them is found
    have hnow : refreshed t' s = { s with bytes := out } := (hkept out hfound).refreshed_eq h'
    obtain ⟨⟨reason, hskipped⟩, hcalls⟩ :=
      p.fateOf_enhanced (u := firstUnit s) rfl hfate hscanned hproduced
    have hunit : firstUnit { s with bytes := out } = { firstUnit s with compiled := out } := by
      simp only [firstUnit, ClassUnit.fresh, ScannedUnit.qualifiedName]
    rw [hnow, hunit, hskipped, hcalls, hfate]
    exact ⟨rfl, .enhanced, fun _ => rfl, fun hne => absurd rfl (hne out)⟩
  · have hsame := hnever t (.refl t) h
    rw [hsame] at hkept
    have hnow : refreshed t' s = s := (hkept s.bytes hs).refreshed_eq h'
    rw [hnow]
    refine ⟨hnever t' hevolved h', .report hidle, fun hcommitted => ?_, fun _ => rfl⟩
    rw [hidle] at hcommitted
    cases hcommitted

/-- **What a replay over what another left comes to**: it changes nothing
and repeats the reports, and no call in it is about a unit that the other
wrote. -/
structure Repeats (t' : FileTree) (r r' : Replay) : Prop where
  files : r'.files = t'
  reports : List.Forall₂ Rerun r.reports r'.reports
  uncalled : ∀ u ∈ r.reports, u.committed.isSome = true → ∀ call ∈ r'.calls, call.unit ≠ u.unit

/-- One class file more, of a name met first. -/
theorem Repeats.first (hs : first? seen s.qualifiedName = none)
    (hidle : (p.fateOf (firstUnit (refreshed t' s))).filesAfter t' s.path = t')
    (hreport : Rerun ((p.fateOf (firstUnit s)).report t s.path s.qualifiedName)
      ((p.fateOf (firstUnit (refreshed t' s))).report t' s.path s.qualifiedName))
    (hcalls : ((p.fateOf (firstUnit s)).report t s.path s.qualifiedName).committed.isSome = true →
      p.callsOf (firstUnit (refreshed t' s)) = [])
    (h : Repeats t'
      (replay p (seen ++ [s]) ((p.fateOf (firstUnit s)).filesAfter t s.path) units)
      (replay p ((seen ++ [s]).map (refreshed t')) t' (units.map (refreshed t')))) :
    Repeats t' (replay p seen t (s :: units))
      (replay p (seen.map (refreshed t')) t' ((s :: units).map (refreshed t'))) := by
  have hs' : first? (seen.map (refreshed t')) (refreshed t' s).qualifiedName = none := by
    rw [qualifiedName_refreshed, first?_refreshed, hs, Option.map_none]
  obtain ⟨hfiles, hreports, huncalled⟩ := h
  rw [List.map_append, List.map_singleton] at hfiles hreports huncalled
  rw [List.map_cons, replay_first hs, replay_first hs', path_refreshed, qualifiedName_refreshed,
    hidle]
  refine ⟨hfiles, .cons hreport hreports, ?_⟩
  rw [List.forall_mem_cons]
  refine ⟨fun hcommitted call hcall => ?_, fun u hu hcommitted call hcall => ?_⟩
  · -- what was written takes no call, and the other calls are about other names
    rw [hcalls hcommitted, List.nil_append] at hcall
    have hne := (first?_concat_eq_none.1 (unit_of_mem_replay hcall)).1
    rw [Fate.unit_report]
    rwa [qualifiedName_refreshed] at hne
  · rcases List.mem_append.1 hcall with hcall | hcall
    · have hunit := Processor.unit_of_mem_callsOn hcall
      rw [name_firstUnit, qualifiedName_refreshed] at hunit
      rw [hunit]
      exact (first?_concat_eq_none.1 (unit_of_committed hu hcommitted)).1.symm
    · exact huncalled u hu hcommitted call hcall

/-- One class file more, of a name met again. -/
theorem Repeats.again (hs : first? seen s.qualifiedName = some s₀)
    (hfate : (∀ out, p.fateOf (firstUnit s₀) ≠ .enhanced out) →
      p.fateOf (firstUnit (refreshed t' s₀)) = p.fateOf (firstUnit s₀))
    (h : Repeats t' (replay p seen t units)
      (replay p (seen.map (refreshed t')) t' (units.map (refreshed t')))) :
    Repeats t' (replay p seen t (s :: units))
      (replay p (seen.map (refreshed t')) t' ((s :: units).map (refreshed t'))) := by
  have hs' : first? (seen.map (refreshed t')) (refreshed t' s).qualifiedName =
      some (refreshed t' s₀) := by
    rw [qualifiedName_refreshed, first?_refreshed, hs, Option.map_some]
  rw [List.map_cons, replay_again hs, replay_again hs', qualifiedName_refreshed]
  refine ⟨h.files, .cons (.settled hfate) h.reports, ?_⟩
  rw [List.forall_mem_cons]
  refine ⟨fun hcommitted => ?_, h.uncalled⟩
  rw [Fate.committed_settled] at hcommitted
  cases hcommitted

/-- **A replay over what a replay left repeats it**, if the pools of what
was scanned and produced are complete. It may go on behind class files met
before, if those that were not enhanced meet the fate that they met. -/
theorem replay_refreshed (h : Awaited t root top seen units)
    (hleft : (replay p seen t units).files = t')
    (hseen : ∀ s ∈ seen, (∀ out, p.fateOf (firstUnit s) ≠ .enhanced out) →
      p.fateOf (firstUnit (refreshed t' s)) = p.fateOf (firstUnit s))
    (hscanned : ∀ s ∈ units, ClassFile.PoolComplete s.bytes)
    (hproduced : ∀ bytes, p.chain.Produced (replay p seen t units).calls bytes →
      ClassFile.PoolComplete bytes) :
    Repeats t' (replay p seen t units)
      (replay p (seen.map (refreshed t')) t' (units.map (refreshed t'))) := by
  -- on the class files left; those behind are as the first replay leaves them
  induction units generalizing seen t with
  | nil => exact ⟨rfl, .nil, fun u hu => absurd hu List.not_mem_nil⟩
  | cons s units ih =>
    obtain ⟨hevolved, h', -⟩ := replay_evolved (p := p) h
    rw [hleft] at hevolved h'
    rw [List.forall_mem_cons] at hscanned
    rcases hs : first? seen s.qualifiedName with _ | s₀
    · have hrest := h.first hs (p.fateOf (firstUnit s))
      rw [replay_first hs] at hleft hproduced
      -- what the first replay made of this class file is what the second one finds
      have hfinds : ∀ bytes, Found ((p.fateOf (firstUnit s)).filesAfter t s.path) root top
          { s with bytes := bytes } → Found t' root top { s with bytes := bytes } := by
        intro bytes hfound
        obtain ⟨-, -, hafter⟩ := replay_evolved (p := p) hrest
        rw [← hleft]
        refine hafter _ ?_ hfound
        rw [ne_eq, first?_concat_eq_none]
        exact fun hunmet => hunmet.1 rfl
      obtain ⟨hidle, hreport, hcalls, hfate⟩ := rerun_first h.classRoot h'
        (h.found s List.mem_cons_self hs) hevolved hfinds hscanned.1
        fun bytes hmade => hproduced bytes (hmade.mono fun c hc => List.mem_append_left _ hc)
      have hseen' : ∀ s' ∈ seen ++ [s], (∀ out, p.fateOf (firstUnit s') ≠ .enhanced out) →
          p.fateOf (firstUnit (refreshed t' s')) = p.fateOf (firstUnit s') := by
        rw [List.forall_mem_append, List.forall_mem_singleton]
        exact ⟨hseen, hfate⟩
      refine .first hs hidle hreport hcalls (ih hrest hleft hseen' hscanned.2 ?_)
      exact fun bytes hmade => hproduced bytes (hmade.mono fun c hc => List.mem_append_right _ hc)
    · rw [replay_again hs] at hleft hproduced
      exact .again hs (hseen s₀ (of_first?_eq_some hs).1)
        (ih h.again hleft hseen hscanned.2 hproduced)

/-- **A second run in place changes nothing.** Over a class root with no
links in it, a fresh run writes in place, whatever the filter, the passes
and the ledger; if the pools of what it scans and of what the passes
produce in it are complete, a fresh run over the files that it left changes
no file. What the first run wrote is skipped, with no call about it, and
what it skipped or failed on meets the same again, for the same reason and
with the same message. -/
theorem rerun_idempotent {w : Workspace} {recursive : Bool} (h : w.files.ClassRoot root top)
    (hscanned : ∀ scan events, w.files.scan root recursive = .ok (scan, events) →
      ∀ s ∈ scan.units, ClassFile.PoolComplete s.bytes) :
    ∃ w₁ b₁ r₁ calls, run (fresh p none) w root recursive = .ok (w₁, b₁, r₁) ∧
      w₁.calls = w.calls ++ calls ∧
      ((∀ bytes, p.chain.Produced calls bytes → ClassFile.PoolComplete bytes) →
        ∀ w' : Workspace, w'.files = w₁.files →
          ∃ w₂ b₂ r₂ calls', run (fresh p none) w' root recursive = .ok (w₂, b₂, r₂) ∧
            w₂.calls = w'.calls ++ calls' ∧ w₂.files = w₁.files ∧
            List.Forall₂ Rerun r₁.units r₂.units ∧
            ∀ r ∈ r₁.units, r.committed.isSome = true → ∀ call ∈ calls', call.unit ≠ r.unit) := by
  obtain ⟨scan, events, hscan, -⟩ := h.scan_ok recursive
  obtain ⟨w₁, b₁, r₁, hrun, hfiles, hcalls, hunits⟩ := run_replay (p := p) hscan
  refine ⟨w₁, b₁, r₁, _, hrun, hcalls, fun hproduced w' hw' => ?_⟩
  have hawaited : Awaited w.files root top [] scan.units :=
    ⟨h, fun s hs _ => h.found_of_scan hscan s hs⟩
  obtain ⟨hevolved, h', -⟩ := replay_evolved (p := p) hawaited
  rw [← hfiles] at hevolved h'
  obtain ⟨scan', events', hscan', hsame⟩ := hevolved.scan h h' hscan
  rw [← hw'] at hscan'
  obtain ⟨w₂, b₂, r₂, hrun', hfiles', hcalls', hunits'⟩ := run_replay (p := p) hscan'
  obtain ⟨hidle, hreports, huncalled⟩ := replay_refreshed hawaited hfiles.symm
    (fun s hs => absurd hs List.not_mem_nil) (hscanned scan events hscan) hproduced
  rw [hw', hsame] at hfiles' hcalls' hunits'
  refine ⟨w₂, b₂, r₂, _, hrun', hcalls', hfiles'.trans hidle, ?_, ?_⟩
  · rw [hunits, hunits']
    exact hreports
  · rw [hunits]
    exact huncalled

/-- A class ending its pool in a `long`, and a file that is no class. -/
def mixedUnits : List ScannedUnit :=
  [⟨⟨"A.class"⟩, ⟨"c/A.class"⟩, (ClassFile.Layout.endingWide 5).encode⟩,
    ⟨⟨"B.class"⟩, ⟨"c/B.class"⟩, [0xca]⟩]

/-- A workspace with both of them in a directory. -/
def mixedWorkspace : Workspace where
  files := ⟨[], [(["c"], .directory),
    (["c", "A.class"], .file (ClassFile.Layout.endingWide 5).encode),
    (["c", "B.class"], .file [0xca])]⟩
  ledgers := []
  clock := 0
  events := []
  calls := []

/-- A processor with one pass, which adds an attribute. -/
def tagging : Processor := .ofChain [.attributeTag ⟨"tag", "1"⟩ "Tag" [1]] [] none

/-- What the pass makes of the class. -/
def tagged : ClassFile.Layout :=
  { ClassFile.Layout.endingWide 5 with
    poolCount := 6
    constants := (ClassFile.Layout.endingWide 5).constants ++ [.utf8 [0x54, 0x61, 0x67]]
    attributes := [⟨5, [1]⟩] }

theorem classRoot_mixed : mixedWorkspace.files.ClassRoot ⟨"c"⟩ ["c"] where
  tree := .of_listed (by decide) (by decide)
  resolves := by decide +kernel
  directory := rfl
  linkFree := .of_listed (by decide)

theorem scan_mixed : ∃ scan events,
    mixedWorkspace.files.scan ⟨"c"⟩ true = .ok (scan, events) ∧ scan.units = mixedUnits := by
  have hvisited : mixedWorkspace.files.visited ⟨"c"⟩ ["c"] true = [["A.class"], ["B.class"]] := by
    rw [FileTree.visited, if_neg (by decide +kernel)]
    cbv
  obtain ⟨scan, events, hscan, hunits⟩ := classRoot_mixed.scan_ok true
  rw [hvisited] at hunits
  exact ⟨scan, events, hscan, hunits.trans (by decide +kernel)⟩

/-- One class is tagged, marked and written, the other file fails; a second
run leaves both alone. -/
theorem rerun_idempotent_mixed :
    mixedWorkspace.files.ClassRoot ⟨"c"⟩ ["c"] ∧ ∃ w₁ b₁ r₁ w₂ b₂ r₂ calls,
      run (fresh tagging none) mixedWorkspace ⟨"c"⟩ true = .ok (w₁, b₁, r₁) ∧
      r₁.units.map (fun r => (r.unit, r.state, r.committed.isSome)) =
        [("A", .enhanced, true), ("B", .failed, false)] ∧
      run (fresh tagging none) w₁ ⟨"c"⟩ true = .ok (w₂, b₂, r₂) ∧
      w₂.calls = w₁.calls ++ calls ∧ w₂.files = w₁.files ∧ List.Forall₂ Rerun r₁.units r₂.units ∧
      ∀ r ∈ r₁.units, r.committed.isSome = true → ∀ call ∈ calls, call.unit ≠ r.unit := by
  obtain ⟨scan, events, hscan, hscanned⟩ := scan_mixed
  have hcomplete : ∀ s ∈ mixedUnits, ClassFile.PoolComplete s.bytes := by
    rw [mixedUnits, List.forall_mem_cons, List.forall_mem_singleton]
    refine ⟨fun l hl c hlast => ?_, fun l hl => by cases hl⟩
    have hread : ClassFile.Layout.read (ClassFile.Layout.endingWide 5).encode =
        .ok (.endingWide 5) := by decide
    obtain rfl := Except.ok.inj (hread.symm.trans hl)
    cases hlast
  obtain ⟨w₁, b₁, r₁, calls₁, hrun, hcalls, hagain⟩ := rerun_idempotent (p := tagging)
    classRoot_mixed fun scan' events' hscan' s hs => hcomplete s (by
      obtain ⟨rfl, -⟩ := Prod.mk.inj (Except.ok.inj (hscan.symm.trans hscan'))
      rwa [hscanned] at hs)
  obtain ⟨w, b, r, hrun', -, hcalls', hunits⟩ := run_replay (p := tagging) hscan
  rw [hrun] at hrun'
  obtain ⟨rfl, hrest⟩ := Prod.mk.inj (Except.ok.inj hrun')
  obtain ⟨rfl, rfl⟩ := Prod.mk.inj hrest
  obtain ⟨hcalled, hstates⟩ : calls₁ = [⟨0, ⟨"tag", "1"⟩, "A",
        (ClassFile.Layout.endingWide 5).encode, (ClassFile.Layout.endingWide 5).encode⟩] ∧
      r₁.units.map (fun r => (r.unit, r.state, r.committed.isSome)) =
        [("A", .enhanced, true), ("B", .failed, false)] := by
    rw [List.append_cancel_left (hcalls.symm.trans hcalls'), hunits, hscanned]
    decide +kernel
  have hproduced : ∀ bytes, tagging.chain.Produced calls₁ bytes → ClassFile.PoolComplete bytes := by
    rintro bytes ⟨call, hcall, pass, hpass, hran⟩ l hl c hlast
    rw [hcalled, List.mem_singleton] at hcall
    subst hcall
    obtain rfl := Option.some.inj hpass
    have hbytes : (Pass.attributeTag ⟨"tag", "1"⟩ "Tag" [1]).run ⟨"A",
        (ClassFile.Layout.endingWide 5).encode, (ClassFile.Layout.endingWide 5).encode⟩ =
        .ok (some tagged.encode) := by decide +kernel
    obtain rfl := Option.some.inj (Except.ok.inj (hbytes.symm.trans hran))
    have hread : ClassFile.Layout.read tagged.encode = .ok tagged := by decide
    obtain rfl := Except.ok.inj (hread.symm.trans hl)
    cases hlast
    rfl
  obtain ⟨w₂, b₂, r₂, calls, hrest⟩ := hagain hproduced w₁ rfl
  exact ⟨classRoot_mixed, w₁, b₁, r₁, w₂, b₂, r₂, calls, hrun, hstates, hrest⟩

end Batch

end ClassWeave
