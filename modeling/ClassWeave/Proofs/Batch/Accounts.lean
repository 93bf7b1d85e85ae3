import ClassWeave.Proofs.Batch.Replay
import ClassWeave.Proofs.Scan
import Mathlib
/-!
# Batch -- what a run accounts for

A run keeps one unit for each name. The first class file of a name is
processed, kept and accounted for (`Batch.Accounted`); a later one of the
same name is not looked at, and is reported as the unit that is kept
(`Batch.Tells`). So a run accounts for every class file of its scan exactly
if their names differ (`run_accounts_iff`); the names of two class files may
be the same, since a dot in the name of a directory reads like a directory
of its own (`run_colliding`).
-/


namespace ClassWeave

namespace UnitCache

variable {cache : UnitCache} {name : String} {u : ClassUnit}

/-- **The names are those that a unit is kept for**, if no name has two
slots. -/
theorem mem_names (h : (cache.map Prod.fst).Nodup) :
    name ∈ cache.names ↔ cache.get? name ≠ none := by
  rw [names, List.mem_mergeSort]
  induction cache with
  | nil => simp [get?]
  | cons slot cache ih =>
    obtain ⟨key, v⟩ := slot
    rw [List.map_cons, List.nodup_cons] at h
    have hbehind : key ∉ (cache.filter fun p => p.2.isSome).map Prod.fst := fun hkey =>
      h.1 ((List.filter_sublist.map Prod.fst).subset hkey)
    by_cases hkey : name = key
    · subst hkey
      cases v with
      | none => simpa [get?] using hbehind
      | some u => simp [get?]
    · have hget : get? ((key, v) :: cache) name = get? cache name := by
        rw [get?, List.lookup_cons, beq_eq_false_iff_ne.2 hkey, get?]
      rw [hget, ← ih h.2]
      cases v with
      | none => simp
      | some u => simp [hkey]

theorem nodup_names (h : (cache.map Prod.fst).Nodup) : cache.names.Nodup := by
  rw [names, (List.mergeSort_perm _ _).nodup_iff]
  exact h.sublist (List.filter_sublist.map Prod.fst)

theorem nodup_put (h : (cache.map Prod.fst).Nodup) :
    ((cache.put name u).map Prod.fst).Nodup :=
  FileTree.nodup_cons_filter_ne h _ _

end UnitCache

namespace Batch

variable {p : Processor} {destination : Option Path} {seen units : List ScannedUnit}
  {s s₀ : ScannedUnit} {cache cache' : UnitCache} {r : UnitReport}

/-- The unit that a class file stands for, met first. -/
def ownUnit (destination : Option Path) (s : ScannedUnit) : ClassUnit :=
  .fresh s.qualifiedName (locate destination s) s.bytes

/-- What becomes of that unit by itself, in some workspace. -/
def alone (p : Processor) (destination : Option Path) (w : Workspace) (s : ScannedUnit) :
    Processed :=
  p.process w (ownUnit destination s)

/-- **A class file that a run accounts for**: the unit that is kept for its
name was made of its own octets, for its own place, and is settled; the
report says how it was, and if it was enhanced, that it was written to its
own output or why it was not. -/
structure Accounted (p : Processor) (destination : Option Path) (cache : UnitCache)
    (s : ScannedUnit) (r : UnitReport) : Prop where
  processed : ∃ w, cache.get? s.qualifiedName = some (alone p destination w s).unit ∧
    r = (alone p destination w s).report
  own : ∃ u, cache.get? s.qualifiedName = some u ∧ u.compiled = s.bytes ∧
    u.location = locate destination s ∧ u.state.isFinal = true ∧ u.state = r.state
  written : r.state = .enhanced →
    (∃ receipt, r.committed = some receipt ∧ receipt.path = (locate destination s).output) ∨
      ∃ e, r.persistenceError = some e ∧ e.path = (locate destination s).output

/-- **What a run tells of class files**, behind others: each is accounted
for if it is the first of its name, and otherwise reported as the unit that
was made of the first. -/
inductive Tells (p : Processor) (destination : Option Path) (cache : UnitCache) :
    List ScannedUnit → List ScannedUnit → List UnitReport → Prop
  | nil (seen : List ScannedUnit) : Tells p destination cache seen [] []
  | first {seen units : List ScannedUnit} {s : ScannedUnit} {r : UnitReport}
      {reports : List UnitReport} : first? seen s.qualifiedName = none →
      Accounted p destination cache s r → Tells p destination cache (seen ++ [s]) units reports →
      Tells p destination cache seen (s :: units) (r :: reports)
  | again {seen units : List ScannedUnit} {s s₀ : ScannedUnit} {u : ClassUnit}
      {reports : List UnitReport} : first? seen s.qualifiedName = some s₀ →
      cache.get? s.qualifiedName = some u → u.compiled = s₀.bytes →
      u.location = locate destination s₀ → Tells p destination cache (seen ++ [s]) units reports →
      Tells p destination cache seen (s :: units) (.settled u :: reports)

/-- **A cache that holds the first class files of the names met so far**,
each as its settled unit, and no others. -/
structure Holds (destination : Option Path) (seen : List ScannedUnit) (cache : UnitCache) :
    Prop where
  nodup : (cache.map Prod.fst).Nodup
  unmet : ∀ name, first? seen name = none → cache.get? name = none
  met : ∀ name s₀, first? seen name = some s₀ → ∃ u, cache.get? name = some u ∧
    u.compiled = s₀.bytes ∧ u.location = locate destination s₀ ∧ u.state.isFinal = true

/-- An enhanced unit is reported with its receipt or with the reason why it
could not be written. -/
theorem written_report {f : Fate} {t : FileTree} {path : Path} {name : String}
    (h : (f.report t path name).state = .enhanced) :
    (∃ receipt, (f.report t path name).committed = some receipt ∧ receipt.path = path) ∨
      ∃ e, (f.report t path name).persistenceError = some e ∧ e.path = path := by
  cases f with
  | skipped reason => cases h
  | failed message enhancer => cases h
  | enhanced out =>
    simp only [Fate.report]
    split
    · exact .inr ⟨_, rfl, rfl⟩
    · exact .inl ⟨_, rfl, rfl⟩

/-- A unit that is processed keeps what it was made of, and is settled. -/
theorem alone_kept {w : Workspace} {done : Processed} (hdone : alone p destination w s = done) :
    done.unit.compiled = s.bytes ∧ done.unit.location = locate destination s ∧
      done.unit.state.isFinal = true := by
  obtain ⟨hfinal, -, ⟨-, hlocation, hcompiled⟩, -⟩ :=
    p.process_meets w s.qualifiedName (locate destination s) s.bytes
  rw [← ownUnit, ← alone, hdone] at hfinal hlocation hcompiled
  exact ⟨hcompiled, hlocation, hfinal⟩

/-- **A class file whose unit is kept is accounted for.** -/
theorem accounted_alone {w : Workspace} {done : Processed}
    (hdone : alone p destination w s = done)
    (hkept : cache.get? s.qualifiedName = some done.unit) :
    Accounted p destination cache s done.report := by
  obtain ⟨hcompiled, hlocation, hfinal⟩ := alone_kept hdone
  obtain ⟨-, hsettled, -, -, -, -, -, hreport⟩ :=
    p.process_meets w s.qualifiedName (locate destination s) s.bytes
  rw [← ownUnit, ← alone, hdone] at hsettled hreport
  refine ⟨⟨w, by rw [hkept, hdone], by rw [hdone]⟩,
    ⟨_, hkept, hcompiled, hlocation, hfinal, ?_⟩, fun henhanced => ?_⟩
  · rw [hreport, Fate.state_report, ← hsettled, UnitReport.settled]
  · rw [hreport] at henhanced ⊢
    exact written_report henhanced

/-! ## One class file more -/

theorem Holds.nil : Holds destination [] [] where
  nodup := List.nodup_nil
  unmet _ _ := rfl
  met _ _ h := by cases h

/-- A name met again is kept as it is. -/
theorem Holds.again {u : ClassUnit} (h : Holds destination seen cache)
    (hs : first? seen s.qualifiedName = some s₀) (hu : cache.get? s.qualifiedName = some u) :
    Holds destination (seen ++ [s]) (cache.put s.qualifiedName u) where
  nodup := UnitCache.nodup_put h.nodup
  unmet other hnone := by
    rw [UnitCache.get?_put_again hu]
    exact h.unmet other (first?_concat_eq_none.1 hnone).2
  met other s₁ hsome := by
    rw [UnitCache.get?_put_again hu]
    rw [first?_again hs] at hsome
    exact h.met other s₁ hsome

/-- One name more is kept when the unit of its first class file is put. -/
theorem Holds.first {u : ClassUnit} (h : Holds destination seen cache)
    (hs : first? seen s.qualifiedName = none) (hcompiled : u.compiled = s.bytes)
    (hlocation : u.location = locate destination s) (hfinal : u.state.isFinal = true) :
    Holds destination (seen ++ [s]) (cache.put s.qualifiedName u) where
  nodup := UnitCache.nodup_put h.nodup
  unmet other hnone := by
    obtain ⟨hne, hunmet⟩ := first?_concat_eq_none.1 hnone
    rw [UnitCache.get?_put_of_ne _ _ hne]
    exact h.unmet other hunmet
  met other s₀ hsome := by
    rw [first?_concat hs] at hsome
    split at hsome
    · next heq =>
      obtain rfl := Option.some.inj hsome
      rw [heq]
      exact ⟨u, UnitCache.get?_put_self _ _ _, hcompiled, hlocation, hfinal⟩
    · next hne =>
      rw [UnitCache.get?_put_of_ne _ _ hne]
      exact h.met other s₀ hsome

/-- A step over a name met again: its unit is reported as it is kept. -/
theorem step_met {r : Progress} {u : ClassUnit}
    (hu : r.batch.cache.get? s.qualifiedName = some u) (hfinal : u.state.isFinal = true) :
    step r s = { r with
      batch := { r.batch with cache := r.batch.cache.put s.qualifiedName u }
      reports := .settled u :: r.reports } := by
  have hunit : r.batch.unitOf s = u := by rw [unitOf, hu, Option.getD_some]
  have hprocess : r.batch.processor.process r.workspace u = Processor.rest r.workspace u := by
    rw [Processor.process, if_pos hfinal]
  simp only [step, hunit, hprocess, Processor.rest]

/-- A step over a name that was not met: its unit is processed and kept. -/
theorem step_unmet {r : Progress} {done : Processed}
    (hnone : r.batch.cache.get? s.qualifiedName = none)
    (hdone : alone r.batch.processor r.batch.destination r.workspace s = done) :
    step r s = {
      workspace := done.workspace
      batch := { r.batch with cache := r.batch.cache.put s.qualifiedName done.unit }
      reports := done.report :: r.reports } := by
  have hunit : r.batch.unitOf s = ownUnit r.batch.destination s := by
    rw [unitOf, hnone, Option.getD_none, ownUnit]
  rw [← hdone]
  simp only [step, hunit, alone]

/-- **What class files come to, one after another**: the cache goes on to
hold their units, and what is reported tells of all of them. -/
theorem foldl_tells (units : List ScannedUnit) {r : Progress}
    (hholds : Holds r.batch.destination seen r.batch.cache) :
    Holds r.batch.destination (seen ++ units) (units.foldl step r).batch.cache ∧
      (∀ name u, r.batch.cache.get? name = some u →
        (units.foldl step r).batch.cache.get? name = some u) ∧
      ∃ reports, (units.foldl step r).reports = reports.reverse ++ r.reports ∧
        Tells r.batch.processor r.batch.destination (units.foldl step r).batch.cache seen units
          reports := by
  -- on the class files left, the cache holding those behind
  induction units generalizing seen r with
  | nil => exact ⟨by rwa [List.append_nil], fun _ _ h => h, [], rfl, .nil seen⟩
  | cons s units ih =>
    rw [List.foldl_cons, List.append_cons]
    rcases hs : first? seen s.qualifiedName with _ | s₀
    · obtain ⟨done, hdone⟩ : ∃ done, alone r.batch.processor r.batch.destination r.workspace s = done :=
        ⟨_, rfl⟩
      have hnone := hholds.unmet _ hs
      obtain ⟨hcompiled, hlocation, hfinal⟩ := alone_kept hdone
      rw [step_unmet hnone hdone]
      obtain ⟨ihholds, ihkept, reports, hreports, htells⟩ := ih (r := {
        workspace := done.workspace
        batch := { r.batch with cache := r.batch.cache.put s.qualifiedName done.unit }
        reports := done.report :: r.reports }) (hholds.first hs hcompiled hlocation hfinal)
      refine ⟨ihholds, fun name v hv => ihkept name v (UnitCache.get?_put_new hnone hv),
        done.report :: reports, ?_,
        .first hs (accounted_alone hdone (ihkept _ _ (UnitCache.get?_put_self _ _ _))) htells⟩
      rw [hreports]
      simp
    · obtain ⟨u, hu, hcompiled, hlocation, hfinal⟩ := hholds.met _ _ hs
      rw [step_met hu hfinal]
      obtain ⟨ihholds, ihkept, reports, hreports, htells⟩ := ih (r := { r with
        batch := { r.batch with cache := r.batch.cache.put s.qualifiedName u }
        reports := .settled u :: r.reports }) (hholds.again hs hu)
      refine ⟨ihholds, fun name v hv => ihkept name v ?_, .settled u :: reports, ?_,
        .again hs (ihkept _ _ (UnitCache.get?_put_self _ _ _)) hcompiled hlocation htells⟩
      · rw [UnitCache.get?_put_again hu]
        exact hv
      · rw [hreports]
        simp

/-! ## A whole run -/

theorem first?_ne_none {name : String} :
    first? seen name ≠ none ↔ name ∈ seen.map ScannedUnit.qualifiedName := by
  rw [ne_eq, first?_eq_none, List.mem_map]
  push Not
  rfl

/-- There are as many units as there are names. -/
theorem Holds.length (h : Holds destination seen cache) :
    cache.length = (seen.map ScannedUnit.qualifiedName).dedup.length := by
  have hnodup := UnitCache.nodup_names h.nodup
  have hperm : cache.names.Perm (seen.map ScannedUnit.qualifiedName).dedup := by
    refine (List.perm_ext_iff_of_nodup hnodup (List.nodup_dedup _)).2 fun name => ?_
    rw [UnitCache.mem_names h.nodup, List.mem_dedup, ← first?_ne_none]
    constructor
    · exact fun hsome hnone => hsome (h.unmet _ hnone)
    · intro hmet
      obtain ⟨s₀, hs₀⟩ := Option.ne_none_iff_exists'.1 hmet
      obtain ⟨u, hu, -⟩ := h.met _ _ hs₀
      rw [hu]
      exact Option.some_ne_none u
  rw [← hperm.length_eq, UnitCache.length]

/-- Where no name is met again, every class file is accounted for. -/
theorem Tells.accounted {reports : List UnitReport}
    (h : Tells p destination cache seen units reports)
    (hnodup : (units.map ScannedUnit.qualifiedName).Nodup)
    (hunmet : ∀ s ∈ units, first? seen s.qualifiedName = none) :
    List.Forall₂ (Accounted p destination cache) units reports := by
  induction h with
  | nil => exact .nil
  | @first seen units s r reports _ hr _ ih =>
    rw [List.map_cons, List.nodup_cons] at hnodup
    refine .cons hr (ih hnodup.2 fun s' hs' => first?_concat_eq_none.2 ⟨fun heq => ?_,
      hunmet s' (List.mem_cons_of_mem _ hs')⟩)
    exact hnodup.1 (heq ▸ List.mem_map_of_mem hs')
  | again hs =>
    rw [hunmet _ List.mem_cons_self] at hs
    cases hs

/-- A fresh run holds the class files of its scan, and tells of them. -/
theorem run_tells {w : Workspace} {root : Path} {recursive : Bool} {scan : ScanReport}
    {events : List Event} (hscan : w.files.scan root recursive = .ok (scan, events)) :
    ∃ w' b' r, run (fresh p destination) w root recursive = .ok (w', b', r) ∧
      Holds destination scan.units b'.cache ∧ Tells p destination b'.cache [] scan.units r.units := by
  obtain ⟨hholds, -, reports, hreports, htells⟩ := foldl_tells scan.units
    (r := ⟨w.report events, fresh p destination, []⟩) (show Holds destination [] [] from .nil)
  rw [List.append_nil] at hreports
  rw [run, hscan]
  refine ⟨_, _, _, rfl, hholds, ?_⟩
  rw [reportOf, processAll, hreports, List.reverse_reverse]
  exact htells

/-- **What a fresh run accounts for.** Whatever a scan finds, a run over it
keeps one settled unit for each name, accounts for the first class file of
the name, and reports each later one as that unit stands, without writing
it. So it accounts for all of them, with a unit for each, exactly if no
two have the same name. -/
theorem run_accounts_iff {w : Workspace} {root : Path} {recursive : Bool} {scan : ScanReport}
    {events : List Event} (hscan : w.files.scan root recursive = .ok (scan, events)) :
    ∃ w' b' r, run (fresh p destination) w root recursive = .ok (w', b', r) ∧
      Tells p destination b'.cache [] scan.units r.units ∧
      b'.cache.length = (scan.units.map ScannedUnit.qualifiedName).dedup.length ∧
      ((b'.cache.length = scan.units.length ∧
          List.Forall₂ (Accounted p destination b'.cache) scan.units r.units) ↔
        (scan.units.map ScannedUnit.qualifiedName).Nodup) := by
  obtain ⟨w', b', r, hrun, hholds, htells⟩ := run_tells (p := p) hscan
  refine ⟨w', b', r, hrun, htells, hholds.length, fun ⟨hlength, _⟩ => ?_, fun hnodup => ⟨?_, ?_⟩⟩
  · rw [hholds.length] at hlength
    rw [← List.dedup_eq_self]
    exact (List.dedup_sublist _).eq_of_length (by rw [List.length_map]; exact hlength)
  · rw [hholds.length, hnodup.dedup, List.length_map]
  · exact htells.accounted hnodup fun s _ => rfl

/-- A class that declares the name `a/b/C`. -/
def nestedClass : Bytes :=
  [0xca, 0xfe, 0xba, 0xbe, 0, 0, 0, 0x34, 0, 3, 1, 0, 5, 0x61, 0x2f, 0x62, 0x2f, 0x43, 7, 0, 1,
    0, 0x21, 0, 2, 0, 0, 0, 0, 0, 0, 0, 0, 0, 0]

/-- Two places for it, of one name: a directory in another, and one with a
dot in its name. -/
def collidingUnits : List ScannedUnit :=
  [⟨⟨"a/b/C.class"⟩, ⟨"c/a/b/C.class"⟩, nestedClass⟩,
    ⟨⟨"a.b/C.class"⟩, ⟨"c/a.b/C.class"⟩, nestedClass⟩]

/-- A workspace with the class at both. -/
def collidingWorkspace : Workspace where
  files := ⟨[], [(["c"], .directory), (["c", "a"], .directory), (["c", "a", "b"], .directory),
    (["c", "a", "b", "C.class"], .file nestedClass), (["c", "a.b"], .directory),
    (["c", "a.b", "C.class"], .file nestedClass)]⟩
  ledgers := []
  clock := 0
  events := []
  calls := []

theorem scan_colliding : ∃ scan events,
    collidingWorkspace.files.scan ⟨"c"⟩ true = .ok (scan, events) ∧ scan.units = collidingUnits := by
  have hroot : collidingWorkspace.files.ClassRoot ⟨"c"⟩ ["c"] := {
    tree := .of_listed (by decide) (by decide)
    resolves := by decide +kernel
    directory := rfl
    linkFree := .of_listed (by decide) }
  have hvisited : collidingWorkspace.files.visited ⟨"c"⟩ ["c"] true =
      [["a"], ["a", "b"], ["a", "b", "C.class"], ["a.b"], ["a.b", "C.class"]] := by
    rw [FileTree.visited, if_neg (by decide +kernel)]
    cbv
  obtain ⟨scan, events, hscan, hunits⟩ := hroot.scan_ok true
  rw [hvisited] at hunits
  exact ⟨scan, events, hscan, hunits.trans (by decide +kernel)⟩

/-- A run over them does not account for both. -/
theorem run_accounts_iff_colliding : ∃ scan events w' b' r,
    collidingWorkspace.files.scan ⟨"c"⟩ true = .ok (scan, events) ∧
      run (fresh .marking none) collidingWorkspace ⟨"c"⟩ true = .ok (w', b', r) ∧
      Tells .marking none b'.cache [] scan.units r.units ∧
      ¬ (b'.cache.length = scan.units.length ∧
        List.Forall₂ (Accounted .marking none b'.cache) scan.units r.units) := by
  obtain ⟨scan, events, hscan, hunits⟩ := scan_colliding
  obtain ⟨w', b', r, hrun, htells, -, hiff⟩ := @run_accounts_iff .marking none _ _ _ _ _ hscan
  refine ⟨scan, events, w', b', r, hscan, hrun, htells, hiff.not.2 ?_⟩
  rw [hunits]
  decide +kernel

/-- The class in the directory with a dot is reported as enhanced, but there
is no unit for it, and it was neither written nor could it not be. -/
theorem run_colliding : ∃ scan events w' b' r,
    collidingWorkspace.files.scan ⟨"c"⟩ true = .ok (scan, events) ∧ scan.units = collidingUnits ∧
      run (fresh .marking none) collidingWorkspace ⟨"c"⟩ true = .ok (w', b', r) ∧
      b'.cache.length = 1 ∧
      r.units.map (fun r => (r.unit, r.state, r.committed.isSome, r.persistenceError.isSome)) =
        [("a.b.C", .enhanced, true, false), ("a.b.C", .enhanced, false, false)] ∧
      w'.files.read ⟨"c/a.b/C.class"⟩ = .ok nestedClass := by
  obtain ⟨scan, events, hscan, hunits⟩ := scan_colliding
  obtain ⟨w', b', r, hrun, hfiles, -, hreports⟩ := run_replay (p := .marking) hscan
  obtain ⟨w₁, b₁, r₁, hrun₁, hholds, -⟩ := @run_tells .marking none _ _ _ _ _ hscan
  obtain ⟨-, hbatch⟩ := Prod.mk.inj (Except.ok.inj (hrun₁.symm.trans hrun))
  obtain ⟨rfl, -⟩ := Prod.mk.inj hbatch
  refine ⟨scan, events, w', b₁, r, hscan, hunits, hrun, ?_, ?_⟩
  · rw [hholds.length, hunits]
    decide +kernel
  · rw [hreports, hfiles, hunits]
    decide +kernel

end Batch

end ClassWeave
