import ClassWeave.Proofs.Batch.Separate
import ClassWeave.Proofs.Driver
/-!
# Loader -- names asked one by one against a run

A run goes from the class files of a tree to their names, a loader from
names to class files. For class files that can be asked for by their names
(`ScannedUnit.Loadable`) they come to the same units: a request processes a
class file as a run does when it is its turn (`ask_loadable`). A run leaves
each of them as it leaves it alone (`Batch.cache_processAll`), and so do
requests for all of them in any order (`askAll_adds`), since the files that
matter to one are not touched by the others. So both leave the same files and
the same units, with the same calls (`askAll_agrees`).

The destination is to be one without a step up behind a directory that is
missing, as it is for a run (`askAll_detour`).
-/


namespace ClassWeave

/-- A name without slashes is in qualified writing. -/
theorem ClassFile.qualifiedOfInternal_flat {name : String} (h : '/' ∉ name.toList) :
    qualifiedOfInternal name = name := by
  have hsame : name.toList.map (fun c => if c = '/' then '.' else c) = name.toList := by
    refine (List.map_congr_left fun c hc => ?_).trans (List.map_id _)
    have hne : c ≠ '/' := fun heq => h (heq ▸ hc)
    rw [if_neg hne]
    rfl
  rw [qualifiedOfInternal, respell, hsame, String.ofList_toList]

/-- **A class file that can be asked for by its name**: it is where the class
path of the name leads, the name is that of a class and of no array, without
blanks around it, and if the file is a class file it declares that name. -/
structure ScannedUnit.Loadable (s : ScannedUnit) : Prop where
  relative : s.relative = ⟨ClassFile.classPath s.qualifiedName⟩
  trimmed : Text.trimString s.qualifiedName = s.qualifiedName
  array : s.qualifiedName.toList.head? ≠ some '['
  fault : Loader.nameFault? s.qualifiedName = none
  declared : ∀ c, ClassFile.parse s.bytes = .ok c → c.qualifiedName = s.qualifiedName

theorem ScannedUnit.Loadable.normalName {s : ScannedUnit} (h : s.Loadable) :
    Loader.normalName s.qualifiedName = s.qualifiedName := by
  rw [Loader.normalName, h.trimmed]
  exact ClassFile.qualifiedOfInternal_flat (Path.flat_qualifiedName _)

namespace Batch

open FileTree (Sites Merges SameFiles Alike Apart Writing)

variable {p : Processor} {destination : Option Path} {w w' : Workspace} {root : Path}
  {top place : Location} {s : ScannedUnit} {above : List String} {n : String}
  {seen units : List ScannedUnit} {o : Writing} {t' : FileTree}

/-! ## The units of a run -/

/-- A class file becomes the same unit in trees that are alike for its
output. -/
theorem Turn.unit_alike (h : Turn destination w.files top place s above n o)
    (halike : Alike w.files w'.files (place ++ above) n) :
    (alone p destination w' s).unit = (alone p destination w s).unit :=
  Processor.unit_process_congr
    (EligibilityFilter.classify_congr (h.outlet.read_congr h.start.tree halike))

/-- A class file is told as its unit stands. -/
theorem says_alone (p : Processor) (destination : Option Path) (w : Workspace) (s : ScannedUnit) :
    (alone p destination w s).report.Says (alone p destination w s).unit := by
  obtain ⟨-, hsettled, -, -, -, -, -, hreport⟩ :=
    p.process_meets w s.qualifiedName (locate destination s) s.bytes
  rw [← ownUnit, ← alone] at hsettled hreport
  rw [hreport]
  exact UnitReport.says_of_settled _ _ _ hsettled

/-- A class file in a reserved namespace is left alone. -/
theorem alone_reserved (destination : Option Path) (w : Workspace)
    (h : (p.filter.platformNamespace? s.qualifiedName).isSome = true) :
    aloneFiles p destination w s = w.files ∧ aloneCalls p destination w s = [] := by
  have hexempt : (p.filter.nameExemption? s.qualifiedName).isSome = true := by
    obtain ⟨s, hs⟩ := Option.isSome_iff_exists.1 h
    simp only [EligibilityFilter.nameExemption?, hs]
    split <;> rfl
  obtain ⟨reason, hreason⟩ := Option.isSome_iff_exists.1 hexempt
  have hverdict : p.filter.classify w.files (ownUnit destination s) = .ok (.exempt reason, []) := by
    rw [EligibilityFilter.classify, name_ownUnit, hreason]
  have hskip : (Verdict.exempt reason).skipReason? = some (.exempt reason) := rfl
  obtain ⟨hfate, hcalls⟩ := p.fateOn_skip (ownUnit destination s) [] hskip
  obtain ⟨-, hfiles, -⟩ := alone_meets p destination w s
  rw [hfiles, aloneFate, aloneCalls, hverdict, hfate, hcalls]
  exact ⟨rfl, rfl⟩

/-- **A class file that is still to come is read as it was found**, if the
output goes over the class root or to a place apart. -/
theorem read_unseen (h : Sites w.files root (destination.getD root) top place)
    (hplace : place = top ∨ Apart top place) (hs : Scan.Found w.files root top s)
    (hseen : ∀ s' ∈ seen, Scan.Found w.files root top s')
    (hne : ∀ s' ∈ seen, s'.qualifiedName ≠ s.qualifiedName) (htree : t'.IsTree)
    (hmerges : Merges w.files (seen.map (aloneFiles p destination w)) t') :
    t'.read s.path = .ok s.bytes := by
  refine Scan.Found.read (h.classRoot.grown htree (grown_of_merges h hseen hmerges)) ?_
  obtain ⟨above, n, o, hturn⟩ := exists_turn h hs
  obtain ⟨names, hnames, hrelative, hpath, hclass, hshort, hentry⟩ := hs
  refine ⟨names, hnames, hrelative, hpath, hclass, hshort, ?_⟩
  rw [← hentry]
  rcases hplace with rfl | hapart
  · -- over the class root its own output is where it is itself
    have hsame : names = above ++ [n] :=
      Scan.relativePath_inj (h.classRoot.tree.of_isSome (by rw [hentry]; rfl)).1 hnames
        (h.classRoot.tree.of_isSome (by rw [hturn.entry]; rfl)).1 (by simp)
        (hrelative.symm.trans hturn.relative)
    have halike := (hturn.alike (p := p) h hseen hne htree hmerges).entry
    rwa [List.append_assoc, ← hsame] at halike
  · exact below_merged h hapart hseen hmerges (List.prefix_append _ _)

/-- **A run keeps of each class file the unit that it is by itself.** -/
theorem cache_processAll (h : Sites w.files root (destination.getD root) top place)
    (hfound : ∀ s ∈ units, Scan.Found w.files root top s)
    (hnodup : (units.map ScannedUnit.qualifiedName).Nodup) (hw' : w'.files = w.files)
    (hs : s ∈ units) :
    ((fresh p destination).processAll w' units).batch.cache.get? s.qualifiedName =
      some (alone p destination w s).unit := by
  obtain ⟨front, back, rfl⟩ := List.append_of_mem hs
  rw [List.forall_mem_append] at hfound
  rw [List.map_append, List.map_cons, List.nodup_append] at hnodup
  obtain ⟨hfront, -, hapart⟩ := hnodup
  have hne : ∀ s' ∈ front, s'.qualifiedName ≠ s.qualifiedName := fun s' hs' =>
    hapart _ (List.mem_map_of_mem hs') _ List.mem_cons_self
  obtain ⟨mid, hmid⟩ : ∃ mid, (fresh p destination).processAll w' front = mid := ⟨_, rfl⟩
  -- up to the class file, and over it
  obtain ⟨htree, hmerges, -⟩ := processAll_pointwise (p := p) h hfound.1 hfront hw'
  rw [hmid] at htree hmerges
  obtain ⟨hprocessor, hdestination⟩ : mid.batch.processor = p ∧
      mid.batch.destination = destination := by
    rw [← hmid, processAll, batch_foldl]
    exact ⟨rfl, rfl⟩
  have hholds : Holds destination front mid.batch.cache := by
    rw [← hmid]
    exact (foldl_tells front (r := ⟨w', fresh p destination, []⟩)
      (show Holds destination [] [] from .nil)).1
  have hunmet : first? front s.qualifiedName = none := first?_eq_none.2 hne
  obtain ⟨done, hdone⟩ : ∃ done, alone p destination mid.workspace s = done := ⟨_, rfl⟩
  have hstep : step mid s = ⟨done.workspace, { mid.batch with
      cache := mid.batch.cache.put s.qualifiedName done.unit }, done.report :: mid.reports⟩ :=
    step_unmet (hholds.unmet _ hunmet) (by rw [hprocessor, hdestination]; exact hdone)
  have hunit : done.unit = (alone p destination w s).unit := by
    obtain ⟨above, n, o, hturn⟩ := exists_turn h (hfound.2 s List.mem_cons_self)
    rw [← hdone]
    exact hturn.unit_alike (hturn.alike (p := p) h hfound.1 hne htree hmerges)
  -- what is kept stays to the end
  obtain ⟨hcompiled, hlocation, hfinal⟩ := alone_kept hdone
  have hholds' : Holds (step mid s).batch.destination (front ++ [s]) (step mid s).batch.cache := by
    rw [hstep, hdestination]
    exact hholds.first hunmet hcompiled hlocation hfinal
  obtain ⟨-, hkept, -⟩ := foldl_tells back hholds'
  rw [processAll, List.foldl_append, List.foldl_cons, ← processAll, hmid]
  refine hkept _ _ ?_
  rw [hstep, ← hunit]
  exact UnitCache.get?_put_self _ _ _

end Batch

namespace Loader

open FileTree (Sites Merges SameFiles Apart)
open Batch (alone aloneFiles aloneCalls)

variable {p : Processor} {destination : Option Path} {w : Workspace}
  {root : Path} {top place : Location} {s : ScannedUnit} {seen units : List ScannedUnit}
  {l : Loader} {name : String} {u : ClassUnit} {recursive : Bool} {scan : ScanReport}
  {events : List Event}

/-! ## Requests for many names -/

/-- Requests under way; the answers come last first, each with the name that
was asked for. -/
structure Requests where
  workspace : Workspace
  loader : Loader
  answers : List (String × Except LoadError DefinedClass)

/-- Requests after one more. -/
def ask (r : Requests) (raw : String) : Requests :=
  let response := r.loader.resolve r.workspace raw
  { workspace := response.workspace
    loader := response.loader
    answers := (raw, response.answer) :: r.answers }

/-- The names asked for one after another. -/
def askAll (l : Loader) (w : Workspace) (raws : List String) : Requests :=
  raws.foldl ask ⟨w, l, []⟩

/-- **A loader over a class root**, with its output going where that of a run
would. -/
structure Over (p : Processor) (root : Path) (destination : Option Path) (l : Loader) : Prop where
  processor : l.processor = p
  source : l.source = root
  destination : l.destination = destination.getD root

theorem Over.kept (h : l.Over p root destination) (cache : UnitCache)
    (delegated : List (String × DefinedClass)) :
    Over p root destination { l with cache := cache, delegated := delegated } :=
  ⟨h.processor, h.source, h.destination⟩

/-- **What requests add** to those before: they take some calls, and keep and
answer some units by name, but for the names that are reserved. -/
structure Adds (p : Processor) (done : List (String × ClassUnit)) (calls : List PassCall)
    (r r' : Requests) : Prop where
  calls : r'.workspace.calls = r.workspace.calls ++ calls
  others : ∀ name ∉ done.map Prod.fst, r'.loader.cache.get? name = r.loader.cache.get? name ∧
    r'.answers.lookup name = r.answers.lookup name
  kept : ∀ name u, (name, u) ∈ done → p.filter.platformNamespace? name = none →
    r'.loader.cache.get? name = some u ∧ r'.answers.lookup name = some (answerOf name u)

theorem Adds.nil (p : Processor) (r : Requests) : Adds p [] [] r r where
  calls := (List.append_nil _).symm
  others _ _ := ⟨rfl, rfl⟩
  kept _ _ h := by cases h

theorem mem_names_single {other : String} :
    other ∈ [(name, u)].map Prod.fst ↔ other = name := List.mem_singleton

/-- What one request adds. -/
theorem Adds.single {r r' : Requests} {calls : List PassCall}
    (hcalls : r'.workspace.calls = r.workspace.calls ++ calls)
    (hothers : ∀ other, other ≠ name → r'.loader.cache.get? other = r.loader.cache.get? other ∧
      r'.answers.lookup other = r.answers.lookup other)
    (hkept : p.filter.platformNamespace? name = none →
      r'.loader.cache.get? name = some u ∧ r'.answers.lookup name = some (answerOf name u)) :
    Adds p [(name, u)] calls r r' where
  calls := hcalls
  others other hother := hothers other (mt mem_names_single.2 hother)
  kept other v hmem hfree := by
    obtain ⟨rfl, rfl⟩ := Prod.mk.inj (List.mem_singleton.1 hmem)
    exact hkept hfree

/-- Requests for other names add to what was added. -/
theorem Adds.append {r r' r'' : Requests} {done done' : List (String × ClassUnit)}
    {calls calls' : List PassCall} (h : Adds p done calls r r') (h' : Adds p done' calls' r' r'')
    (hne : ∀ name ∈ done.map Prod.fst, name ∉ done'.map Prod.fst) :
    Adds p (done ++ done') (calls ++ calls') r r'' where
  calls := by rw [h'.calls, h.calls, List.append_assoc]
  others name hname := by
    rw [List.map_append, List.mem_append, not_or] at hname
    obtain ⟨hcache, hanswers⟩ := h'.others name hname.2
    rw [hcache, hanswers]
    exact h.others name hname.1
  kept name u hmem hfree := by
    rcases List.mem_append.1 hmem with hmem | hmem
    · obtain ⟨hcache, hanswers⟩ := h'.others name (hne name (List.mem_map.2 ⟨_, hmem, rfl⟩))
      rw [hcache, hanswers]
      exact h.kept name u hmem hfree
    · exact h'.kept name u hmem hfree

/-- **What the source tree has for the name of a class file** is the unit
that a run makes of the file. -/
theorem readLocal_loadable (h : l.Over p root destination) (hs : s.Loadable)
    (hpath : s.path = root.join s.relative) (hread : w.files.read s.path = .ok s.bytes) :
    l.readLocal w s.qualifiedName = .ok (some (Batch.ownUnit destination s)) := by
  have hsource : l.source.join ⟨ClassFile.classPath s.qualifiedName⟩ = s.path := by
    rw [h.source, hpath]
    exact congrArg root.join hs.relative.symm
  have hplace : (⟨s.path, l.destination.join ⟨ClassFile.classPath s.qualifiedName⟩⟩ : UnitLocation) =
      Batch.locate destination s := by
    rw [h.destination, ← hs.relative]
    rcases destination with _ | d
    · rw [Option.getD_none, ← hpath]
      rfl
    · rfl
  have hunit : ClassUnit.fresh s.qualifiedName
      ⟨s.path, l.destination.join ⟨ClassFile.classPath s.qualifiedName⟩⟩ s.bytes =
        Batch.ownUnit destination s := by
    rw [hplace, Batch.ownUnit]
  unfold readLocal
  simp only [hsource, hread]
  rw [hunit]
  rcases hparse : ClassFile.parse s.bytes with e | c
  · rfl
  · simp only [hs.declared c hparse, if_true]

/-- **A request for a class file**, in a workspace where it is as it was
found: the files are those of its turn in a run, and it adds the calls and the
unit of that. -/
theorem ask_loadable {r : Requests} (h : r.loader.Over p root destination) (hs : s.Loadable)
    (hpath : s.path = root.join s.relative)
    (hread : r.workspace.files.read s.path = .ok s.bytes)
    (hunmet : r.loader.cache.get? s.qualifiedName = none) :
    (ask r s.qualifiedName).loader.Over p root destination ∧
      (ask r s.qualifiedName).workspace.files = aloneFiles p destination r.workspace s ∧
      Adds p [(s.qualifiedName, (alone p destination r.workspace s).unit)]
        (aloneCalls p destination r.workspace s) r (ask r s.qualifiedName) := by
  have hname := hs.normalName
  have hlookup : ∀ name, name ≠ s.qualifiedName →
      (ask r s.qualifiedName).answers.lookup name = r.answers.lookup name := fun name hne => by
    simp only [ask, List.lookup_cons, beq_eq_false_iff_ne.2 hne]
  by_cases hreserved : (p.filter.platformNamespace? s.qualifiedName).isSome = true
  · -- the request is left to the parent, and a run leaves the file alone
    have hunreached : ∀ u, ¬ r.loader.Reaches r.workspace s.qualifiedName u := by
      rintro u ⟨⟨-, -, hunreserved⟩, -⟩
      rw [h.processor, hname] at hunreserved
      rw [hunreserved] at hreserved
      cases hreserved
    obtain ⟨hworkspace, delegated, cache, hsame, hloader⟩ := resolve_unreached hunreached
    obtain ⟨hfiles, hcalls⟩ := Batch.alone_reserved destination r.workspace hreserved
    rw [hfiles, hcalls]
    refine ⟨?_, by simp only [ask, hworkspace],
      .single ?_ (fun name hne => ⟨?_, hlookup name hne⟩) fun hfree => ?_⟩
    · simp only [ask, hloader]
      exact h.kept _ _
    · simp only [ask, hworkspace, List.append_nil]
    · simp only [ask, hloader]
      exact hsame.get? name
    · rw [hfree] at hreserved
      cases hreserved
  · rw [Option.not_isSome_iff_eq_none] at hreserved
    obtain ⟨done, hdone⟩ : ∃ done, alone p destination r.workspace s = done := ⟨_, rfl⟩
    have hunit : r.loader.unit? r.workspace s.qualifiedName =
        .ok (some (Batch.ownUnit destination s)) := by
      rw [unit?, hunmet]
      exact readLocal_loadable h hs hpath hread
    have hreached : r.loader.Reaches r.workspace s.qualifiedName (Batch.ownUnit destination s) :=
      ⟨by rw [hname]; exact ⟨hs.array, hs.fault, by rw [h.processor, hreserved]⟩, by rwa [hname]⟩
    have hprocess : r.loader.processor.process r.workspace (Batch.ownUnit destination s) = done := by
      rw [h.processor, ← hdone, alone]
    have hsays : done.report.Says done.unit := hdone ▸ Batch.says_alone ..
    have hresolve := (resolve_reached hreached).trans
      (answerLocal_eq hprocess hsays (normalName s.qualifiedName))
    rw [hname] at hresolve
    have hask : ask r s.qualifiedName = ⟨done.workspace,
        { r.loader with cache := r.loader.cache.put s.qualifiedName done.unit },
        (s.qualifiedName, answerOf s.qualifiedName done.unit) :: r.answers⟩ := by
      simp only [ask, hresolve]
    obtain ⟨-, -, hcalls⟩ := Batch.alone_meets p destination r.workspace s
    rw [hdone] at hcalls
    rw [aloneFiles, hdone]
    refine ⟨?_, by rw [hask],
      .single (by rw [hask, hcalls]) (fun name hne => ⟨?_, hlookup name hne⟩) fun _ => ?_⟩
    · rw [hask]
      exact h.kept _ _
    · rw [hask]
      exact UnitCache.get?_put_of_ne _ _ hne
    · rw [hask, List.lookup_cons, beq_self_eq_true]
      exact ⟨UnitCache.get?_put_self _ _ _, rfl⟩

/-- A class file is where its place from the class root leads. -/
theorem path_found (h : Sites w.files root (destination.getD root) top place)
    (hs : Scan.Found w.files root top s) : s.path = root.join s.relative := by
  obtain ⟨names, hne, hrelative, hpath, -, -, hentry⟩ := hs
  have hnames := (h.classRoot.tree.of_isSome (by rw [hentry]; rfl)).1
  rw [hpath, hrelative]
  exact Path.pathOf_eq_join h.classRoot.text_ne_empty hnames hne

/-- What is kept and answered for class files: the units that they are by
themselves, by name. -/
def settledUnits (p : Processor) (destination : Option Path) (w : Workspace)
    (units : List ScannedUnit) : List (String × ClassUnit) :=
  units.map fun s => (s.qualifiedName, (alone p destination w s).unit)

theorem names_settledUnits (p : Processor) (destination : Option Path) (w : Workspace)
    (units : List ScannedUnit) :
    (settledUnits p destination w units).map Prod.fst = units.map ScannedUnit.qualifiedName := by
  simp only [settledUnits, List.map_map, Function.comp_def]

/-- **Requests for class files one after another**, behind those for others of
other names: the files are merged as they are in a run, and the requests add
the calls and the units that the class files have by themselves. -/
theorem foldl_ask (h : Sites w.files root (destination.getD root) top place)
    (hplace : place = top ∨ Apart top place) (units : List ScannedUnit) {r : Requests}
    (hover : r.loader.Over p root destination)
    (hseen : ∀ s ∈ seen, Scan.Found w.files root top s)
    (hfound : ∀ s ∈ units, Scan.Found w.files root top s) (hloadable : ∀ s ∈ units, s.Loadable)
    (hne : ∀ s ∈ units, ∀ s' ∈ seen, s'.qualifiedName ≠ s.qualifiedName)
    (hnodup : (units.map ScannedUnit.qualifiedName).Nodup)
    (hunmet : ∀ s ∈ units, r.loader.cache.get? s.qualifiedName = none)
    (htree : r.workspace.files.IsTree)
    (hmerges : Merges w.files (seen.map (aloneFiles p destination w)) r.workspace.files) :
    Merges w.files ((seen ++ units).map (aloneFiles p destination w))
        ((units.map ScannedUnit.qualifiedName).foldl ask r).workspace.files ∧
      Adds p (settledUnits p destination w units) (units.flatMap (aloneCalls p destination w)) r
        ((units.map ScannedUnit.qualifiedName).foldl ask r) := by
  -- on the class files left, those behind being merged
  induction units generalizing seen r with
  | nil => exact ⟨by rwa [List.append_nil], .nil p r⟩
  | cons s units ih =>
    rw [List.forall_mem_cons] at hfound hloadable hne hunmet
    rw [List.map_cons, List.nodup_cons] at hnodup
    have hother : ∀ s' ∈ units, s.qualifiedName ≠ s'.qualifiedName := fun s' hs' heq =>
      hnodup.1 (List.mem_map.2 ⟨s', hs', heq.symm⟩)
    obtain ⟨above, n, o, hturn⟩ := Batch.exists_turn h hfound.1
    have halike := hturn.alike (p := p) h hseen hne.1 htree hmerges
    obtain ⟨-, hcalls, -⟩ := hturn.alone_alike (p := p) halike
    obtain ⟨htree', hmerges'⟩ := hturn.merge h hseen hne.1 htree hmerges
    obtain ⟨hover', hfiles', hadds⟩ := ask_loadable hover hloadable.1
      (path_found h hfound.1) (Batch.read_unseen h hplace hfound.1 hseen hne.1 htree hmerges)
      hunmet.1
    -- in the workspace that it finds, it is the unit and takes the calls of the one at the start
    rw [(Batch.alone_meets p destination r.workspace s).2.2] at hcalls
    rw [hturn.unit_alike halike, List.append_cancel_left hcalls] at hadds
    rw [← hfiles'] at htree' hmerges'
    have hseen' : ∀ s' ∈ seen ++ [s], Scan.Found w.files root top s' := by
      rw [List.forall_mem_append, List.forall_mem_singleton]
      exact ⟨hseen, hfound.1⟩
    obtain ⟨ihmerges, ihadds⟩ := ih hover' hseen' hfound.2 hloadable.2
      (fun s' hs' => by
        rw [List.forall_mem_append, List.forall_mem_singleton]
        exact ⟨hne.2 s' hs', hother s' hs'⟩)
      hnodup.2
      (fun s' hs' => by
        rw [(hadds.others _ (mt mem_names_single.1 (hother s' hs').symm)).1]
        exact hunmet.2 s' hs')
      htree' hmerges'
    have hnew : ∀ name ∈ [(s.qualifiedName, (alone p destination w s).unit)].map Prod.fst,
        name ∉ (settledUnits p destination w units).map Prod.fst := fun name hname => by
      rw [mem_names_single.1 hname, names_settledUnits]
      exact hnodup.1
    rw [List.map_cons, List.foldl_cons, List.append_cons]
    exact ⟨ihmerges, hadds.append ihadds hnew⟩

/-- **Requests for class files to a fresh loader** merge the files as a run
does, and take the calls of the class files in the order of the requests. -/
theorem askAll_adds (parent : ParentResolver)
    (h : Sites w.files root (destination.getD root) top place)
    (hplace : place = top ∨ Apart top place)
    (hfound : ∀ s ∈ units, Scan.Found w.files root top s) (hloadable : ∀ s ∈ units, s.Loadable)
    (hnodup : (units.map ScannedUnit.qualifiedName).Nodup) :
    Merges w.files (units.map (aloneFiles p destination w))
        ((fresh root destination p parent).askAll w
          (units.map ScannedUnit.qualifiedName)).workspace.files ∧
      Adds p (settledUnits p destination w units) (units.flatMap (aloneCalls p destination w))
        ⟨w, fresh root destination p parent, []⟩
        ((fresh root destination p parent).askAll w (units.map ScannedUnit.qualifiedName)) :=
  foldl_ask (p := p) h hplace units (r := ⟨w, fresh root destination p parent, []⟩)
    ⟨rfl, rfl, rfl⟩ (List.forall_mem_nil _) hfound hloadable (fun _ _ => List.forall_mem_nil _)
    hnodup (fun _ _ => rfl) h.classRoot.tree (.nil _)

/-- The answer of a unit is that it failed exactly if it did. -/
theorem answerOf_enhancement :
    (∃ reason, answerOf name u = .error (.enhancement name reason)) ↔ u.state = .failed := by
  unfold answerOf
  split
  · next hfailed => exact iff_of_true ⟨_, rfl⟩ hfailed
  · next hsettled =>
    refine iff_of_false ?_ hsettled
    rintro ⟨reason, hanswer⟩
    unfold DefinedClass.define at hanswer
    split at hanswer
    · cases hanswer
    · split at hanswer
      · cases hanswer
      · cases hanswer

/-- **Asked for one by one, the class files of a tree come to what a run over
it makes of them.** Take a class root and a destination with no links in
them, no drafts, and no step up in the destination's path behind a directory
that is missing, the output going over the class root or to a place apart;
and let all class files of the scan be such as can be asked for by their
names. From the same files, a fresh run and requests to a fresh loader for
all the names, in any order, leave the same files and take the same calls.
For every name outside the reserved namespaces both keep the same unit,
which is settled, and the loader's answer is made of it: that the enhancement
failed, exactly if it did. -/
theorem askAll_agrees (parent : ParentResolver)
    (h : Sites w.files root (destination.getD root) top place)
    (hplace : place = top ∨ Apart top place)
    (hscan : w.files.scan root recursive = .ok (scan, events))
    (hloadable : ∀ s ∈ scan.units, s.Loadable) (hperm : units.Perm scan.units) :
    ∃ w' b' r asked, (Batch.fresh p destination).run w root recursive = .ok (w', b', r) ∧
      (fresh root destination p parent).askAll w (units.map ScannedUnit.qualifiedName) = asked ∧
      SameFiles w'.files asked.workspace.files ∧
      (∃ eager lazy, w'.calls = w.calls ++ eager ∧ asked.workspace.calls = w.calls ++ lazy ∧
        lazy.Perm eager) ∧
      ∀ s ∈ scan.units, p.filter.platformNamespace? s.qualifiedName = none →
        ∃ u, b'.cache.get? s.qualifiedName = some u ∧
          asked.loader.cache.get? s.qualifiedName = some u ∧ u.state.isFinal = true ∧
          asked.answers.lookup s.qualifiedName = some (answerOf s.qualifiedName u) ∧
          ((∃ reason, answerOf s.qualifiedName u = .error (.enhancement s.qualifiedName reason)) ↔
            u.state = .failed) := by
  have hfound := h.classRoot.found_of_scan hscan
  -- the places of the class files differ, and so do their names, which tell the places
  have hnodup : (scan.units.map ScannedUnit.qualifiedName).Nodup := by
    have hrelative : scan.units.map ScannedUnit.relative =
        (scan.units.map ScannedUnit.qualifiedName).map fun name => ⟨ClassFile.classPath name⟩ := by
      rw [List.map_map]
      exact List.map_congr_left fun s hs => (hloadable s hs).relative
    exact .of_map _ (hrelative ▸ h.classRoot.nodup_relative hscan)
  obtain ⟨-, hmerges, -, hcalls⟩ := Batch.processAll_pointwise (p := p) h hfound hnodup
    (show (w.report events).files = w.files from rfl)
  obtain ⟨hmerges', hadds⟩ := askAll_adds (p := p) parent h hplace
    (fun s hs => hfound s (hperm.mem_iff.1 hs)) (fun s hs => hloadable s (hperm.mem_iff.1 hs))
    ((hperm.map _).nodup_iff.2 hnodup)
  rw [Batch.run, hscan]
  refine ⟨_, _, _, _, rfl, rfl, hmerges.sameFiles hmerges' (hperm.map _),
    ⟨_, _, hcalls, hadds.calls, hperm.flatMap_right _⟩, fun s hs hfree => ?_⟩
  obtain ⟨hcache, hanswer⟩ := hadds.kept s.qualifiedName (alone p destination w s).unit
    (List.mem_map.2 ⟨s, hperm.mem_iff.2 hs, rfl⟩) hfree
  exact ⟨_, Batch.cache_processAll h hfound hnodup rfl hs, hcache, (Batch.alone_kept rfl).2.2,
    hanswer, answerOf_enhancement⟩

/-- The two classes of a directory can be asked for by their names. -/
theorem loadable_letters : ∀ s ∈ Batch.letterUnits, s.Loadable := by
  -- what a class declares is read off its parse
  have hdeclared : ∀ s ∈ Batch.letterUnits,
      (ClassFile.parse s.bytes).toOption.map ClassFile.qualifiedName = some s.qualifiedName := by
    decide +kernel
  have hrest : ∀ s ∈ Batch.letterUnits,
      s.relative = ⟨ClassFile.classPath s.qualifiedName⟩ ∧
        Text.trimString s.qualifiedName = s.qualifiedName ∧
        s.qualifiedName.toList.head? ≠ some '[' ∧ nameFault? s.qualifiedName = none := by
    decide +kernel
  intro s hs
  obtain ⟨hrelative, htrimmed, harray, hfault⟩ := hrest s hs
  refine ⟨hrelative, htrimmed, harray, hfault, fun c hparse => ?_⟩
  have hname := hdeclared s hs
  rw [hparse] at hname
  exact Option.some.inj hname

/-- Asked for in the other order, the two classes take the calls of the run
in that order, and end up as in the run. -/
theorem askAll_agrees_plain : ∃ w' b' r asked,
    (Batch.fresh Driver.watchingLoader.processor (some ⟨"out"⟩)).run Batch.plainWorkspace
        ⟨"c"⟩ true = .ok (w', b', r) ∧
      (fresh ⟨"c"⟩ (some ⟨"out"⟩) Driver.watchingLoader.processor .noParent).askAll
        Batch.plainWorkspace ["B", "A"] = asked ∧
      SameFiles w'.files asked.workspace.files ∧
      asked.workspace.calls.map PassCall.unit = ["B", "A"] ∧
      asked.workspace.calls.Perm w'.calls ∧
      ∃ u, b'.cache.get? "B" = some u ∧ asked.loader.cache.get? "B" = some u ∧
        u.state.isFinal = true := by
  have hsites : Sites Batch.plainWorkspace.files ⟨"c"⟩
      ((some ⟨"out"⟩ : Option Path).getD ⟨"c"⟩) ["c"] ["out"] := Batch.sites_plain
  obtain ⟨w', b', r, asked, hrun, hasked, hfiles, ⟨eager, lazy, heager, hlazy, hperm⟩, hunits⟩ :=
    askAll_agrees (p := Driver.watchingLoader.processor) .noParent hsites
      (.inr (by decide)) Batch.scan_plain loadable_letters (List.reverse_perm _)
  have hnames : Batch.letterUnits.reverse.map ScannedUnit.qualifiedName = ["B", "A"] := by
    decide +kernel
  rw [hnames] at hasked
  obtain ⟨u, hkept, hkept', hfinal, -⟩ := hunits
    ⟨⟨"B.class"⟩, ⟨"c/B.class"⟩, Batch.letterClass 0x42⟩ (by decide) (by decide +kernel)
  -- the calls are those of the class files by themselves, in the order asked
  have hcalls : asked.workspace.calls.map PassCall.unit = ["B", "A"] := by
    have hfound : ∀ s ∈ Batch.letterUnits.reverse,
        Scan.Found Batch.plainWorkspace.files ⟨"c"⟩ ["c"] s := fun s hs =>
      Batch.classRoot_plain.found_of_scan Batch.scan_plain s (List.mem_reverse.1 hs)
    have hadds := (askAll_adds (p := Driver.watchingLoader.processor) .noParent hsites (.inr (by decide))
      hfound (fun s hs => loadable_letters s (List.mem_reverse.1 hs)) (by decide +kernel)).2.calls
    have hown : ∀ s ∈ Batch.letterUnits.reverse,
        (aloneCalls Driver.watchingLoader.processor (some ⟨"out"⟩) Batch.plainWorkspace s).map
          PassCall.unit = [s.qualifiedName] := by
      simp only [aloneCalls, Processor.callsOn_eq]
      decide +kernel
    rw [hnames, hasked] at hadds
    rw [hadds, List.map_append, List.map_flatMap, List.flatMap_congr hown, ← List.map_eq_flatMap,
      hnames]
    rfl
  refine ⟨w', b', r, asked, hrun, hasked, hfiles, hcalls, ?_, u, hkept, hkept', hfinal⟩
  rw [heager, hlazy]
  exact hperm.append_left _

/-- A step up behind a directory that is missing hides a copy until the first
commit has made the directory: a run comes to the class without the copy
first and passes the other over, and requests the other way round enhance
both. -/
theorem askAll_detour : ∃ w' b' r asked,
    (Batch.fresh .marking (some ⟨"x/../out"⟩)).run Batch.copiedWorkspace ⟨"c"⟩ true =
        .ok (w', b', r) ∧
      (fresh ⟨"c"⟩ (some ⟨"x/../out"⟩) .marking .noParent).askAll Batch.copiedWorkspace ["B", "A"] =
        asked ∧
      (∀ s ∈ Batch.letterUnits, s.Loadable) ∧
      (∀ p ∈ Batch.copiedWorkspace.files.entries, p.2.isLink = false) ∧
      Processor.marking.filter.platformNamespace? "B" = none ∧
      (b'.cache.get? "B").map ClassUnit.state = some .skipped ∧
      (asked.loader.cache.get? "B").map ClassUnit.state = some .enhanced := by
  rw [Batch.run, Batch.scan_copied]
  exact ⟨_, _, _, _, rfl, rfl, loadable_letters, by decide +kernel, by decide +kernel,
    by decide +kernel, by decide +kernel⟩

end Loader

end ClassWeave
