import ClassWeave.Proofs.Batch.Parallel
/-!
# Batch -- a run as its class files one by one

A run comes to what each of its class files comes to by itself, from the
files at its start: the same reports, and the files of all those runs merged
(`FileTree.Merges`). The order does not matter then, nor do the workers of a
parallel run (`run_pointwise`).

The destination is to be one without a step up behind a directory that is
missing. Behind such a step the outputs lead nowhere, until one of them makes
the directory (`run_detour`).
-/


namespace ClassWeave

namespace Batch

open FileTree (Sites Merges SameFiles Alike Ready Outlet Grown Writing IsDraft)

variable {p : Processor} {destination : Option Path} {w w' : Workspace} {root d : Path}
  {top place l : Location} {s s' : ScannedUnit} {names above above' : List String} {n n' : String}
  {seen units : List ScannedUnit} {o o' : Writing} {t t' : FileTree} {e : Entry} {f : Fate}

/-! ## A whole run -/

/-- **Class files one after another**, behind others of other names: each is
reported as by itself and takes its own calls, and the files are merged. -/
theorem foldl_pointwise (h : Sites w.files root (destination.getD root) top place)
    (units : List ScannedUnit) {r : Progress} (hproc : r.batch.processor = p)
    (hdest : r.batch.destination = destination)
    (hseen : ∀ s ∈ seen, Scan.Found w.files root top s)
    (hfound : ∀ s ∈ units, Scan.Found w.files root top s)
    (hne : ∀ s ∈ units, ∀ s' ∈ seen, s'.qualifiedName ≠ s.qualifiedName)
    (hnodup : (units.map ScannedUnit.qualifiedName).Nodup)
    (hunmet : ∀ s ∈ units, r.batch.cache.get? s.qualifiedName = none)
    (htree : r.workspace.files.IsTree)
    (hmerges : Merges w.files (seen.map (aloneFiles p destination w)) r.workspace.files) :
    (units.foldl step r).workspace.files.IsTree ∧
      Merges w.files ((seen ++ units).map (aloneFiles p destination w))
        (units.foldl step r).workspace.files ∧
      (units.foldl step r).reports =
        (units.map (aloneReport p destination w)).reverse ++ r.reports ∧
      (units.foldl step r).workspace.calls =
        r.workspace.calls ++ units.flatMap (aloneCalls p destination w) := by
  -- on the class files left, those behind being merged
  induction units generalizing seen r with
  | nil => exact ⟨htree, by rwa [List.append_nil], rfl, (List.append_nil _).symm⟩
  | cons s units ih =>
    rw [List.forall_mem_cons] at hfound hne hunmet
    rw [List.map_cons, List.nodup_cons] at hnodup
    have hother : ∀ s' ∈ units, s.qualifiedName ≠ s'.qualifiedName := fun s' hs' heq =>
      hnodup.1 (List.mem_map.2 ⟨s', hs', heq.symm⟩)
    obtain ⟨above, n, o, hturn⟩ := exists_turn h hfound.1
    obtain ⟨hreport, hcalls, -⟩ :=
      hturn.alone_alike (p := p) (hturn.alike h hseen hne.1 htree hmerges)
    obtain ⟨htree', hmerges'⟩ := hturn.merge h hseen hne.1 htree hmerges
    obtain ⟨done, hdone⟩ : ∃ done, alone p destination r.workspace s = done := ⟨_, rfl⟩
    rw [aloneFiles, hdone] at htree' hmerges'
    rw [hdone] at hreport hcalls
    rw [List.foldl_cons, step_unmet hunmet.1 (by rw [hproc, hdest, hdone]), List.append_cons]
    have hseen' : ∀ s' ∈ seen ++ [s], Scan.Found w.files root top s' := by
      rw [List.forall_mem_append, List.forall_mem_singleton]
      exact ⟨hseen, hfound.1⟩
    obtain ⟨ihtree, ihmerges, ihreports, ihcalls⟩ := ih
      (r := ⟨done.workspace, { r.batch with cache := r.batch.cache.put s.qualifiedName done.unit },
        done.report :: r.reports⟩) hproc hdest hseen' hfound.2
      (fun s' hs' => by
        rw [List.forall_mem_append, List.forall_mem_singleton]
        exact ⟨hne.2 s' hs', hother s' hs'⟩)
      hnodup.2
      (fun s' hs' => by
        rw [UnitCache.get?_put_of_ne _ _ (hother s' hs').symm]
        exact hunmet.2 s' hs')
      htree' hmerges'
    refine ⟨ihtree, ihmerges, ?_, ?_⟩
    · rw [ihreports, hreport]
      simp [aloneReport]
    · rw [ihcalls, hcalls, List.flatMap_cons, List.append_assoc]

/-- Class files in any order, from the files that they were found in. -/
theorem processAll_pointwise (h : Sites w.files root (destination.getD root) top place)
    (hfound : ∀ s ∈ units, Scan.Found w.files root top s)
    (hnodup : (units.map ScannedUnit.qualifiedName).Nodup) (hw' : w'.files = w.files) :
    ((fresh p destination).processAll w' units).workspace.files.IsTree ∧
      Merges w.files (units.map (aloneFiles p destination w))
        ((fresh p destination).processAll w' units).workspace.files ∧
      ((fresh p destination).processAll w' units).reports.reverse =
        units.map (aloneReport p destination w) ∧
      ((fresh p destination).processAll w' units).workspace.calls =
        w'.calls ++ units.flatMap (aloneCalls p destination w) := by
  obtain ⟨htree, hmerges, hreports, hcalls⟩ := foldl_pointwise (p := p) h units
    (r := ⟨w', fresh p destination, []⟩) rfl rfl (List.forall_mem_nil _) hfound nofun hnodup (fun _ _ => rfl)
    (hw' ▸ h.classRoot.tree) (hw' ▸ .nil _)
  rw [List.append_nil] at hreports
  exact ⟨htree, hmerges, by rw [processAll, hreports, List.reverse_reverse], hcalls⟩

/-- What a class file by itself leaves has grown, and is a tree. -/
theorem grown_alone (hturn : Turn destination w.files top place s above n o)
    (h : Sites w.files root (destination.getD root) top place)
    (hs : Scan.Found w.files root top s) :
    (aloneFiles p destination w s).IsTree ∧ Grown w.files (aloneFiles p destination w s) := by
  obtain ⟨htree, hmerges⟩ := hturn.merge (p := p) h (List.forall_mem_nil _)
    nofun h.classRoot.tree (.nil _)
  exact ⟨htree, grown_of_merges h (List.forall_mem_singleton.2 hs) hmerges⟩

/-- **At the place of each output stands what would if its class file had
been by itself.** -/
theorem entry_merged (h : Sites w.files root (destination.getD root) top place)
    (hfound : ∀ s ∈ units, Scan.Found w.files root top s)
    (hnodup : (units.map ScannedUnit.qualifiedName).Nodup)
    (hmerges : Merges w.files (units.map (aloneFiles p destination w)) t') (hs : s ∈ units)
    (hturn : Turn destination w.files top place s above n o) :
    t'.entry? (place ++ above ++ [n]) =
      FileTree.entry? (aloneFiles p destination w s) (place ++ above ++ [n]) := by
  by_cases hsame : FileTree.entry? (aloneFiles p destination w s) (place ++ above ++ [n]) =
      w.files.entry? (place ++ above ++ [n])
  · rcases entry_cases h hfound hmerges (place ++ above ++ [n]) with
      hl | ⟨s', hs', above', n', o', e, hturn', hafter, hl⟩
    · rw [hl, hsame]
    · -- if a class file changed it, it is this one
      have heq : s' = s := by
        by_contra hne
        have hname : s'.qualifiedName ≠ s.qualifiedName := fun heq =>
          hne (List.inj_on_of_nodup_map hnodup hs' hs heq)
        rw [List.append_assoc] at hafter
        exact hturn.apart hturn' hname (hturn'.prefix_of_made hafter)
      obtain ⟨-, -, -, -, hentries⟩ := hturn'.alone_alike (p := p) hturn'.start
      rw [heq] at hafter hentries
      rw [hl, hentries, hafter, Option.some_or]
  · exact hmerges.changed _ (List.mem_map_of_mem hs) _ hsame

/-- **The output of each class file is read as if it had been by itself.** -/
theorem read_merged (h : Sites w.files root (destination.getD root) top place)
    (hfound : ∀ s ∈ units, Scan.Found w.files root top s)
    (hnodup : (units.map ScannedUnit.qualifiedName).Nodup) (htree : t'.IsTree)
    (hmerges : Merges w.files (units.map (aloneFiles p destination w)) t') (hs : s ∈ units)
    (bytes : Bytes) :
    t'.read (locate destination s).output = .ok bytes ↔
      (aloneFiles p destination w s).read (locate destination s).output = .ok bytes := by
  obtain ⟨above, n, o, hturn⟩ := exists_turn h (hfound s hs)
  obtain ⟨htree', hgrown'⟩ := grown_alone (p := p) hturn h (hfound s hs)
  rw [hturn.outlet.read htree (grown_of_merges h hfound hmerges), hturn.outlet.read htree' hgrown',
    entry_merged h hfound hnodup hmerges hs hturn]

/-- **A run is its class files one by one, in any order**, and in parallel.
Take a class root and a destination with no links in them, no drafts, and no
step up in the destination's path behind a directory that is missing, and
class files of different names. Whatever the filter and the passes, a fresh
run reports each class file as it is reported by itself from the files at the
start, in the order of the scan, and leaves the files of those runs merged,
with the output of each as it would be by itself. In any other order there
are the same reports and the same files; and a run in parallel comes to the
same report and the same files, in whatever order its workers take their
steps. -/
theorem run_pointwise {recursive : Bool} {scan : ScanReport} {events : List Event}
    (h : Sites w.files root (destination.getD root) top place)
    (hscan : w.files.scan root recursive = .ok (scan, events))
    (hnodup : (scan.units.map ScannedUnit.qualifiedName).Nodup) :
    ∃ w' b' r, run (fresh p destination) w root recursive = .ok (w', b', r) ∧
      r.units = scan.units.map (aloneReport p destination w) ∧
      Merges w.files (scan.units.map (aloneFiles p destination w)) w'.files ∧
      (∀ s ∈ scan.units, ∀ bytes, w'.files.read (locate destination s).output = .ok bytes ↔
        (aloneFiles p destination w s).read (locate destination s).output = .ok bytes) ∧
      (∀ units, units.Perm scan.units →
        ((fresh p destination).processAll w units).reports.reverse =
            units.map (aloneReport p destination w) ∧
          SameFiles w'.files ((fresh p destination).processAll w units).workspace.files) ∧
      ∀ parallel, ((fresh p destination).withParallel parallel).Ensures w root recursive fun outcome =>
        ∃ w₁ b₁, outcome = .ok (w₁, b₁, r) ∧ SameFiles w'.files w₁.files := by
  have hfound := h.classRoot.found_of_scan hscan
  obtain ⟨htree, hmerges, hreports, -⟩ :=
    processAll_pointwise (p := p) h hfound hnodup (show (w.report events).files = w.files from rfl)
  have hrun : run (fresh p destination) w root recursive =
      .ok (((fresh p destination).processAll (w.report events) scan.units).workspace,
        ((fresh p destination).processAll (w.report events) scan.units).batch,
        (fresh p destination).reportOf root scan
          ((fresh p destination).processAll (w.report events) scan.units).reports.reverse) := by
    rw [run, hscan]
  refine ⟨_, _, _, hrun, hreports, hmerges, fun s hs => read_merged h hfound hnodup htree hmerges hs,
    fun units hperm => ?_, fun parallel => ?_⟩
  · obtain ⟨-, hmerges', hreports', -⟩ := processAll_pointwise (p := p) h
      (fun s hs => hfound s (hperm.mem_iff.1 hs)) ((hperm.map _).nodup_iff.2 hnodup) (Eq.refl w.files)
    exact ⟨hreports', hmerges.sameFiles hmerges' (hperm.map _)⟩
  · cases parallel with
    | false => exact ⟨_, _, hrun, ⟨rfl, fun _ => rfl⟩⟩
    | true =>
      have hpar : ((fresh p destination).withParallel true).parallel = true := rfl
      rw [Ensures, if_pos hpar, hscan]
      refine (always_pointwise (b := (fresh p destination).withParallel true) h hfound hnodup rfl
        (fun _ _ => rfl) rfl).mono fun r' reports hdone => ?_
      obtain ⟨rfl, hmerges'⟩ := hdone
      refine ⟨r'.workspace, { (fresh p destination).withParallel true with cache := r'.cache }, ?_,
        hmerges.sameFiles hmerges' (.refl _)⟩
      rw [hreports]
      rfl

/-- A class that declares a name of one letter. -/
def letterClass (letter : UInt8) : Bytes :=
  [0xca, 0xfe, 0xba, 0xbe, 0, 0, 0, 0x34, 0, 3, 1, 0, 1, letter, 7, 0, 1, 0, 0x21, 0, 2, 0, 0,
    0, 0, 0, 0, 0, 0, 0, 0]

/-- What a chain without passes makes of the class `B`. -/
def markedCopy : Bytes :=
  ((ClassFile.stamp (letterClass 0x42)
    ⟨[], some "1af8b9510e770746868100fe77fd352e4b687f2eb5595c48e1a6902b337b809c"⟩).toOption).getD []

/-- Two classes. -/
def letterUnits : List ScannedUnit :=
  [⟨⟨"A.class"⟩, ⟨"c/A.class"⟩, letterClass 0x41⟩, ⟨⟨"B.class"⟩, ⟨"c/B.class"⟩, letterClass 0x42⟩]

/-- Both of them in a directory, and a copy of one in another. -/
def copiedFiles (copy : Bytes) : FileTree :=
  ⟨[], [(["c"], .directory), (["c", "A.class"], .file (letterClass 0x41)),
    (["c", "B.class"], .file (letterClass 0x42)), (["out"], .directory),
    (["out", "B.class"], .file copy)]⟩

def copiedWorkspace : Workspace := ⟨copiedFiles markedCopy, [], 0, [], []⟩

theorem classRoot_copied : copiedWorkspace.files.ClassRoot ⟨"c"⟩ ["c"] where
  tree := .of_listed (by decide) (by decide +kernel)
  resolves := by decide +kernel
  directory := rfl
  linkFree := .of_listed (by decide +kernel)

theorem visited_copied (copy : Bytes) :
    (copiedFiles copy).visited ⟨"c"⟩ ["c"] true = [["A.class"], ["B.class"]] := by
  rw [FileTree.visited, if_neg (by decide +kernel)]
  cbv

theorem scan_copied : copiedWorkspace.files.scan ⟨"c"⟩ true = .ok (⟨letterUnits, [], [], 0⟩, []) := by
  have hvisited : copiedWorkspace.files.visited ⟨"c"⟩ ["c"] true = [["A.class"], ["B.class"]] :=
    visited_copied markedCopy
  rw [classRoot_copied.scan_eq, hvisited]
  decide +kernel

/-- Where the copies are looked for where they are, one class is written and
the other one passed over, in either order and in parallel. -/
theorem run_pointwise_copied :
    copiedWorkspace.files.Sites ⟨"c"⟩ ⟨"out"⟩ ["c"] ["out"] ∧
      (letterUnits.map ScannedUnit.qualifiedName).Nodup ∧
      ∃ w' b' r, run (fresh .marking (some ⟨"out"⟩)) copiedWorkspace ⟨"c"⟩ true = .ok (w', b', r) ∧
        r.units.map (fun r => (r.unit, r.state)) = [("A", .enhanced), ("B", .skipped)] ∧
        SameFiles w'.files ((fresh .marking (some ⟨"out"⟩)).processAll copiedWorkspace
          letterUnits.reverse).workspace.files ∧
        ((fresh .marking (some ⟨"out"⟩)).withParallel true).Ensures copiedWorkspace ⟨"c"⟩ true
          fun outcome => ∃ w₁ b₁, outcome = .ok (w₁, b₁, r) ∧ SameFiles w'.files w₁.files := by
  have hsites : copiedWorkspace.files.Sites ⟨"c"⟩ ⟨"out"⟩ ["c"] ["out"] :=
    { classRoot := classRoot_copied
      aims := by
        have hlead : (⟨"out"⟩ : Path).lead = ["out".toList] ++ [] := by decide
        have hleads : FileTree.Leads copiedWorkspace.files true 40 []
            (FileTree.stepsOf ["out".toList]) ["out"] := FileTree.chase_ok.1 (by decide +kernel)
        refine .intro hlead hleads rfl List.not_mem_nil ?_
        exact fun below _ target => FileTree.LinkFree.of_listed (by decide +kernel) _ target
          (List.prefix_append _ _)
      linkFree := .of_listed (by decide +kernel)
      undrafted := .of_listed (by decide +kernel)
      vacant := .of_listed (by decide +kernel) }
  have hnodup : (letterUnits.map ScannedUnit.qualifiedName).Nodup := by decide +kernel
  have hgoal : copiedWorkspace.files.Sites ⟨"c"⟩ ((some ⟨"out"⟩ : Option Path).getD ⟨"c"⟩) ["c"]
      ["out"] := hsites
  obtain ⟨w', b', r, hrun, hunits, -, -, hany, hensures⟩ :=
    run_pointwise (p := .marking) hgoal scan_copied hnodup
  refine ⟨hsites, hnodup, w', b', r, hrun, ?_, (hany _ (List.reverse_perm _)).2, hensures true⟩
  rw [hunits]
  decide +kernel

/-- A step up behind a directory that is missing hides the copy, until the
first class of the run has made the directory. So the second class is passed
over in the run, though it would be enhanced by itself. -/
theorem run_detour : ∃ w' b' r,
    run (fresh .marking (some ⟨"x/../out"⟩)) copiedWorkspace ⟨"c"⟩ true = .ok (w', b', r) ∧
      (letterUnits.map ScannedUnit.qualifiedName).Nodup ∧
      (∀ p ∈ copiedWorkspace.files.entries, p.2.isLink = false) ∧
      r.units.map (fun r => (r.unit, r.state)) = [("A", .enhanced), ("B", .skipped)] ∧
      letterUnits[1]?.map (fun s =>
        (aloneReport .marking (some ⟨"x/../out"⟩) copiedWorkspace s).state) = some .enhanced := by
  rw [run, scan_copied]
  exact ⟨_, _, _, rfl, by decide +kernel, by decide +kernel, by decide +kernel, by decide +kernel⟩

end Batch

end ClassWeave
