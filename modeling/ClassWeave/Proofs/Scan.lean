import ClassWeave.Proofs.Files.Listing
import ClassWeave.Scan
/-!
# Scan -- the scan of a tree that has evolved

Every unit of a scan is a class file of the tree, with its octets
(`Scan.Found`). A scan of what the tree has become finds the same units, in
the same order, with the octets that stand there then (`EvolvedBelow.scan`): the
drafts that are gone were no class files, and whether a path can be read at
all is a matter of its spelling.
-/


namespace ClassWeave

namespace Scan

variable {names others : List String} {n : String}

/-! ## Extensions -/

theorem toList_relativePath (names : List String) :
    (relativePath names).text.toList = Text.join '/' (names.map String.toList) := by
  have hsep : "/".toList = ['/'] := rfl
  rw [relativePath, String.toList_intercalate, hsep, Text.join_eq_intercalate]

theorem segments_relativePath (hnames : ∀ n ∈ names, Path.IsName n) (hne : names ≠ []) :
    (relativePath names).segments = names.map String.toList := by
  rw [Path.segments, toList_relativePath]
  refine Text.pieces_join (by simpa using hne) fun p hp => ?_
  obtain ⟨n, hn, rfl⟩ := List.mem_map.1 hp
  exact (hnames n hn).flat

/-- The path from a class root tells the names. -/
theorem relativePath_inj (hnames : ∀ n ∈ names, Path.IsName n) (hne : names ≠ [])
    (hothers : ∀ n ∈ others, Path.IsName n) (hothers' : others ≠ [])
    (heq : relativePath names = relativePath others) : names = others := by
  have hsegments := segments_relativePath hnames hne
  rw [heq, segments_relativePath hothers hothers',
    List.map_inj_right fun _ _ => String.toList_inj.1] at hsegments
  exact hsegments.symm

/-- The last name of the path from a class root is the last of the names. -/
theorem namedSegments?_relativePath (hnames : ∀ m ∈ names, Path.IsName m) (hn : Path.IsName n) :
    (relativePath (names ++ [n])).namedSegments? = some (names.map String.toList, n.toList) := by
  have hall : ∀ m ∈ names ++ [n], Path.IsName m := by
    rw [List.forall_mem_append, List.forall_mem_singleton]
    exact ⟨hnames, hn⟩
  have hsegments := segments_relativePath hall (by simp)
  rw [List.map_append, List.map_singleton] at hsegments
  have hidle := hn.not_isIdle
  have hup : n.toList ≠ ['.', '.'] := fun heq => hn.ne_up (String.toList_inj.1 heq)
  have htail : (relativePath (names ++ [n])).segments.headD [] ::
      (relativePath (names ++ [n])).tailSegments = names.map String.toList ++ [n.toList] := by
    rw [Path.tailSegments, hsegments]
    rcases hsplit : names.map String.toList with _ | ⟨s, ss⟩
    · rfl
    · rw [List.cons_append, List.tail_cons, List.reverse_append, List.reverse_singleton,
        List.singleton_append, List.dropWhile_cons_of_neg (by simp [hidle]), List.reverse_cons,
        List.reverse_reverse]
      rfl
  simp only [Path.namedSegments?, htail, List.getLast?_concat]
  simp [hidle, hup]

theorem extension?_relativePath (hnames : ∀ m ∈ names, Path.IsName m) (hn : Path.IsName n) :
    (relativePath (names ++ [n])).extension? = (Path.cutName n.toList).2.map String.ofList := by
  rw [Path.extension?, namedSegments?_relativePath hnames hn, Option.bind_some]

/-- A draft has the extension of drafts. -/
theorem extension?_draft (hnames : ∀ m ∈ names, Path.IsName m) (hn : Path.IsName n) :
    (relativePath (names ++ [n ++ ".enhancing"])).extension? = some "enhancing" := by
  rw [extension?_relativePath hnames (FileTree.isName_draft hn)]
  have hcut : (n ++ ".enhancing").toList = n.toList ++ '.' :: "enhancing".toList := by
    rw [String.toList_append]
    rfl
  rw [hcut, Path.cutName, Text.cutLast?_append _ (by decide)]
  simp [hn.toList_ne_nil]

variable {t t' : FileTree} {root : Path} {top : Location}

/-- A draft below a root is told by its extension. -/
theorem extension?_isDraft (hnames : ∀ m ∈ names, Path.IsName m) (hne : names ≠ [])
    (hdraft : FileTree.IsDraft (top ++ names)) :
    (relativePath names).extension? = some "enhancing" := by
  obtain ⟨above, n, hn, hdraft⟩ := hdraft
  obtain ⟨names', m, rfl⟩ := (List.eq_nil_or_concat' names).resolve_left hne
  rw [← List.append_assoc] at hdraft
  obtain ⟨-, hm⟩ := List.append_inj' hdraft rfl
  rw [(List.cons.inj hm).1] at hnames ⊢
  exact extension?_draft (fun k hk => hnames k (List.mem_append_left _ hk)) hn

/-! ## The effect of a visit -/

/-- What a visit adds to the units found and to the directories given up:
nothing in one given up, nothing but for class files, and a class file that
cannot be read closes its directory. -/
def effect (t : FileTree) (root : Path) (top : Location)
    (s : List ScannedUnit × List (List String)) (names : List String) :
    List ScannedUnit × List (List String) :=
  if s.2.any fun d => d.isPrefixOf names then s
  else if t.entry? (top ++ names) = some .directory then s
  else if (relativePath names).extension? = some "class" then
    match t.read (pathOf root names) with
    | .ok bytes => (s.1 ++ [⟨relativePath names, pathOf root names, bytes⟩], s.2)
    | .error _ => (s.1, names.dropLast :: s.2)
  else s

/-- The effect of a visit, on a scan under way. -/
theorem visit_effect (s : Progress) (names : List String) :
    ((Progress.visit root s (t.sightOf root top names)).found.units,
      (Progress.visit root s (t.sightOf root top names)).closed) =
      effect t root top (s.found.units, s.closed) names := by
  unfold Progress.visit effect FileTree.sightOf
  simp only
  by_cases hclosed : (s.closed.any fun d => d.isPrefixOf names) = true
  · simp only [if_pos hclosed]
  · simp only [if_neg hclosed]
    by_cases hdir : t.entry? (top ++ names) = some .directory
    · simp only [if_pos hdir]
    · simp only [if_neg hdir]
      by_cases hclass : (relativePath names).extension? = some "class"
      · simp only [if_pos hclass]
        rcases t.read (pathOf root names) with fault | bytes <;> rfl
      · simp only [if_neg hclass]
        split <;> rfl

/-- The units of a scan are those that the effects of its visits add up
to. -/
theorem units_collect (walk : List (List String)) :
    (collect root (walk.map (t.sightOf root top))).1.units =
      (walk.foldl (effect t root top) ([], [])).1 := by
  have hfold : ∀ s : Progress,
      ((walk.map (t.sightOf root top)).foldl (Progress.visit root) s).found.units =
        (walk.foldl (effect t root top) (s.found.units, s.closed)).1 := by
    induction walk with
    | nil => exact fun _ => rfl
    | cons names walk ih =>
      intro s
      rw [List.map_cons, List.foldl_cons, List.foldl_cons, ih, visit_effect]
  exact hfold _

/-! ## What a scan finds -/

/-- **A class file below a root**, as a scan of a tree finds it. -/
def Found (t : FileTree) (root : Path) (top : Location) (s : ScannedUnit) : Prop :=
  ∃ names, names ≠ [] ∧ s.relative = relativePath names ∧ s.path = pathOf root names ∧
    (relativePath names).extension? = some "class" ∧ Short root names ∧
    t.entry? (top ++ names) = some (.file s.bytes)

/-- What effects add up to are class files of the tree. -/
theorem found_of_foldl (h : t.ClassRoot root top) (walk : List (List String))
    (hwalk : ∀ names ∈ walk, (t.entry? (top ++ names)).isSome ∧ names ≠ [])
    (s : List ScannedUnit × List (List String)) (hs : ∀ u ∈ s.1, Found t root top u) :
    ∀ u ∈ (walk.foldl (effect t root top) s).1, Found t root top u := by
  induction walk generalizing s with
  | nil => exact hs
  | cons names walk ih =>
    -- only a visit that reads a class file adds a unit
    refine ih (fun ns hns => hwalk ns (List.mem_cons_of_mem _ hns)) _ ?_
    obtain ⟨hsome, hne⟩ := hwalk names List.mem_cons_self
    rw [effect]
    split
    · exact hs
    · split
      · exact hs
      · split
        · next hclass =>
          split
          · next bytes hread =>
            obtain ⟨hshort, hentry⟩ := (h.read_below hne hsome).1 hread
            rw [List.forall_mem_append, List.forall_mem_singleton]
            exact ⟨hs, names, hne, rfl, rfl, hclass, hshort, hentry⟩
          · exact hs
        · exact hs

/-- What effects add up to has the paths of some of the visits, in their
order. -/
theorem relative_foldl (t : FileTree) (root : Path) (top : Location) (walk : List (List String))
    (s : List ScannedUnit × List (List String)) :
    ∃ visits : List (List String), visits.Sublist walk ∧
      (walk.foldl (effect t root top) s).1.map ScannedUnit.relative =
      s.1.map ScannedUnit.relative ++ visits.map relativePath := by
  induction walk generalizing s with
  | nil => exact ⟨[], .slnil, (List.append_nil _).symm⟩
  | cons names walk ih =>
    obtain ⟨visits, hvisits, hmap⟩ := ih (effect t root top s names)
    have hadded : (effect t root top s names).1 = s.1 ∨
        ∃ bytes, (effect t root top s names).1 =
          s.1 ++ [⟨relativePath names, pathOf root names, bytes⟩] := by
      unfold effect
      split
      · exact .inl rfl
      · split
        · exact .inl rfl
        · split
          · split
            · exact .inr ⟨_, rfl⟩
            · exact .inl rfl
          · exact .inl rfl
    rw [List.foldl_cons, hmap]
    rcases hadded with hsame | ⟨bytes, hone⟩
    · exact ⟨visits, hvisits.cons _, by rw [hsame]⟩
    · refine ⟨names :: visits, hvisits.cons_cons _, ?_⟩
      rw [hone, List.map_append, List.map_cons, List.append_assoc]
      rfl

/-- A unit with the octets that stand at its path now. -/
def refreshed (t : FileTree) (s : ScannedUnit) : ScannedUnit :=
  match t.read s.path with
  | .ok bytes => { s with bytes := bytes }
  | .error _ => s

theorem relative_refreshed (t : FileTree) (s : ScannedUnit) :
    (refreshed t s).relative = s.relative := by
  unfold refreshed
  split <;> rfl

theorem qualifiedName_refreshed (t : FileTree) (s : ScannedUnit) :
    (refreshed t s).qualifiedName = s.qualifiedName := by
  rw [ScannedUnit.qualifiedName, relative_refreshed, ScannedUnit.qualifiedName]

theorem path_refreshed (t : FileTree) (s : ScannedUnit) : (refreshed t s).path = s.path := by
  unfold refreshed
  split <;> rfl

/-- The effect of a visit to what is still there: the same unit, with the
octets that stand there now. -/
theorem effect_evolved (hevolved : FileTree.EvolvedBelow top t t') (h : t.ClassRoot root top)
    (h' : t'.ClassRoot root top) {names : List String} (hne : names ≠ [])
    (hsome : (t.entry? (top ++ names)).isSome) (hkept : (t'.entry? (top ++ names)).isSome)
    {s : List ScannedUnit × List (List String)} :
    effect t' root top (s.1.map (refreshed t'), s.2) names =
      ((effect t root top s names).1.map (refreshed t'), (effect t root top s names).2) := by
  have hdir := hevolved.directory names
  rw [effect, effect]
  split
  · rfl
  by_cases hd : t.entry? (top ++ names) = some .directory
  · rw [if_pos hd, if_pos (hdir.2 hd)]
  rw [if_neg hd, if_neg (mt hdir.1 hd)]
  split
  · -- both trees have a file there, and whether it is read depends on the path
    obtain ⟨b, hb⟩ := h.exists_file hsome hd
    obtain ⟨b', hb'⟩ := h'.exists_file hkept (mt hdir.1 hd)
    by_cases hshort : Short root names
    · rw [(h.read_below hne hsome).2 ⟨hshort, hb⟩]
      have hread' := (h'.read_below hne hkept).2 ⟨hshort, hb'⟩
      simp only [hread', List.map_append, List.map_singleton, refreshed]
    · rcases hread : t.read (pathOf root names) with fault | c
      · rcases hread' : t'.read (pathOf root names) with fault' | c'
        · rfl
        · exact absurd ((h'.read_below hne hkept).1 hread').1 hshort
      · exact absurd ((h.read_below hne hsome).1 hread).1 hshort
  · rfl

/-- A visit to what has vanished had no effect. -/
theorem effect_vanished (hevolved : FileTree.EvolvedBelow top t t') (h : t.ClassRoot root top)
    {names : List String} (hne : names ≠ []) (hsome : (t.entry? (top ++ names)).isSome)
    (hgone : t'.entry? (top ++ names) = none) {s : List ScannedUnit × List (List String)} :
    effect t root top s names = s := by
  have hextension := extension?_isDraft (h.tree.of_isSome hsome).1 hne
    (hevolved.vanished _ hsome hgone)
  rw [effect, hextension, if_neg (show ¬ some "enhancing" = some "class" by decide)]
  split
  · rfl
  · split <;> rfl

/-- Effects on a tree that has evolved: those of the visits that are left
are the same, with the octets that stand there now. -/
theorem foldl_effect_evolved (hevolved : FileTree.EvolvedBelow top t t') (h : t.ClassRoot root top)
    (h' : t'.ClassRoot root top) (walk : List (List String))
    (hwalk : ∀ names ∈ walk, (t.entry? (top ++ names)).isSome ∧ names ≠ [])
    (s : List ScannedUnit × List (List String)) :
    (walk.filter fun names => (t'.entry? (top ++ names)).isSome).foldl (effect t' root top)
        (s.1.map (refreshed t'), s.2) =
      ((walk.foldl (effect t root top) s).1.map (refreshed t'),
        (walk.foldl (effect t root top) s).2) := by
  -- on the visits left: one that is left out had no effect, the others have theirs
  induction walk generalizing s with
  | nil => rfl
  | cons names walk ih =>
    obtain ⟨hsome, hne⟩ := hwalk names List.mem_cons_self
    have ih := ih fun ns hns => hwalk ns (List.mem_cons_of_mem _ hns)
    rw [List.filter_cons, List.foldl_cons, ← ih]
    split
    · next hkept => rw [List.foldl_cons, effect_evolved hevolved h h' hne hsome hkept]
    · next hgone =>
      rw [Option.not_isSome_iff_eq_none] at hgone
      rw [effect_vanished hevolved h hne hsome hgone]

end Scan

namespace FileTree

variable {t t' : FileTree} {root : Path} {top : Location} {recursive : Bool}
  {report : ScanReport} {events : List Event}

/-- The visits that a scan of a class root makes: those of the listing, or
none if the root is spelled as standard input. -/
def visited (t : FileTree) (root : Path) (top : Location) (recursive : Bool) :
    List (List String) :=
  if root.components = [.name "-"] then [] else t.walk top (t.listDepth recursive) []

/-- **A scan of a class root succeeds**, and is what its visits amount to. -/
theorem ClassRoot.scan_eq (h : t.ClassRoot root top) (recursive : Bool) :
    t.scan root recursive =
      .ok (Scan.collect root ((t.visited root top recursive).map (t.sightOf root top))) := by
  have hstat : t.stat root = .ok .directory := by
    rw [stat, h.resolves]
    simp [bind, Except.bind, h.directory]
  have hreaches : t.reaches root = true := by rw [reaches, hstat]
  have hdir : t.isDirectory root = true := by rw [isDirectory, hstat]
  unfold FileTree.scan visited
  simp only [hreaches, hdir, Bool.not_true, Bool.false_eq_true, if_false]
  split
  · rfl
  · rw [h.visits_list]

/-- So it finds what the effects of its visits add up to. -/
theorem ClassRoot.scan_ok (h : t.ClassRoot root top) (recursive : Bool) :
    ∃ report events, t.scan root recursive = .ok (report, events) ∧
      report.units = ((t.visited root top recursive).foldl (Scan.effect t root top) ([], [])).1 :=
  ⟨_, _, h.scan_eq recursive, Scan.units_collect _⟩

/-- What a scan visits is there, at some names. -/
theorem of_mem_visited {names : List String} (hmem : names ∈ t.visited root top recursive) :
    (t.entry? (top ++ names)).isSome ∧ names ≠ [] := by
  rw [visited] at hmem
  split at hmem
  · cases hmem
  · exact of_mem_walk hmem

/-- What a scan of a class root finds are class files of the tree. -/
theorem ClassRoot.found_of_scan (h : t.ClassRoot root top)
    (hscan : t.scan root recursive = .ok (report, events)) :
    ∀ u ∈ report.units, Scan.Found t root top u := by
  obtain ⟨report', events', hscan', hunits⟩ := h.scan_ok recursive
  obtain ⟨rfl, -⟩ := Prod.mk.inj (Except.ok.inj (hscan.symm.trans hscan'))
  rw [hunits]
  exact Scan.found_of_foldl h _ (fun names hnames => of_mem_visited hnames) _
    (fun u hu => by cases hu)

/-- **A scan of a class root finds no class file twice.** -/
theorem ClassRoot.nodup_relative (h : t.ClassRoot root top)
    (hscan : t.scan root recursive = .ok (report, events)) :
    (report.units.map ScannedUnit.relative).Nodup := by
  obtain ⟨report', events', hscan', hunits⟩ := h.scan_ok recursive
  obtain ⟨rfl, -⟩ := Prod.mk.inj (Except.ok.inj (hscan.symm.trans hscan'))
  obtain ⟨visits, hvisits, hmap⟩ := Scan.relative_foldl t root top
    (t.visited root top recursive) ([], [])
  have hvisited : (t.visited root top recursive).Nodup := by
    rw [visited]
    split
    · exact List.nodup_nil
    · exact h.tree.nodup_walk _ _
  rw [hunits, hmap, List.map_nil, List.nil_append]
  refine (hvisited.sublist hvisits).map_on fun names hnames others hothers heq => ?_
  obtain ⟨hsome, hne⟩ := of_mem_visited (hvisits.subset hnames)
  obtain ⟨hsome', hne'⟩ := of_mem_visited (hvisits.subset hothers)
  exact Scan.relativePath_inj (h.tree.of_isSome hsome).1 hne (h.tree.of_isSome hsome').1 hne' heq

/-- **The scan of what a tree has become** below a class root finds the units
that a scan of the tree finds, in their order, with the octets that stand
there now. -/
theorem EvolvedBelow.scan (hevolved : EvolvedBelow top t t') (h : t.ClassRoot root top)
    (h' : t'.ClassRoot root top) (hscan : t.scan root recursive = .ok (report, events)) :
    ∃ report' events', t'.scan root recursive = .ok (report', events') ∧
      report'.units = report.units.map (Scan.refreshed t') := by
  obtain ⟨report₁, events₁, hscan₁, hunits⟩ := h.scan_ok recursive
  obtain ⟨rfl, -⟩ := Prod.mk.inj (Except.ok.inj (hscan.symm.trans hscan₁))
  obtain ⟨report', events', hscan', hunits'⟩ := h'.scan_ok recursive
  refine ⟨report', events', hscan', ?_⟩
  have hvisited : t'.visited root top recursive =
      (t.visited root top recursive).filter fun names => (t'.entry? (top ++ names)).isSome := by
    rw [visited, visited]
    split
    · rfl
    · exact hevolved.walk_list h h'.tree recursive
  rw [hunits', hunits, hvisited]
  exact congrArg Prod.fst (Scan.foldl_effect_evolved hevolved h h' _
    (fun names hnames => of_mem_visited hnames) ([], []))

theorem Evolved.scan (hevolved : Evolved t t') (h : t.ClassRoot root top)
    (h' : t'.ClassRoot root top) (hscan : t.scan root recursive = .ok (report, events)) :
    ∃ report' events', t'.scan root recursive = .ok (report', events') ∧
      report'.units = report.units.map (Scan.refreshed t') :=
  (hevolved.below top).scan h h' hscan

end FileTree

end ClassWeave
