import ClassWeave.Proofs.Files.Overwriting
import ClassWeave.Workspace
/-!
# Files -- the absolute path of an output

An absolute path is spelled from the root, with one slash in front or with
two (`Path.spelled`), and tells the location that its names are
(`namesIn_spelled`). What is taken from a destination without a step up has
one of these for its absolute path, for the location that it aims at, and
which of the two is told by the destination (`absolute?_output`). So in a
tree without links (`FileTree.Plain`) an output is written to its place as a
whole or not at all (`Plain.writeWhole`), and what is there is read by the
absolute path (`Plain.read_spelled`).
-/


namespace ClassWeave

namespace Path

variable {p d home : Path} {names place : List String}

/-! ## Spelled from the root -/

/-- Whether a path starts with two slashes and no third one. -/
def opensTwice (p : Path) : Bool :=
  decide (p.text.toList.take 2 = ['/', '/'] ∧ p.text.toList.take 3 ≠ ['/', '/', '/'])

/-- The root, with one slash or with two. -/
def root (twice : Bool) : Path := if twice then ⟨"//"⟩ else ⟨"/"⟩

/-- The path of a location, spelled from the root. -/
def spelled (twice : Bool) (place : Location) : Path := Scan.pathOf (root twice) place

theorem root_ne_empty (twice : Bool) : (root twice).text ≠ "" := by
  cases twice <;> decide

theorem eq_nil_of_mem_root {s : List Char} (twice : Bool) (h : s ∈ (root twice).trunk) : s = [] := by
  have hall : ∀ s ∈ (root twice).trunk, s = [] := by
    cases twice <;> decide
  exact hall s h

theorem namesIn_root (twice : Bool) : namesIn (root twice).trunk = [] := by
  cases twice <;> decide

/-- **The path of a location tells the location.** -/
theorem namesIn_spelled (twice : Bool) (hnames : ∀ n ∈ place, IsName n) (hne : place ≠ []) :
    namesIn (spelled twice place).segments = place := by
  rw [spelled, (Scan.segments_pathOf (root_ne_empty twice) hnames hne).2, namesIn_append,
    namesIn_root, namesIn_names hnames, List.nil_append]

/-! ## Absolute paths -/

/-- **The absolute path of a path** without a slash at its end has the names
of its segments, taken from the root or from where one is. -/
theorem absolute?_eq (hempty : p.text ≠ "") (hslash : p.text.toList.getLast? ≠ some '/') :
    p.absolute? home =
      some (Scan.pathOf (if p.isRooted then root p.opensTwice else home) (namesIn p.segments)) := by
  have hbase : (if !p.isRooted then home
      else if p.text.toList.take 2 = ['/', '/'] ∧ p.text.toList.take 3 ≠ ['/', '/', '/'] then ⟨"//"⟩
      else ⟨"/"⟩) = if p.isRooted then root p.opensTwice else home := by
    rcases p.isRooted with _ | _
    · rfl
    · simp only [root, opensTwice, decide_eq_true_eq]
      rfl
  simp only [absolute?, if_neg hempty, if_neg hslash, hbase, Scan.pathOf, namesIn, List.foldl_map]

/-- Only rooted paths start with two slashes. -/
theorem isRooted_of_opensTwice (h : p.opensTwice = true) : p.isRooted = true := by
  obtain ⟨htwo, -⟩ := of_decide_eq_true h
  rw [isRooted]
  rcases hcs : p.text.toList with _ | ⟨c, cs⟩
  · rw [hcs] at htwo
    cases htwo
  · rw [hcs, List.take_succ_cons] at htwo
    rw [(List.cons.inj htwo).1]
    rfl

/-- What is taken from a path starts with as many slashes. -/
theorem opensTwice_join (d : Path) (hnames : ∀ n ∈ names, IsName n) (hne : names ≠ []) :
    (d.join (Scan.relativePath names)).opensTwice = d.opensTwice := by
  obtain ⟨c, cs, hcs, hc⟩ := exists_cons_relativePath hnames hne
  have hjoin : (d.join (Scan.relativePath names)).text.toList =
      d.text.toList ++ if d.text.toList.getLast?.all (· == '/') then c :: cs else '/' :: c :: cs := by
    rw [join, isRooted_relativePath hnames hne, if_neg Bool.false_ne_true]
    split
    · rw [String.toList_append, hcs]
    · rw [String.toList_append, String.toList_append, hcs, List.append_assoc]
      rfl
  rw [opensTwice, opensTwice, hjoin]
  -- on the first three characters; what comes behind them is of no account
  rcases d.text.toList with _ | ⟨a, _ | ⟨b, _ | ⟨e, ds⟩⟩⟩
  · simp [hc]
  · by_cases ha : a = '/' <;> simp [ha, hc]
  · by_cases hb : b = '/' <;> simp [hb, hc]
  · simp

theorem isRooted_spelled (twice : Bool) (hnames : ∀ n ∈ place, IsName n) :
    (spelled twice place).isRooted = true := by
  rw [spelled, Scan.isRooted_pathOf (root_ne_empty twice) hnames]
  cases twice <;> rfl

theorem opensTwice_spelled (twice : Bool) (hnames : ∀ n ∈ place, IsName n) (hne : place ≠ []) :
    (spelled twice place).opensTwice = twice := by
  rw [spelled, pathOf_eq_join (root_ne_empty twice) hnames hne, opensTwice_join _ hnames hne]
  cases twice <;> rfl

/-- **The path of a location is absolute**: it is its own absolute path,
wherever one is. -/
theorem absolute?_spelled (twice : Bool) (hnames : ∀ n ∈ place, IsName n) (hne : place ≠ []) :
    (spelled twice place).absolute? home = some (spelled twice place) := by
  have hempty : (spelled twice place).text ≠ "" := Scan.pathOf_ne_empty (root_ne_empty twice) hnames
  have hslash := (Scan.segments_pathOf (root_ne_empty twice) hnames hne).1
  rw [absolute?_eq hempty hslash, if_pos (isRooted_spelled twice hnames),
    opensTwice_spelled twice hnames hne, namesIn_spelled twice hnames hne]
  rfl

end Path

open ClassWeave.Path

/-- The working directory is spelled from the root. -/
theorem Workspace.home_eq (w : Workspace) (hnames : ∀ n ∈ w.files.home, IsName n) :
    w.home = spelled false w.files.home := by
  rcases eq_or_ne w.files.home [] with hnil | hne
  · rw [Workspace.home, hnil]
    rfl
  · rw [spelled, Path.pathOf_eq_join (root_ne_empty false) hnames hne, join,
      isRooted_relativePath hnames hne]
    rfl

namespace FileTree

variable {t t' : FileTree} {d : Path} {place : Location} {names above : List String} {n : String}
  {bytes : Bytes} {twice : Bool}

/-! ## Trees without links -/

/-- **A tree without links**, in which one is at a directory with a path
that is short enough. -/
structure Plain (t : FileTree) : Prop where
  tree : t.IsTree
  linkFree : t.LinkFree []
  home : t.entry? t.home = some .directory
  short : ∀ n ∈ t.home, isTooLong n = false

/-- Where the output of some names is, in a destination. -/
def placeOf (t : FileTree) (d : Path) (names : List String) : Location :=
  t.startOf d ++ (namesIn d.lead ++ names)

/-- Names that an entry may have. -/
def Fit (place : Location) : Prop := ∀ n ∈ place, IsName n ∧ isTooLong n = false

namespace Plain

variable (h : t.Plain)
include h

theorem names_home : ∀ n ∈ t.home, IsName n := by
  have hsome : (t.entry? ([] ++ t.home)).isSome := by
    rw [List.nil_append, h.home]
    rfl
  exact (h.tree.of_isSome hsome).1

theorem directory_startOf (d : Path) : t.entry? (t.startOf d) = some .directory := by
  rw [startOf]
  split
  · rfl
  · exact h.home

theorem fit_startOf (d : Path) : Fit (t.startOf d) := by
  rw [startOf]
  split
  · exact List.forall_mem_nil _
  · exact fun n hn => ⟨h.names_home n hn, h.short n hn⟩

/-- **The path of an output heads for its place.** -/
theorem heads_output (hup : ['.', '.'] ∉ d.segments) (hnul : Char.ofNat 0 ∉ d.text.toList)
    (hnames : ∀ m ∈ names, IsName m) (hne : names ≠ []) :
    t.Heads (d.join (Scan.relativePath names)) [] (t.startOf d) (namesIn d.lead ++ names) where
  spells := spells_join (List.nil_append _).symm
    (isName_of_mem_namesIn (List.nil_append _).symm (fun hmem => hup (mem_segments_of_lead hmem)) hnul)
    hnames hne
  leads := by
    rw [startOf, (segments_join_relative d hnames hne).2]
    exact .done
  directory := h.directory_startOf d
  linkless _ _ target := h.linkFree _ target List.nil_prefix

/-- **The absolute path of an output** spells its place, with as many slashes
in front as the destination has. -/
theorem absolute?_output {w : Workspace} (hfiles : w.files = t) (hup : ['.', '.'] ∉ d.segments)
    (hnul : Char.ofNat 0 ∉ d.text.toList) (hnames : ∀ m ∈ names, IsName m) (hne : names ≠ []) :
    (d.join (Scan.relativePath names)).absolute? w.home =
      some (spelled d.opensTwice (t.placeOf d names)) := by
  have hspells := (h.heads_output hup hnul hnames hne).spells
  obtain ⟨hsegments, hrooted⟩ := segments_join_relative d hnames hne
  rw [absolute?_eq hspells.text_ne_empty hspells.not_slash, hsegments, namesIn_append,
    namesIn_names hnames, hrooted, opensTwice_join d hnames hne, placeOf, startOf]
  split
  · rfl
  · next hrelative =>
    have honce : d.opensTwice = false := by
      rw [Bool.eq_false_iff]
      exact fun htwice => hrelative (isRooted_of_opensTwice htwice)
    rw [w.home_eq (hfiles ▸ h.names_home), hfiles, honce]
    simp only [spelled, Scan.pathOf, List.foldl_append]

/-- **The path of a place heads for it.** -/
theorem heads_spelled (twice : Bool) (hfit : Fit place) (hne : place ≠ []) :
    t.Heads (spelled twice place) [] [] place where
  spells := by
    obtain ⟨above, n, rfl⟩ := (List.eq_nil_or_concat' place).resolve_left hne
    have hnames : ∀ m ∈ above ++ [n], IsName m := fun m hm => (hfit m hm).1
    refine ⟨⟨(root twice).trunk ++ above.map String.toList, n, ?_, ?_⟩, hnames⟩
    · rw [spelled, (Scan.segments_pathOf (root_ne_empty twice) hnames hne).2]
      simp
    · rw [namesIn_append, namesIn_root, List.nil_append,
        namesIn_names (List.forall_mem_append.1 hnames).1]
  leads := by
    rw [startOf, if_pos (isRooted_spelled twice fun m hm => (hfit m hm).1)]
    exact .done
  directory := rfl
  linkless _ _ target := h.linkFree _ target List.nil_prefix

omit h in
/-- Nothing is wrong with the path of a place, if it is short enough. -/
theorem textFault?_spelled (twice : Bool) (hfit : Fit place) (hne : place ≠ [])
    (hshort : (Utf8.encode (spelled twice place).text).length < 4096) :
    textFault? (spelled twice place) = none := by
  have hnames : ∀ m ∈ place, IsName m := fun m hm => (hfit m hm).1
  have hnul : Char.ofNat 0 ∉ (spelled twice place).text.toList := by
    intro hmem
    obtain ⟨s, hs, hnul⟩ := (Text.mem_iff_exists_piece (show Char.ofNat 0 ≠ '/' by decide)).1 hmem
    rw [← Path.segments, spelled, (Scan.segments_pathOf (root_ne_empty twice) hnames hne).2,
      List.mem_append] at hs
    rcases hs with hs | hs
    · rw [eq_nil_of_mem_root twice hs] at hnul
      cases hnul
    · obtain ⟨n, hn, rfl⟩ := List.mem_map.1 hs
      exact (hnames n hn).noNul hnul
  have hempty : (spelled twice place).text ≠ "" := Scan.pathOf_ne_empty (root_ne_empty twice) hnames
  rw [textFault?, if_neg (by simpa using hnul), if_neg hempty, if_neg (Nat.not_le.2 hshort)]

/-- **The file in a place is read by its path.** -/
theorem read_spelled (twice : Bool) (hfit : Fit place) (hne : place ≠ [])
    (hshort : (Utf8.encode (spelled twice place).text).length < 4096) :
    t.read (spelled twice place) = .ok bytes ↔ t.entry? place = some (.file bytes) := by
  rw [(h.heads_spelled twice hfit hne).read_ok h.tree,
    and_iff_right (textFault?_spelled twice hfit hne hshort),
    and_iff_right fun m hm => (hfit m hm).2, List.nil_append]

/-! ## Outputs -/

/-- **An output is written as a whole** to its place, or something goes
wrong; all else stays as it is, but for directories that come up and what
was drafted. -/
theorem writeWhole (hup : ['.', '.'] ∉ d.segments) (hnames : ∀ m ∈ above ++ [n], IsName m)
    (out : Bytes) :
    ∃ t' r, t.writeWhole (d.join (Scan.relativePath (above ++ [n]))) out = (t', r) ∧ t'.Plain ∧
      Overwritten t t' (t.placeOf d (above ++ [n])) (t.placeOf d (above ++ [n ++ ".enhancing"])) out
        (r = .ok ()) ∧
      (r = .ok () → Char.ofNat 0 ∉ d.text.toList ∧ Fit (t.placeOf d (above ++ [n])) ∧
        t'.resolve true (d.join (Scan.relativePath (above ++ [n]))) =
          .ok (t.placeOf d (above ++ [n]))) := by
  by_cases hnul : Char.ofNat 0 ∈ d.text.toList
  · refine ⟨t, .error .holdsNul, ?_, h, .refl h.tree nofun, nofun⟩
    rw [FileTree.writeWhole, makeParents_of_nul hnames hnul]
  have hheads := h.heads_output hup hnul hnames (by simp)
  rw [← List.append_assoc] at hheads
  obtain ⟨t', r, hwrite, hover, hok⟩ :=
    hheads.overwritten h.tree (fun target => h.linkFree _ target List.nil_prefix) out
  rw [List.append_assoc, List.append_assoc] at hover
  have hplain : t'.Plain :=
    { tree := hover.tree
      linkFree := hover.linkFree h.linkFree
      home := by
        rw [hover.home]
        exact hover.directory h.home
      short := by
        rw [hover.home]
        exact h.short }
  refine ⟨t', r, hwrite, hplain, hover, fun hr => ?_⟩
  obtain ⟨htext, hshort⟩ := hok hr
  refine ⟨hnul, ?_, ?_⟩
  · rw [Fit, placeOf, List.forall_mem_append, ← List.append_assoc]
    exact ⟨h.fit_startOf d, fun m hm => ⟨hheads.spells.isName m hm, hshort m hm⟩⟩
  · have hheads' := hplain.heads_output hup hnul hnames (by simp)
    have hstart : t'.startOf d = t.startOf d := by rw [startOf, hover.home, ← startOf]
    rw [hheads'.resolve, htext, hstart]
    refine descend_ok.2 ⟨rfl, ?_, ?_⟩
    · rwa [← List.append_assoc]
    · have hplaced : t'.entry? (t.startOf d ++ (namesIn d.lead ++ (above ++ [n]))) =
          some (.file out) := hover.placed hr
      exact (hover.tree.of_isSome (by rw [hplaced]; rfl)).2

end Plain

end FileTree

end ClassWeave
