import ClassWeave.Proofs.Batch.Accounts
import ClassWeave.Proofs.Eligibility
import ClassWeave.Proofs.Files.Outlet
/-!
# Batch -- the turn of a class file

The class files of a tree have outputs of their own, and none of them is on
the way to another, nor where another is drafted (`Turn.apart`,
`Turn.not_draft`). So what is of consequence for one of them is the same
before the others and after them (`Turn.alike`), and what they leave can be
merged (`FileTree.Merges`, `Turn.merge`).

The destination is to be one without a step up behind a directory that is
missing (`FileTree.Sites`).
-/


namespace ClassWeave

namespace FileTree

variable {t t' t'' : FileTree} {a : FileTree} {parts parts' : List FileTree} {l : Location}

/-- **The same files**, however they are listed. -/
structure SameFiles (t t' : FileTree) : Prop where
  home : t'.home = t.home
  entry : ∀ l, t'.entry? l = t.entry? l

/-- **What became of a tree in several ways, merged**: whatever one of them
changed is as that one has it, and everything else is as it was. -/
structure Merges (t : FileTree) (parts : List FileTree) (t' : FileTree) : Prop where
  home : t'.home = t.home
  changed : ∀ a ∈ parts, ∀ l, a.entry? l ≠ t.entry? l → t'.entry? l = a.entry? l
  kept : ∀ l, (∀ a ∈ parts, a.entry? l = t.entry? l) → t'.entry? l = t.entry? l

theorem Merges.nil (t : FileTree) : Merges t [] t :=
  ⟨rfl, fun _ h => absurd h List.not_mem_nil, fun _ _ => rfl⟩

/-- The order of what is merged does not matter. -/
theorem Merges.sameFiles (h : Merges t parts t') (h' : Merges t parts' t'')
    (hperm : parts'.Perm parts) : SameFiles t' t'' where
  home := h'.home.trans h.home.symm
  entry l := by
    by_cases hkept : ∀ a ∈ parts, a.entry? l = t.entry? l
    · rw [h.kept l hkept, h'.kept l fun a ha => hkept a (hperm.mem_iff.1 ha)]
    · push Not at hkept
      obtain ⟨a, ha, hne⟩ := hkept
      rw [h.changed a ha l hne, h'.changed a (hperm.mem_iff.2 ha) l hne]

/-- One part more, which agrees with the others where they changed
something. -/
theorem Merges.concat (h : Merges t parts t') (hhome : t''.home = t'.home)
    {change : Location → Option Entry} (ha : ∀ l, a.entry? l = (change l).or (t.entry? l))
    (ht'' : ∀ l, t''.entry? l = (change l).or (t'.entry? l))
    (hagree : ∀ b ∈ parts, ∀ l e, b.entry? l ≠ t.entry? l → change l = some e →
      b.entry? l = some e) : Merges t (parts ++ [a]) t'' where
  home := hhome.trans h.home
  changed b hb l hne := by
    rw [ht'']
    rcases List.mem_append.1 hb with hb | hb
    · rcases hchange : change l with _ | e
      · rw [Option.none_or, h.changed b hb l hne]
      · rw [Option.some_or, hagree b hb l e hne hchange]
    · rw [List.mem_singleton.1 hb, ha] at hne ⊢
      rcases hchange : change l with _ | e
      · rw [hchange, Option.none_or] at hne
        exact absurd rfl hne
      · rw [Option.some_or, Option.some_or]
  kept l hkept := by
    rw [List.forall_mem_append, List.forall_mem_singleton, ha] at hkept
    rw [ht'', h.kept l hkept.1, hkept.2]

/-- Nothing below a location has the ending of drafts. -/
def Undrafted (t : FileTree) (loc : Location) : Prop :=
  ∀ names, names ≠ [] → (t.entry? (loc ++ names)).isSome → ¬ IsDraft (loc ++ names)

/-- That can be told from the list of entries. -/
theorem Undrafted.of_listed {loc : Location}
    (h : ∀ p ∈ t.entries, ∀ n ∈ p.1.getLast?, ¬ ".enhancing".toList <:+ n.toList) :
    t.Undrafted loc := by
  rintro names hne hsome ⟨above, n, -, hdraft⟩
  obtain ⟨e, he⟩ := Option.isSome_iff_exists.1 hsome
  refine h _ (mem_entries (by simp [hne]) he) (n ++ ".enhancing") ?_ ?_
  · rw [hdraft, List.getLast?_concat]
    rfl
  · rw [String.toList_append]
    exact List.suffix_append _ _

/-- **A class root and a destination**: the destination leads to a place, or
would if the directories that are missing were made, no link is there or
below, and nothing below either has the ending of drafts. -/
structure Sites (t : FileTree) (root d : Path) (top place : Location) : Prop where
  classRoot : t.ClassRoot root top
  aims : Aims t d place
  linkFree : t.LinkFree place
  undrafted : t.Undrafted top
  vacant : t.Undrafted place

/-- A class root is a destination of its own. -/
theorem ClassRoot.sites {root : Path} {top : Location} (h : t.ClassRoot root top)
    (hundrafted : t.Undrafted top) : Sites t root root top top where
  classRoot := h
  aims := by
    have hlead : root.lead = root.trunk ++ [] := by
      rw [Path.lead, if_neg h.text_ne_empty, List.append_nil]
    have haims := Aims.intro hlead h.leads_root h.directory List.not_mem_nil
      fun below _ target => h.linkFree _ target (List.prefix_append _ _)
    rwa [Path.namesIn, List.filter_nil, List.map_nil, List.append_nil] at haims
  linkFree := h.linkFree
  undrafted := hundrafted
  vacant := hundrafted

end FileTree

namespace Batch

open FileTree (Sites Merges SameFiles Alike Ready Outlet Grown Writing IsDraft)

variable {p : Processor} {destination : Option Path} {w w' : Workspace} {root d : Path}
  {top place l : Location} {s s' : ScannedUnit} {names above above' : List String} {n n' : String}
  {seen units : List ScannedUnit} {o o' : Writing} {t t' : FileTree} {e : Entry} {f : Fate}

/-! ## One class file by itself -/

/-- What becomes of a class file by itself. -/
def aloneFate (p : Processor) (destination : Option Path) (w : Workspace) (s : ScannedUnit) : Fate :=
  p.fateOn (ownUnit destination s) (p.filter.classify w.files (ownUnit destination s))

/-- The calls that it takes. -/
def aloneCalls (p : Processor) (destination : Option Path) (w : Workspace) (s : ScannedUnit) :
    List PassCall :=
  p.callsOn (ownUnit destination s) (p.filter.classify w.files (ownUnit destination s))

/-- The files that it leaves. -/
def aloneFiles (p : Processor) (destination : Option Path) (w : Workspace) (s : ScannedUnit) :
    FileTree :=
  (alone p destination w s).workspace.files

/-- The report of a class file by itself. -/
def aloneReport (p : Processor) (destination : Option Path) (w : Workspace) (s : ScannedUnit) :
    UnitReport :=
  (alone p destination w s).report

theorem name_ownUnit (destination : Option Path) (s : ScannedUnit) :
    (ownUnit destination s).name = s.qualifiedName := by
  simp only [ownUnit, ClassUnit.fresh]

theorem location_ownUnit (destination : Option Path) (s : ScannedUnit) :
    (ownUnit destination s).location = locate destination s := by
  simp only [ownUnit, ClassUnit.fresh]

/-- **A class file by itself meets its fate.** -/
theorem alone_meets (p : Processor) (destination : Option Path) (w : Workspace) (s : ScannedUnit) :
    (alone p destination w s).report = (aloneFate p destination w s).report w.files
        (locate destination s).output s.qualifiedName ∧
      aloneFiles p destination w s =
        (aloneFate p destination w s).filesAfter w.files (locate destination s).output ∧
      (alone p destination w s).workspace.calls = w.calls ++ aloneCalls p destination w s := by
  obtain ⟨-, -, -, -, -, hfiles, hcalls, hreport⟩ :=
    p.process_meets w s.qualifiedName (locate destination s) s.bytes
  rw [← ownUnit, ← alone] at hfiles hcalls hreport
  rw [← aloneFate, location_ownUnit] at hfiles hreport
  rw [← aloneCalls] at hcalls
  rw [name_ownUnit] at hreport
  exact ⟨hreport, hfiles, hcalls⟩

/-- The output of a class file is taken from the destination, or from the
class root. -/
theorem output_locate (hroot : root.text ≠ "") (hnames : ∀ n ∈ names, Path.IsName n)
    (hne : names ≠ []) (hrelative : s.relative = Scan.relativePath names)
    (hpath : s.path = Scan.pathOf root names) :
    (locate destination s).output = (destination.getD root).join (Scan.relativePath names) := by
  rcases destination with _ | d
  · exact hpath.trans (Path.pathOf_eq_join hroot hnames hne)
  · rw [← hrelative]
    rfl

/-- What stands where after a fate, where it has a say. -/
def afterFate (o : Writing) : Fate → Location → Option Entry
  | .enhanced out => o.written? out
  | _ => fun _ => none

/-- **The turn of a class file** in a run: it has a place below the class
root, and its output comes to something at the same names below the
destination's place, with nothing in the way of a draft. -/
structure Turn (destination : Option Path) (t : FileTree) (top place : Location) (s : ScannedUnit)
    (above : List String) (n : String) (o : Writing) : Prop where
  relative : s.relative = Scan.relativePath (above ++ [n])
  entry : t.entry? (top ++ (above ++ [n])) = some (.file s.bytes)
  outlet : Outlet t (locate destination s).output (place ++ above) n o
  start : Alike t t (place ++ above) n

/-- **Every class file of a class root has a turn.** -/
theorem exists_turn (h : Sites t root (destination.getD root) top place)
    (hs : Scan.Found t root top s) : ∃ above n o, Turn destination t top place s above n o := by
  obtain ⟨names, hne, hrelative, hpath, -, -, hentry⟩ := hs
  obtain ⟨above, n, rfl⟩ := (List.eq_nil_or_concat' names).resolve_left hne
  obtain ⟨hnames, -⟩ := h.classRoot.tree.of_isSome (by rw [hentry]; rfl)
  obtain ⟨o, houtlet⟩ := h.aims.outlet h.linkFree hnames
  rw [← output_locate h.classRoot.text_ne_empty hnames hne hrelative hpath] at houtlet
  have hn := hnames n (List.mem_append_right _ List.mem_cons_self)
  refine ⟨above, n, o, hrelative, hentry, houtlet, h.classRoot.tree, (FileTree.SameShape.refl t).grown,
    fun _ _ => rfl, rfl, ?_⟩
  by_contra hsome
  rw [List.append_assoc, ← ne_eq, ← Option.isSome_iff_ne_none] at hsome
  exact h.vacant _ (by simp) hsome ⟨place ++ above, n, hn, by rw [List.append_assoc]⟩

namespace Turn

variable (h : Turn destination t top place s above n o)
include h

/-- Where a fate has a say, it puts the output where nothing but a file is,
or makes a directory on the way to it. -/
theorem made (hmade : afterFate o f l = some e) :
    (l = place ++ (above ++ [n]) ∧ (∃ out, e = .file out) ∧
        ∀ e', t.entry? l = some e' → ∃ bytes, e' = .file bytes) ∨
      (l <+: place ++ above ∧ e = .directory ∧ t.isOpen l = true) := by
  rcases f with reason | ⟨message, enhancer⟩ | out
  · cases hmade
  · cases hmade
  · rcases h.outlet.made hmade with ⟨hl, he, hfile⟩ | hway
    · exact .inl ⟨hl.trans (List.append_assoc ..), ⟨out, he⟩, hfile⟩
    · exact .inr hway

/-- What a fate leaves, and how it is reported, in trees that are alike for
the output. -/
theorem meet (halike : Alike t t' (place ++ above) n) (f : Fate) (name : String) :
    f.report t' (locate destination s).output name = f.report t (locate destination s).output name ∧
      (f.filesAfter t' (locate destination s).output).home = t'.home ∧
      (f.filesAfter t' (locate destination s).output).IsTree ∧
      ∀ l, FileTree.entry? (f.filesAfter t' (locate destination s).output) l =
        (afterFate o f l).or (t'.entry? l) := by
  rcases f with reason | ⟨message, enhancer⟩ | out
  · exact ⟨rfl, rfl, halike.tree, fun _ => rfl⟩
  · exact ⟨rfl, rfl, halike.tree, fun _ => rfl⟩
  · obtain ⟨t₁, hwrite, hhome, htree, hentries⟩ := h.outlet.write halike.ready out
    obtain ⟨t₂, hstart, -⟩ := h.outlet.write h.start.ready out
    refine ⟨?_, ?_, ?_, fun l => ?_⟩
    · simp only [Fate.report, hwrite, hstart]
    · simp only [Fate.filesAfter, hwrite, hhome]
    · simp only [Fate.filesAfter, hwrite, htree]
    · simp only [Fate.filesAfter, hwrite, hentries, afterFate]

end Turn

/-- **A class file comes to the same in trees that are alike for its
output.** -/
theorem Turn.alone_alike (h : Turn destination w.files top place s above n o)
    (halike : Alike w.files w'.files (place ++ above) n) :
    (alone p destination w' s).report = (alone p destination w s).report ∧
      (alone p destination w' s).workspace.calls = w'.calls ++ aloneCalls p destination w s ∧
      (aloneFiles p destination w' s).home = w'.files.home ∧
      (aloneFiles p destination w' s).IsTree ∧
      ∀ l, FileTree.entry? (aloneFiles p destination w' s) l =
        (afterFate o (aloneFate p destination w s) l).or (w'.files.entry? l) := by
  have hverdict : p.filter.classify w'.files (ownUnit destination s) =
      p.filter.classify w.files (ownUnit destination s) :=
    EligibilityFilter.classify_congr (h.outlet.read_congr h.start.tree halike)
  have hfate : aloneFate p destination w' s = aloneFate p destination w s := by
    rw [aloneFate, aloneFate, hverdict]
  have hcalls : aloneCalls p destination w' s = aloneCalls p destination w s := by
    rw [aloneCalls, aloneCalls, hverdict]
  obtain ⟨hreport₁, hfiles₁, hcalls₁⟩ := alone_meets p destination w' s
  obtain ⟨hreport₂, -, -⟩ := alone_meets p destination w s
  obtain ⟨hreport, hhome, htree, hentries⟩ :=
    h.meet halike (aloneFate p destination w s) s.qualifiedName
  rw [hfate] at hreport₁ hfiles₁
  rw [hreport₁, hreport₂, hfiles₁, hcalls₁, hcalls]
  exact ⟨hreport, rfl, hhome, htree, hentries⟩

/-! ## Class files beside each other -/

/-- No class file has its place at that of one of another name, or on the way
to it. -/
theorem Turn.apart (h : Turn destination t top place s above n o)
    (h' : Turn destination t top place s' above' n' o') (hne : s'.qualifiedName ≠ s.qualifiedName) :
    ¬ above ++ [n] <+: above' ++ [n'] := by
  rintro ⟨rest, hrest⟩
  rcases eq_or_ne rest [] with rfl | hrest'
  · rw [List.append_nil] at hrest
    have hrelative : s'.relative = s.relative := by rw [h.relative, h'.relative, hrest]
    exact hne (congrArg Path.qualifiedName hrelative)
  · -- a directory would be where the class file is
    have hdir := (h.start.tree.of_isSome (by rw [h'.entry]; rfl)).2 _ _ hrest.symm hrest'
    rw [h.entry] at hdir
    cases hdir

/-- No class file has its place on the way to another's, whatever their
names. -/
theorem Turn.not_way (h : Turn destination t top place s above n o)
    (h' : Turn destination t top place s' above' n' o') : ¬ above ++ [n] <+: above' := by
  rintro ⟨rest, hrest⟩
  have hdir := (h.start.tree.of_isSome (by rw [h'.entry]; rfl)).2 (above ++ [n]) (rest ++ [n'])
    (by rw [← List.append_assoc, hrest]) (by simp)
  rw [h.entry] at hdir
  cases hdir

/-- Something stands at all the names that lead to a class file. -/
theorem Turn.isSome_of_prefix (h : Turn destination t top place s above n o)
    (hnames : names <+: above ++ [n]) : (t.entry? (top ++ names)).isSome := by
  obtain ⟨rest, hrest⟩ := hnames
  rcases eq_or_ne rest [] with rfl | hrest'
  · rw [List.append_nil] at hrest
    rw [hrest, h.entry]
    rfl
  · rw [(h.start.tree.of_isSome (by rw [h.entry]; rfl)).2 _ _ hrest.symm hrest']
    rfl

/-- No class file is where another is drafted, or below. -/
theorem Turn.not_draft (h : Turn destination t top place s above n o)
    (h' : Turn destination t top place s' above' n' o') (hundrafted : t.Undrafted top) :
    ¬ above ++ [n ++ ".enhancing"] <+: above' ++ [n'] := by
  intro hprefix
  have hn := (h.start.tree.of_isSome (by rw [h.entry]; rfl)).1 n
    (List.mem_append_right _ List.mem_cons_self)
  exact hundrafted (above ++ [n ++ ".enhancing"]) (by simp) (h'.isSome_of_prefix hprefix)
    ⟨top ++ above, n, hn, (List.append_assoc ..).symm⟩

/-- **Outputs of class files of different names do not disturb each other.** -/
theorem Turn.undisturbed (h : Turn destination t top place s above n o)
    (h' : Turn destination t top place s' above' n' o') (hne : s'.qualifiedName ≠ s.qualifiedName)
    (hundrafted : t.Undrafted top) :
    FileTree.Undisturbed (place ++ above) n (place ++ above') n' where
  place := by
    rw [List.append_assoc, List.append_assoc, List.prefix_append_right_inj]
    exact h.apart h' hne
  draft := by
    rw [List.append_assoc, List.append_assoc, List.prefix_append_right_inj]
    exact h.not_draft h' hundrafted
  place' := by
    rw [List.append_assoc, List.append_assoc, List.prefix_append_right_inj]
    exact h'.apart h hne.symm
  draft' := by
    rw [List.append_assoc, List.append_assoc, List.prefix_append_right_inj]
    exact h'.not_draft h hundrafted

theorem prefix_of_way {xs ys zs : List String} (h : place ++ xs <+: place ++ ys) : xs <+: ys ++ zs :=
  ((List.prefix_append_right_inj place).1 h).trans (List.prefix_append _ _)

/-- **Where a fate has a say**, below the destination's place, are names on
the way to the class file. -/
theorem Turn.prefix_of_made (h : Turn destination t top place s above n o)
    (hmade : afterFate o f (place ++ names) = some e) : names <+: above ++ [n] := by
  rcases h.made hmade with ⟨hl, -⟩ | ⟨hl, -⟩
  · exact List.append_cancel_left hl ▸ List.prefix_rfl
  · exact prefix_of_way hl

/-- **Whatever a merge changed, one of the class files did**, on its turn. -/
theorem entry_cases (h : Sites w.files root (destination.getD root) top place)
    (hseen : ∀ s' ∈ seen, Scan.Found w.files root top s')
    (hmerges : Merges w.files (seen.map (aloneFiles p destination w)) t') (l : Location) :
    t'.entry? l = w.files.entry? l ∨ ∃ s' ∈ seen, ∃ above' n' o' e,
      Turn destination w.files top place s' above' n' o' ∧
        afterFate o' (aloneFate p destination w s') l = some e ∧ t'.entry? l = some e := by
  by_cases hkept : ∀ a ∈ seen.map (aloneFiles p destination w), a.entry? l = w.files.entry? l
  · exact .inl (hmerges.kept l hkept)
  · push Not at hkept
    obtain ⟨a, ha, hne⟩ := hkept
    obtain ⟨s', hs', rfl⟩ := List.mem_map.1 ha
    obtain ⟨above', n', o', hturn⟩ := exists_turn h (hseen s' hs')
    obtain ⟨-, -, -, -, hentries⟩ := hturn.alone_alike (p := p) hturn.start
    have hchanged := hmerges.changed _ ha l hne
    rw [hentries] at hne hchanged
    rcases hafter : afterFate o' (aloneFate p destination w s') l with _ | e
    · rw [hafter, Option.none_or] at hne
      exact absurd rfl hne
    · rw [hafter, Option.some_or] at hchanged
      exact .inr ⟨s', hs', above', n', o', e, hturn, hafter, hchanged⟩

/-- **A merge has grown** from the tree that it is a merge for. -/
theorem grown_of_merges (h : Sites w.files root (destination.getD root) top place)
    (hseen : ∀ s' ∈ seen, Scan.Found w.files root top s')
    (hmerges : Merges w.files (seen.map (aloneFiles p destination w)) t') : Grown w.files t' where
  home := hmerges.home
  directory l hdir := by
    rcases entry_cases h hseen hmerges l with hl | ⟨s', -, above', n', o', e, hturn, hafter, hl⟩
    · rw [hl, hdir]
    · rcases hturn.made hafter with ⟨-, -, hfile⟩ | ⟨-, rfl, -⟩
      · obtain ⟨bytes, hbytes⟩ := hfile _ hdir
        cases hbytes
      · exact hl
  link l target := by
    rcases entry_cases h hseen hmerges l with hl | ⟨s', -, above', n', o', e, hturn, hafter, hl⟩
    · rw [hl]
    · rw [hl]
      rcases hturn.made hafter with ⟨-, ⟨out, rfl⟩, hfile⟩ | ⟨-, rfl, hopen⟩
      · refine ⟨nofun, fun hlink => ?_⟩
        obtain ⟨bytes, hbytes⟩ := hfile _ hlink
        cases hbytes
      · refine ⟨nofun, fun hlink => ?_⟩
        rw [FileTree.isOpen, hlink] at hopen
        cases hopen

/-- **Before others and after them, and after itself, a class file finds the
same** that is of consequence for writing its output. -/
theorem Turn.ready (hturn : Turn destination w.files top place s above n o)
    (h : Sites w.files root (destination.getD root) top place)
    (hseen : ∀ s' ∈ seen, Scan.Found w.files root top s') (htree : t'.IsTree)
    (hmerges : Merges w.files (seen.map (aloneFiles p destination w)) t') :
    Ready w.files t' (place ++ above) n where
  tree := htree
  grown := grown_of_merges h hseen hmerges
  isOpen l hl := by
    rcases entry_cases h hseen hmerges l with hsame | ⟨s', hs', above', n', o', e, hturn', hafter, hl'⟩
    · rw [FileTree.isOpen, FileTree.isOpen, hsame]
    · rcases hturn'.made hafter with ⟨rfl, -⟩ | ⟨-, rfl, hopen⟩
      · exact absurd ((List.prefix_append_right_inj place).1 hl) (hturn'.not_way hturn)
      · rw [hopen, FileTree.isOpen_iff.2 (.inr hl')]
  directory := by
    rw [List.append_assoc]
    rcases entry_cases h hseen hmerges (place ++ (above ++ [n])) with
      hsame | ⟨s', hs', above', n', o', e, hturn', hafter, hl'⟩
    · rw [hsame]
    · rcases hturn'.made hafter with ⟨-, ⟨out, rfl⟩, hfile⟩ | ⟨hl, -⟩
      · rw [hl']
        refine ⟨fun hdir => (by cases hdir), fun hdir => ?_⟩
        obtain ⟨bytes, hbytes⟩ := hfile _ hdir
        cases hbytes
      · exact absurd ((List.prefix_append_right_inj place).1 hl) (hturn.not_way hturn')
  vacant := by
    have hvacant := hturn.start.vacant
    rw [List.append_assoc] at hvacant ⊢
    rcases entry_cases h hseen hmerges (place ++ (above ++ [n ++ ".enhancing"])) with
      hsame | ⟨s', hs', above', n', o', e, hturn', hafter, hl'⟩
    · rw [hsame, hvacant]
    · exact absurd (hturn'.prefix_of_made hafter) (hturn.not_draft hturn' h.undrafted)

/-- **Before others and after them a class file finds the same** that is of
consequence for its output. -/
theorem Turn.alike (hturn : Turn destination w.files top place s above n o)
    (h : Sites w.files root (destination.getD root) top place)
    (hseen : ∀ s' ∈ seen, Scan.Found w.files root top s')
    (hne : ∀ s' ∈ seen, s'.qualifiedName ≠ s.qualifiedName) (htree : t'.IsTree)
    (hmerges : Merges w.files (seen.map (aloneFiles p destination w)) t') :
    Alike w.files t' (place ++ above) n := by
  obtain ⟨htree, hgrown, hopen, -, hvacant⟩ := hturn.ready (p := p) h hseen htree hmerges
  refine ⟨htree, hgrown, hopen, ?_, hvacant⟩
  rw [List.append_assoc]
  rcases entry_cases h hseen hmerges (place ++ (above ++ [n])) with
    hsame | ⟨s', hs', above', n', o', e, hturn', hafter, hl'⟩
  · exact hsame
  · exact absurd (hturn'.prefix_of_made hafter) (hturn.apart hturn' (hne s' hs'))

/-- **One class file more is merged.** -/
theorem Turn.merge (hturn : Turn destination w.files top place s above n o)
    (h : Sites w.files root (destination.getD root) top place)
    (hseen : ∀ s' ∈ seen, Scan.Found w.files root top s')
    (hne : ∀ s' ∈ seen, s'.qualifiedName ≠ s.qualifiedName) (htree : w'.files.IsTree)
    (hmerges : Merges w.files (seen.map (aloneFiles p destination w)) w'.files) :
    (aloneFiles p destination w' s).IsTree ∧
      Merges w.files ((seen ++ [s]).map (aloneFiles p destination w))
        (aloneFiles p destination w' s) := by
  obtain ⟨-, -, hhome, htree', hentries⟩ :=
    hturn.alone_alike (p := p) (hturn.alike h hseen hne htree hmerges)
  obtain ⟨-, -, -, -, hstart⟩ := hturn.alone_alike (p := p) hturn.start
  rw [List.map_append, List.map_singleton]
  refine ⟨htree', hmerges.concat hhome hstart hentries fun b hb l e hchanged hafter => ?_⟩
  obtain ⟨s', hs', rfl⟩ := List.mem_map.1 hb
  obtain ⟨above', n', o', hturn'⟩ := exists_turn h (hseen s' hs')
  obtain ⟨-, -, -, -, hentries'⟩ := hturn'.alone_alike (p := p) hturn'.start
  rw [hentries'] at hchanged ⊢
  rcases hafter' : afterFate o' (aloneFate p destination w s') l with _ | e'
  · rw [hafter', Option.none_or] at hchanged
    exact absurd rfl hchanged
  -- where both have a say, both make a directory
  rw [Option.some_or]
  rcases hturn.made hafter with ⟨hl, -⟩ | ⟨hl, rfl, -⟩
  · rw [hl] at hafter'
    exact absurd (hturn'.prefix_of_made hafter') (hturn.apart hturn' (hne s' hs'))
  · rcases hturn'.made hafter' with ⟨hl', -⟩ | ⟨-, rfl, -⟩
    · exact absurd (prefix_of_way (hl' ▸ hl)) (hturn'.apart hturn (hne s' hs').symm)
    · rfl

end Batch

end ClassWeave
