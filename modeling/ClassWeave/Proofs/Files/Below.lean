import ClassWeave.Proofs.Files.Tree
/-!
# Files -- what is done below a class root

A class root is a path that leads to a directory without links in it or
below it (`FileTree.ClassRoot`). The path of an entry below it leads to
that entry, if path and names are short enough (`Scan.Short`), and to
nothing else (`resolve_below`). So a file there is read by its path
(`read_below`), its directory is there to be written in
(`makeParents_below`), and writing it as a whole puts the octets in its
place and takes away what stood where they are drafted, or changes nothing
(`writeWhole_ok`, `writeWhole_error`).
-/


namespace ClassWeave

/-- Names and a path that are short enough for the operating system. -/
structure Scan.Short (root : Path) (names : List String) : Prop where
  path : (Utf8.encode (Scan.pathOf root names).text).length < 4096
  names : ∀ n ∈ names, (Utf8.encode n).length ≤ 255

namespace FileTree

/-- **A class root**: a path that leads to a directory of a tree, with no
link there or below. -/
structure ClassRoot (t : FileTree) (root : Path) (top : Location) : Prop where
  tree : t.IsTree
  resolves : t.resolve true root = .ok top
  directory : t.entry? top = some .directory
  linkFree : t.LinkFree top

variable {t : FileTree} {root : Path} {top : Location} {names above : List String} {n : String}
  {follow : Bool} {r : Location}

/-! ## Where paths below a root lead -/

/-- Where a relative or a rooted path starts. -/
def startOf (t : FileTree) (p : Path) : Location := if p.isRooted then [] else t.home

/-- A path leads where its steps do, if it can be asked for at all. -/
theorem resolve_ok {p : Path} : t.resolve follow p = .ok r ↔
    Char.ofNat 0 ∉ p.text.toList ∧ p.text ≠ "" ∧ (Utf8.encode p.text).length < 4096 ∧
      Leads t follow 40 (t.startOf p) (steps p) r := by
  have hany : (p.text.toList.any (· == Char.ofNat 0)) = true ↔ Char.ofNat 0 ∈ p.text.toList := by
    simp
  unfold resolve
  by_cases hnul : Char.ofNat 0 ∈ p.text.toList
  · rw [if_pos (hany.2 hnul)]
    exact ⟨nofun, fun h => absurd hnul h.1⟩
  · rw [if_neg fun h => hnul (hany.1 h), and_iff_right hnul]
    by_cases hempty : p.text = ""
    · rw [if_pos hempty]
      exact ⟨nofun, fun h => absurd hempty h.1⟩
    · rw [if_neg hempty, and_iff_right hempty]
      by_cases hlong : 4096 ≤ (Utf8.encode p.text).length
      · rw [if_pos hlong]
        exact ⟨nofun, fun h => absurd h.1 (Nat.not_lt.2 hlong)⟩
      · rw [if_neg hlong, and_iff_right (Nat.not_le.1 hlong)]
        exact chase_ok

/-- What a path leads to in a tree it leads to in one that has grown. -/
theorem resolve_grown {t' : FileTree} {p : Path} (hgrown : Grown t t') (h : t.resolve follow p = .ok r) :
    t'.resolve follow p = .ok r := by
  obtain ⟨hnul, hempty, hlong, hleads⟩ := resolve_ok.1 h
  refine resolve_ok.2 ⟨hnul, hempty, hlong, ?_⟩
  rw [startOf, hgrown.home, ← startOf]
  exact hleads.grown hgrown

/-- What a path begins with starts where the path does. -/
theorem startOf_beginning {p q : Path} (hempty : q.text ≠ "")
    (hbefore : q.text.toList <+: p.text.toList) : t.startOf q = t.startOf p := by
  obtain ⟨cs, hcs⟩ := hbefore
  have hrooted : q.isRooted = p.isRooted := by
    rw [Path.isRooted, Path.isRooted]
    rcases hq : q.text.toList with _ | ⟨c, cs'⟩
    · exact absurd (String.toList_eq_nil_iff.1 hq) hempty
    · rw [← hcs, hq]
      rfl
  rw [startOf, startOf, hrooted]

/-- What a path begins with can be asked for if the path can. -/
theorem resolve_beginning {p q : Path} (hempty : q.text ≠ "")
    (hbefore : q.text.toList <+: p.text.toList) (hnul : Char.ofNat 0 ∉ p.text.toList)
    (hlong : (Utf8.encode p.text).length < 4096)
    (hleads : Leads t follow 40 (t.startOf q) (steps q) r) : t.resolve follow q = .ok r := by
  obtain ⟨cs, hcs⟩ := hbefore
  rw [← hcs, List.mem_append, not_or] at hnul
  rw [Utf8.encode, ← hcs, List.flatMap_append, List.length_append] at hlong
  refine resolve_ok.2 ⟨hnul.1, hempty, ?_, hleads⟩
  rw [Utf8.encode]
  omega

/-- Names lead down from a directory, over directories and where no link
is, if they are short enough. -/
theorem leads_names {m : Nat} {loc : Location} (hlinks : t.LinkFree loc)
    (hnames : ∀ n ∈ names, Path.IsName n)
    (hdirs : ∀ above below, names = above ++ below → below ≠ [] →
      t.entry? (loc ++ above) = some .directory) :
    Leads t follow m loc names r ↔ (∀ n ∈ names, (Utf8.encode n).length ≤ 255) ∧ r = loc ++ names := by
  induction names generalizing loc with
  | nil => rw [leads_nil, List.append_nil]; simp
  | cons n names ih =>
    have hn := hnames n List.mem_cons_self
    have hdir := hdirs [] (n :: names) rfl (List.cons_ne_nil _ _)
    rw [List.append_nil] at hdir
    have hlinks' : t.LinkFree (loc ++ [n]) := fun l target hl =>
      hlinks l target ((List.prefix_append _ _).trans hl)
    have hdirs' : ∀ above below, names = above ++ below → below ≠ [] →
        t.entry? (loc ++ [n] ++ above) = some .directory := by
      intro above below hsplit hbelow
      rw [← List.append_cons]
      exact hdirs (n :: above) below (by rw [hsplit]; rfl) hbelow
    rw [leads_into hn.ne_dot hn.ne_up fun target => hlinks _ target (List.prefix_append _ _),
      and_iff_right hdir, ih hlinks' (fun m hm => hnames m (List.mem_cons_of_mem _ hm)) hdirs',
      List.forall_mem_cons, and_assoc, ← List.append_cons]

namespace ClassRoot

variable (h : t.ClassRoot root top)
include h

theorem text_ne_empty : root.text ≠ "" := (resolve_ok.1 h.resolves).2.1

/-- A tree that has grown has the same class root. -/
theorem grown {t' : FileTree} (htree : t'.IsTree) (hgrown : Grown t t') : t'.ClassRoot root top where
  tree := htree
  resolves := by
    obtain ⟨hnul, hempty, hlong, hleads⟩ := resolve_ok.1 h.resolves
    rw [startOf, ← hgrown.home] at hleads
    exact resolve_ok.2 ⟨hnul, hempty, hlong, hleads.grown hgrown⟩
  directory := hgrown.directory top h.directory
  linkFree := h.linkFree.grown hgrown

theorem shape {t' : FileTree} (htree : t'.IsTree) (hshape : SameShape t t') :
    t'.ClassRoot root top :=
  h.grown htree hshape.grown

/-- What stands below a root is a file or a directory. -/
theorem exists_file (hsome : (t.entry? (top ++ names)).isSome)
    (hdir : t.entry? (top ++ names) ≠ some .directory) :
    ∃ bytes, t.entry? (top ++ names) = some (.file bytes) := by
  obtain ⟨e, he⟩ := Option.isSome_iff_exists.1 hsome
  cases e with
  | file bytes => exact ⟨bytes, he⟩
  | directory => exact absurd he hdir
  | link target => exact absurd he (h.linkFree _ target (List.prefix_append _ _))

/-- A file written into a directory below a root leaves the class root and
the shape of the tree. -/
theorem put (bytes : Bytes) (hdir : t.entry? (top ++ above) = some .directory)
    (hn : Path.IsName n) (hfile : t.entry? (top ++ (above ++ [n])) ≠ some .directory) :
    (t.put (top ++ (above ++ [n])) (.file bytes)).ClassRoot root top ∧
      SameShape t (t.put (top ++ (above ++ [n])) (.file bytes)) := by
  have hshape : SameShape t (t.put (top ++ (above ++ [n])) (.file bytes)) :=
    sameShape_put (by simp) hfile fun target => h.linkFree _ target (List.prefix_append _ _)
  refine ⟨h.shape ?_ hshape, hshape⟩
  rw [← List.append_assoc] at hfile ⊢
  exact h.tree.put hdir hn hfile

/-- So does removing what is no directory. -/
theorem erase (hfile : t.entry? (top ++ (above ++ [n])) ≠ some .directory) :
    (t.erase (top ++ (above ++ [n]))).ClassRoot root top ∧
      SameShape t (t.erase (top ++ (above ++ [n]))) := by
  have hshape : SameShape t (t.erase (top ++ (above ++ [n]))) :=
    sameShape_erase (by simp) hfile fun target => h.linkFree _ target (List.prefix_append _ _)
  refine ⟨h.shape ?_ hshape, hshape⟩
  rw [← List.append_assoc] at hfile ⊢
  exact h.tree.erase hfile

/-- The steps of a root lead to it, those for slashes at its end left
out. -/
theorem leads_root : Leads t true 40 (t.startOf root) (trunkSteps root) top := by
  have hleads := (resolve_ok.1 h.resolves).2.2.2
  rw [steps_eq] at hleads
  refine hleads.of_dots fun s hs => ?_
  split at hs
  · exact List.mem_singleton.1 hs
  · cases hs

/-- The spelling of a path below a root holds no NUL. -/
theorem noNul (hnames : ∀ n ∈ names, Path.IsName n) :
    Char.ofNat 0 ∉ (Scan.pathOf root names).text.toList := by
  induction names using List.reverseRecOn with
  | nil => exact (resolve_ok.1 h.resolves).1
  | append_singleton names n ih =>
    have habove : ∀ m ∈ names, Path.IsName m := fun m hm => hnames m (List.mem_append_left _ hm)
    have hn := hnames n (List.mem_append_right _ List.mem_cons_self)
    rw [Scan.pathOf_concat, Path.toList_join (Scan.pathOf_ne_empty h.text_ne_empty habove) hn,
      List.mem_append, not_or]
    refine ⟨ih habove, ?_⟩
    split
    · exact hn.noNul
    · rw [List.mem_cons, not_or]
      exact ⟨by decide, hn.noNul⟩

/-- **The path of an entry below a root leads to it**, and nowhere else, if
path and names are short enough. -/
theorem resolve_below (hne : names ≠ []) (hnames : ∀ n ∈ names, Path.IsName n)
    (hdirs : ∀ above below, names = above ++ below → below ≠ [] →
      t.entry? (top ++ above) = some .directory) :
    t.resolve follow (Scan.pathOf root names) = .ok r ↔ Scan.Short root names ∧ r = top ++ names := by
  obtain ⟨m, hm⟩ := h.leads_root.append_iff
  have hstart : t.startOf (Scan.pathOf root names) = t.startOf root := by
    rw [startOf, startOf, Scan.isRooted_pathOf h.text_ne_empty hnames]
  rw [resolve_ok, and_iff_right (h.noNul hnames),
    and_iff_right (Scan.pathOf_ne_empty h.text_ne_empty hnames), hstart,
    steps_pathOf h.text_ne_empty hnames hne, hm _ _ _ hne, leads_names h.linkFree hnames hdirs]
  exact ⟨fun ⟨hpath, hshort, hr⟩ => ⟨⟨hpath, hshort⟩, hr⟩,
    fun ⟨hshort, hr⟩ => ⟨hshort.path, hshort.names, hr⟩⟩

/-- **Reading a file below a root** by its path gives its octets, if path
and names are short enough. -/
theorem read_below {bytes : Bytes} (hne : names ≠ []) (hsome : (t.entry? (top ++ names)).isSome) :
    t.read (Scan.pathOf root names) = .ok bytes ↔
      Scan.Short root names ∧ t.entry? (top ++ names) = some (.file bytes) := by
  obtain ⟨hnames, hdirs⟩ := h.tree.of_isSome hsome
  obtain ⟨e, he⟩ := Option.isSome_iff_exists.1 hsome
  unfold read stat
  rcases hres : t.resolve true (Scan.pathOf root names) with fault | r
  · refine ⟨nofun, fun ⟨hshort, _⟩ => ?_⟩
    have hok : t.resolve true (Scan.pathOf root names) = .ok (top ++ names) :=
      (h.resolve_below hne hnames hdirs).2 ⟨hshort, rfl⟩
    rw [hres] at hok
    cases hok
  · obtain ⟨hshort, rfl⟩ := (h.resolve_below hne hnames hdirs).1 hres
    rw [and_iff_right hshort, he]
    rcases e with b | _ | target <;> simp [bind, Except.bind, he]

/-! ## Writing below a root -/

/-- The steps of the directory that an entry is in lead to it. -/
theorem leads_above (hnames : ∀ n ∈ names, Path.IsName n)
    (hdirs : ∀ above below, names = above ++ below → below ≠ [] →
      t.entry? (top ++ above) = some .directory)
    (hshort : ∀ n ∈ names, (Utf8.encode n).length ≤ 255) :
    Leads t true 40 (t.startOf root) (trunkSteps root ++ names) (top ++ names) := by
  rcases names with _ | ⟨n, names⟩
  · rw [List.append_nil, List.append_nil]
    exact h.leads_root
  · obtain ⟨m, hm⟩ := h.leads_root.append_iff
    exact (hm _ _ _ (List.cons_ne_nil _ _)).2 ((leads_names h.linkFree hnames hdirs).2 ⟨hshort, rfl⟩)

/-- The path of the directory that an entry is in leads there, and to
something if the last link on the way is not followed. -/
theorem parent_below (hsome : (t.entry? (top ++ (above ++ [n]))).isSome)
    (hshort : Scan.Short root (above ++ [n])) :
    ∃ q, (Scan.pathOf root (above ++ [n])).parent? = some q ∧ q.text ≠ "" ∧ bare q = q ∧
      t.resolve true q = .ok (top ++ above) ∧
      ∃ r, t.resolve false q = .ok r ∧ (t.entry? r).isSome := by
  obtain ⟨hnames, hdirs⟩ := h.tree.of_isSome hsome
  have hdir := hdirs above [n] rfl (List.cons_ne_nil _ _)
  have hn := hnames n (List.mem_append_right _ List.mem_cons_self)
  have habove : ∀ m ∈ above, Path.IsName m := fun m hm => hnames m (List.mem_append_left _ hm)
  have hsegments : (Scan.pathOf root (above ++ [n])).segments =
      (root.trunk ++ above.map String.toList) ++ [n.toList] := by
    rw [(Scan.segments_pathOf h.text_ne_empty hnames (by simp)).2]
    simp
  obtain ⟨q, hparent, hempty, hbefore, hbare, dots, hdots, hsteps⟩ :=
    parent?_of_segments hsegments (by simp [Path.trunk_ne_nil]) hn.not_isIdle
  -- the parent starts where the root does and takes the steps to the directory
  have hstart : t.startOf q = t.startOf root := by
    rw [startOf_beginning hempty hbefore, startOf, startOf,
      Scan.isRooted_pathOf h.text_ne_empty hnames]
  have hstepsOf : stepsOf (root.trunk ++ above.map String.toList) = trunkSteps root ++ above := by
    rw [stepsOf_append, stepsOf_names habove, trunkSteps]
  have hleads := h.leads_above habove
    (fun a b hsplit hb => hdirs a (b ++ [n]) (by rw [hsplit, List.append_assoc]) (by simp))
    fun m hm => hshort.names m (List.mem_append_left _ hm)
  -- but for lone dots that the spelling leaves out, which lead nowhere else
  have hq : Leads t true 40 (t.startOf q) (steps q) (top ++ above) := by
    rw [hstart]
    rw [← hstepsOf] at hleads
    rcases hsteps with hsteps | ⟨hroot, hsteps⟩
    · rw [hsteps] at hleads
      exact hleads.of_dots hdots
    · rw [hsteps] at hleads
      have hloc := hleads.eq_of_dots hdots
      rw [hroot, ← hloc]
      exact .here hdir .done
  obtain ⟨r, hr, hstands⟩ := hq.exists_unfollowed (by rw [hdir]; rfl)
  have hnul := h.noNul hnames
  exact ⟨q, hparent, hempty, hbare, resolve_beginning hempty hbefore hnul hshort.path hq,
    r, resolve_beginning hempty hbefore hnul hshort.path hr, hstands⟩

/-- **The directory of an entry is there**: making it changes nothing. -/
theorem makeParents_below (hsome : (t.entry? (top ++ (above ++ [n]))).isSome)
    (hshort : Scan.Short root (above ++ [n])) :
    t.makeParents (Scan.pathOf root (above ++ [n])) = (t, .ok ()) := by
  obtain ⟨q, hparent, hempty, hbare, hq, r, hr, hstands⟩ := h.parent_below hsome hshort
  have hdir := (h.tree.of_isSome hsome).2 above [n] rfl (List.cons_ne_nil _ _)
  obtain ⟨e, he⟩ := Option.isSome_iff_exists.1 hstands
  have hisdir : t.isDirectory q = true := by
    rw [isDirectory, stat, hq]
    simp [bind, Except.bind, hdir]
  have hmade : t.makeDirectory q = .error .present := by
    rw [makeDirectory, hbare, hr]
    simp [bind, Except.bind, he]
  obtain ⟨up, hup⟩ : ∃ up, q.ancestors = q :: up := ⟨_, rfl⟩
  simp only [makeParents, hparent, if_neg hempty, makeDirectories, hup, makeDirectoriesOf, hmade,
    hisdir, if_true]

/-- Whether an entry can be drafted: the path that it is drafted at is short
enough, and no directory stands there. -/
def Draftable (t : FileTree) (root : Path) (top : Location) (above : List String) (n : String) :
    Prop :=
  Scan.Short root (above ++ [n ++ ".enhancing"]) ∧
    t.entry? (top ++ (above ++ [n ++ ".enhancing"])) ≠ some .directory

omit h in
theorem draftable_shape {t' : FileTree} (hshape : SameShape t t') :
    Draftable t' root top above n ↔ Draftable t root top above n := by
  rw [Draftable, Draftable, ne_eq, ne_eq, hshape.directory]

/-- What the path of a draft leads to, if it is short enough: the location
beside the entry. -/
theorem resolve_draft (hsome : (t.entry? (top ++ (above ++ [n]))).isSome) :
    t.resolve follow (draftPath (Scan.pathOf root (above ++ [n]))) = .ok r ↔
      Scan.Short root (above ++ [n ++ ".enhancing"]) ∧
        r = top ++ (above ++ [n ++ ".enhancing"]) := by
  obtain ⟨hnames, hdirs⟩ := h.tree.of_isSome hsome
  rw [List.forall_mem_append, List.forall_mem_singleton] at hnames
  have hdraft : ∀ m ∈ above ++ [n ++ ".enhancing"], Path.IsName m := by
    rw [List.forall_mem_append, List.forall_mem_singleton]
    exact ⟨hnames.1, isName_draft hnames.2⟩
  rw [draftPath_pathOf h.text_ne_empty hnames.1 hnames.2]
  refine h.resolve_below (by simp) hdraft fun a b hsplit hb => ?_
  -- what stands on the way to the draft stands on the way to the entry
  obtain ⟨b', m, rfl⟩ := (List.eq_nil_or_concat' b).resolve_left hb
  rw [← List.append_assoc] at hsplit
  obtain ⟨rfl, -⟩ := List.append_inj' hsplit rfl
  exact hdirs a (b' ++ [n]) (List.append_assoc ..) (by simp)

/-- The tree with an entry's octets written beside it. -/
def drafted (t : FileTree) (top : Location) (above : List String) (n : String) (out : Bytes) :
    FileTree :=
  t.put (top ++ (above ++ [n ++ ".enhancing"])) (.file out)

/-- The tree with an entry's octets written beside it and moved over it. -/
def replaced (t : FileTree) (top : Location) (above : List String) (n : String) (out : Bytes) :
    FileTree :=
  ((drafted t top above n out).erase (top ++ (above ++ [n ++ ".enhancing"]))).put
    (top ++ (above ++ [n])) (.file out)

theorem classRoot_drafted (out : Bytes) (hsome : (t.entry? (top ++ (above ++ [n]))).isSome)
    (hdraft : Draftable t root top above n) :
    (drafted t top above n out).ClassRoot root top ∧ SameShape t (drafted t top above n out) := by
  obtain ⟨hnames, hdirs⟩ := h.tree.of_isSome hsome
  have hn := hnames n (List.mem_append_right _ List.mem_cons_self)
  exact h.put out (hdirs above [n] rfl (by simp)) (isName_draft hn) hdraft.2

/-- A draft is written beside its entry, if it can be. -/
theorem write_draft (out : Bytes) (hsome : (t.entry? (top ++ (above ++ [n]))).isSome)
    (hdraft : Draftable t root top above n) :
    t.write (draftPath (Scan.pathOf root (above ++ [n]))) out = .ok (drafted t top above n out) := by
  rw [write, (h.resolve_draft hsome).2 ⟨hdraft.1, rfl⟩]
  simp only [bind, Except.bind]
  split
  · next hdir => exact absurd hdir hdraft.2
  · rfl

omit h in
theorem draft_ne (top : Location) (above : List String) (n : String) :
    top ++ (above ++ [n]) ≠ top ++ (above ++ [n ++ ".enhancing"]) := by
  intro heq
  obtain ⟨-, heq⟩ := List.append_inj' (List.append_cancel_left heq) rfl
  have hlen := length_draft n
  rw [← (List.cons.inj heq).1] at hlen
  omega

omit h in
/-- A draft stands beside its entry, which is as it was. -/
theorem entry?_drafted (t : FileTree) (top : Location) (above : List String) (n : String)
    (out : Bytes) :
    FileTree.entry? (drafted t top above n out) (top ++ (above ++ [n ++ ".enhancing"])) =
        some (.file out) ∧
      FileTree.entry? (drafted t top above n out) (top ++ (above ++ [n])) =
        t.entry? (top ++ (above ++ [n])) := by
  rw [drafted, entry?_put (by simp), entry?_put (by simp), if_pos rfl,
    if_neg (draft_ne top above n)]
  exact ⟨rfl, rfl⟩

/-- A draft is moved over its entry. -/
theorem move_draft {bytes : Bytes} (out : Bytes)
    (hplace : t.entry? (top ++ (above ++ [n])) = some (.file bytes))
    (hshort : Scan.Short root (above ++ [n])) (hdraft : Draftable t root top above n) :
    (drafted t top above n out).move (draftPath (Scan.pathOf root (above ++ [n])))
      (Scan.pathOf root (above ++ [n])) = .ok (replaced t top above n out) := by
  obtain ⟨h', -⟩ := h.classRoot_drafted out (by rw [hplace]; rfl) hdraft
  obtain ⟨hentry, hplace'⟩ := entry?_drafted t top above n out
  rw [hplace] at hplace'
  obtain ⟨hnames, hdirs⟩ := h'.tree.of_isSome (by rw [hplace']; rfl)
  have hnames' := List.forall_mem_append.1 hnames
  have hdraftNames : ∀ m ∈ above ++ [n ++ ".enhancing"], Path.IsName m := by
    rw [List.forall_mem_append, List.forall_mem_singleton]
    exact ⟨hnames'.1, isName_draft (List.forall_mem_singleton.1 hnames'.2)⟩
  have hends : endsInDots (draftPath (Scan.pathOf root (above ++ [n]))) = false := by
    rw [draftPath_pathOf h.text_ne_empty hnames'.1 (List.forall_mem_singleton.1 hnames'.2)]
    exact endsInDots_pathOf h.text_ne_empty hdraftNames (by simp)
  have hbare := bare_of_not_slash (Scan.segments_pathOf h.text_ne_empty hnames (by simp)).1
  rw [move, if_neg (Scan.pathOf_ne_empty h.text_ne_empty hnames), hends,
    endsInDots_pathOf h.text_ne_empty hnames (by simp), hbare,
    (h'.resolve_draft (by rw [hplace']; rfl)).2 ⟨hdraft.1, rfl⟩,
    (h'.resolve_below (by simp) hnames hdirs).2 ⟨hshort, rfl⟩]
  simp only [bind, Except.bind, hentry, hplace']
  rw [if_neg (by simp), if_neg (not_not_intro rfl), if_neg (by simp), replaced]

/-- **Writing a file as a whole** puts its octets in its place, where it
can be drafted. -/
theorem writeWhole_ok {bytes : Bytes} (out : Bytes)
    (hplace : t.entry? (top ++ (above ++ [n])) = some (.file bytes))
    (hshort : Scan.Short root (above ++ [n])) (hdraft : Draftable t root top above n) :
    t.writeWhole (Scan.pathOf root (above ++ [n])) out = (replaced t top above n out, .ok ()) := by
  have hsome : (t.entry? (top ++ (above ++ [n]))).isSome := by rw [hplace]; rfl
  simp only [writeWhole, h.makeParents_below hsome hshort, h.write_draft out hsome hdraft,
    h.move_draft out hplace hshort hdraft]

/-- Where a file cannot be drafted, writing it changes nothing. -/
theorem writeWhole_error {bytes : Bytes} (out : Bytes)
    (hplace : t.entry? (top ++ (above ++ [n])) = some (.file bytes))
    (hshort : Scan.Short root (above ++ [n])) (hdraft : ¬ Draftable t root top above n) :
    ∃ fault, t.writeWhole (Scan.pathOf root (above ++ [n])) out = (t, .error fault) := by
  have hsome : (t.entry? (top ++ (above ++ [n]))).isSome := by rw [hplace]; rfl
  have hwrite : ∃ fault, t.write (draftPath (Scan.pathOf root (above ++ [n]))) out = .error fault := by
    unfold write
    rcases hres : t.resolve true (draftPath (Scan.pathOf root (above ++ [n]))) with fault | r
    · exact ⟨fault, rfl⟩
    · obtain ⟨hlong, rfl⟩ := (h.resolve_draft hsome).1 hres
      have hdir : t.entry? (top ++ (above ++ [n ++ ".enhancing"])) = some .directory := by
        by_contra hdir
        exact hdraft ⟨hlong, hdir⟩
      exact ⟨.isDirectory, by simp [bind, Except.bind, hdir]⟩
  obtain ⟨fault, hwrite⟩ := hwrite
  exact ⟨fault, by simp only [writeWhole, h.makeParents_below hsome hshort, hwrite]⟩

end ClassRoot

end FileTree

end ClassWeave
