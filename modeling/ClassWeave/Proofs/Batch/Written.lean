import ClassWeave.Proofs.Fate
import ClassWeave.Proofs.Scan
/-!
# Batch -- class files written over

A class file that meets its fate is written over or stays as it is
(`Found.meet_cases`). Either way the tree evolves, the class root stays and
the class files of other names are where they were (`Found.meet`): what is
drafted has no class file's extension. Whether a class file can be written
over does not change as the tree evolves, so one that could not is left
alone by every later attempt.
-/


namespace ClassWeave

namespace Scan

variable {t t' : FileTree} {root : Path} {top : Location} {names : List String}
  {s : ScannedUnit} {bytes : Bytes}

/-- A class file is there whatever becomes of the tree. -/
theorem exists_file_evolved (hevolved : FileTree.Evolved t t') (h : t.ClassRoot root top)
    (h' : t'.ClassRoot root top) (hne : names ≠ [])
    (hclass : (relativePath names).extension? = some "class")
    (hfile : t.entry? (top ++ names) = some (.file bytes)) :
    ∃ bytes', t'.entry? (top ++ names) = some (.file bytes') := by
  have hsome : (t.entry? (top ++ names)).isSome := by rw [hfile]; rfl
  refine h'.exists_file ?_ fun hdir => ?_
  · rw [Option.isSome_iff_ne_none]
    intro hgone
    have hdraft := extension?_isDraft (h.tree.of_isSome hsome).1 hne
      (hevolved.vanished _ hsome hgone)
    rw [hclass] at hdraft
    exact absurd hdraft (by decide)
  · rw [hevolved.shape.directory, hfile] at hdir
    cases hdir

theorem Found.read (h : t.ClassRoot root top) (hs : Found t root top s) :
    t.read s.path = .ok s.bytes := by
  obtain ⟨names, hne, -, hpath, -, hshort, hentry⟩ := hs
  rw [hpath]
  exact (h.read_below hne (by rw [hentry]; rfl)).2 ⟨hshort, hentry⟩

theorem Found.refreshed_eq (h : t.ClassRoot root top)
    (hs : Found t root top { s with bytes := bytes }) : refreshed t s = { s with bytes := bytes } := by
  have hread : t.read s.path = .ok bytes := hs.read h
  simp only [refreshed, hread]

/-- Class files of different names are at different places, and none is
where another is drafted. -/
theorem Found.replaced {above : List String} {n : String} {out : Bytes} {s' : ScannedUnit}
    (hn : Path.IsName n) (hs : s.relative = relativePath (above ++ [n])) (h : t.ClassRoot root top)
    (hs' : Found t root top s') (hname : s'.qualifiedName ≠ s.qualifiedName) :
    Found (FileTree.ClassRoot.replaced t top above n out) root top s' := by
  obtain ⟨names, hne, hrelative, hpath, hclass, hshort, hentry⟩ := hs'
  refine ⟨names, hne, hrelative, hpath, hclass, hshort, ?_⟩
  -- another place, since the name is another; and no draft, by the extension
  rw [FileTree.entry?_replaced, if_neg, if_neg, hentry]
  · intro heq
    have hdraft := extension?_isDraft (h.tree.of_isSome (by rw [hentry]; rfl)).1 hne
      ⟨top ++ above, n, hn, by rw [heq, List.append_assoc]⟩
    rw [hclass] at hdraft
    exact absurd hdraft (by decide)
  · intro heq
    rw [List.append_cancel_left heq] at hrelative
    exact hname (by rw [ScannedUnit.qualifiedName, ScannedUnit.qualifiedName, hrelative, hs])

/-- **Writing a class file over** puts the octets in its place and leaves
the class files of other names alone, or it fails and always will. -/
theorem Found.writeWhole (h : t.ClassRoot root top) (hs : Found t root top s) (out : Bytes) :
    (∃ t', t.writeWhole s.path out = (t', .ok ()) ∧ FileTree.Evolved t t' ∧
      t'.ClassRoot root top ∧ Found t' root top { s with bytes := out } ∧
      ∀ s', Found t root top s' → s'.qualifiedName ≠ s.qualifiedName → Found t' root top s') ∨
    ∀ t', FileTree.Evolved t t' → t'.ClassRoot root top →
      ∃ fault, t'.writeWhole s.path out = (t', .error fault) := by
  obtain ⟨names, hne, hrelative, hpath, hclass, hshort, hentry⟩ := hs
  obtain ⟨above, n, rfl⟩ := (List.eq_nil_or_concat' names).resolve_left hne
  rw [hpath]
  by_cases hdraft : FileTree.ClassRoot.Draftable t root top above n
  · have hn := (h.tree.of_isSome (by rw [hentry]; rfl)).1 n
      (List.mem_append_right _ List.mem_cons_self)
    refine .inl ⟨_, h.writeWhole_ok out hentry hshort hdraft,
      h.evolved_replaced out hentry hdraft, (h.classRoot_replaced out hentry hdraft).1, ?_,
      fun s' hs' hname => hs'.replaced hn hrelative h hname⟩
    refine ⟨above ++ [n], hne, hrelative, rfl, hclass, hshort, ?_⟩
    rw [FileTree.entry?_replaced, if_pos rfl]
  · refine .inr fun t' hevolved h' => ?_
    obtain ⟨bytes', hentry'⟩ := exists_file_evolved hevolved h h' hne hclass hentry
    exact h'.writeWhole_error out hentry' hshort
      (mt (FileTree.ClassRoot.draftable_shape hevolved.shape).1 hdraft)

/-- **A class file that meets its fate** is enhanced and written over, or
no fate of it ever changes the tree. -/
theorem Found.meet_cases (h : t.ClassRoot root top) (hs : Found t root top s) (f : Fate) :
    (∃ out, f = .enhanced out ∧ Found (f.filesAfter t s.path) root top { s with bytes := out }) ∨
    ((f.report t s.path s.qualifiedName).committed = none ∧
      ∀ t', FileTree.Evolved t t' → t'.ClassRoot root top → f.filesAfter t' s.path = t') := by
  cases f with
  | skipped reason => exact .inr ⟨rfl, fun t' _ _ => rfl⟩
  | failed message enhancer => exact .inr ⟨rfl, fun t' _ _ => rfl⟩
  | enhanced out =>
    rcases hs.writeWhole h out with ⟨t', hwrite, -, -, hfound, -⟩ | hfail
    · refine .inl ⟨out, rfl, ?_⟩
      simp only [Fate.filesAfter, hwrite]
      exact hfound
    · refine .inr ⟨?_, fun t' hevolved h' => ?_⟩
      · obtain ⟨fault, hwrite⟩ := hfail t (.refl t) h
        simp only [Fate.report, hwrite, Fate.committed_settled]
      · obtain ⟨fault, hwrite⟩ := hfail t' hevolved h'
        simp only [Fate.filesAfter, hwrite]

/-- **What a fate leaves alone**: the tree evolves, the class root stays,
and so do the class files of other names. -/
theorem Found.meet (h : t.ClassRoot root top) (hs : Found t root top s) (f : Fate) :
    FileTree.Evolved t (f.filesAfter t s.path) ∧ (f.filesAfter t s.path).ClassRoot root top ∧
      ∀ s', Found t root top s' → s'.qualifiedName ≠ s.qualifiedName →
        Found (f.filesAfter t s.path) root top s' := by
  have hidle : FileTree.Evolved t t ∧ t.ClassRoot root top ∧
      ∀ s', Found t root top s' → s'.qualifiedName ≠ s.qualifiedName → Found t root top s' :=
    ⟨.refl t, h, fun s' hs' _ => hs'⟩
  cases f with
  | skipped reason => exact hidle
  | failed message enhancer => exact hidle
  | enhanced out =>
    rcases hs.writeWhole h out with ⟨t', hwrite, hevolved, h', -, hothers⟩ | hfail
    · simp only [Fate.filesAfter, hwrite]
      exact ⟨hevolved, h', hothers⟩
    · obtain ⟨fault, hwrite⟩ := hfail t (.refl t) h
      simp only [Fate.filesAfter, hwrite]
      exact hidle

end Scan

end ClassWeave
