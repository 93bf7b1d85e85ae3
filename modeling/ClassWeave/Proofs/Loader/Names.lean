import ClassWeave.Loader
import ClassWeave.Proofs.Files.Within
/-!
# Loader -- the class paths of names

The class path of a name has the parts of the name for its segments, with
the ending of class files behind the last (`segments_spelled`). Parts hold no
dot, so none of them leads up, and a name that does not start with a dot has
a class path that starts with a name. So for every name that a loader asks
for, an array's included, the class path leads below any directory that it is
taken from (`isBelow_classPath`). The parts of a name without faults are names of
entries (`classPath_eq`), and such a name can be told from its class path
(`qualifiedName_classPath`), also behind a directory (`not_same_classPath`).
-/


namespace ClassWeave

namespace Loader

variable {name other : String} {d : Path}

/-! ## Parts -/

theorem flat_normalName (raw : String) : '/' ∉ (normalName raw).toList := by
  rw [normalName, ClassFile.qualifiedOfInternal, ClassFile.respell, String.toList_ofList,
    List.mem_map]
  rintro ⟨c, -, hc⟩
  split at hc
  · exact absurd hc (by decide)
  · next hne => exact hne hc

/-- The parts of a name without faults could be names of entries. -/
theorem of_mem_pieces (hfault : nameFault? name = none) (hflat : '/' ∉ name.toList) :
    ∀ part ∈ Text.pieces '.' name.toList,
      part ≠ [] ∧ '.' ∉ part ∧ '/' ∉ part ∧ Char.ofNat 0 ∉ part := by
  unfold nameFault? at hfault
  split at hfault
  · cases hfault
  split at hfault
  · cases hfault
  next hreserved =>
  split at hfault
  · cases hfault
  next hempty =>
  intro part hpart
  have hmem : ∀ c, c ≠ '.' → c ∈ part → c ∈ name.toList := fun c hc hin =>
    (Text.mem_iff_exists_piece hc).2 ⟨part, hpart, hin⟩
  refine ⟨?_, Text.not_mem_of_mem_pieces hpart, fun hin => hflat (hmem _ (by decide) hin),
    fun hin => hreserved (List.any_eq_true.2 ⟨_, hmem _ (by decide) hin, rfl⟩)⟩
  rintro rfl
  exact hempty (List.any_eq_true.2 ⟨[], hpart, rfl⟩)

/-- **A name that is asked for**: that of an array, in its written form with a
bracket in front, or one without faults. -/
def IsAsked (name : String) : Prop := name.toList.head? = some '[' ∨ nameFault? name = none

/-- Such a name does not start with a dot. -/
theorem IsAsked.head? (h : IsAsked name) (hflat : '/' ∉ name.toList) :
    name.toList.head? ≠ some '.' := by
  rcases h with harray | hfault
  · rw [harray]
    decide
  · intro hdot
    obtain ⟨cs, hcs⟩ := List.head?_eq_some_iff.1 hdot
    refine (of_mem_pieces hfault hflat [] ?_).1 rfl
    rw [hcs, Text.pieces_cons_sep]
    exact List.mem_cons_self

/-! ## Paths -/

theorem toList_internalOfQualified (name : String) :
    (ClassFile.internalOfQualified name).toList = Text.join '/' (Text.pieces '.' name.toList) := by
  rw [ClassFile.internalOfQualified, ClassFile.respell, String.toList_ofList,
    ← Text.map_join fun _ => Text.not_mem_of_mem_pieces, Text.join_pieces]

/-- **The segments of a name written as a path** are its parts, with what is
written behind the name at the end of the last. -/
theorem segments_spelled {tail : String} (hflat : '/' ∉ name.toList) (htail : '/' ∉ tail.toList) :
    ∃ before m, Text.pieces '.' name.toList = before ++ [m] ∧
      (⟨ClassFile.internalOfQualified name ++ tail⟩ : Path).segments =
        before ++ [m ++ tail.toList] := by
  obtain ⟨before, m, hsplit⟩ := (List.eq_nil_or_concat' (Text.pieces '.' name.toList)).resolve_left
    (Text.pieces_ne_nil _ _)
  have hparts : ∀ part ∈ before ++ [m], '/' ∉ part := by
    intro part hpart hslash
    exact hflat ((Text.mem_iff_exists_piece (by decide)).2 ⟨part, hsplit ▸ hpart, hslash⟩)
  rw [List.forall_mem_append, List.forall_mem_singleton] at hparts
  refine ⟨before, m, hsplit, ?_⟩
  rw [Path.segments, String.toList_append, toList_internalOfQualified, hsplit,
    Text.join_concat_append, Text.pieces_join (by simp)]
  rw [List.forall_mem_append, List.forall_mem_singleton, List.mem_append, not_or]
  exact ⟨hparts.1, hparts.2, htail⟩

/-- **A name that does not start with a dot leads below a directory**, written
as a path with an ending that is not made of dots. -/
theorem isBelow_spelled {tail : String} {c : Char} (d : Path) (hflat : '/' ∉ name.toList)
    (hhead : name.toList.head? ≠ some '.') (htail : '/' ∉ tail.toList) (hc : c ∈ tail.toList)
    (hdot : c ≠ '.') : d.IsBelow (d.join ⟨ClassFile.internalOfQualified name ++ tail⟩) := by
  obtain ⟨before, m, hsplit, hsegments⟩ := segments_spelled hflat htail
  have hparts : ∀ part ∈ before, '.' ∉ part := fun part hpart =>
    Text.not_mem_of_mem_pieces (hsplit ▸ List.mem_append_left _ hpart)
  have hlast : ∀ s : List Char, (∀ x ∈ s, x = '.') → m ++ tail.toList ≠ s := by
    rintro s hs rfl
    exact hdot (hs c (List.mem_append_right _ hc))
  have hdots : ∀ s : List Char, '.' ∈ s → (∀ x ∈ s, x = '.') →
      s ∉ before ++ [m ++ tail.toList] := by
    intro s hmem hs hin
    rcases List.mem_append.1 hin with hin | hin
    · exact hparts s hin hmem
    · exact hlast s hs (List.mem_singleton.1 hin).symm
  have hone : ∀ x ∈ ['.'], x = '.' := List.forall_mem_singleton.2 rfl
  refine Path.isBelow_join d ?_ ?_ ?_ ?_
  · rw [Path.isRooted, beq_eq_false_iff_ne, String.toList_append, toList_internalOfQualified,
      List.head?_append]
    intro hrooted
    rcases hname : name.toList with _ | ⟨x, xs⟩
    · rw [hname] at hrooted
      exact htail (List.mem_of_head? hrooted)
    · rw [hname] at hhead hflat
      have hx : x ≠ '.' := fun heq => hhead (heq ▸ rfl)
      obtain ⟨p, ps, hp, hcons⟩ := Text.pieces_cons_of_ne xs hx
      rw [hname, hcons] at hrooted
      exact hflat (Option.some.inj hrooted ▸ List.mem_cons_self)
  · rw [hsegments]
    exact fun h => hdots ['.'] List.mem_cons_self hone (List.mem_of_head? h)
  · rw [hsegments]
    exact hdots ['.', '.'] List.mem_cons_self (List.forall_mem_cons.2 ⟨rfl, hone⟩)
  · have hidle : Path.isIdle (m ++ tail.toList) = false := by
      rw [Path.isIdle, Bool.or_eq_false_iff, List.isEmpty_eq_false_iff, beq_eq_false_iff_ne]
      exact ⟨hlast [] (List.forall_mem_nil _), hlast ['.'] hone⟩
    rw [hsegments, Path.namesIn_append, Path.namesIn, Path.namesIn, List.filter_singleton, hidle]
    exact List.append_ne_nil_of_right_ne_nil _ (List.cons_ne_nil _ _)

/-- **The class path of a name that is asked for leads below any directory**,
and so does that of its draft. -/
theorem isBelow_classPath (h : IsAsked name) (hflat : '/' ∉ name.toList) (d : Path) :
    d.IsBelow (d.join ⟨ClassFile.classPath name⟩) ∧
      d.IsBelow (FileTree.draftPath (d.join ⟨ClassFile.classPath name⟩)) := by
  have hhead := h.head? hflat
  refine ⟨isBelow_spelled d hflat hhead (c := 's') (by decide) (by decide) (by decide), ?_⟩
  have hne : (⟨ClassFile.classPath name⟩ : Path).text ≠ "" := by
    intro hempty
    have hlast := congrArg (fun s : String => 's' ∈ s.toList) hempty
    rw [ClassFile.classPath, String.toList_append] at hlast
    simp at hlast
  rw [FileTree.draftPath, Path.extend_join d hne, Path.extend, ClassFile.classPath,
    String.append_assoc]
  exact isBelow_spelled d hflat hhead (c := 's') (by decide) (by decide) (by decide)

/-! ## Names without faults -/

/-- **The class path of a name without faults** is made of names of entries:
the parts of the name, the last with the ending of class files. -/
theorem classPath_eq (hfault : nameFault? name = none) (hflat : '/' ∉ name.toList) :
    ∃ above n, (∀ m ∈ above ++ [n], Path.IsName m) ∧ Path.IsName (n ++ ".class") ∧
      name = String.intercalate "." (above ++ [n]) ∧
      (⟨ClassFile.classPath name⟩ : Path) = Scan.relativePath (above ++ [n ++ ".class"]) := by
  have hparts := of_mem_pieces hfault hflat
  obtain ⟨before, m, hsplit⟩ := (List.eq_nil_or_concat' (Text.pieces '.' name.toList)).resolve_left
    (Text.pieces_ne_nil _ _)
  rw [hsplit] at hparts
  have hm := hparts m (List.mem_append_right _ List.mem_cons_self)
  have hnames : ∀ part ∈ before ++ [m], Path.IsName (String.ofList part) := by
    intro part hpart
    obtain ⟨hne, hdot, hslash, hnul⟩ := hparts part hpart
    obtain ⟨c, hc⟩ := List.exists_mem_of_ne_nil part hne
    exact Path.isName_ofList hc (fun heq => hdot (heq ▸ hc)) hslash hnul
  have hclass : String.ofList m ++ ".class" = String.ofList (m ++ ".class".toList) := by
    rw [String.ofList_append, String.ofList_toList]
  have hsep : ".".toList = ['.'] := rfl
  refine ⟨before.map String.ofList, String.ofList m, ?_, ?_, ?_, ?_⟩
  · rw [← List.map_singleton, ← List.map_append]
    exact List.forall_mem_map.2 hnames
  · rw [hclass]
    refine Path.isName_ofList (List.mem_append_right m (show 's' ∈ ".class".toList by decide))
      (by decide) ?_ ?_ <;> rw [List.mem_append, not_or]
    · exact ⟨hm.2.2.1, by decide⟩
    · exact ⟨hm.2.2.2, by decide⟩
  · refine String.toList_inj.1 ?_
    rw [String.toList_intercalate, hsep, ← Text.join_eq_intercalate, ← List.map_singleton,
      ← List.map_append, ← hsplit, List.map_map]
    simp [Function.comp_def, Text.join_pieces]
  · refine Path.ext_text (String.toList_inj.1 ?_)
    rw [Scan.toList_relativePath, ClassFile.classPath, String.toList_append,
      toList_internalOfQualified, hsplit, Text.join_concat_append, hclass]
    simp [Function.comp_def]

theorem exists_names_classPath (hfault : nameFault? name = none) (hflat : '/' ∉ name.toList) :
    ∃ names, (∀ m ∈ names, Path.IsName m) ∧ names ≠ [] ∧
      (⟨ClassFile.classPath name⟩ : Path) = Scan.relativePath names := by
  obtain ⟨above, n, hnames, hclass, -, hpath⟩ := classPath_eq hfault hflat
  refine ⟨_, ?_, by simp, hpath⟩
  rw [List.forall_mem_append, List.forall_mem_singleton]
  exact ⟨(List.forall_mem_append.1 hnames).1, hclass⟩

/-- **A name without faults can be told from its class path.** -/
theorem qualifiedName_classPath (hfault : nameFault? name = none) (hflat : '/' ∉ name.toList) :
    (⟨ClassFile.classPath name⟩ : Path).qualifiedName = name := by
  obtain ⟨above, n, hnames, hclass, hname, hpath⟩ := classPath_eq hfault hflat
  have hcut : Path.cutName (n ++ ".class").toList = (n.toList, some "class".toList) := by
    have hsplit : (n ++ ".class").toList = n.toList ++ '.' :: "class".toList :=
      String.toList_append
    have hn := (hnames n (List.mem_append_right _ List.mem_cons_self)).toList_ne_nil
    rw [hsplit, Path.cutName, Text.cutLast?_append _ (by decide)]
    simp [hn]
  have hstem : (⟨ClassFile.classPath name⟩ : Path).withoutExtension =
      Scan.relativePath (above ++ [n]) := by
    rw [hpath, Path.withoutExtension, Scan.namedSegments?_relativePath
      (fun m hm => hnames m (List.mem_append_left _ hm)) hclass]
    refine Path.ext_text (String.toList_inj.1 ?_)
    rw [Scan.toList_relativePath, List.map_append]
    simp only [hcut, Path.ofSegments, String.toList_ofList, List.map_singleton]
  rw [Path.qualifiedName, hstem, Path.names_relativePath hnames (by simp), ← hname]

/-- **So two names without faults never share a path** below a directory. -/
theorem not_same_classPath (hfault : nameFault? name = none) (hflat : '/' ∉ name.toList)
    (hfault' : nameFault? other = none) (hflat' : '/' ∉ other.toList) (hne : name ≠ other)
    (d : Path) :
    ¬ (d.join ⟨ClassFile.classPath name⟩).same (d.join ⟨ClassFile.classPath other⟩) := by
  intro hsame
  obtain ⟨names, hnames, hnil, hpath⟩ := exists_names_classPath hfault hflat
  obtain ⟨others, hothers, hnil', hpath'⟩ := exists_names_classPath hfault' hflat'
  have hcomponents : ∀ names : List String, (∀ n ∈ names, Path.IsName n) → names ≠ [] →
      (d.join (Scan.relativePath names)).components = d.components ++ names.map .name := by
    intro names hnames hnil
    rw [Path.components_join d (Path.isRooted_relativePath hnames hnil)
      (Path.head?_relativePath hnames hnil), Path.components_relativePath hnames hnil]
  have heq := eq_of_beq hsame
  rw [hpath, hpath', hcomponents names hnames hnil, hcomponents others hothers hnil',
    List.append_cancel_left_eq, List.map_inj_right fun _ _ => Path.Component.name.inj] at heq
  refine hne ?_
  rw [← qualifiedName_classPath hfault hflat, ← qualifiedName_classPath hfault' hflat', hpath,
    hpath', heq]

end Loader

end ClassWeave
