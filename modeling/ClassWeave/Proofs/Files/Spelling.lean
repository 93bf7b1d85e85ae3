import ClassWeave.Proofs.Files.Paths
import ClassWeave.Proofs.Scan
/-!
# Files -- paths that end in names

A path spells names behind some segments (`Path.Spells`) if its own segments
are those, in that order. The path that an output is written to is such a
one, whatever the destination is spelled like, the empty path included
(`spells_join`); so are the path it is drafted at (`Spells.draft`) and the
paths of the directories it is in, down to where the names begin
(`Spells.parent`).
-/


namespace ClassWeave

namespace Text

variable {sep : Char}

theorem join_concat_append (ps : List (List Char)) (q r : List Char) :
    join sep (ps ++ [q]) ++ r = join sep (ps ++ [q ++ r]) := by
  rcases ps with _ | ⟨p, ps⟩
  · simp [join]
  · rw [join_append (List.cons_ne_nil _ _), join_append (List.cons_ne_nil _ _)]
    simp

end Text

namespace Path

open FileTree (stepsOf steps bare endsInDots draftPath)

variable {p q d : Path} {init : List (List Char)} {names above : List String} {n : String}

/-- The names among segments: those that are not idle. -/
def namesIn (segments : List (List Char)) : List String :=
  (segments.filter fun s => !isIdle s).map String.ofList

theorem namesIn_append (xs ys : List (List Char)) : namesIn (xs ++ ys) = namesIn xs ++ namesIn ys := by
  rw [namesIn, List.filter_append, List.map_append, namesIn, namesIn]

/-- Names are the names among themselves. -/
theorem namesIn_names (hnames : ∀ n ∈ names, IsName n) : namesIn (names.map String.toList) = names := by
  have hfilter : (names.map String.toList).filter (fun s => !isIdle s) = names.map String.toList := by
    rw [List.filter_eq_self]
    intro s hs
    obtain ⟨n, hn, rfl⟩ := List.mem_map.1 hs
    rw [(hnames n hn).not_isIdle]
    rfl
  rw [namesIn, hfilter, List.map_map]
  simp [Function.comp_def]

/-- Of the steps that segments ask for, only lone dots are no names. -/
theorem filter_stepsOf (segments : List (List Char)) :
    (stepsOf segments).filter (· ≠ ".") = namesIn segments := by
  rw [stepsOf, List.filter_map, List.filter_filter, namesIn]
  congr 1
  refine List.filter_congr fun s _ => ?_
  have hdot : String.ofList s = "." ↔ s = ['.'] := by
    rw [← String.toList_inj, String.toList_ofList]
    rfl
  by_cases hs : s = ['.'] <;> simp [isIdle, hdot, hs]

/-- Where there are names, one of them is the last, and what comes behind it
is idle. -/
theorem exists_last_name {tail : List (List Char)} (hne : namesIn tail ≠ []) :
    ∃ front m idle, tail = front ++ [m] ++ idle ∧ isIdle m = false ∧
      ∀ s ∈ idle, isIdle s = true := by
  induction tail using List.reverseRecOn with
  | nil => exact absurd rfl hne
  | append_singleton tail s ih =>
    by_cases hs : isIdle s = true
    · have htail : namesIn tail ≠ [] := by
        rw [namesIn_append] at hne
        simpa [namesIn, hs] using hne
      obtain ⟨front, m, idle, rfl, hm, hidle⟩ := ih htail
      refine ⟨front, m, idle ++ [s], List.append_assoc .., hm, ?_⟩
      rw [List.forall_mem_append, List.forall_mem_singleton]
      exact ⟨hidle, hs⟩
    · exact ⟨tail, s, [], (List.append_nil _).symm, Bool.not_eq_true _ ▸ hs, nofun⟩

/-- The parent of a path that ends in a name behind another one is spelled
up to that one. -/
theorem parent?_of_last {front idle : List (List Char)} {m s : List Char}
    (hp : p.segments = front ++ [m] ++ idle ++ [s]) (hm : isIdle m = false)
    (hidle : ∀ s ∈ idle, isIdle s = true) (hs : isIdle s = false) :
    p.parent? = some (ofSegments (front ++ [m])) := by
  have hm' : m ≠ [] := by
    rintro rfl
    cases hm
  have hskip : ∀ xs : List (List Char),
      ((xs ++ idle).reverse.dropWhile isIdle) = xs.reverse.dropWhile isIdle := by
    intro xs
    rw [List.reverse_append, List.dropWhile_append_of_pos]
    exact fun s hs => hidle s (List.mem_reverse.1 hs)
  have htail : p.tailSegments = (front ++ [m] ++ idle).tail ++ [s] := by
    rw [tailSegments, hp, List.tail_append_of_ne_nil (by simp), List.reverse_append,
      List.reverse_singleton, List.singleton_append, List.dropWhile_cons_of_neg (by simp [hs]),
      List.reverse_cons, List.reverse_reverse]
  rcases front with _ | ⟨first, front⟩
  · -- the other name is the first segment
    have hnone := hskip []
    rw [List.nil_append] at hnone htail hp
    rw [List.singleton_append, List.tail_cons] at htail
    simp only [parent?, htail, hp, List.dropLast_concat, hnone]
    simp [hm']
  · rw [List.cons_append, List.cons_append, List.tail_cons] at htail
    simp only [parent?, htail, hp, List.dropLast_concat, hskip]
    simp [hm]

/-- **A path that spells names** behind segments: the last name is its last
segment, and the others are in front of it, with idle segments between
them. -/
structure Spells (q : Path) (init : List (List Char)) (names : List String) : Prop where
  segments : ∃ tail n, q.segments = init ++ tail ++ [n.toList] ∧ names = namesIn tail ++ [n]
  isName : ∀ n ∈ names, IsName n

/-- The segments that are in front of what is taken from a path: its trunk,
and none if it is empty. -/
def lead (p : Path) : List (List Char) := if p.text = "" then [] else p.trunk

/-- The lead of a path is some of its segments. -/
theorem mem_segments_of_lead {s : List Char} (h : s ∈ p.lead) : s ∈ p.segments := by
  rw [lead] at h
  split at h
  · cases h
  · by_cases hslash : p.text.toList.getLast? = some '/'
    · rw [segments_of_slash hslash]
      exact List.mem_append_left _ h
    · rwa [segments_of_not_slash hslash]

theorem mem_lead_of_segments {s : List Char} (hp : p.text ≠ "") (h : s ∈ p.segments)
    (hs : s ≠ []) : s ∈ p.lead := by
  rw [lead, if_neg hp]
  by_cases hslash : p.text.toList.getLast? = some '/'
  · rw [segments_of_slash hslash] at h
    exact (List.mem_append.1 h).resolve_right fun h => hs (List.mem_singleton.1 h)
  · rwa [segments_of_not_slash hslash] at h

namespace Spells

theorem segments_concat (h : q.Spells init (above ++ [n])) :
    ∃ tail, q.segments = init ++ tail ++ [n.toList] ∧ namesIn tail = above := by
  obtain ⟨tail, m, hsegments, hnames⟩ := h.segments
  obtain ⟨rfl, hm⟩ := List.append_inj' hnames rfl
  rw [(List.cons.inj hm).1]
  exact ⟨tail, hsegments, rfl⟩

theorem exists_concat (h : q.Spells init names) : ∃ above n, names = above ++ [n] ∧ IsName n := by
  obtain ⟨tail, n, -, hnames⟩ := h.segments
  exact ⟨namesIn tail, n, hnames, h.isName n (hnames ▸ List.mem_append_right _ List.mem_cons_self)⟩

theorem ne_nil (h : q.Spells init names) : names ≠ [] := by
  obtain ⟨above, n, rfl, -⟩ := h.exists_concat
  simp

theorem getLast?_segments (h : q.Spells init names) : q.segments.getLast? ≠ some [] := by
  obtain ⟨above, n, rfl, hn⟩ := h.exists_concat
  obtain ⟨tail, hsegments, -⟩ := h.segments_concat
  rw [hsegments, List.getLast?_concat]
  exact fun heq => hn.toList_ne_nil (Option.some.inj heq)

theorem text_ne_empty (h : q.Spells init names) : q.text ≠ "" := by
  intro hempty
  refine h.getLast?_segments ?_
  rw [Path.segments, hempty]
  rfl

theorem not_slash (h : q.Spells init names) : q.text.toList.getLast? ≠ some '/' := by
  intro hslash
  refine h.getLast?_segments ?_
  rw [segments_of_slash hslash, List.getLast?_concat]

/-- **The steps of a path that spells names** are those that the segments
ask for, and then the names, with lone dots between them. -/
theorem steps (h : q.Spells init (above ++ [n])) :
    ∃ dotted, FileTree.steps q = stepsOf init ++ (dotted ++ [n]) ∧ dotted.filter (· ≠ ".") = above := by
  obtain ⟨tail, hsegments, rfl⟩ := h.segments_concat
  have hn : stepsOf ([n].map String.toList) = [n] :=
    FileTree.stepsOf_names fun m hm => h.isName m (List.mem_append_right _ hm)
  rw [List.map_singleton] at hn
  refine ⟨stepsOf tail, ?_, filter_stepsOf tail⟩
  rw [FileTree.steps, if_neg h.not_slash, ← stepsOf, hsegments, FileTree.stepsOf_append,
    FileTree.stepsOf_append, hn, List.append_assoc]

/-- Such a path names an entry. -/
theorem endsInDots (h : q.Spells init names) : endsInDots q = false := by
  obtain ⟨above, n, rfl, hn⟩ := h.exists_concat
  obtain ⟨tail, hsegments, -⟩ := h.segments_concat
  have hdot : n.toList ≠ ['.'] := fun heq => hn.ne_dot (String.toList_inj.1 heq)
  have hup : n.toList ≠ ['.', '.'] := fun heq => hn.ne_up (String.toList_inj.1 heq)
  have hfilter : ([n.toList].filter fun s => !s.isEmpty) = [n.toList] := by
    simpa using hn.ne_empty
  rw [FileTree.endsInDots, hsegments, List.filter_append, hfilter, List.getLast?_concat]
  simp [hdot, hup]

/-- There are no more names than segments. -/
theorem length_le (h : q.Spells init names) : names.length ≤ q.segments.length := by
  obtain ⟨tail, n, hsegments, rfl⟩ := h.segments
  have hle : (namesIn tail).length ≤ tail.length := by
    rw [namesIn, List.length_map]
    exact List.length_filter_le _ _
  rw [hsegments]
  simp only [List.length_append, List.length_singleton]
  omega

theorem flat {front : List (List Char)} {s : List Char} (hq : q.segments = front ++ [s]) :
    ∀ x ∈ front, '/' ∉ x := by
  refine fun x hx => Text.not_mem_of_mem_pieces (show x ∈ q.segments from ?_)
  rw [hq]
  exact List.mem_append_left _ hx

/-- The last segment is what the path of a draft adds to. -/
theorem segments_draft {front : List (List Char)} {s : List Char} (hq : q.segments = front ++ [s]) :
    (draftPath q).segments = front ++ [s ++ ".enhancing".toList] := by
  have htext : (draftPath q).text.toList = Text.join '/' (front ++ [s ++ ".enhancing".toList]) := by
    rw [FileTree.draftPath, extend, String.toList_append, ← Text.join_concat_append, ← hq,
      Path.segments, Text.join_pieces]
  have hs : '/' ∉ s := Text.not_mem_of_mem_pieces
    (show s ∈ q.segments from hq ▸ List.mem_append_right _ List.mem_cons_self)
  rw [Path.segments, htext, Text.pieces_join (by simp)]
  rw [List.forall_mem_append, List.forall_mem_singleton, List.mem_append, not_or]
  exact ⟨flat hq, hs, by decide⟩

/-- **The path of a draft** spells the name of the draft. -/
theorem draft (h : q.Spells init (above ++ [n])) :
    (draftPath q).Spells init (above ++ [n ++ ".enhancing"]) := by
  obtain ⟨tail, hsegments, htail⟩ := h.segments_concat
  have hnames := List.forall_mem_append.1 h.isName
  have hn := FileTree.isName_draft (hnames.2 n List.mem_cons_self)
  refine ⟨⟨tail, _, ?_, by rw [htail]⟩, ?_⟩
  · rw [segments_draft hsegments, String.toList_append]
  · rw [List.forall_mem_append, List.forall_mem_singleton]
    exact ⟨hnames.1, hn⟩

/-- **The parent of a path that spells two names or more** spells the others,
and is what the path begins with. -/
theorem parent (h : q.Spells init (above ++ [n])) (hne : above ≠ []) :
    ∃ p, q.parent? = some p ∧ p.Spells init above ∧ p.text.toList <+: q.text.toList := by
  obtain ⟨tail, hsegments, rfl⟩ := h.segments_concat
  have hnames := List.forall_mem_append.1 h.isName
  have hn := hnames.2 n List.mem_cons_self
  obtain ⟨front, m, idle, rfl, hm, hidle⟩ := exists_last_name hne
  have hm' : m ≠ [] := by
    rintro rfl
    cases hm
  rw [← List.append_assoc, ← List.append_assoc] at hsegments
  have hflat : ∀ s ∈ init ++ front ++ [m], '/' ∉ s := fun s hs =>
    flat hsegments s (List.mem_append_left _ hs)
  obtain ⟨hspelled, -, -⟩ := FileTree.ofSegments_spec (by simp) hflat
    (by rw [List.getLast?_concat]; exact fun heq => hm' (Option.some.inj heq))
  refine ⟨_, parent?_of_last hsegments hm hidle hn.not_isIdle, ⟨⟨front, String.ofList m, ?_, ?_⟩,
    hnames.1⟩, ?_⟩
  · rw [hspelled, String.toList_ofList]
  · have hm₁ : namesIn [m] = [String.ofList m] := by simp [namesIn, hm]
    have hidle₁ : namesIn idle = [] := by simpa [namesIn] using hidle
    rw [namesIn_append, namesIn_append, hm₁, hidle₁, List.append_nil]
  · have htext : q.text.toList = Text.join '/' q.segments := (Text.join_pieces ..).symm
    rw [htext, hsegments, ofSegments, String.toList_ofList, List.append_assoc _ idle,
      Text.join_append (show init ++ front ++ [m] ≠ [] by simp) (idle ++ [n.toList])]
    exact List.prefix_append _ _

end Spells

/-- The path that names make starts with one, so with no slash. -/
theorem exists_cons_relativePath (hnames : ∀ n ∈ names, IsName n) (hne : names ≠ []) :
    ∃ c cs, (Scan.relativePath names).text.toList = c :: cs ∧ c ≠ '/' := by
  obtain ⟨n, names, rfl⟩ := List.exists_cons_of_ne_nil hne
  have hn := hnames n List.mem_cons_self
  obtain ⟨c, cs, hcs⟩ := List.exists_cons_of_ne_nil hn.toList_ne_nil
  rw [Scan.toList_relativePath, List.map_cons, Text.join, hcs, List.cons_append]
  refine ⟨c, _, rfl, ?_⟩
  rintro rfl
  exact hn.flat (hcs ▸ List.mem_cons_self)

theorem isRooted_relativePath (hnames : ∀ n ∈ names, IsName n) (hne : names ≠ []) :
    (Scan.relativePath names).isRooted = false := by
  obtain ⟨c, cs, hcs, hc⟩ := exists_cons_relativePath hnames hne
  rw [isRooted, hcs, List.head?_cons, beq_eq_false_iff_ne]
  exact fun hslash => hc (Option.some.inj hslash)

/-- **What is taken from a path** has its segments behind the path's lead, and
starts where the path does. -/
theorem segments_join_of_not_rooted (d : Path) (hrooted : q.isRooted = false) :
    (d.join q).segments = d.lead ++ q.segments ∧ (d.join q).isRooted = d.isRooted := by
  rw [join, hrooted, if_neg Bool.false_ne_true]
  by_cases hempty : d.text = ""
  · -- nothing is written in front of the segments
    have htext : d.text.toList = [] := String.toList_eq_nil_iff.2 hempty
    have hsame : (⟨d.text ++ q.text⟩ : Path) = q := ext_text (by rw [hempty, String.empty_append])
    rw [if_pos (by rw [htext]; rfl), hsame, lead, if_pos hempty, hrooted]
    refine ⟨(List.nil_append _).symm, ?_⟩
    rw [isRooted, htext]
    rfl
  have hhead : ∀ cs : List Char, (d.text.toList ++ cs).head? = d.text.toList.head? := by
    intro cs
    obtain ⟨c, cs', hcs⟩ := List.exists_cons_of_ne_nil
      fun h => hempty (String.toList_eq_nil_iff.1 h)
    rw [hcs]
    rfl
  rw [lead, if_neg hempty]
  by_cases hslash : d.text.toList.getLast? = some '/'
  · rw [if_pos (by rw [hslash]; rfl)]
    obtain ⟨cs, hcs⟩ := List.getLast?_eq_some_iff.1 hslash
    have htrunk : d.trunk = Text.pieces '/' cs := by
      have hsegments := segments_of_slash hslash
      rw [Path.segments, hcs, Text.pieces_append_sep] at hsegments
      exact (List.append_inj_left' hsegments rfl).symm
    refine ⟨?_, ?_⟩
    · rw [Path.segments, String.toList_append, hcs, List.append_assoc, List.singleton_append,
        Text.pieces_append_sep, htrunk, Path.segments]
    · rw [isRooted, String.toList_append, hhead, isRooted]
  · have hlast : (d.text.toList.getLast?.all (· == '/')) = false := by
      rcases hc : d.text.toList.getLast? with _ | c
      · rw [List.getLast?_eq_none_iff] at hc
        exact absurd (String.toList_eq_nil_iff.1 hc) hempty
      · rw [hc] at hslash
        simpa using hslash
    rw [hlast, if_neg Bool.false_ne_true]
    refine ⟨?_, ?_⟩
    · have hsep : "/".toList = ['/'] := rfl
      rw [Path.segments, String.toList_append, String.toList_append, hsep, List.append_assoc,
        List.singleton_append, Text.pieces_append_sep, ← segments_of_not_slash hslash,
        Path.segments, Path.segments]
    · rw [isRooted, String.toList_append, String.toList_append, List.append_assoc, hhead, isRooted]

/-- What names lead to from a path has the names behind the path's lead. -/
theorem segments_join_relative (d : Path) (hnames : ∀ n ∈ names, IsName n) (hne : names ≠ []) :
    (d.join (Scan.relativePath names)).segments = d.lead ++ names.map String.toList ∧
      (d.join (Scan.relativePath names)).isRooted = d.isRooted := by
  rw [← Scan.segments_relativePath hnames hne]
  exact segments_join_of_not_rooted d (isRooted_relativePath hnames hne)

/-- So it spells the names that the path ends in, and its own. -/
theorem spells_join {d : Path} {tail : List (List Char)} (hlead : d.lead = init ++ tail)
    (htail : ∀ n ∈ namesIn tail, IsName n) (hnames : ∀ n ∈ names, IsName n) (hne : names ≠ []) :
    (d.join (Scan.relativePath names)).Spells init (namesIn tail ++ names) := by
  obtain ⟨above, n, rfl⟩ := (List.eq_nil_or_concat' names).resolve_left hne
  have habove := (List.forall_mem_append.1 hnames).1
  refine ⟨⟨tail ++ above.map String.toList, n, ?_, ?_⟩, List.forall_mem_append.2 ⟨htail, hnames⟩⟩
  · rw [(segments_join_relative d hnames hne).1, hlead]
    simp
  · rw [namesIn_append, namesIn_names habove, List.append_assoc]

theorem ext_segments (h : p.segments = q.segments) : p = q := by
  refine ext_text (String.toList_inj.1 ?_)
  rw [← Text.join_pieces '/' p.text.toList, ← Text.join_pieces '/' q.text.toList]
  exact congrArg _ h

theorem pathOf_eq_join {root : Path} (hroot : root.text ≠ "") (hnames : ∀ n ∈ names, IsName n)
    (hne : names ≠ []) : Scan.pathOf root names = root.join (Scan.relativePath names) := by
  refine ext_segments ?_
  rw [(segments_join_relative root hnames hne).1, (Scan.segments_pathOf hroot hnames hne).2, lead,
    if_neg hroot]

/-- No slash is in a name of a path. -/
theorem flat_of_mem_names (h : n ∈ p.names) : '/' ∉ n.toList := by
  obtain ⟨c, hc, hname⟩ := List.mem_filterMap.1 h
  rw [components, List.mem_append] at hc
  rcases hc with hc | hc
  · -- a path starts with the root, or where one is, or with nothing
    unfold start at hc
    split at hc
    · rw [List.mem_singleton.1 hc] at hname
      cases hname
    · split at hc
      · rw [List.mem_singleton.1 hc] at hname
        cases hname
      · cases hc
  · obtain ⟨seg, hseg, hc⟩ := List.mem_filterMap.1 hc
    unfold componentOf? at hc
    split at hc
    · cases hc
    · split at hc
      · rw [← Option.some.inj hc] at hname
        cases hname
      · rw [← Option.some.inj hc] at hname
        rw [← Option.some.inj hname, String.toList_ofList]
        exact Text.not_mem_of_mem_pieces hseg

/-- No slash is in the qualified name of a path. -/
theorem flat_qualifiedName (p : Path) : '/' ∉ p.qualifiedName.toList := by
  intro hslash
  have hdot : ".".toList = ['.'] := rfl
  rw [qualifiedName, String.toList_intercalate, hdot, ← Text.join_eq_intercalate] at hslash
  rcases Text.of_mem_join hslash with hsep | ⟨q, hq, hslash⟩
  · cases hsep
  · obtain ⟨n, hn, rfl⟩ := List.mem_map.1 hq
    exact flat_of_mem_names hn hslash

/-! ## Paths that are the same -/

/-- The step that a component asks for. -/
def Component.step? : Component → Option String
  | .up => some ".."
  | .name s => some s
  | _ => none

/-- The components of a path ask for its steps, but for lone dots. -/
theorem filterMap_components (p : Path) :
    p.components.filterMap Component.step? = namesIn p.segments := by
  have hstart : p.start.filterMap Component.step? = [] := by
    unfold start
    split
    · rfl
    · split <;> rfl
  have hstep : ∀ s, (componentOf? s).bind Component.step? =
      if isIdle s then none else some (String.ofList s) := by
    intro s
    unfold componentOf?
    split
    · rfl
    · split
      · next hup =>
        rw [hup]
        rfl
      · rfl
  rw [components, List.filterMap_append, hstart, List.nil_append, List.filterMap_filterMap, namesIn]
  induction p.segments with
  | nil => rfl
  | cons s segments ih =>
    rw [List.filterMap_cons, hstep, List.filter_cons, ih]
    rcases isIdle s with _ | _ <;> rfl

/-- A path is rooted if its first component says so. -/
theorem head?_components (p : Path) : p.components.head? = some .root ↔ p.isRooted = true := by
  have hnone : ∀ s, componentOf? s ≠ some .root := by
    intro s
    unfold componentOf?
    split
    · nofun
    · split <;> nofun
  rw [components, start]
  split
  · next hrooted => simp [hrooted]
  · next hrooted =>
    rw [iff_false_right hrooted]
    split
    · simp
    · rw [List.nil_append]
      intro hhead
      obtain ⟨s, -, hs⟩ := List.mem_filterMap.1 (List.mem_of_head? hhead)
      exact hnone s hs

/-- **Paths that are the same** start at the same place and take the same
steps, but for lone dots. -/
theorem steps_of_same (h : p.same q = true) :
    p.isRooted = q.isRooted ∧
      (FileTree.steps p).filter (· ≠ ".") = (FileTree.steps q).filter (· ≠ ".") := by
  have hcomponents : p.components = q.components := eq_of_beq h
  have hsteps : ∀ p : Path, (FileTree.steps p).filter (· ≠ ".") = namesIn p.segments := by
    intro p
    rw [← filter_stepsOf, FileTree.steps, ← stepsOf]
    split
    · rw [List.filter_append]
      simp
    · rfl
  refine ⟨?_, ?_⟩
  · rw [Bool.eq_iff_iff, ← head?_components, ← head?_components, hcomponents]
  · rw [hsteps, hsteps, ← filterMap_components, ← filterMap_components, hcomponents]

end Path

end ClassWeave
