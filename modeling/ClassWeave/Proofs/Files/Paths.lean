import ClassWeave.Commit
import ClassWeave.Proofs.Text.Pieces
import ClassWeave.Scan
import Mathlib.Data.List.Basic
import Mathlib.Data.List.Induction
/-!
# Files -- the spelling of paths below a root

The entries of a tree have names (`Path.IsName`), and the path of an entry
below a class root is the root's own spelling with the names behind it. So
its segments are the root's, less an empty one at the end (`Path.trunk`),
and then the names (`segments_pathOf`), however the root is spelled. From
this come the steps that such a path takes (`steps_pathOf`), the path that
its octets are drafted at (`draftPath_pathOf`), and its parent
(`parent?_of_segments`).
-/


namespace ClassWeave

namespace Path

/-- What the name of an entry is: some text without a slash or a NUL that
is neither of the names with a meaning of their own. -/
structure IsName (s : String) : Prop where
  ne_empty : s ≠ ""
  flat : '/' ∉ s.toList
  noNul : Char.ofNat 0 ∉ s.toList
  ne_dot : s ≠ "."
  ne_up : s ≠ ".."

variable {p : Path} {n : String}

instance decidableIsName (s : String) : Decidable (IsName s) :=
  decidable_of_iff (s ≠ "" ∧ '/' ∉ s.toList ∧ Char.ofNat 0 ∉ s.toList ∧ s ≠ "." ∧ s ≠ "..")
    ⟨fun ⟨hempty, hflat, hnul, hdot, hup⟩ => ⟨hempty, hflat, hnul, hdot, hup⟩,
      fun h => ⟨h.ne_empty, h.flat, h.noNul, h.ne_dot, h.ne_up⟩⟩

/-- Characters make a name if one of them is no dot, and none is a slash or a
NUL. -/
theorem isName_ofList {cs : List Char} {c : Char} (hc : c ∈ cs) (hdot : c ≠ '.') (hflat : '/' ∉ cs)
    (hnul : Char.ofNat 0 ∉ cs) : IsName (String.ofList cs) := by
  have hne : ∀ s : String, c ∉ s.toList → String.ofList cs ≠ s := by
    rintro s hs rfl
    rw [String.toList_ofList] at hs
    exact hs hc
  exact
    { ne_empty := hne "" List.not_mem_nil
      flat := by rwa [String.toList_ofList]
      noNul := by rwa [String.toList_ofList]
      ne_dot := hne "." fun hmem => hdot (List.mem_singleton.1 hmem)
      ne_up := hne ".." fun hmem => hdot (by simpa using hmem) }

theorem IsName.toList_ne_nil (h : IsName n) : n.toList ≠ [] :=
  fun heq => h.ne_empty (String.toList_eq_nil_iff.1 heq)

theorem IsName.not_isIdle (h : IsName n) : isIdle n.toList = false := by
  have hdot : n.toList ≠ ['.'] := fun heq => h.ne_dot (String.toList_inj.1 heq)
  simp [isIdle, h.toList_ne_nil, hdot]

theorem ext_text {q : Path} (h : p.text = q.text) : p = q := by
  rcases p with ⟨s⟩
  rcases q with ⟨t⟩
  exact congrArg Path.mk h

/-! ## The segments behind a root -/

/-- The segments of a path, less the empty one that a slash at the end
makes. -/
def trunk (p : Path) : List (List Char) :=
  if p.text.toList.getLast? = some '/' then p.segments.dropLast else p.segments

/-- The segments are the trunk, with an empty one behind a slash at the
end. -/
theorem segments_of_slash (h : p.text.toList.getLast? = some '/') :
    p.segments = p.trunk ++ [[]] := by
  obtain ⟨cs, hcs⟩ := List.getLast?_eq_some_iff.1 h
  rw [trunk, if_pos h, segments, hcs, Text.pieces_append_sep]
  simp [Text.pieces]

theorem segments_of_not_slash (h : p.text.toList.getLast? ≠ some '/') : p.segments = p.trunk := by
  rw [trunk, if_neg h]

/-- A path has a trunk. -/
theorem trunk_ne_nil (p : Path) : p.trunk ≠ [] := by
  by_cases h : p.text.toList.getLast? = some '/'
  · obtain ⟨cs, hcs⟩ := List.getLast?_eq_some_iff.1 h
    rw [trunk, if_pos h, segments, hcs, Text.pieces_append_sep]
    simp only [Text.pieces, List.foldr_nil, List.dropLast_concat]
    exact Text.pieces_ne_nil '/' cs
  · rw [trunk, if_neg h]
    exact Text.pieces_ne_nil _ _

/-- A path that is not empty and does not end in a slash ends in a segment that
is not empty. -/
theorem exists_last_segment (hp : p.text ≠ "") (hslash : p.text.toList.getLast? ≠ some '/') :
    ∃ init s, p.segments = init ++ [s] ∧ s ≠ [] := by
  obtain ⟨init, s, hsegments⟩ := (List.eq_nil_or_concat' p.segments).resolve_left
    (Text.pieces_ne_nil _ _)
  refine ⟨init, s, hsegments, ?_⟩
  rintro rfl
  have htext := Text.join_pieces '/' p.text.toList
  rw [← segments, hsegments] at htext
  rcases init with _ | ⟨x, init⟩
  · exact hp (String.toList_eq_nil_iff.1 htext.symm)
  · rw [Text.join_append (List.cons_ne_nil _ _)] at htext
    exact hslash (by rw [← htext]; simp)

/-- The spelling of an entry taken from a path. -/
theorem toList_join (hp : p.text ≠ "") (hn : IsName n) :
    (p.join ⟨n⟩).text.toList =
      p.text.toList ++ if p.text.toList.getLast? = some '/' then n.toList else '/' :: n.toList := by
  have hrooted : isRooted ⟨n⟩ = false := by
    rw [isRooted, beq_eq_false_iff_ne]
    intro h
    exact hn.flat (List.mem_of_head? h)
  have hlast : ∃ c, p.text.toList.getLast? = some c := by
    rw [← Option.isSome_iff_exists, List.getLast?_isSome]
    exact fun h => hp (String.toList_eq_nil_iff.1 h)
  obtain ⟨c, hc⟩ := hlast
  by_cases hslash : c = '/'
  · simp [join, hrooted, hc, hslash]
  · simp [join, hrooted, hc, hslash]

/-- The segments of an entry taken from a path are the trunk and the name. -/
theorem segments_join (hp : p.text ≠ "") (hn : IsName n) :
    (p.join ⟨n⟩).segments = p.trunk ++ [n.toList] := by
  rw [segments, toList_join hp hn]
  -- a slash at the end of the path is the one in front of the name
  split
  · next h =>
    obtain ⟨cs, hcs⟩ := List.getLast?_eq_some_iff.1 h
    rw [trunk, if_pos h, segments, hcs, List.append_assoc, List.singleton_append,
      Text.pieces_append_sep, Text.pieces_append_sep, Text.pieces_of_not_mem hn.flat]
    simp [Text.pieces]
  · next h =>
    rw [trunk, if_neg h, segments, Text.pieces_append_sep, Text.pieces_of_not_mem hn.flat]

/-- The path of an entry does not end in a slash. -/
theorem getLast?_join (hp : p.text ≠ "") (hn : IsName n) :
    (p.join ⟨n⟩).text.toList.getLast? ≠ some '/' := by
  rw [toList_join hp hn]
  obtain ⟨cs, c, hcs⟩ := (List.eq_nil_or_concat' n.toList).resolve_left hn.toList_ne_nil
  have hc : c ≠ '/' := by
    rintro rfl
    exact hn.flat (hcs ▸ List.mem_append_right _ List.mem_cons_self)
  split <;> simp [hcs, hc, List.getLast?_cons]

theorem join_ne_empty (hp : p.text ≠ "") (hn : IsName n) : (p.join ⟨n⟩).text ≠ "" := by
  intro h
  have hnil := congrArg String.toList h
  rw [toList_join hp hn] at hnil
  exact hp (String.toList_eq_nil_iff.1 (List.append_eq_nil_iff.1 hnil).1)

theorem isRooted_join (hp : p.text ≠ "") (hn : IsName n) : (p.join ⟨n⟩).isRooted = p.isRooted := by
  have hne : p.text.toList ≠ [] := fun h => hp (String.toList_eq_nil_iff.1 h)
  obtain ⟨c, cs, hcs⟩ := List.exists_cons_of_ne_nil hne
  rw [isRooted, isRooted, toList_join hp hn, hcs]
  rfl

end Path

namespace Scan

variable {root : Path} {names : List String}

theorem pathOf_concat (root : Path) (names : List String) (n : String) :
    pathOf root (names ++ [n]) = (pathOf root names).join ⟨n⟩ := by
  simp [pathOf]

/-- A path below a root is not empty. -/
theorem pathOf_ne_empty (hroot : root.text ≠ "") (hnames : ∀ n ∈ names, Path.IsName n) :
    (pathOf root names).text ≠ "" := by
  induction names using List.reverseRecOn with
  | nil => exact hroot
  | append_singleton names n ih =>
    rw [pathOf_concat]
    exact Path.join_ne_empty (ih fun m hm => hnames m (List.mem_append_left _ hm))
      (hnames n (List.mem_append_right _ List.mem_cons_self))

/-- A path below a root starts where the root does. -/
theorem isRooted_pathOf (hroot : root.text ≠ "") (hnames : ∀ n ∈ names, Path.IsName n) :
    (pathOf root names).isRooted = root.isRooted := by
  induction names using List.reverseRecOn with
  | nil => rfl
  | append_singleton names n ih =>
    have habove : ∀ m ∈ names, Path.IsName m := fun m hm => hnames m (List.mem_append_left _ hm)
    rw [pathOf_concat, Path.isRooted_join (pathOf_ne_empty hroot habove)
      (hnames n (List.mem_append_right _ List.mem_cons_self)), ih habove]

/-- The trunk of a path below a root is the root's, and the names. -/
theorem trunk_pathOf (hroot : root.text ≠ "") (hnames : ∀ n ∈ names, Path.IsName n) :
    (pathOf root names).trunk = root.trunk ++ names.map String.toList := by
  induction names using List.reverseRecOn with
  | nil => simp [pathOf]
  | append_singleton names n ih =>
    have habove : ∀ m ∈ names, Path.IsName m := fun m hm => hnames m (List.mem_append_left _ hm)
    have hn := hnames n (List.mem_append_right _ List.mem_cons_self)
    have hne := pathOf_ne_empty hroot habove
    rw [pathOf_concat, ← Path.segments_of_not_slash (Path.getLast?_join hne hn),
      Path.segments_join hne hn, ih habove]
    simp

/-- **The segments of a path below a root** are the root's trunk, and the
names. -/
theorem segments_pathOf (hroot : root.text ≠ "") (hnames : ∀ n ∈ names, Path.IsName n)
    (hne : names ≠ []) :
    (pathOf root names).text.toList.getLast? ≠ some '/' ∧
      (pathOf root names).segments = root.trunk ++ names.map String.toList := by
  obtain ⟨above, n, rfl⟩ := (List.eq_nil_or_concat' names).resolve_left hne
  have habove : ∀ m ∈ above, Path.IsName m := fun m hm => hnames m (List.mem_append_left _ hm)
  have hlast := Path.getLast?_join (pathOf_ne_empty hroot habove)
    (hnames n (List.mem_append_right _ List.mem_cons_self))
  rw [← pathOf_concat] at hlast
  exact ⟨hlast, by rw [Path.segments_of_not_slash hlast, trunk_pathOf hroot hnames]⟩

end Scan

namespace FileTree

variable {root : Path} {names : List String}

/-! ## Steps and drafts -/

/-- The steps that segments ask for. -/
def stepsOf (segments : List (List Char)) : List String :=
  (segments.filter fun s => !s.isEmpty).map String.ofList

theorem stepsOf_append (xs ys : List (List Char)) : stepsOf (xs ++ ys) = stepsOf xs ++ stepsOf ys := by
  rw [stepsOf, List.filter_append, List.map_append, stepsOf, stepsOf]

/-- Names ask for themselves. -/
theorem stepsOf_names (hnames : ∀ n ∈ names, Path.IsName n) :
    stepsOf (names.map String.toList) = names := by
  have hfilter : (names.map String.toList).filter (fun s => !s.isEmpty) = names.map String.toList := by
    rw [List.filter_eq_self]
    intro s hs
    obtain ⟨n, hn, rfl⟩ := List.mem_map.1 hs
    simpa using (hnames n hn).ne_empty
  rw [stepsOf, hfilter, List.map_map]
  simp [Function.comp_def]

/-- The steps that a path takes, but for the one that a slash at its end
asks for. -/
def trunkSteps (p : Path) : List String := stepsOf p.trunk

/-- A path takes the steps of its trunk, and a lone dot for a slash at its
end. -/
theorem steps_eq (p : Path) :
    steps p = trunkSteps p ++ if p.text.toList.getLast? = some '/' then ["."] else [] := by
  by_cases h : p.text.toList.getLast? = some '/'
  · rw [steps, if_pos h, if_pos h, Path.segments_of_slash h, trunkSteps, stepsOf]
    simp
  · rw [steps, if_neg h, if_neg h, Path.segments_of_not_slash h, trunkSteps, stepsOf,
      List.append_nil]

/-- A step of a path is one of its segments, or a lone dot. -/
theorem mem_steps {p : Path} {step : String} (h : step ∈ steps p) (hdot : step ≠ ".") :
    ∃ s ∈ p.segments, String.ofList s = step := by
  have hnamed : step ∈ (p.segments.filter fun s => !s.isEmpty).map String.ofList := by
    rw [steps] at h
    split at h
    · exact (List.mem_append.1 h).resolve_right fun h => hdot (List.mem_singleton.1 h)
    · exact h
  obtain ⟨s, hs, hstep⟩ := List.mem_map.1 hnamed
  exact ⟨s, (List.mem_filter.1 hs).1, hstep⟩

/-- **The steps below a root** are the root's, and the names. -/
theorem steps_pathOf (hroot : root.text ≠ "") (hnames : ∀ n ∈ names, Path.IsName n)
    (hne : names ≠ []) : steps (Scan.pathOf root names) = trunkSteps root ++ names := by
  rw [steps_eq, if_neg (Scan.segments_pathOf hroot hnames hne).1, List.append_nil, trunkSteps,
    Scan.trunk_pathOf hroot hnames, stepsOf_append, stepsOf_names hnames, trunkSteps]

/-- A path without a slash at its end is bare. -/
theorem bare_of_not_slash {p : Path} (h : p.text.toList.getLast? ≠ some '/') : bare p = p := by
  have hdrop : p.text.toList.reverse.dropWhile (· == '/') = p.text.toList.reverse := by
    rw [← List.head?_reverse] at h
    rcases hrev : p.text.toList.reverse with _ | ⟨c, cs⟩
    · rfl
    · rw [hrev, List.head?_cons, ne_eq, Option.some.injEq] at h
      rw [List.dropWhile_cons_of_neg (by simpa using h)]
  refine Path.ext_text ?_
  rw [bare, hdrop, List.reverse_reverse]
  split <;> exact String.ofList_toList

/-- The path of an entry names it. -/
theorem endsInDots_pathOf (hroot : root.text ≠ "") (hnames : ∀ n ∈ names, Path.IsName n)
    (hne : names ≠ []) : endsInDots (Scan.pathOf root names) = false := by
  obtain ⟨above, n, rfl⟩ := (List.eq_nil_or_concat' names).resolve_left hne
  have hn := hnames n (List.mem_append_right _ List.mem_cons_self)
  have hdot : n.toList ≠ ['.'] := fun heq => hn.ne_dot (String.toList_inj.1 heq)
  have hup : n.toList ≠ ['.', '.'] := fun heq => hn.ne_up (String.toList_inj.1 heq)
  have hfilter : ([n.toList].filter fun s => !s.isEmpty) = [n.toList] := by
    simpa using hn.ne_empty
  rw [endsInDots, (Scan.segments_pathOf hroot hnames hne).2, List.map_append, ← List.append_assoc,
    List.filter_append, List.map_singleton, hfilter, List.getLast?_concat]
  simp [hdot, hup]

theorem text_draftPath (p : Path) : p.text.toList <+: (draftPath p).text.toList := by
  rw [draftPath, Path.extend, String.toList_append]
  exact List.prefix_append _ _

theorem length_draft (n : String) : (n ++ ".enhancing").toList.length = n.toList.length + 10 := by
  rw [String.toList_append, List.length_append]
  rfl

/-- The name of an entry with the ending of drafts is a name. -/
theorem isName_draft {n : String} (hn : Path.IsName n) : Path.IsName (n ++ ".enhancing") where
  ne_empty h := by simpa using congrArg String.toList h
  flat := by
    rw [String.toList_append, List.mem_append, not_or]
    exact ⟨hn.flat, by decide⟩
  noNul := by
    rw [String.toList_append, List.mem_append, not_or]
    exact ⟨hn.noNul, by decide⟩
  ne_dot h := by
    have hlen := length_draft n
    have hdot : ".".toList.length = 1 := rfl
    rw [h] at hlen
    omega
  ne_up h := by
    have hlen := length_draft n
    have hup : "..".toList.length = 2 := rfl
    rw [h] at hlen
    omega

/-- Where an entry is drafted: beside it, under its name with an ending. -/
theorem draftPath_pathOf {n : String} (hroot : root.text ≠ "")
    (hnames : ∀ m ∈ names, Path.IsName m) (hn : Path.IsName n) :
    draftPath (Scan.pathOf root (names ++ [n])) =
      Scan.pathOf root (names ++ [n ++ ".enhancing"]) := by
  have hp := Scan.pathOf_ne_empty hroot hnames
  rw [Scan.pathOf_concat, Scan.pathOf_concat, draftPath, Path.extend]
  refine Path.ext_text (String.toList_inj.1 ?_)
  rw [String.toList_append, Path.toList_join hp hn, Path.toList_join hp (isName_draft hn),
    String.toList_append]
  split <;> simp

/-! ## Parents -/

/-- Idle segments ask for lone dots at most. -/
theorem stepsOf_idle {segments : List (List Char)} (h : ∀ s ∈ segments, Path.isIdle s = true) :
    ∀ s ∈ stepsOf segments, s = "." := by
  intro s hs
  obtain ⟨cs, hcs, rfl⟩ := List.mem_map.1 hs
  obtain ⟨hmem, hne⟩ := List.mem_filter.1 hcs
  have hidle := h cs hmem
  rw [Path.isIdle, Bool.or_eq_true, beq_iff_eq] at hidle
  have hdot := hidle.resolve_left fun hempty => by rw [hempty] at hne; cases hne
  rw [hdot]

/-- Segments are those up to the last that is not idle, and idle ones. -/
theorem exists_idle_end (segments : List (List Char)) :
    ∃ idle, segments = (segments.reverse.dropWhile Path.isIdle).reverse ++ idle ∧
      ∀ s ∈ idle, Path.isIdle s = true := by
  refine ⟨(segments.reverse.takeWhile Path.isIdle).reverse, ?_, ?_⟩
  · rw [← List.reverse_append, List.takeWhile_append_dropWhile, List.reverse_reverse]
  · intro s hs
    exact List.all_eq_true.1 List.all_takeWhile s (List.mem_reverse.1 hs)

theorem getLast?_of_idle_end (segments : List (List Char)) :
    (segments.reverse.dropWhile Path.isIdle).reverse.getLast? ≠ some [] := by
  rw [List.getLast?_reverse]
  intro hhead
  have hnot := List.head?_dropWhile_not Path.isIdle segments.reverse
  rw [hhead] at hnot
  cases hnot

/-- A path put together from segments that do not end in an empty one has
those segments, is not empty and does not end in a slash. -/
theorem ofSegments_spec {segments : List (List Char)} (hne : segments ≠ [])
    (hflat : ∀ s ∈ segments, '/' ∉ s) (hlast : segments.getLast? ≠ some []) :
    (Path.ofSegments segments).segments = segments ∧ (Path.ofSegments segments).text ≠ "" ∧
      (Path.ofSegments segments).text.toList.getLast? ≠ some '/' := by
  have hsegments : (Path.ofSegments segments).segments = segments := by
    rw [Path.segments, Path.ofSegments, String.toList_ofList]
    exact Text.pieces_join hne hflat
  refine ⟨hsegments, fun hempty => hlast ?_, fun hslash => hlast ?_⟩
  · rw [← hsegments, Path.segments, hempty]
    rfl
  · -- a slash at the end makes the last segment an empty one
    rw [← hsegments, Path.segments_of_slash hslash, List.getLast?_concat]

/-- **The parent of a path**: for a path that ends in a name behind other
segments, it is spelled as the path begins, up to the last of those
segments that is not idle. It leaves out lone dots at most, but for the
root, which is spelled with a slash. -/
theorem parent?_of_segments {p : Path} {init : List (List Char)} {n : List Char}
    (hp : p.segments = init ++ [n]) (hinit : init ≠ []) (hn : Path.isIdle n = false) :
    ∃ q, p.parent? = some q ∧ q.text ≠ "" ∧ q.text.toList <+: p.text.toList ∧ bare q = q ∧
      ∃ dots, (∀ s ∈ dots, s = ".") ∧
        (stepsOf init = steps q ++ dots ∨ steps q = ["."] ∧ stepsOf init = dots) := by
  obtain ⟨first, tail, rfl⟩ := List.exists_cons_of_ne_nil hinit
  have htext : p.text.toList = Text.join '/' (first :: tail ++ [n]) := by
    rw [← hp, Path.segments, Text.join_pieces]
  have htail : p.tailSegments = tail ++ [n] := by
    rw [Path.tailSegments, hp, List.cons_append, List.tail_cons, List.reverse_append,
      List.reverse_singleton, List.singleton_append, List.dropWhile_cons_of_neg (by simp [hn]),
      List.reverse_cons, List.reverse_reverse]
  obtain ⟨idle, hsplit, hidle⟩ := exists_idle_end tail
  have hend := getLast?_of_idle_end tail
  obtain ⟨rest, hrest⟩ : ∃ rest, (tail.reverse.dropWhile Path.isIdle).reverse = rest := ⟨_, rfl⟩
  rw [hrest] at hsplit hend
  have hparent : p.parent? =
      if first.isEmpty && rest.isEmpty then some ⟨"/"⟩ else some (Path.ofSegments (first :: rest)) := by
    rw [Path.parent?, htail, hp]
    simp [hrest]
  have hsteps : stepsOf (first :: tail) = stepsOf (first :: rest) ++ stepsOf idle := by
    rw [hsplit, ← List.cons_append, stepsOf_append]
  -- the parent is the root itself, or spelled by what is left of the segments
  by_cases hroot : first.isEmpty && rest.isEmpty
  · rw [if_pos hroot] at hparent
    rw [Bool.and_eq_true, List.isEmpty_iff, List.isEmpty_iff] at hroot
    obtain ⟨rfl, rfl⟩ := hroot
    refine ⟨⟨"/"⟩, hparent, by decide, ?_, by decide, stepsOf idle, stepsOf_idle hidle,
      .inr ⟨by decide, ?_⟩⟩
    · rw [htext]
      rcases tail with _ | ⟨t, tail⟩ <;> simp [Text.join]
    · rw [hsteps]
      rfl
  rw [if_neg hroot] at hparent
  have hflat : ∀ s ∈ first :: rest, '/' ∉ s := by
    refine fun s hs => Text.not_mem_of_mem_pieces (show s ∈ p.segments from ?_)
    rw [hp, hsplit, ← List.cons_append, List.append_assoc]
    exact List.mem_append_left _ hs
  have hlast : (first :: rest).getLast? ≠ some [] := by
    rcases rest with _ | ⟨s, rest⟩
    · intro hfirst
      have hempty : first = [] := Option.some.inj hfirst
      exact hroot (by rw [hempty]; rfl)
    · rwa [List.getLast?_cons_cons]
  obtain ⟨hsegments, hempty, hslash⟩ := ofSegments_spec (List.cons_ne_nil _ _) hflat hlast
  refine ⟨_, hparent, hempty, ?_, bare_of_not_slash hslash, stepsOf idle, stepsOf_idle hidle, .inl ?_⟩
  · rw [htext, hsplit, Path.ofSegments, String.toList_ofList, ← List.cons_append,
      List.append_assoc, Text.join_append (List.cons_ne_nil _ _)]
    exact List.prefix_append _ _
  · rw [hsteps, steps, if_neg hslash, hsegments, stepsOf]

end FileTree

end ClassWeave
