import ClassWeave.Proofs.Files.Spelling
/-!
# Files -- paths below a directory

A path that is taken from a directory and starts with a name has the
directory's components and then its own (`components_join`), however the
directory is spelled. So if its own are names it is below the directory
(`Path.IsBelow`): it leads neither up nor to a root of its own. The names of
entries put together are such a path, and can be told from it again
(`names_relativePath`).
-/


namespace ClassWeave

namespace Path

variable {d p q : Path} {names : List String} {n : String}

/-- **A path below another one** has the other's components and then one name
or more. -/
def IsBelow (d p : Path) : Prop :=
  ∃ names : List String, names ≠ [] ∧ p.components = d.components ++ names.map .name

/-- The components of a lead are those of the segments, of which it lacks an
empty one at most. -/
theorem filterMap_lead (d : Path) :
    d.lead.filterMap componentOf? = d.segments.filterMap componentOf? := by
  rw [lead]
  split
  · next hempty =>
    rw [Path.segments, hempty]
    rfl
  · by_cases hslash : d.text.toList.getLast? = some '/'
    · rw [segments_of_slash hslash, List.filterMap_append]
      exact (List.append_nil _).symm
    · rw [segments_of_not_slash hslash]

theorem head?_lead (hempty : d.text ≠ "") : d.lead.head? = d.segments.head? := by
  rw [lead, if_neg hempty]
  by_cases hslash : d.text.toList.getLast? = some '/'
  · obtain ⟨s, trunk, htrunk⟩ := List.exists_cons_of_ne_nil d.trunk_ne_nil
    rw [segments_of_slash hslash, htrunk]
    rfl
  · rw [segments_of_not_slash hslash]

/-- **What is taken from a path has the path's components and its own**, if it
starts neither at the root nor with a lone dot. -/
theorem components_join (d : Path) (hrooted : q.isRooted = false)
    (hhead : q.segments.head? ≠ some ['.']) :
    (d.join q).components = d.components ++ q.components := by
  obtain ⟨hsegments, hstarts⟩ := segments_join_of_not_rooted d hrooted
  have hq : q.components = q.segments.filterMap componentOf? := by
    rw [components, start, hrooted, if_neg Bool.false_ne_true, if_neg hhead, List.nil_append]
  have hstart : (d.join q).start = d.start := by
    rw [start, start, hstarts, hsegments]
    by_cases hempty : d.text = ""
    · -- the empty path has one segment, and that is no dot
      have hd : d.segments.head? ≠ some ['.'] := by
        rw [Path.segments, hempty]
        exact fun h => List.cons_ne_nil _ _ (Option.some.inj h).symm
      rw [lead, if_pos hempty, List.nil_append, if_neg hhead, if_neg hd]
    · obtain ⟨s, segments, hlead⟩ : ∃ s segments, d.lead = s :: segments := by
        rw [lead, if_neg hempty]
        exact List.exists_cons_of_ne_nil d.trunk_ne_nil
      rw [← head?_lead hempty, hlead]
      rfl
  rw [hq, components, hstart, hsegments, List.filterMap_append, filterMap_lead, ← List.append_assoc,
    ← components]

/-- What is written right behind something taken from a path could have been
written there before. -/
theorem extend_join (d : Path) (hq : q.text ≠ "") (tail : String) :
    (d.join q).extend tail = d.join (q.extend tail) := by
  have hrooted : (q.extend tail).isRooted = q.isRooted := by
    obtain ⟨c, cs, hcs⟩ := List.exists_cons_of_ne_nil fun h => hq (String.toList_eq_nil_iff.1 h)
    rw [isRooted, isRooted, extend, String.toList_append, hcs]
    rfl
  rw [join, join, hrooted]
  split
  · rfl
  · split <;> simp only [extend, String.append_assoc]

/-- Segments that do not lead up have the names among them for their
components. -/
theorem filterMap_componentOf? {segments : List (List Char)} (hup : ['.', '.'] ∉ segments) :
    segments.filterMap componentOf? = (namesIn segments).map .name := by
  induction segments with
  | nil => rfl
  | cons s segments ih =>
    rw [List.mem_cons, not_or] at hup
    rw [List.filterMap_cons, ih hup.2, namesIn, namesIn, List.filter_cons, componentOf?]
    rcases hidle : isIdle s with _ | _
    · simp [Ne.symm hup.1]
    · simp

/-- What is neither rooted nor starts with a lone dot, and does not lead up,
has the names among its segments for its components. -/
theorem components_of_names (hrooted : q.isRooted = false) (hhead : q.segments.head? ≠ some ['.'])
    (hup : ['.', '.'] ∉ q.segments) : q.components = (namesIn q.segments).map .name := by
  rw [components, start, hrooted, if_neg Bool.false_ne_true, if_neg hhead, List.nil_append,
    filterMap_componentOf? hup]

/-- **So it is below the path that it is taken from**, if there is a name. -/
theorem isBelow_join (d : Path) (hrooted : q.isRooted = false)
    (hhead : q.segments.head? ≠ some ['.']) (hup : ['.', '.'] ∉ q.segments)
    (hne : namesIn q.segments ≠ []) : d.IsBelow (d.join q) :=
  ⟨namesIn q.segments, hne, by
    rw [components_join d hrooted hhead, components_of_names hrooted hhead hup]⟩

/-! ## Names put together -/

theorem head?_relativePath (hnames : ∀ n ∈ names, IsName n) (hne : names ≠ []) :
    (Scan.relativePath names).segments.head? ≠ some ['.'] := by
  obtain ⟨n, names, rfl⟩ := List.exists_cons_of_ne_nil hne
  rw [Scan.segments_relativePath hnames hne]
  exact fun heq => (hnames n List.mem_cons_self).ne_dot (String.toList_inj.1 (Option.some.inj heq))

/-- **The components of names put together** are the names. -/
theorem components_relativePath (hnames : ∀ n ∈ names, IsName n) (hne : names ≠ []) :
    (Scan.relativePath names).components = names.map .name := by
  have hsegments := Scan.segments_relativePath hnames hne
  have hup : ['.', '.'] ∉ (Scan.relativePath names).segments := by
    rw [hsegments, List.mem_map]
    rintro ⟨n, hn, heq⟩
    exact (hnames n hn).ne_up (String.toList_inj.1 heq)
  rw [components_of_names (isRooted_relativePath hnames hne) (head?_relativePath hnames hne) hup,
    hsegments, namesIn_names hnames]

theorem names_relativePath (hnames : ∀ n ∈ names, IsName n) (hne : names ≠ []) :
    (Scan.relativePath names).names = names := by
  rw [Path.names, components_relativePath hnames hne, List.filterMap_map]
  exact List.filterMap_some ..

end Path

end ClassWeave
