import ClassWeave.Proofs.Files.Paths
import ClassWeave.Proofs.Files.Walk
import Mathlib.Data.List.Nodup
import Mathlib.Data.List.Perm.Subperm
/-!
# Files -- trees that are trees

What stands at each location after a change (`entry?_put`, `entry?_erase`),
and the two things that a list of entries needs to be a tree of files: each
location is listed once, and every entry has a name and stands in a
directory (`FileTree.IsTree`). Writing a file into a directory and removing
one keep both.
-/


namespace ClassWeave

/-- Whether an entry is a link. -/
def Entry.isLink : Entry → Bool
  | .link _ => true
  | _ => false

namespace FileTree

variable {t : FileTree} {loc l : Location} {e : Entry} {n : String}

/-! ## Entries after a change -/

theorem lookup_cons_ite {α β : Type} [DecidableEq α] [BEq α] [LawfulBEq α] (key : α) (b : β)
    (entries : List (α × β)) (k : α) :
    ((key, b) :: entries).lookup k = if k = key then some b else entries.lookup k := by
  rw [List.lookup_cons]
  by_cases h : k = key
  · simp [h]
  · rw [beq_eq_false_iff_ne.2 h, if_neg h]

/-- A look-up sees what is not filtered out. -/
theorem lookup_filter_ne {α β : Type} [DecidableEq α] [BEq α] [LawfulBEq α]
    (entries : List (α × β)) (loc l : α) :
    (entries.filter fun p => p.1 != loc).lookup l =
      if l = loc then none else entries.lookup l := by
  induction entries with
  | nil => simp
  | cons p entries ih =>
    obtain ⟨k, e⟩ := p
    by_cases hk : k = loc
    · rw [List.filter_cons_of_neg (by simp [hk]), ih, lookup_cons_ite]
      by_cases hl : l = loc
      · rw [if_pos hl, if_pos hl]
      · rw [if_neg hl, if_neg hl, if_neg (hk ▸ hl)]
    · rw [List.filter_cons_of_pos (by simp [hk]), lookup_cons_ite, lookup_cons_ite, ih]
      by_cases hl : l = loc
      · rw [if_pos hl, if_neg (hl ▸ Ne.symm hk), if_pos hl]
      · rw [if_neg hl, if_neg hl]

/-- What is found where a key is listed anew. -/
theorem lookup_cons_filter_ne {α β : Type} [DecidableEq α] [BEq α] [LawfulBEq α]
    (entries : List (α × β)) (key : α) (b : β) (k : α) :
    ((key, b) :: entries.filter fun p => p.1 != key).lookup k =
      if k = key then some b else entries.lookup k := by
  rw [lookup_cons_ite, lookup_filter_ne]
  by_cases h : k = key
  · rw [if_pos h, if_pos h]
  · rw [if_neg h, if_neg h, if_neg h]

theorem mem_of_lookup {α β : Type} [BEq α] [LawfulBEq α] {entries : List (α × β)} {key : α} {b : β}
    (h : entries.lookup key = some b) : (key, b) ∈ entries := by
  obtain ⟨before, behind, hsplit, -⟩ := List.lookup_eq_some_iff.1 h
  rw [hsplit]
  exact List.mem_append_right _ List.mem_cons_self

theorem nodup_cons_filter_ne {α β : Type} [BEq α] [LawfulBEq α] {entries : List (α × β)}
    (h : (entries.map Prod.fst).Nodup) (key : α) (b : β) :
    (((key, b) :: entries.filter fun p => p.1 != key).map Prod.fst).Nodup := by
  rw [List.map_cons, List.nodup_cons]
  refine ⟨?_, h.sublist (List.filter_sublist.map _)⟩
  simp

theorem entry?_put (hloc : loc ≠ []) :
    FileTree.entry? (t.put loc e) l = if l = loc then some e else t.entry? l := by
  unfold entry?
  by_cases hl : l = []
  · rw [if_pos hl, if_pos hl, if_neg fun h => hloc (h.symm.trans hl)]
  · rw [if_neg hl, if_neg hl, put, lookup_cons_filter_ne]

theorem entry?_erase (hloc : loc ≠ []) :
    FileTree.entry? (t.erase loc) l = if l = loc then none else t.entry? l := by
  unfold entry?
  by_cases hl : l = []
  · rw [if_pos hl, if_pos hl, if_neg fun h => hloc (h.symm.trans hl)]
  · rw [if_neg hl, if_neg hl, erase, lookup_filter_ne]

/-- A location where something stands is listed. -/
theorem isSome_iff_listed (hloc : loc ≠ []) :
    (t.entry? loc).isSome ↔ loc ∈ t.entries.map Prod.fst := by
  unfold entry?
  rw [if_neg hloc]
  induction t.entries with
  | nil => simp
  | cons p entries ih =>
    obtain ⟨k, e⟩ := p
    rw [List.lookup_cons, List.map_cons, List.mem_cons]
    by_cases hk : loc = k
    · simp [hk]
    · simp only [beq_eq_false_iff_ne.2 hk, hk, false_or, ih]

theorem mem_entries (hloc : loc ≠ []) (h : t.entry? loc = some e) : (loc, e) ∈ t.entries := by
  unfold entry? at h
  rw [if_neg hloc] at h
  exact mem_of_lookup h

/-! ## Trees -/

/-- **A tree of files**: each location is listed once, and whatever stands
somewhere has a name there and stands in a directory. -/
structure IsTree (t : FileTree) : Prop where
  nodup : (t.entries.map Prod.fst).Nodup
  within : ∀ loc n, (t.entry? (loc ++ [n])).isSome → t.entry? loc = some .directory
  named : ∀ loc n, (t.entry? (loc ++ [n])).isSome → Path.IsName n

/-- No link at a location or below it. -/
def LinkFree (t : FileTree) (loc : Location) : Prop :=
  ∀ l target, loc <+: l → t.entry? l ≠ some (.link target)

/-- **A tree is told by its list**, if each location in it is there once, and
has a name behind the location of a directory. -/
theorem IsTree.of_listed (hnodup : (t.entries.map Prod.fst).Nodup)
    (hlisted : ∀ p ∈ t.entries, t.entry? p.1.dropLast = some .directory ∧
      ∀ n ∈ p.1.getLast?, Path.IsName n) : t.IsTree where
  nodup := hnodup
  within loc n h := by
    obtain ⟨e, he⟩ := Option.isSome_iff_exists.1 h
    have hdir := (hlisted _ (mem_entries (by simp) he)).1
    rwa [List.dropLast_concat] at hdir
  named loc n h := by
    obtain ⟨e, he⟩ := Option.isSome_iff_exists.1 h
    exact (hlisted _ (mem_entries (by simp) he)).2 n List.getLast?_concat

theorem LinkFree.of_listed (hlisted : ∀ p ∈ t.entries, p.2.isLink = false) : t.LinkFree loc := by
  intro l target _ h
  by_cases hl : l = []
  · rw [hl, entry?, if_pos rfl] at h
    cases h
  · cases hlisted _ (mem_entries hl h)

theorem LinkFree.grown {t' : FileTree} (h : LinkFree t loc) (hgrown : Grown t t') : LinkFree t' loc :=
  fun l target hl hentry => h l target hl ((hgrown.link l target).1 hentry)

/-- Something stands at the end of names, so they are names and lead over
directories. -/
theorem IsTree.of_isSome (h : t.IsTree) {names : List String}
    (hsome : (t.entry? (loc ++ names)).isSome) :
    (∀ n ∈ names, Path.IsName n) ∧
      ∀ above below, names = above ++ below → below ≠ [] →
        t.entry? (loc ++ above) = some .directory := by
  -- from the end on: what stands in a directory says that this stands too
  induction names using List.reverseRecOn with
  | nil =>
    refine ⟨fun n hn => absurd hn List.not_mem_nil, fun above below hsplit hbelow => ?_⟩
    exact absurd (List.append_eq_nil_iff.1 hsplit.symm).2 hbelow
  | append_singleton names n ih =>
    rw [← List.append_assoc] at hsome
    have hdir := h.within _ _ hsome
    obtain ⟨hnames, habove⟩ := ih (by rw [hdir]; rfl)
    refine ⟨fun m hm => ?_, fun above below hsplit hbelow => ?_⟩
    · rcases List.mem_append.1 hm with hm | hm
      · exact hnames m hm
      · exact List.mem_singleton.1 hm ▸ h.named _ _ hsome
    · obtain ⟨below', m, rfl⟩ := (List.eq_nil_or_concat' below).resolve_left hbelow
      rw [← List.append_assoc] at hsplit
      obtain ⟨rfl, -⟩ := List.append_inj' hsplit rfl
      rcases List.eq_nil_or_concat' below' with rfl | ⟨below'', m', rfl⟩
      · rw [List.append_nil] at hdir
        exact hdir
      · exact habove above _ rfl (by simp)

/-- What is put into a directory, not over one, keeps the tree a tree. -/
theorem IsTree.put (h : t.IsTree) (hdir : t.entry? loc = some .directory)
    (hn : Path.IsName n) (hfile : t.entry? (loc ++ [n]) ≠ some .directory) :
    (t.put (loc ++ [n]) e).IsTree where
  nodup := nodup_cons_filter_ne h.nodup _ _
  within l m hsome := by
    rw [entry?_put (by simp)] at hsome ⊢
    split at hsome
    · next heq =>
      obtain ⟨rfl, -⟩ := List.append_inj' heq rfl
      rw [if_neg (by simp), hdir]
    · have hl := h.within l m hsome
      rw [if_neg, hl]
      rintro rfl
      exact hfile hl
  named l m hsome := by
    rw [entry?_put (by simp)] at hsome
    split at hsome
    · next heq =>
      obtain ⟨-, heq⟩ := List.append_inj' heq rfl
      exact (List.cons.inj heq).1 ▸ hn
    · exact h.named l m hsome

/-- A tree without something that is no directory is still a tree. -/
theorem IsTree.erase (h : t.IsTree) (hfile : t.entry? (loc ++ [n]) ≠ some .directory) :
    (t.erase (loc ++ [n])).IsTree where
  nodup := h.nodup.sublist (List.filter_sublist.map _)
  within l m hsome := by
    rw [entry?_erase (by simp)] at hsome ⊢
    split at hsome
    · cases hsome
    · have hl := h.within l m hsome
      rw [if_neg, hl]
      rintro rfl
      exact hfile hl
  named l m hsome := by
    rw [entry?_erase (by simp)] at hsome
    split at hsome
    · cases hsome
    · exact h.named l m hsome

/-- A file written where neither a directory nor a link stands leaves the
shape alone. -/
theorem sameShape_put {bytes : Bytes} (hloc : loc ≠ []) (hdir : t.entry? loc ≠ some .directory)
    (hlink : ∀ target, t.entry? loc ≠ some (.link target)) :
    SameShape t (t.put loc (.file bytes)) where
  home := rfl
  directory l := by
    rw [entry?_put hloc]
    split
    · next heq => simp [heq, hdir]
    · exact Iff.rfl
  link l target := by
    rw [entry?_put hloc]
    split
    · next heq => simp [heq, hlink]
    · exact Iff.rfl

/-- So does removing what is neither. -/
theorem sameShape_erase (hloc : loc ≠ []) (hdir : t.entry? loc ≠ some .directory)
    (hlink : ∀ target, t.entry? loc ≠ some (.link target)) : SameShape t (t.erase loc) where
  home := rfl
  directory l := by
    rw [entry?_erase hloc]
    split
    · next heq => simp [heq, hdir]
    · exact Iff.rfl
  link l target := by
    rw [entry?_erase hloc]
    split
    · next heq => simp [heq, hlink]
    · exact Iff.rfl

/-- A location is no longer than the list of entries: all that stands on
the way to it is listed. -/
theorem IsTree.length_le (h : t.IsTree) (hsome : (t.entry? loc).isSome) :
    loc.length ≤ t.entries.length := by
  -- the locations on the way are listed, and no two of them are of one length
  have hbefore : ∀ i < loc.length, loc.take (i + 1) ∈ t.entries.map Prod.fst := by
    intro i hi
    have hne : loc.take (i + 1) ≠ [] := by
      rw [← List.length_pos_iff, List.length_take]
      omega
    rw [← isSome_iff_listed hne]
    rcases Nat.lt_or_ge (i + 1) loc.length with hlt | hge
    · have hdrop : loc.drop (i + 1) ≠ [] := by
        rw [← List.length_pos_iff, List.length_drop]
        omega
      have hdir := (h.of_isSome (show (t.entry? ([] ++ loc)).isSome from hsome)).2 _ _
        (List.take_append_drop (i + 1) loc).symm hdrop
      rw [List.nil_append] at hdir
      rw [hdir]
      rfl
    · rwa [List.take_of_length_le hge]
  have hnodup : ((List.range loc.length).map fun i => loc.take (i + 1)).Nodup := by
    refine List.Nodup.map_on (fun i hi j hj heq => ?_) List.nodup_range
    have hlen := congrArg List.length heq
    rw [List.mem_range] at hi hj
    simp only [List.length_take] at hlen
    omega
  have hsub : ((List.range loc.length).map fun i => loc.take (i + 1)) ⊆ t.entries.map Prod.fst := by
    intro l hl
    obtain ⟨i, hi, rfl⟩ := List.mem_map.1 hl
    exact hbefore i (List.mem_range.1 hi)
  simpa using (hnodup.subperm hsub).length_le

end FileTree

end ClassWeave
