import ClassWeave.Proofs.Files.Clearing
/-!
# Files -- outputs that do not disturb each other

Writing an output touches the way to it, its place and where it is drafted
(`FileTree.Touches`), and is a matter of no more than these
(`FileTree.Spares`). So outputs are written beside each other undisturbed, if
the place and the draft of neither are on the way to the other
(`FileTree.Undisturbed`, `Touches.spares`).
-/


namespace ClassWeave

namespace FileTree

variable {t t' : FileTree} {l loc loc' : Location} {n n' : String} {old new : Option Entry}
  {change : Location → Option Entry} {locs : List Location}

/-- A file stands there, or nothing. -/
def Loose : Option Entry → Prop
  | none | some (.file _) => True
  | _ => False

theorem Loose.not_directory (h : Loose old) : old ≠ some .directory := by
  rintro rfl
  exact h

theorem Loose.not_link (h : Loose old) (target : Path) : old ≠ some (.link target) := by
  rintro rfl
  exact h

theorem loose_of_ne (hdir : old ≠ some .directory) (hlink : ∀ target, old ≠ some (.link target)) :
    Loose old := by
  rcases old with _ | bytes | _ | target
  · trivial
  · trivial
  · exact hdir rfl
  · exact hlink target rfl

/-! ## What writing an output touches -/

/-- What may come to stand at a location that writing an output touches, in
place of what stood there: a directory on the way and the file in its place, both
as foreseen, and anything loose where the output is drafted. -/
inductive Touched (loc : Location) (n : String) (change : Location → Option Entry)
    (old : Option Entry) (l : Location) : Option Entry → Prop
  | way : l <+: loc → old = none → change l = some .directory →
    Touched loc n change old l (some .directory)
  | place (bytes : Bytes) : l = loc ++ [n] → Loose old → change l = some (.file bytes) →
    Touched loc n change old l (some (.file bytes))
  | draft {new : Option Entry} : l = loc ++ [n ++ ".enhancing"] → Loose old → Loose new →
    Touched loc n change old l new

/-- **What writing an output touches**: the way to it, its place and where it is
drafted. -/
structure Touches (loc : Location) (n : String) (change : Location → Option Entry)
    (t t' : FileTree) : Prop where
  home : t'.home = t.home
  tree : t.IsTree → t'.IsTree
  entry : ∀ l, t'.entry? l = t.entry? l ∨ Touched loc n change (t.entry? l) l (t'.entry? l)

theorem not_way : ¬ loc ++ [n] <+: loc := by
  intro h
  have hle := h.length_le
  rw [List.length_append, List.length_singleton] at hle
  omega

/-- What is touched again has been touched once. -/
theorem Touched.trans {e e' e'' : Option Entry} (h : Touched loc n change e l e')
    (h' : Touched loc n change e' l e'') : Touched loc n change e l e'' := by
  cases h' with
  | way hl hnone hchange =>
    cases h with
    | way => cases hnone
    | place => cases hnone
    | draft hl' => exact absurd (hl' ▸ hl) not_way
  | place bytes hl hloose hchange =>
    cases h with
    | way => exact hloose.elim
    | place _ _ hloose' => exact .place bytes hl hloose' hchange
    | draft _ hloose' => exact .place bytes hl hloose' hchange
  | draft hl hloose hnew =>
    cases h with
    | way => exact hloose.elim
    | place _ _ hloose' => exact .draft hl hloose' hnew
    | draft _ hloose' => exact .draft hl hloose' hnew

theorem composes_touches (loc : Location) (n : String) (change : Location → Option Entry) :
    Job.Composes (Touches loc n change) where
  refl t := ⟨rfl, id, fun _ => .inl rfl⟩
  trans {t t' t''} h h' := by
    refine ⟨h'.home.trans h.home, h'.tree ∘ h.tree, fun l => ?_⟩
    rcases h'.entry l with hsame' | htouched'
    · rw [hsame']
      exact h.entry l
    · rcases h.entry l with hsame | htouched
      · rw [← hsame]
        exact .inr htouched'
      · exact .inr (htouched.trans htouched')

theorem Touched.loose (h : Touched loc n change old l new) : Loose old := by
  cases h with
  | way _ hnone => exact hnone ▸ trivial
  | place _ _ hloose => exact hloose
  | draft _ hloose => exact hloose

theorem Touched.not_link (h : Touched loc n change old l new) (target : Path) :
    new ≠ some (.link target) := by
  cases h with
  | way => nofun
  | place => nofun
  | draft _ _ hnew => exact hnew.not_link target

/-- What comes up anywhere but where the output is drafted is foreseen. -/
theorem Touched.foreseen (h : Touched loc n change old l new) :
    (∃ e, new = some e ∧ change l = some e) ∨ l = loc ++ [n ++ ".enhancing"] := by
  cases h with
  | way _ _ hchange => exact .inl ⟨_, rfl, hchange⟩
  | place _ _ _ hchange => exact .inl ⟨_, rfl, hchange⟩
  | draft hl => exact .inr hl

/-- So the tree grows. -/
theorem Touches.grown (h : Touches loc n change t t') : Grown t t' where
  home := h.home
  directory l hdir := by
    rcases h.entry l with hsame | htouched
    · rw [hsame, hdir]
    · exact absurd hdir htouched.loose.not_directory
  link l target := by
    rcases h.entry l with hsame | htouched
    · rw [hsame]
    · exact ⟨fun hlink => absurd hlink (htouched.not_link target),
        fun hlink => absurd hlink (htouched.loose.not_link target)⟩

/-- Directories that come up on the way are foreseen. -/
theorem Clears.touches (h : Clears locs t t')
    (hlocs : ∀ l ∈ locs, l <+: loc ∧ change l = some .directory) : Touches loc n change t t' where
  home := h.home
  tree := h.tree
  entry l := by
    rcases h.entry l with hsame | ⟨hl, hnone, hdir⟩
    · exact .inl hsame
    · obtain ⟨hway, hchange⟩ := hlocs l hl
      rw [hdir]
      exact .inr (.way hway hnone hchange)

/-! ## What spares an output -/

/-- **What spares an output** in a directory: the way to it, what stands in
its place and what stands where it is drafted. -/
structure Spares (loc : Location) (n : String) (t t' : FileTree) : Prop extends
    SparesWay loc t t' where
  place : t'.entry? (loc ++ [n]) = t.entry? (loc ++ [n])
  draft : t'.entry? (loc ++ [n ++ ".enhancing"]) = t.entry? (loc ++ [n ++ ".enhancing"])

theorem Spares.entry_place {base : Location} {above : List String} (h : Spares (base ++ above) n t t') :
    t'.entry? (base ++ (above ++ [n])) = t.entry? (base ++ (above ++ [n])) := by
  rw [← List.append_assoc]
  exact h.place

theorem Spares.entry_draft {base : Location} {above : List String} (h : Spares (base ++ above) n t t') :
    t'.entry? (base ++ (above ++ [n ++ ".enhancing"])) =
      t.entry? (base ++ (above ++ [n ++ ".enhancing"])) := by
  rw [← List.append_assoc]
  exact h.draft

theorem composes_spares (loc : Location) (n : String) : Job.Composes (Spares loc n) where
  refl t := ⟨(composes_sparesWay loc).refl t, rfl, rfl⟩
  trans h h' := ⟨(composes_sparesWay loc).trans h.toSparesWay h'.toSparesWay,
    h'.place.trans h.place, h'.draft.trans h.draft⟩

/-- **Outputs of two names in two directories** that do not disturb each
other: neither the place nor the draft of one is at the place of the other,
or on the way to it. -/
structure Undisturbed (loc : Location) (n : String) (loc' : Location) (n' : String) : Prop where
  place : ¬ loc ++ [n] <+: loc' ++ [n']
  draft : ¬ loc ++ [n ++ ".enhancing"] <+: loc' ++ [n']
  place' : ¬ loc' ++ [n'] <+: loc ++ [n]
  draft' : ¬ loc' ++ [n' ++ ".enhancing"] <+: loc ++ [n]

theorem Undisturbed.symm (h : Undisturbed loc n loc' n') :
    Undisturbed loc' n' loc n := ⟨h.place', h.draft', h.place, h.draft⟩

theorem Undisturbed.draft_ne (h : Undisturbed loc n loc' n') :
    loc ++ [n ++ ".enhancing"] ≠ loc' ++ [n' ++ ".enhancing"] := by
  intro heq
  obtain ⟨rfl, hname⟩ := List.append_inj' heq rfl
  have hn := congrArg String.toList (List.singleton_inj.1 hname)
  rw [String.toList_append, String.toList_append] at hn
  exact h.place (String.ext (List.append_cancel_right hn) ▸ List.prefix_rfl)

/-- **Outputs that do not disturb each other spare each other.** -/
theorem Touches.spares (h : Touches loc n change t t') (hclear : Undisturbed loc n loc' n') :
    Spares loc' n' t t' where
  tree := h.tree
  grown := h.grown
  isOpen l hl := by
    have hbelow : l <+: loc' ++ [n'] := hl.trans (List.prefix_append _ _)
    rcases h.entry l with hsame | htouched
    · rw [isOpen, isOpen, hsame]
    generalize hnew : t'.entry? l = new at htouched
    cases htouched with
    | way _ hnone => rw [isOpen_iff.2 (.inl hnone), isOpen_iff.2 (.inr hnew)]
    | place _ heq => exact absurd (heq ▸ hbelow) hclear.place
    | draft heq => exact absurd (heq ▸ hbelow) hclear.draft
  place := by
    refine (h.entry _).resolve_right fun htouched => ?_
    generalize t'.entry? _ = new at htouched
    cases htouched with
    | way hway => exact hclear.place' (hway.trans (List.prefix_append _ _))
    | place _ heq => exact hclear.place (heq ▸ List.prefix_rfl)
    | draft heq => exact hclear.draft (heq ▸ List.prefix_rfl)
  draft := by
    refine (h.entry _).resolve_right fun htouched => ?_
    generalize t'.entry? _ = new at htouched
    cases htouched with
    | way hway => exact hclear.draft' (hway.trans (List.prefix_append _ _))
    | place _ heq => exact hclear.draft' (heq ▸ List.prefix_rfl)
    | draft heq => exact hclear.draft_ne heq.symm

end FileTree

end ClassWeave
