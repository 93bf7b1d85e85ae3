import ClassWeave.Proofs.Files.Below
/-!
# Files -- what replacing files leaves of a tree

A file that is replaced gets its octets, and what stood where they were
drafted is gone; nothing else changes (`entry?_replaced`). Over any number
of replacements a tree evolves (`FileTree.Evolved`): it keeps its shape, no
entry comes up, and only files with the ending of drafts vanish. What is
scanned below a location asks no more than that it does so there
(`FileTree.EvolvedBelow`).
-/


namespace ClassWeave

namespace FileTree

variable {t t' t'' : FileTree} {root : Path} {top : Location} {above : List String} {n : String}
  {l : Location} {bytes out : Bytes}

/-- A location whose last name has the ending of drafts. -/
def IsDraft (l : Location) : Prop := ∃ above n, Path.IsName n ∧ l = above ++ [n ++ ".enhancing"]

/-- **What becomes of a tree** whose files are replaced: its shape stays,
what is vacant stays vacant, and only drafts vanish. -/
structure Evolved (t t' : FileTree) : Prop where
  shape : SameShape t t'
  vacant : ∀ l, t.entry? l = none → t'.entry? l = none
  vanished : ∀ l, (t.entry? l).isSome → t'.entry? l = none → IsDraft l

theorem Evolved.refl (t : FileTree) : Evolved t t :=
  ⟨.refl t, fun _ h => h, fun l hsome hnone => by rw [hnone] at hsome; cases hsome⟩

theorem Evolved.trans (h : Evolved t t') (h' : Evolved t' t'') : Evolved t t'' where
  shape := h.shape.trans h'.shape
  vacant l hnone := h'.vacant l (h.vacant l hnone)
  vanished l hsome hnone := by
    rcases hl : t'.entry? l with _ | e
    · exact h.vanished l hsome hl
    · exact h'.vanished l (by rw [hl]; rfl) hnone

/-- **What becomes of a tree below a location** so far as a scan can tell,
wherever else it changes. -/
structure EvolvedBelow (top : Location) (t t' : FileTree) : Prop where
  directory : ∀ names,
    t'.entry? (top ++ names) = some .directory ↔ t.entry? (top ++ names) = some .directory
  vacant : ∀ names, t.entry? (top ++ names) = none → t'.entry? (top ++ names) = none
  vanished : ∀ names, (t.entry? (top ++ names)).isSome → t'.entry? (top ++ names) = none →
    IsDraft (top ++ names)

theorem Evolved.below (h : Evolved t t') (top : Location) : EvolvedBelow top t t' :=
  ⟨fun _ => h.shape.directory _, fun _ => h.vacant _, fun _ => h.vanished _⟩

/-- **What stands where after a file was replaced.** -/
theorem entry?_replaced :
    FileTree.entry? (ClassRoot.replaced t top above n out) l =
      if l = top ++ (above ++ [n]) then some (.file out)
      else if l = top ++ (above ++ [n ++ ".enhancing"]) then none else t.entry? l := by
  rw [ClassRoot.replaced, entry?_put (by simp), entry?_erase (by simp), ClassRoot.drafted,
    entry?_put (by simp)]
  split
  · rfl
  · split <;> rfl

variable (h : t.ClassRoot root top)
include h

/-- Replacing a file leaves the class root and the shape of the tree, and
so does each of its steps. -/
theorem ClassRoot.classRoot_replaced (out : Bytes)
    (hplace : t.entry? (top ++ (above ++ [n])) = some (.file bytes))
    (hdraft : ClassRoot.Draftable t root top above n) :
    (ClassRoot.replaced t top above n out).ClassRoot root top ∧
      SameShape t (ClassRoot.replaced t top above n out) := by
  have hsome : (t.entry? (top ++ (above ++ [n]))).isSome := by rw [hplace]; rfl
  obtain ⟨hnames, hdirs⟩ := h.tree.of_isSome hsome
  have hn := hnames n (List.mem_append_right _ List.mem_cons_self)
  obtain ⟨hdrafted, hshape⟩ := h.classRoot_drafted out hsome hdraft
  obtain ⟨hentry, hbeside⟩ := entry?_drafted t top above n out
  obtain ⟨hcleared, hshape'⟩ := hdrafted.erase (by rw [hentry]; simp)
  have hdir := ((hshape.trans hshape').directory _).2 (hdirs above [n] rfl (by simp))
  obtain ⟨hroot, hshape''⟩ := hcleared.put out hdir hn (by
    rw [entry?_erase (by simp), if_neg (draft_ne top above n), hbeside, hplace]
    simp)
  exact ⟨hroot, (hshape.trans hshape').trans hshape''⟩

/-- **Replacing a file is a way for a tree to evolve.** -/
theorem ClassRoot.evolved_replaced (out : Bytes)
    (hplace : t.entry? (top ++ (above ++ [n])) = some (.file bytes))
    (hdraft : ClassRoot.Draftable t root top above n) :
    Evolved t (ClassRoot.replaced t top above n out) := by
  refine ⟨(h.classRoot_replaced out hplace hdraft).2, fun l hnone => ?_, fun l hl hnone => ?_⟩
  · rw [entry?_replaced]
    split
    · next heq => rw [heq, hplace] at hnone; cases hnone
    · split
      · rfl
      · exact hnone
  · rw [entry?_replaced] at hnone
    split at hnone
    · cases hnone
    · split at hnone
      · next heq =>
        have hn := (h.tree.of_isSome (by rw [hplace]; rfl)).1 n
          (List.mem_append_right _ List.mem_cons_self)
        exact ⟨top ++ above, n, hn, by rw [heq, List.append_assoc]⟩
      · rw [hnone] at hl
        cases hl

end FileTree

end ClassWeave
