import ClassWeave.Proofs.Files.Outlet
import ClassWeave.Proofs.Files.Replaced
/-!
# Files -- what writing an output leaves of a tree

An output is written whatever stands where it is drafted, and whether that
goes well or not (`FileTree.Overwritten`): the file is in its place if it
does, directories may have come up where nothing stood, and what was drafted
is gone. All else stays, so a file that is no draft keeps its octets unless
it is the one that was written (`Overwritten.kept`).
-/


namespace ClassWeave

namespace FileTree

variable {t t' t₁ : FileTree} {d q : Path} {init : List (List Char)}
  {base l loc place draft : Location} {names above : List String} {n : String} {bytes out : Bytes}
  {done : Prop}

/-- **What is left of a tree after a file was written**, or was not because
something went wrong: the file is in its place if it was, a directory may
have come up where nothing stood, and what was drafted is gone. -/
structure Overwritten (t t' : FileTree) (place draft : Location) (out : Bytes) (done : Prop) :
    Prop where
  home : t'.home = t.home
  tree : t'.IsTree
  placed : done → t'.entry? place = some (.file out)
  entry : ∀ l, t'.entry? l = t.entry? l ∨
    (t.entry? l = none ∧ t'.entry? l = some .directory) ∨
    (t.entry? l ≠ some .directory ∧ l = draft ∧ t'.entry? l = none) ∨
    (t.entry? l ≠ some .directory ∧ l = place ∧ done)

namespace Overwritten

theorem refl (htree : t.IsTree) (hnot : ¬ done) : Overwritten t t place draft out done :=
  ⟨rfl, htree, fun h => absurd h hnot, fun _ => .inl rfl⟩

/-- Directories may be made on the way first. -/
theorem behind {locs : List Location} (h : Overwritten t₁ t' place draft out done)
    (hcleared : Cleared t locs t₁) (hopen : ∀ l ∈ locs, t.isOpen l = true)
    (hplace : place ∉ locs) (hdraft : draft ∉ locs) : Overwritten t t' place draft out done where
  home := h.home.trans hcleared.home
  tree := h.tree
  placed := h.placed
  entry l := by
    have hbeside : l ∉ locs → t₁.entry? l = t.entry? l := fun hl => by
      rw [hcleared.entry, if_neg hl]
    rcases h.entry l with hsame | ⟨hnone, hdir⟩ | ⟨hfile, rfl, hgone⟩ | ⟨hfile, rfl, hdone⟩
    · by_cases hl : l ∈ locs
      · rw [hcleared.entry, if_pos hl] at hsame
        rcases isOpen_iff.1 (hopen l hl) with hnone | hdir
        · exact .inr (.inl ⟨hnone, hsame⟩)
        · exact .inl (hsame.trans hdir.symm)
      · exact .inl (hsame.trans (hbeside hl))
    · by_cases hl : l ∈ locs
      · rw [hcleared.entry, if_pos hl] at hnone
        cases hnone
      · exact .inr (.inl ⟨(hbeside hl).symm.trans hnone, hdir⟩)
    · exact .inr (.inr (.inl ⟨hbeside hdraft ▸ hfile, rfl, hgone⟩))
    · exact .inr (.inr (.inr ⟨hbeside hplace ▸ hfile, rfl, hdone⟩))

/-- **A directory stays one.** -/
theorem directory (h : Overwritten t t' place draft out done) (hdir : t.entry? l = some .directory) :
    t'.entry? l = some .directory := by
  rcases h.entry l with hsame | ⟨hnone, -⟩ | ⟨hnot, -⟩ | ⟨hnot, -⟩
  · exact hsame.trans hdir
  · rw [hdir] at hnone
    cases hnone
  · exact absurd hdir hnot
  · exact absurd hdir hnot

/-- **A file that is no draft keeps its octets**, unless it is the one that
was written. -/
theorem kept (h : Overwritten t t' place draft out done) (hfile : t.entry? l = some (.file bytes))
    (hdraft : l ≠ draft) (hplace : done → l ≠ place) : t'.entry? l = some (.file bytes) := by
  rcases h.entry l with hsame | ⟨hnone, -⟩ | ⟨-, heq, -⟩ | ⟨-, heq, hdone⟩
  · exact hsame.trans hfile
  · rw [hfile] at hnone
    cases hnone
  · exact absurd heq hdraft
  · exact absurd heq (hplace hdone)

/-- No link comes up. -/
theorem linkFree (h : Overwritten t t' place draft out done) (hlinks : t.LinkFree loc) :
    t'.LinkFree loc := by
  intro l target hl hentry
  rcases h.entry l with hsame | ⟨-, hdir⟩ | ⟨-, -, hgone⟩ | ⟨-, rfl, hdone⟩
  · exact hlinks l target hl (hsame.symm.trans hentry)
  · rw [hdir] at hentry
    cases hentry
  · rw [hgone] at hentry
    cases hentry
  · rw [h.placed hdone] at hentry
    cases hentry

end Overwritten

/-! ## Writing beside, and as a whole -/

/-- **A file is drafted** over what stands there, unless that is a directory
or something is wrong with the path. -/
theorem Housed.write_over (h : t.Housed q init base above n)
    (hlink : ∀ target, t.entry? (base ++ (above ++ [n ++ ".enhancing"])) ≠ some (.link target))
    (out : Bytes) :
    (∃ fault, t.write (draftPath q) out = .error fault) ∨
      t.entry? (base ++ (above ++ [n ++ ".enhancing"])) ≠ some .directory ∧
        textFault? (draftPath q) = none ∧ isTooLong (n ++ ".enhancing") = false ∧
        t.write (draftPath q) out =
          .ok (t.put (base ++ (above ++ [n ++ ".enhancing"])) (.file out)) := by
  have hhoused : t.Housed (draftPath q) init base above (n ++ ".enhancing") :=
    ⟨h.tree, h.heads.draft hlink, h.directory, h.unblocked⟩
  rcases htext : textFault? (draftPath q) with _ | fault
  swap
  · refine .inl ⟨fault, ?_⟩
    rw [FileTree.write, resolve_eq, htext]
    rfl
  have hresolve := hhoused.resolve htext true
  rcases hshort : isTooLong (n ++ ".enhancing") with _ | _
  swap
  · refine .inl ⟨.nameTooLong, ?_⟩
    rw [hshort, if_pos rfl] at hresolve
    rw [FileTree.write, hresolve]
    rfl
  rw [hshort, if_neg Bool.false_ne_true] at hresolve
  by_cases hdir : t.entry? (base ++ (above ++ [n ++ ".enhancing"])) = some .directory
  · refine .inl ⟨.isDirectory, ?_⟩
    simp only [FileTree.write, hresolve, bind, Except.bind, hdir]
  · refine .inr ⟨hdir, rfl, rfl, ?_⟩
    simp only [FileTree.write, hresolve, bind, Except.bind]

/-- **A file is written beside its place**, over what was drafted there
before, and moved over it, or something goes wrong. -/
theorem Housed.overwritten (h : t.Housed q init base above n)
    (hlink : ∀ target, t.entry? (base ++ (above ++ [n ++ ".enhancing"])) ≠ some (.link target))
    (out : Bytes) :
    ∃ t' r, t.writeBeside q out = (t', r) ∧
      Overwritten t t' (base ++ (above ++ [n])) (base ++ (above ++ [n ++ ".enhancing"])) out
        (r = .ok ()) ∧ (r = .ok () → textFault? q = none ∧ isTooLong n = false) := by
  rcases h.write_over hlink out with ⟨fault, hwrite⟩ | ⟨hdir, htext, hshort, hwrite⟩
  · refine ⟨t, .error fault, ?_, .refl h.tree nofun, nofun⟩
    rw [FileTree.writeBeside, hwrite]
  -- the tree with the draft has grown, and is one still
  obtain ⟨htree, hgrown, herased, hentries⟩ := h.tree.draftedOver out h.directory (isName_draft h.isName)
    (by rwa [List.append_assoc]) fun target => by rw [List.append_assoc]; exact hlink target
  rw [List.append_assoc] at htree hgrown herased hentries
  have hplace : FileTree.entry? (t.put (base ++ (above ++ [n ++ ".enhancing"])) (.file out))
      (base ++ (above ++ [n])) = t.entry? (base ++ (above ++ [n])) := by
    rw [entry?_put (by simp), if_neg (ClassRoot.draft_ne base above n)]
  have hdrafted := (⟨h.tree, h.heads.draft hlink, h.directory, h.unblocked⟩ :
    t.Housed (draftPath q) init base above (n ++ ".enhancing")).grown htree hgrown
  obtain ⟨hremove, hmove⟩ := (h.grown htree hgrown).move_or_remove hdrafted htext hshort
    (by rw [entry?_put (by simp), if_pos rfl])
  rw [hplace] at hmove
  -- the tree without it
  obtain ⟨t₂, ht₂⟩ : ∃ t₂, (t.put (base ++ (above ++ [n ++ ".enhancing"])) (.file out)).erase
    (base ++ (above ++ [n ++ ".enhancing"])) = t₂ := ⟨_, rfl⟩
  have hhome : t₂.home = t.home := by
    rw [← ht₂]
    rfl
  rw [ht₂] at herased hremove hmove
  simp only [ht₂] at hentries
  by_cases hover : t.entry? (base ++ (above ++ [n])) = some .directory
  · -- the move fails, and what was drafted is removed
    refine ⟨t₂, .error .isDirectory, ?_, ⟨hhome, herased, by simp, fun l => ?_⟩, by simp⟩
    · simp only [FileTree.writeBeside, hwrite, hmove, if_pos hover, hremove]
    · rw [hentries]
      split
      · next hl => exact .inr (.inr (.inl ⟨hl ▸ hdir, hl, rfl⟩))
      · exact .inl rfl
  have hwithin : t₂.entry? (base ++ above) = some .directory := by
    rw [hentries, if_neg, h.directory]
    intro heq
    have hlen := congrArg List.length heq
    simp at hlen
  have hput := herased.put (e := .file out) hwithin h.isName (by
    rw [List.append_assoc, hentries, if_neg (ClassRoot.draft_ne base above n)]
    exact hover)
  rw [List.append_assoc] at hput
  refine ⟨t₂.put (base ++ (above ++ [n])) (.file out), .ok (), ?_,
    ⟨hhome, hput, fun _ => ?_, fun l => ?_⟩, fun _ => ⟨?_, isTooLong_draft hshort⟩⟩
  · simp only [FileTree.writeBeside, hwrite, hmove, if_neg hover]
  · rw [entry?_put (by simp), if_pos rfl]
  · rw [entry?_put (by simp), hentries]
    split
    · next hl => exact .inr (.inr (.inr ⟨hl ▸ hover, hl, rfl⟩))
    · split
      · next hl => exact .inr (.inr (.inl ⟨hl ▸ hdir, hl, rfl⟩))
      · exact .inl rfl
  · exact textFault?_beginning h.heads.spells.text_ne_empty (text_draftPath q) htext

/-- **An output is written as a whole**, or something goes wrong. -/
theorem Heads.overwritten (htree : t.IsTree) (h : t.Heads q init base (above ++ [n]))
    (hlink : ∀ target, t.entry? (base ++ (above ++ [n ++ ".enhancing"])) ≠ some (.link target))
    (out : Bytes) :
    ∃ t' r, t.writeWhole q out = (t', r) ∧
      Overwritten t t' (base ++ (above ++ [n])) (base ++ (above ++ [n ++ ".enhancing"])) out
        (r = .ok ()) ∧
      (r = .ok () → textFault? q = none ∧ ∀ m ∈ above ++ [n], isTooLong m = false) := by
  obtain ⟨t₁, hparents, hcleared⟩ := h.makeParents htree
  have hopen : ∀ l ∈ (if parentFault? q = none then t.cleared base above else []),
      t.isOpen l = true := by
    intro l hl
    split at hl
    · exact isOpen_of_mem_cleared hl
    · cases hl
  have hnot : ∀ m, base ++ (above ++ [m]) ∉
      (if parentFault? q = none then t.cleared base above else []) := by
    intro m hm
    split at hm
    · exact not_mem_cleared hm
    · cases hm
  rcases hfault : (parentFault? q).or (t.blocked? base above) with _ | fault
  swap
  · rw [hfault] at hparents
    refine ⟨t₁, .error fault, ?_, (Overwritten.refl hcleared.tree nofun).behind hcleared hopen
      (hnot _) (hnot _), nofun⟩
    rw [FileTree.writeWhole, hparents]
    rfl
  rw [hfault] at hparents
  obtain ⟨hparent, hblocked⟩ := Option.or_eq_none_iff.1 hfault
  rw [if_pos hparent] at hcleared hopen hnot
  have hclears := hcleared.clears hopen
  have hhoused : t₁.Housed q init base above n := h.housed hcleared.tree hclears.grown
    (by rw [(hclears.sparesWay _).clearing.1, hblocked]) fun l hl => by
      rw [(hclears.sparesWay _).clearing.2] at hl
      rw [hcleared.entry, if_pos hl]
  obtain ⟨t', r, hwrite, hover, hok⟩ := hhoused.overwritten
    (fun target => by
      rw [hcleared.entry, if_neg (hnot _)]
      exact hlink target) out
  refine ⟨t', r, ?_, hover.behind hcleared hopen (hnot _) (hnot _), fun hr => ?_⟩
  · rw [← hwrite, FileTree.writeWhole, hparents, FileTree.writeBeside]
    rfl
  · obtain ⟨htext, hshort⟩ := hok hr
    rw [List.forall_mem_append, List.forall_mem_singleton]
    exact ⟨htext, (of_blocked?_eq_none hblocked).1, hshort⟩

end FileTree

end ClassWeave
