import ClassWeave.Proofs.Files.Beside
/-!
# Commit -- all or nothing

A commit leaves the files as they were or puts the whole output in its place
(`ClassUnit.Atomic`), as long as nothing stands where the octets are written
first. A path that leads nowhere can come to lead to something once its
directories are made, if it steps up again behind one that is missing, and that
is the one way for a commit to harm a file that is not its own
(`ClassUnit.commit_atomic_iff`).
-/


namespace ClassWeave

namespace ClassUnit

open FileTree (Widened SameShape bare draftPath)

variable {u : ClassUnit} {t t' : FileTree} {e : PersistenceError} {bytes : Bytes}
  {answer : Except PersistenceError (Option CommitReceipt)}

/-- **A commit that is all or nothing**, from one tree to another. A receipt is
given for the output that is there, and an error for one that is as it was;
nothing is left of the draft. Every entry is as it was, or is a directory that
the output is in and that was missing, or the output that there is a receipt
for. -/
structure Atomic (u : ClassUnit) (t t' : FileTree)
    (answer : Except PersistenceError (Option CommitReceipt)) : Prop where
  none : answer = .ok none → t' = t
  receipt : ∀ r, answer = .ok (some r) → ∃ bytes, u.output? = some bytes ∧
    t'.read u.location.output = .ok bytes ∧
      r = ⟨u.location.output, bytes.length, Bytes.sha256Hex bytes⟩
  refused : ∀ e, answer = .error e → ∀ entry, t.stat u.location.output = .ok entry →
    t'.stat u.location.output = .ok entry
  draft : t'.reaches (draftPath u.location.output) = false
  frame : ∀ l, t'.entry? l = t.entry? l ∨
    (t.entry? l = .none ∧ t'.entry? l = some .directory ∧ ∃ a,
      Relation.TransGen Path.Ascends u.location.output a ∧ t'.resolve false (bare a) = .ok l) ∨
    ∃ r bytes, answer = .ok (some r) ∧ u.output? = some bytes ∧
      t'.resolve true u.location.output = .ok l ∧ t'.entry? l = some (.file bytes)

/-- A commit that only made directories before it failed is. -/
theorem Atomic.of_widened
    (h : Widened (Relation.TransGen Path.Ascends u.location.output) t t')
    (hdraft : t'.reaches (draftPath u.location.output) = false) : Atomic u t t' (.error e) where
  none := nofun
  receipt := nofun
  refused _ _ _ := h.stat
  draft := hdraft
  frame l := (h.entry l).imp id .inl

/-- A tree as it is without what was written beside, if nothing stood there. -/
theorem sameShape_taken {loc : Location} (hlinks : t.LinkFree []) (bytes : Bytes)
    (hloc : loc ≠ []) (hdir : t.entry? loc ≠ some .directory) :
    SameShape t ((t.put loc (.file bytes)).erase loc) ∧
      ∀ l, FileTree.entry? ((t.put loc (.file bytes)).erase loc) l =
        if l = loc then .none else t.entry? l := by
  have hput : SameShape t (t.put loc (.file bytes)) :=
    FileTree.sameShape_put hloc hdir fun target => hlinks loc target List.nil_prefix
  have hthere : FileTree.entry? (t.put loc (.file bytes)) loc = some (.file bytes) := by
    rw [FileTree.entry?_put hloc, if_pos rfl]
  refine ⟨hput.trans (FileTree.sameShape_erase hloc (by rw [hthere]; nofun)
    fun target => by rw [hthere]; nofun), fun l => ?_⟩
  rw [FileTree.entry?_erase hloc, FileTree.entry?_put hloc]
  split <;> rfl

/-- A commit goes to the directories of the output, and then to the output. -/
theorem commit_eq (hout : u.output? = some bytes) (t : FileTree) :
    u.commit t = match t.makeParents u.location.output with
      | (t₁, .error fault) => (t₁, .error ⟨u.name, u.location.output, fault⟩)
      | (t₁, .ok ()) =>
        match t₁.writeBeside u.location.output bytes with
        | (t', .error fault) => (t', .error ⟨u.name, u.location.output, fault⟩)
        | (t', .ok ()) =>
          (t', .ok (some ⟨u.location.output, bytes.length, Bytes.sha256Hex bytes⟩)) := by
  rw [commit, hout]
  dsimp only
  rw [FileTree.writeWhole]
  rcases t.makeParents u.location.output with ⟨t₁, fault | ⟨⟩⟩
  · rfl
  · unfold FileTree.writeBeside
    rfl

/-- **A commit is all or nothing**, if nothing stands at its draft once the
directories of the output are made. -/
theorem atomic_commit (hlinks : t.LinkFree []) (hout : u.output? = some bytes)
    (hvacant : (t.makeParents u.location.output).1.reaches (draftPath u.location.output) = false) :
    Atomic u t (u.commit t).1 (u.commit t).2 := by
  have hwidened := FileTree.widened_makeParents (t := t) (p := u.location.output)
  rw [commit_eq hout]
  rcases hparents : t.makeParents u.location.output with ⟨t₁, fault | ⟨⟩⟩
  · rw [hparents] at hwidened hvacant
    exact .of_widened hwidened hvacant
  rw [hparents] at hwidened hvacant
  dsimp only at hwidened hvacant ⊢
  have hlinks₁ := hlinks.grown hwidened.grown
  rcases FileTree.writeBeside_cases hlinks₁ u.location.output bytes with
    ⟨fault, hwrite, -⟩ | ⟨loc, hne, hloc, hdir, hcases⟩
  · rw [hwrite]
    exact .of_widened hwidened hvacant
  -- nothing stood at the draft, so without it all is as it was
  obtain ⟨hshape, hentries⟩ := sameShape_taken hlinks₁ bytes hne hdir
  have hnone := FileTree.entry?_of_not_reaches hvacant hloc
  have htaken : ∀ l, FileTree.entry? ((t₁.put loc (.file bytes)).erase loc) l = t₁.entry? l := by
    intro l
    rw [hentries]
    split
    · next hl => rw [hl, hnone]
    · rfl
  have hwidened' := hwidened.congr hshape.home htaken
  have hreaches : FileTree.reaches ((t₁.put loc (.file bytes)).erase loc)
      (draftPath u.location.output) = false := by
    refine FileTree.not_reaches_of_vacant hshape fun r hr => ?_
    rw [htaken, FileTree.entry?_of_not_reaches hvacant hr]
  rcases hcases with ⟨fault, hwrite⟩ | ⟨place, hplaceNe, hother, hplace, hover, hwrite⟩
  · rw [hwrite]
    exact .of_widened hwidened' hreaches
  rw [hwrite]
  have hover' : FileTree.entry? ((t₁.put loc (.file bytes)).erase loc) place ≠ some .directory := by
    rwa [htaken]
  have hshape' : SameShape _ (((t₁.put loc (.file bytes)).erase loc).put place (.file bytes)) :=
    FileTree.sameShape_put hplaceNe hover' fun target =>
      hlinks₁.grown hshape.grown place target List.nil_prefix
  have hplace' := FileTree.resolve_grown (hshape.trans hshape').grown hplace
  have hthere : FileTree.entry? (((t₁.put loc (.file bytes)).erase loc).put place (.file bytes))
      place = some (.file bytes) := by
    rw [FileTree.entry?_put hplaceNe, if_pos rfl]
  exact
    { none := nofun
      receipt := by
        rintro _ ⟨⟩
        exact ⟨bytes, hout, FileTree.read_eq_ok.2 ⟨place, hplace', hthere⟩, rfl⟩
      refused := nofun
      draft := by
        refine FileTree.not_reaches_of_vacant (hshape.trans hshape') fun r hr => ?_
        have hr : r = loc := Except.ok.inj (hr.symm.trans hloc)
        rw [FileTree.entry?_put hplaceNe, if_neg (hr ▸ hother.symm), htaken, hr, hnone]
      frame := by
        intro l
        rw [FileTree.entry?_put hplaceNe]
        split
        · next hl => exact .inr (.inr ⟨_, bytes, rfl, hout, hl ▸ hplace', rfl⟩)
        · rcases hwidened'.entry l with hsame | ⟨hnone, hdir, a, ha, hled⟩
          · exact .inl hsame
          · exact .inr (.inl ⟨hnone, hdir, a, ha, FileTree.resolve_grown hshape'.grown hled⟩) }

/-- What stands at the draft once the directories are made is harmed. -/
theorem not_atomic_commit (hlinks : t.LinkFree []) (hout : u.output? = some bytes)
    (hthere : (t.makeParents u.location.output).1.reaches (draftPath u.location.output) = true) :
    ¬ Atomic u t (u.commit t).1 (u.commit t).2 := by
  have hwidened := FileTree.widened_makeParents (t := t) (p := u.location.output)
  intro hatomic
  rcases hparents : t.makeParents u.location.output with ⟨t₁, fault | ⟨⟩⟩
  · have htree : (u.commit t).1 = t₁ := by rw [commit_eq hout, hparents]
    rw [hparents, ← htree, hatomic.draft] at hthere
    cases hthere
  rw [hparents] at hwidened hthere
  dsimp only at hwidened hthere
  have htree : (u.commit t).1 = (t₁.writeBeside u.location.output bytes).1 := by
    rw [commit_eq hout, hparents]
    dsimp only
    rcases t₁.writeBeside u.location.output bytes with ⟨t', fault | ⟨⟩⟩ <;> rfl
  have hlinks₁ := hlinks.grown hwidened.grown
  rcases FileTree.writeBeside_cases hlinks₁ u.location.output bytes with
    ⟨fault, hwrite, -⟩ | ⟨loc, hne, hloc, hdir, hcases⟩
  · rw [hwrite] at htree
    dsimp only at htree
    rw [← htree, hatomic.draft] at hthere
    cases hthere
  -- a file stood at the draft before anything was made, and it is gone
  obtain ⟨r, e, hr, hentry⟩ := FileTree.reaches_iff.1 hthere
  rw [hloc] at hr
  obtain rfl := Except.ok.inj hr
  have hstood := hwidened.entry_of_ne hentry fun he => hdir (he ▸ hentry)
  have hgone : FileTree.entry? (u.commit t).1 loc = .none := by
    obtain ⟨-, hentries⟩ := sameShape_taken hlinks₁ bytes hne hdir
    rw [htree]
    rcases hcases with ⟨fault, hwrite⟩ | ⟨place, hplaceNe, hother, -, -, hwrite⟩
    · rw [hwrite, hentries, if_pos rfl]
    · rw [hwrite, FileTree.entry?_put hplaceNe, if_neg hother.symm, hentries, if_pos rfl]
  rcases hatomic.frame loc with hsame | ⟨hnone, -⟩ | ⟨_, _, -, -, -, hfile⟩
  · rw [hgone, hstood] at hsame
    cases hsame
  · rw [hstood] at hnone
    cases hnone
  · rw [hgone] at hfile
    cases hfile

/-- **A commit is all or nothing.** A unit that is not enhanced, or has no
enhanced octets, changes nothing and has no receipt. In a tree without links,
with nothing at the draft of the output, every other commit is all or nothing
exactly if nothing is there either once the directories of the output are
made. -/
theorem commit_atomic_iff (u : ClassUnit) (t : FileTree) :
    (¬ (u.state = .enhanced ∧ ∃ bytes, bytes ≠ [] ∧ u.enhanced = some bytes) →
        u.commit t = (t, .ok .none)) ∧
      (t.LinkFree [] → t.reaches (draftPath u.location.output) = false →
        (Atomic u t (u.commit t).1 (u.commit t).2 ↔ u.output? = .none ∨
          (t.makeParents u.location.output).1.reaches (draftPath u.location.output) = false)) := by
  have hidle : u.output? = .none → u.commit t = (t, .ok .none) := by
    intro hnone
    rw [commit, hnone]
  refine ⟨fun hnot => hidle ?_, fun hlinks hvacant => ?_⟩
  · rw [output?]
    split
    · next hstate =>
      rcases henhanced : u.enhanced with _ | bytes
      · rfl
      · have hbytes : bytes = [] := by
          by_contra hne
          exact hnot ⟨hstate, bytes, hne, henhanced⟩
        rw [hbytes]
        rfl
    · rfl
  rcases hout : u.output? with _ | bytes
  · rw [hidle hout, iff_true_right (.inl rfl)]
    exact ⟨fun _ => rfl, nofun, nofun, hvacant, fun _ => .inl rfl⟩
  · rw [or_iff_right (Option.some_ne_none _)]
    constructor
    · intro hatomic
      by_contra hthere
      rw [Bool.not_eq_false] at hthere
      exact not_atomic_commit hlinks hout hthere hatomic
    · exact atomic_commit hlinks hout

/-- An enhanced unit with two octets and an output. -/
def enhancedUnit (output : Path) : ClassUnit where
  name := "A"
  location := ⟨⟨"A.class"⟩, output⟩
  compiled := [7]
  state := .enhanced
  enhanced := some [8, 9]
  skipReason := none
  failure := none

/-- Files with a directory, and in it one that is named as a draft would be. -/
def draftedFiles : FileTree where
  home := []
  entries := [(["out"], .directory), (["out", "A.class.enhancing"], .file [1])]

/-- A commit to a directory that is missing makes it, puts the output there and
lets the other file be. One of a unit that was skipped does nothing. -/
theorem commit_atomic_iff_missing :
    let u := enhancedUnit ⟨"out/new/A.class"⟩
    ({ u with state := .skipped } : ClassUnit).commit draftedFiles = (draftedFiles, .ok .none) ∧
      draftedFiles.LinkFree [] ∧ draftedFiles.reaches (draftPath u.location.output) = false ∧
      Atomic u draftedFiles (u.commit draftedFiles).1 (u.commit draftedFiles).2 ∧
        FileTree.entry? (u.commit draftedFiles).1 ["out", "new", "A.class"] = some (.file [8, 9]) := by
  intro u
  have hlinks : draftedFiles.LinkFree [] := .of_listed (by decide)
  obtain ⟨hvacant, hafter, hthere⟩ :
      draftedFiles.reaches (draftPath u.location.output) = false ∧
        (draftedFiles.makeParents u.location.output).1.reaches (draftPath u.location.output) =
          false ∧
        FileTree.entry? (u.commit draftedFiles).1 ["out", "new", "A.class"] = some (.file [8, 9]) := by
    decide +kernel
  exact ⟨(commit_atomic_iff { u with state := .skipped } draftedFiles).1 nofun, hlinks, hvacant,
    ((commit_atomic_iff u draftedFiles).2 hlinks hvacant).2 (.inr hafter), hthere⟩

/-- One to a path that steps up behind a missing directory takes the other file
away, though nothing was at its draft. -/
theorem commit_over_draft :
    let u := enhancedUnit ⟨"new/../out/A.class"⟩
    draftedFiles.LinkFree [] ∧ draftedFiles.reaches (draftPath u.location.output) = false ∧
      (u.commit draftedFiles).2.isOk = true ∧
        draftedFiles.entry? ["out", "A.class.enhancing"] = some (.file [1]) ∧
          FileTree.entry? (u.commit draftedFiles).1 ["out", "A.class.enhancing"] = .none := by
  intro u
  refine ⟨.of_listed (by decide), ?_⟩
  decide +kernel

end ClassUnit

end ClassWeave
