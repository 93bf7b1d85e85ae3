import ClassWeave.Proofs.Files.Descent
import ClassWeave.Proofs.Files.Steps
/-!
# Files -- making the directories of an output

Directories are made from the path of the innermost one: where something on
the way is missing, the path's parent comes first. What that comes to is
what making them from the outside in would: those that can be made are there
then, nothing else has changed (`FileTree.Cleared`), and it fails with what
is in the way.

That is so whatever others do to the files in between, as long as they spare
the way (`FileTree.SparesWay`): a directory may come up before it is made,
but what is in the way stays there (`Heads.directoriesJob`).
-/


namespace ClassWeave

namespace FileTree

variable {t t' t'' s : FileTree} {p q : Path} {init : List (List Char)} {base l loc : Location}
  {names above : List String} {n : String} {locs locs' : List Location} {fault : Fault}
  {made : Except Fault Unit}

/-! ## What spares a way -/

/-- **What spares the way to a location**: the tree stays one and grows, and
the way stays as open as it was. -/
structure SparesWay (loc : Location) (t t' : FileTree) : Prop where
  tree : t.IsTree → t'.IsTree
  grown : Grown t t'
  isOpen : ∀ l, l <+: loc → t'.isOpen l = t.isOpen l

theorem composes_sparesWay (loc : Location) : Job.Composes (SparesWay loc) where
  refl t := ⟨id, (SameShape.refl t).grown, fun _ _ => rfl⟩
  trans h h' := ⟨h'.tree ∘ h.tree, h.grown.trans h'.grown, fun l hl =>
    (h'.isOpen l hl).trans (h.isOpen l hl)⟩

theorem SparesWay.of_prefix (h : SparesWay loc t t') (hl : l <+: loc) : SparesWay l t t' :=
  ⟨h.tree, h.grown, fun _ hl' => h.isOpen _ (hl'.trans hl)⟩

theorem SparesWay.clearing (h : SparesWay (base ++ names) t t') :
    t'.blocked? base names = t.blocked? base names ∧ t'.cleared base names = t.cleared base names :=
  clearing_congr fun _ hbelow _ => h.isOpen _ ((List.prefix_append_right_inj base).2 hbelow)

/-- **Directories come up at some of the locations**, where nothing stood, and
nothing else is changed. -/
structure Clears (locs : List Location) (t t' : FileTree) : Prop where
  home : t'.home = t.home
  tree : t.IsTree → t'.IsTree
  entry : ∀ l, t'.entry? l = t.entry? l ∨
    l ∈ locs ∧ t.entry? l = none ∧ t'.entry? l = some .directory

namespace Clears

theorem refl (locs : List Location) (t : FileTree) : Clears locs t t := ⟨rfl, id, fun _ => .inl rfl⟩

theorem mono (h : Clears locs t t') (hlocs : locs ⊆ locs') : Clears locs' t t' :=
  ⟨h.home, h.tree, fun l => (h.entry l).imp_right (And.imp_left (@hlocs l))⟩

/-- A tree grows as directories come up. -/
theorem grown (h : Clears locs t t') : Grown t t' where
  home := h.home
  directory l hdir := by
    rcases h.entry l with hsame | ⟨-, -, hdir'⟩
    · rw [hsame, hdir]
    · exact hdir'
  link l target := by
    rcases h.entry l with hsame | ⟨-, hnone, hdir⟩
    · rw [hsame]
    · simp [hnone, hdir]

theorem isOpen (h : Clears locs t t') (l : Location) : t'.isOpen l = t.isOpen l := by
  rcases h.entry l with hsame | ⟨-, hnone, hdir⟩
  · rw [FileTree.isOpen, FileTree.isOpen, hsame]
  · rw [isOpen_iff.2 (.inl hnone), isOpen_iff.2 (.inr hdir)]

theorem sparesWay (h : Clears locs t t') (loc : Location) : SparesWay loc t t' :=
  ⟨h.tree, h.grown, fun l _ => h.isOpen l⟩

end Clears

theorem composes_clears (locs : List Location) : Job.Composes (Clears locs) where
  refl := .refl locs
  trans {t t' t''} h h' := by
    refine ⟨h'.home.trans h.home, h'.tree ∘ h.tree, fun l => ?_⟩
    rcases h'.entry l with hsame' | ⟨hl, hnone, hdir⟩
    · rw [hsame']
      exact h.entry l
    · rcases h.entry l with hsame | ⟨-, -, hdir'⟩
      · exact .inr ⟨hl, hsame ▸ hnone, hdir⟩
      · rw [hdir'] at hnone
        cases hnone

/-- **A tree with some locations cleared**: a directory stands at each of
them, and everything else is as it was. -/
structure Cleared (t : FileTree) (locs : List Location) (t' : FileTree) : Prop where
  home : t'.home = t.home
  tree : t'.IsTree
  entry : ∀ l, t'.entry? l = if l ∈ locs then some .directory else t.entry? l

/-- What is open is cleared by directories that come up there. -/
theorem Cleared.clears (h : Cleared t locs t') (hopen : ∀ l ∈ locs, t.isOpen l = true) :
    Clears locs t t' := by
  refine ⟨h.home, fun _ => h.tree, fun l => ?_⟩
  rw [h.entry]
  split
  · next hl =>
    rcases isOpen_iff.1 (hopen l hl) with hnone | hdir
    · exact .inr ⟨hl, hnone, rfl⟩
    · exact .inl hdir.symm
  · exact .inl rfl

theorem Clears.cleared (h : Clears locs t t') (htree : t.IsTree)
    (hdirs : ∀ l ∈ locs, t'.entry? l = some .directory) : Cleared t locs t' := by
  refine ⟨h.home, h.tree htree, fun l => ?_⟩
  split
  · next hl => exact hdirs l hl
  · next hl => exact (h.entry l).resolve_right fun hcleared => hl hcleared.1

/-! ## A directory -/

/-- How something ends that fails with a fault, if there is one. -/
def outcomeOf : Option Fault → Except Fault Unit
  | some fault => .error fault
  | none => .ok ()

namespace Heads

/-- **The parent of a path that heads for an entry** heads for the directory
that the entry is in. -/
theorem parent (h : t.Heads q init base (above ++ [n])) (hne : above ≠ []) :
    ∃ p, q.parent? = some p ∧ t.Heads p init base above ∧ p.text.toList <+: q.text.toList := by
  obtain ⟨p, hp, hspells, hbefore⟩ := h.spells.parent hne
  refine ⟨p, hp, ⟨hspells, ?_, h.directory, fun below hbelow => h.linkless below
    (hbelow.trans (List.prefix_append _ _))⟩, hbefore⟩
  rw [startOf_beginning hspells.text_ne_empty hbefore]
  exact h.leads

/-- What is cleared is there already, where the last directory is. -/
theorem cleared_there (htree : t.IsTree) (hdir : t.entry? (base ++ names) = some .directory) :
    ∀ l ∈ t.cleared base names, t.entry? l = some .directory := by
  intro l hl
  obtain ⟨below, ⟨rest, hrest⟩, -, rfl, -⟩ := of_mem_cleared hl
  rcases eq_or_ne rest [] with rfl | hne
  · rw [List.append_nil] at hrest
    rwa [hrest]
  · exact (htree.of_isSome (by rw [hdir]; rfl)).2 below rest hrest.symm hne

/-- **A path leads to a directory** where one is and nothing is in the way. -/
theorem isDirectory_iff (htree : t.IsTree) (h : t.Heads q init base names)
    (htext : textFault? q = none) :
    t.isDirectory q = true ↔
      t.blocked? base names = none ∧ t.entry? (base ++ names) = some .directory := by
  have hdescend : t.isDirectory q = true ↔ ∃ loc, t.descend base names = .ok loc ∧
      t.entry? loc = some .directory := by
    rw [FileTree.isDirectory, stat, h.resolve, htext]
    rcases t.descend base names with fault | loc
    · simp [bind, Except.bind]
    · rcases hentry : t.entry? loc with _ | bytes | _ | target <;> simp [bind, Except.bind, hentry]
  rw [hdescend]
  constructor
  · rintro ⟨loc, hloc, hdir⟩
    obtain ⟨rfl, hshort, hway⟩ := descend_ok.1 hloc
    refine ⟨blocked?_eq_none hshort ?_, hdir⟩
    rintro below ⟨rest, hrest⟩ -
    refine isOpen_iff.2 (.inr ?_)
    rcases eq_or_ne rest [] with rfl | hne
    · rw [List.append_nil] at hrest
      rwa [hrest]
    · exact hway below rest hrest.symm hne
  · rintro ⟨hblocked, hdir⟩
    exact ⟨_, descend_ok.2 ⟨rfl, (of_blocked?_eq_none hblocked).1,
      (htree.of_isSome (by rw [hdir]; rfl)).2⟩, hdir⟩

/-- **What making a directory comes to**: something in front of it is missing,
and only a long name can be in the way there; or it is made; or it is there;
or something is in the way of it, and the directories in front of that are
there. -/
theorem makeDirectory_cases (htree : t.IsTree) (h : t.Heads q init base (above ++ [n]))
    (htext : textFault? q = none) :
    (t.entry? (base ++ above) = none ∧
        (∀ fault, t.blocked? base above = some fault → fault = .nameTooLong) ∧
        t.makeDirectory q = .error .missing) ∨
      (t.blocked? base (above ++ [n]) = none ∧ t.entry? (base ++ above) = some .directory ∧
        t.entry? (base ++ (above ++ [n])) = none ∧
        t.makeDirectory q = .ok (t.put (base ++ (above ++ [n])) .directory)) ∨
      (t.blocked? base (above ++ [n]) = none ∧
        t.entry? (base ++ (above ++ [n])) = some .directory ∧
        t.makeDirectory q = .error .present) ∨
      ∃ fault, fault ≠ .missing ∧ t.blocked? base (above ++ [n]) = some fault ∧
        (∀ l ∈ t.cleared base (above ++ [n]), t.entry? l = some .directory) ∧
        t.makeDirectory q = .error fault := by
  have hmake : t.makeDirectory q = (t.descend base (above ++ [n])).bind fun loc =>
      if (t.entry? loc).isSome then .error .present else .ok (t.put loc .directory) := by
    rw [makeDirectory, bare_of_not_slash h.spells.not_slash, h.resolve, htext]
    rcases t.descend base (above ++ [n]) with fault | loc
    · rfl
    · rcases hentry : t.entry? loc with _ | e <;> simp [bind, Except.bind, hentry]
  have hcleared : ∀ {fault}, t.blocked? base (above ++ [n]) = some fault →
      t.cleared base (above ++ [n]) = t.cleared base above := fun hfault => by
    rw [cleared_concat, hfault, if_neg (Option.some_ne_none _), List.append_nil]
  rcases htree.descend_cases h.directory above n with
    ⟨hdir, hblocked, hdescend⟩ | ⟨hnone, hlong, hdescend⟩ | ⟨fault, hblocked, hne, hthere, hdescend⟩
  · have hlast : t.blocked? base (above ++ [n]) = if isTooLong n then some .nameTooLong
        else if t.isOpen (base ++ (above ++ [n])) then none else some .present := by
      rw [blocked?_concat, hblocked]
    rw [hdescend] at hmake
    by_cases hlong : isTooLong n = true
    · rw [if_pos hlong] at hmake hlast
      refine .inr (.inr (.inr ⟨.nameTooLong, by decide, hlast, ?_, hmake⟩))
      rw [hcleared hlast]
      exact cleared_there htree hdir
    rw [if_neg hlong] at hmake hlast
    rcases hentry : t.entry? (base ++ (above ++ [n])) with _ | bytes | _ | target
    · simp only [hentry, isOpen, if_true, Except.bind] at hmake hlast
      exact .inr (.inl ⟨hlast, hdir, rfl, hmake⟩)
    · simp only [hentry, isOpen, Bool.false_eq_true, if_false, Except.bind] at hmake hlast
      refine .inr (.inr (.inr ⟨.present, by decide, hlast, ?_, hmake⟩))
      rw [hcleared hlast]
      exact cleared_there htree hdir
    · simp only [hentry, isOpen, if_true, Except.bind] at hmake hlast
      exact .inr (.inr (.inl ⟨hlast, rfl, hmake⟩))
    · exact absurd hentry (h.linkless _ List.prefix_rfl target)
  · rw [hdescend] at hmake
    exact .inl ⟨hnone, hlong, hmake⟩
  · have hlast : t.blocked? base (above ++ [n]) = some (onward fault) := by
      rw [blocked?_concat, hblocked]
    rw [hdescend] at hmake
    refine .inr (.inr (.inr ⟨_, hne, hlast, ?_, hmake⟩))
    rw [hcleared hlast]
    exact hthere

end Heads

/-! ## One directory after another -/

/-- **What has come of making directories**: those that can be made are there,
and it failed with what is in the way. -/
structure Passed (t : FileTree) (base : Location) (names : List String) (made : Except Fault Unit)
    (t' : FileTree) : Prop where
  made : made = outcomeOf (t.blocked? base names)
  there : ∀ l ∈ t.cleared base names, t'.entry? l = some .directory

/-- **What has come of trying to make a directory**: it is there now, whoever
made it, or something is in the way, and the directories in front of that
are there. -/
inductive Tried (t : FileTree) (base : Location) (names : List String) (made : Except Fault Unit)
    (t' : FileTree) : Prop
  | there : t.blocked? base names = none → t'.entry? (base ++ names) = some .directory →
    Tried t base names made t'
  | fault (fault : Fault) : made = .error fault → t.blocked? base names = some fault →
    (∀ l ∈ t.cleared base names, t'.entry? l = some .directory) → Tried t base names made t'

theorem Tried.grown (h : Tried t base names made s) (hgrown : Grown s t') :
    Tried t base names made t' := by
  cases h with
  | there hblocked hdir => exact .there hblocked (hgrown.directory _ hdir)
  | fault fault hmade hblocked hdirs =>
    exact .fault fault hmade hblocked fun l hl => hgrown.directory l (hdirs l hl)

/-- A directory comes up where nothing stood, in one that is there. -/
theorem clears_put (htree : t.IsTree) (hn : Path.IsName n)
    (hdir : t.entry? (base ++ above) = some .directory)
    (hnone : t.entry? (base ++ (above ++ [n])) = none) (hmem : base ++ (above ++ [n]) ∈ locs) :
    Clears locs t (t.put (base ++ (above ++ [n])) .directory) := by
  refine ⟨rfl, fun _ => ?_, fun l => ?_⟩
  · rw [← List.append_assoc] at hnone ⊢
    exact htree.put hdir hn (by rw [hnone]; nofun)
  · rw [entry?_put (by simp)]
    split
    · next hl =>
      rw [hl]
      exact .inr ⟨hmem, hnone, rfl⟩
    · exact .inl rfl

namespace Heads

/-- **A directory that was tried to make is looked for**, and found if it is
there. -/
theorem orThere (htree : t.IsTree) (h : t.Heads q init base names) (htext : textFault? q = none)
    (hs : SparesWay (base ++ names) t s) (htried : Tried t base names made s) :
    (FileTree.orThere q made).Promises (SparesWay (base ++ names)) (Clears locs)
      (Passed t base names) s := by
  -- whatever is found, it is as before when the others go on
  have hpass : ∀ {made'}, made' = outcomeOf (t.blocked? base names) → ∀ {s₁},
      SparesWay (base ++ names) s s₁ → Passed t base names made' s₁ := by
    rintro made' hmade' s₁ hs₁
    refine ⟨hmade', ?_⟩
    have hs₁' := (composes_sparesWay _).trans hs hs₁
    cases htried.grown hs₁.grown with
    | there _ hdir =>
      rw [← hs₁'.clearing.2]
      exact cleared_there (hs₁'.tree htree) hdir
    | fault _ _ _ hdirs => exact hdirs
  rcases made with fault | ⟨⟩
  · rw [orThere_error]
    refine Job.promises_once fun s' hs' => ⟨Clears.refl locs s', fun s'' hs'' => ?_⟩
    have hs₁ := (composes_sparesWay _).trans hs hs'
    have hisdir := (h.grown hs₁.grown).isDirectory_iff (hs₁.tree htree) htext
    rw [hs₁.clearing.1] at hisdir
    refine hpass ?_ ((composes_sparesWay _).trans hs' hs'')
    cases htried.grown hs'.grown with
    | there hblocked hdir => simp only [hisdir.2 ⟨hblocked, hdir⟩, hblocked, if_true, outcomeOf]
    | fault fault hmade hblocked _ =>
      have hnot : s'.isDirectory q ≠ true := fun hdir => by
        rw [(hisdir.1 hdir).1] at hblocked
        cases hblocked
      simp only [if_neg hnot, hblocked, outcomeOf, hmade]
  · refine Job.promises_pure fun s' hs' => hpass ?_ hs'
    cases htried with
    | there hblocked _ => rw [hblocked, outcomeOf]
    | fault _ hmade => cases hmade

theorem way_concat (base : Location) (above : List String) (n : String) :
    base ++ above <+: base ++ (above ++ [n]) :=
  (List.prefix_append_right_inj base).2 (List.prefix_append _ _)

/-- **A directory is tried to make**, which tells whether something in front of
it is missing. -/
theorem attempt (htree : t.IsTree) (h : t.Heads q init base (above ++ [n]))
    (htext : textFault? q = none) (hs : SparesWay (base ++ (above ++ [n])) t s) :
    (attempt fun t => t.makeDirectory q).Promises (SparesWay (base ++ (above ++ [n])))
      (Clears (t.cleared base (above ++ [n])))
      (fun made s' => SparesWay (base ++ (above ++ [n])) t s' ∧
        ((made = .error .missing ∧ s.entry? (base ++ above) ≠ some .directory ∧
            ∀ fault, t.blocked? base above = some fault → fault = .nameTooLong) ∨
          (made ≠ .error .missing ∧ Tried t base (above ++ [n]) made s'))) s := by
  refine promises_attempt fun s' hs' => ?_
  have hs₁ := (composes_sparesWay _).trans hs hs'
  have htree₁ := hs₁.tree htree
  have hcases := (h.grown hs₁.grown).makeDirectory_cases htree₁ htext
  obtain ⟨hblocked, hcleared⟩ := hs₁.clearing
  rw [hblocked, hcleared] at hcases
  rw [(hs₁.of_prefix (way_concat base above n)).clearing.1] at hcases
  rcases hcases with ⟨hnone, hlong, hmade⟩ | ⟨hfree, hdir, hnone, hmade⟩ | ⟨hfree, hdir, hmade⟩ |
    ⟨fault, hne, hfault, hdirs, hmade⟩
  · refine .inr ⟨_, hmade, .refl _ s', fun s'' hs'' =>
      ⟨(composes_sparesWay _).trans hs₁ hs'', .inl ⟨rfl, fun hdir => ?_, hlong⟩⟩⟩
    rw [hs'.grown.directory _ hdir] at hnone
    cases hnone
  · have hn := h.spells.isName n (List.mem_append_right _ List.mem_cons_self)
    have hput := clears_put htree₁ hn hdir hnone
      ((of_blocked?_eq_none hfree).2 _ List.prefix_rfl (by simp))
    refine .inl ⟨_, hmade, hput, fun s'' hs'' => ⟨(composes_sparesWay _).trans
      ((composes_sparesWay _).trans hs₁ (hput.sparesWay _)) hs'', .inr ⟨nofun, .there hfree ?_⟩⟩⟩
    exact hs''.grown.directory _ (by rw [entry?_put (by simp), if_pos rfl])
  · exact .inr ⟨_, hmade, .refl _ s', fun s'' hs'' => ⟨(composes_sparesWay _).trans hs₁ hs'',
      .inr ⟨nofun, .there hfree (hs''.grown.directory _ hdir)⟩⟩⟩
  · exact .inr ⟨_, hmade, .refl _ s', fun s'' hs'' => ⟨(composes_sparesWay _).trans hs₁ hs'',
      .inr ⟨fun heq => hne (Except.error.inj heq),
        .fault fault rfl hfault fun l hl => hs''.grown.directory l (hdirs l hl)⟩⟩⟩

/-- **Directories made from the innermost path up** are those that are
cleared, whatever others do that spares the way; and whatever the bound on
the ancestors is, if the names are within it. -/
theorem directoriesJob (htree : t.IsTree) (h : t.Heads q init base names)
    (htext : textFault? q = none) {k : Nat} (hk : names.length ≤ k)
    (hs : SparesWay (base ++ names) t s) :
    (FileTree.directoriesJob (Path.ancestors.go q k)).Promises (SparesWay (base ++ names))
      (Clears (t.cleared base names)) (Passed t base names) s := by
  -- on the names, from the last one up
  induction names using List.reverseRecOn generalizing q k s with
  | nil => exact absurd rfl h.spells.ne_nil
  | append_singleton above n ih =>
    obtain ⟨k, rfl⟩ : ∃ k', k = k' + 1 := ⟨k - 1, by
      rw [List.length_append, List.length_singleton] at hk
      omega⟩
    rw [List.length_append, List.length_singleton, Nat.add_le_add_iff_right] at hk
    rw [Path.ancestors.go, FileTree.directoriesJob, if_neg h.spells.text_ne_empty]
    refine (h.attempt htree htext hs).bind (composes_sparesWay _) fun made s₁ hmade => ?_
    obtain ⟨hs₁, ⟨rfl, hnot, hlong⟩ | ⟨hne, htried⟩⟩ := hmade
    swap
    · rcases made with fault | ⟨⟩
      · rcases fault <;> first | exact absurd rfl hne | exact h.orThere htree htext hs₁ htried
      · exact h.orThere htree htext hs₁ htried
    -- something is missing further up, and the parent comes first
    have habove : above ≠ [] := by
      rintro rfl
      rw [List.append_nil] at hnot
      exact hnot (hs.grown.directory _ h.directory)
    obtain ⟨p, hp, hheads, hbefore⟩ := h.parent habove
    have hway := way_concat base above n
    have hsub : t.cleared base above ⊆ t.cleared base (above ++ [n]) := by
      rw [cleared_concat]
      exact List.subset_append_left _ _
    have hparents : (FileTree.directoriesJob (Path.ancestors.go p k)).Promises
        (SparesWay (base ++ (above ++ [n]))) (Clears (t.cleared base (above ++ [n])))
        (fun made s' => Passed t base above made s' ∧ SparesWay (base ++ (above ++ [n])) t s') s₁ :=
      ((ih hheads (textFault?_beginning hheads.spells.text_ne_empty hbefore htext) hk
        (hs₁.of_prefix hway)).mono (fun _ _ hs => hs.of_prefix hway)
        (fun _ _ hclears => hclears.mono hsub) fun _ _ hpassed => hpassed).keeps
        (fun _ _ => (composes_sparesWay _).trans)
        (fun _ _ hs hclears => (composes_sparesWay _).trans hs (hclears.sparesWay _)) hs₁
    simp only [hp]
    refine hparents.bind (composes_sparesWay _) fun made s₂ hpassed => ?_
    obtain ⟨⟨rfl, hthere⟩, hs₂⟩ := hpassed
    rcases hblocked : t.blocked? base above with _ | fault
    · -- the directory in front is there now, so the last one is made or kept
      have hdir := hthere _ ((of_blocked?_eq_none hblocked).2 above List.prefix_rfl habove)
      refine (h.attempt htree htext hs₂).bind (composes_sparesWay _) fun made s₃ hmade => ?_
      obtain ⟨hs₃, ⟨-, hnot, -⟩ | ⟨-, htried⟩⟩ := hmade
      · exact absurd hdir hnot
      · exact h.orThere htree htext hs₃ htried
    · obtain rfl := hlong fault hblocked
      have hlast : t.blocked? base (above ++ [n]) = some .nameTooLong := by
        simp only [blocked?_concat, hblocked, onward]
      refine Job.promises_pure fun s' hs' => ⟨by rw [hlast]; rfl, ?_⟩
      rw [cleared_concat, hlast, if_neg (Option.some_ne_none _), List.append_nil]
      exact fun l hl => hs'.grown.directory l (hthere l hl)

end Heads

end FileTree

end ClassWeave
