import ClassWeave.Proofs.Files.Output
/-!
# Files -- the outputs of a destination

A destination leads to a place, or would if the directories that are missing
were made (`FileTree.Aims`). What is taken from its path is then written and
read at a location below that place, and what that comes to depends on a few
things only: what is open on the way, and what stands in the place of the
output and of its draft (`FileTree.Alike`); what writing it comes to does not
even depend on the octets there (`FileTree.Ready`). `Aims.outlet` says so for every
destination, one that holds a NUL and fails at once included.
-/


namespace ClassWeave

namespace FileTree

variable {t t' : FileTree} {d p q : Path} {init : List (List Char)} {base l loc place : Location}
  {names above : List String} {n : String} {bytes out : Bytes} {fault : Fault}

/-! ## Trees that are ready for an output -/

/-- **What is of consequence for writing an output** into a directory is the
same in two trees: how open the way is and whether a directory stands in its
place; and nothing stands where it is drafted. -/
structure Ready (t t' : FileTree) (loc : Location) (n : String) : Prop where
  tree : t'.IsTree
  grown : Grown t t'
  isOpen : ∀ l, l <+: loc → t'.isOpen l = t.isOpen l
  directory : t'.entry? (loc ++ [n]) = some .directory ↔ t.entry? (loc ++ [n]) = some .directory
  vacant : t'.entry? (loc ++ [n ++ ".enhancing"]) = none

/-- **What is of consequence for an output** in a directory is the same in
two trees: how open the way is, what stands in its place, and that nothing
stands where it is drafted. -/
structure Alike (t t' : FileTree) (loc : Location) (n : String) : Prop where
  tree : t'.IsTree
  grown : Grown t t'
  isOpen : ∀ l, l <+: loc → t'.isOpen l = t.isOpen l
  entry : t'.entry? (loc ++ [n]) = t.entry? (loc ++ [n])
  vacant : t'.entry? (loc ++ [n ++ ".enhancing"]) = none

theorem Alike.ready (h : Alike t t' loc n) : Ready t t' loc n :=
  ⟨h.tree, h.grown, h.isOpen, by rw [h.entry], h.vacant⟩

/-- A tree stays ready if others spare the output. -/
theorem Ready.spared {t'' : FileTree} (h : Ready t t' loc n) (hs : Spares loc n t' t'') :
    Ready t t'' loc n where
  tree := hs.tree h.tree
  grown := h.grown.trans hs.grown
  isOpen l hl := (hs.isOpen l hl).trans (h.isOpen l hl)
  directory := by rw [hs.place, h.directory]
  vacant := hs.draft.trans h.vacant

theorem Alike.spared {t'' : FileTree} (h : Alike t t' loc n) (hs : Spares loc n t' t'') :
    Alike t t'' loc n where
  tree := hs.tree h.tree
  grown := h.grown.trans hs.grown
  isOpen l hl := (hs.isOpen l hl).trans (h.isOpen l hl)
  entry := hs.place.trans h.entry
  vacant := hs.draft.trans h.vacant

theorem Ready.cleared {t'' : FileTree} {locs : List Location} (h : Ready t t' loc n)
    (hclears : Clears locs t' t'') (hlocs : ∀ l ∈ locs, l <+: loc) : Ready t t'' loc n := by
  have hbeside : ∀ m, t''.entry? (loc ++ [m]) = t'.entry? (loc ++ [m]) := fun m =>
    (hclears.entry _).resolve_right fun hmade => not_way (hlocs _ hmade.1)
  exact h.spared ⟨hclears.sparesWay loc, hbeside n, hbeside _⟩

theorem Ready.clearing (h : Ready t t' (base ++ above) n) :
    t'.blocked? base above = t.blocked? base above ∧ t'.cleared base above = t.cleared base above :=
  clearing_congr fun _ hbelow _ => h.isOpen _ ((List.prefix_append_right_inj base).2 hbelow)

/-- **The directories of an output are made alike in trees that are ready for
it**, and leave them ready. -/
theorem Heads.parentsJob_ready (h : t.Heads q init base (above ++ [n]))
    (hready : Ready t t' (base ++ above) n) (out : Bytes) :
    (FileTree.parentsJob q).Promises (Spares (base ++ above) n)
      (Touches (base ++ above) n (t.written? q base above n out))
      (fun made s => made = outcomeOf ((parentFault? q).or (t.blocked? base above)) ∧
        (∀ l ∈ (if parentFault? q = none then t.cleared base above else []),
          s.entry? l = some .directory) ∧
        Ready t s (base ++ above) n) t' := by
  have hparents := (h.grown hready.grown).parentsJob hready.tree
  rw [hready.clearing.1, hready.clearing.2] at hparents
  have hway : ∀ l ∈ (if parentFault? q = none then t.cleared base above else []),
      l <+: base ++ above ∧ t.written? q base above n out l = some .directory := fun l => written?_way
  have hspared : (FileTree.parentsJob q).Promises (Spares (base ++ above) n) _ _ t' :=
    hparents.mono (fun _ _ hs => hs.toSparesWay) (fun _ _ hc => hc) fun _ _ hp => hp
  refine (hspared.keeps (I := fun s => Ready t s (base ++ above) n) (fun _ _ => Ready.spared)
    (fun _ _ hr hc => hr.cleared hc fun l hl => (hway l hl).1) hready).mono (fun _ _ hs => hs)
    (fun _ _ hc => hc.touches hway) ?_
  rintro made s ⟨⟨hmade, hdirs⟩, hready'⟩
  exact ⟨hmade, hdirs, hready'⟩

/-- **The file is written alike in trees that are ready for the output**, once
its directories are there. -/
theorem Heads.besideJob_ready (h : t.Heads q init base (above ++ [n]))
    (hready : Ready t t' (base ++ above) n) (hparent : parentFault? q = none)
    (hfree : t.blocked? base above = none)
    (hdirs : ∀ l ∈ t.cleared base above, t'.entry? l = some .directory) :
    (FileTree.besideJob q out).Promises (Spares (base ++ above) n)
      (Touches (base ++ above) n (t.written? q base above n out))
      (fun made s => made = outcomeOf (t.writeFault? q base above n) ∧
        (∀ l e, t.written? q base above n out l = some e → s.entry? l = some e) ∧
        s.entry? (base ++ above ++ [n ++ ".enhancing"]) = none) t' := by
  have hhoused : t'.Housed q init base above n := h.housed hready.tree hready.grown
    (by rw [hready.clearing.1, hfree]) (by rw [hready.clearing.2]; exact hdirs)
  have hplace : t'.placeFault? q base above n = t.writeFault? q base above n := by
    have hdirectory := hready.directory
    rw [List.append_assoc] at hdirectory
    simp only [writeFault?, hparent, hfree, Option.none_or, placeFault?, hdirectory]
  have hvacant := hready.vacant
  rw [List.append_assoc] at hvacant
  have hchange : t'.placeFault? q base above n = none →
      t.written? q base above n out (base ++ (above ++ [n])) = some (.file out) := fun hnone => by
    rw [written?, if_pos ⟨rfl, hplace ▸ hnone⟩]
  refine ((hhoused.besideJob hvacant hchange).keeps
    (I := fun s => ∀ l ∈ t.cleared base above, s.entry? l = some .directory)
    (fun _ _ hdirs hs l hl => hs.grown.directory l (hdirs l hl))
    (fun _ _ hdirs htouches l hl => htouches.grown.directory l (hdirs l hl)) hdirs).mono
    (fun _ _ hs => hs) (fun _ _ hg => hg) ?_
  rintro _ s ⟨⟨rfl, hfile, hgone⟩, hdirs'⟩
  rw [hplace] at hfile ⊢
  refine ⟨rfl, fun l e he => ?_, by rw [List.append_assoc, hgone]⟩
  rcases of_written? he with ⟨rfl, hnone, rfl⟩ | ⟨hl, rfl⟩
  · exact hfile hnone
  · rw [if_pos hparent] at hl
    exact hdirs' l hl

/-- **The steps of writing an output come to the same in trees that are ready for
it**, whatever others do that spares it. -/
theorem Heads.writeJob (h : t.Heads q init base (above ++ [n]))
    (hready : Ready t t' (base ++ above) n) (out : Bytes) :
    (FileTree.writeJob q out).Promises (Spares (base ++ above) n)
      (Touches (base ++ above) n (t.written? q base above n out))
      (fun made s => made = outcomeOf (t.writeFault? q base above n) ∧
        (∀ l e, t.written? q base above n out l = some e → s.entry? l = some e) ∧
        s.entry? (base ++ above ++ [n ++ ".enhancing"]) = none) t' := by
  rw [FileTree.writeJob]
  refine (h.parentsJob_ready hready out).bind (composes_spares (base ++ above) n) ?_
  rintro _ s ⟨rfl, hdirs, hready'⟩
  rcases hfault : (parentFault? q).or (t.blocked? base above) with _ | fault
  · obtain ⟨hparent, hfree⟩ := Option.or_eq_none_iff.1 hfault
    rw [if_pos hparent] at hdirs
    exact h.besideJob_ready hready' hparent hfree hdirs
  · have hfails : t.writeFault? q base above n = some fault := by
      rw [writeFault?, ← Option.or_assoc, hfault, Option.some_or]
    refine Job.promises_pure fun s' hs' => ⟨by rw [hfails]; rfl, fun l e he => ?_,
      hs'.draft.trans hready'.vacant⟩
    rcases of_written? he with ⟨-, hnone, -⟩ | ⟨hl, rfl⟩
    · rw [hfails] at hnone
      cases hnone
    · exact hs'.grown.directory l (hdirs l hl)

/-- What an output comes to: what goes wrong when it is written, what stands
where afterwards, where it has a say, and whether it can be read if it is
there. -/
structure Writing where
  fault : Option Fault
  written? : Bytes → Location → Option Entry
  legible : Prop

/-- **What an output comes to, in its tree and in those that are ready**: it
makes directories on the way, or puts the file where nothing but a file
is; whatever others do that spares it. -/
structure Outlet (t : FileTree) (q : Path) (loc : Location) (n : String) (o : Writing) : Prop where
  made : ∀ {out l e}, o.written? out l = some e →
    (l = loc ++ [n] ∧ e = .file out ∧ ∀ e', t.entry? l = some e' → ∃ bytes, e' = .file bytes) ∨
      (l <+: loc ∧ e = .directory ∧ t.isOpen l = true)
  placed : o.fault = none → o.legible ∧ ∀ out, o.written? out (loc ++ [n]) = some (.file out)
  steps : ∀ {t'}, Ready t t' loc n → ∀ out,
    (writeJob q out).Promises (Spares loc n) (Touches loc n (o.written? out))
      (fun made s => made = outcomeOf o.fault ∧
        (∀ l e, o.written? out l = some e → s.entry? l = some e) ∧
        s.entry? (loc ++ [n ++ ".enhancing"]) = none) t'
  read : ∀ {t'}, t'.IsTree → Grown t t' → ∀ bytes,
    t'.read q = .ok bytes ↔ o.legible ∧ t'.entry? (loc ++ [n]) = some (.file bytes)

/-- **Alone, an output changes what is foreseen** and nothing else. -/
theorem Outlet.write {o : Writing} (h : Outlet t q loc n o) (hready : Ready t t' loc n)
    (out : Bytes) :
    ∃ t₁, t'.writeWhole q out = (t₁, outcomeOf o.fault) ∧ t₁.home = t'.home ∧ t₁.IsTree ∧
      ∀ l, t₁.entry? l = (o.written? out l).or (t'.entry? l) := by
  obtain ⟨⟨hmade, hentries, hgone⟩, htouches⟩ :=
    (h.steps hready out).run (composes_spares loc n) (composes_touches loc n _)
  rw [(run_writeJob q out t').1] at hmade hentries hgone htouches
  refine ⟨_, Prod.ext rfl hmade, htouches.home, htouches.tree hready.tree, fun l => ?_⟩
  rcases hwritten : o.written? out l with _ | e
  swap
  · rw [hentries l e hwritten, Option.some_or]
  rw [Option.none_or]
  rcases htouches.entry l with hsame | htouched
  · exact hsame
  rcases htouched.foreseen with ⟨e, -, hforeseen⟩ | hl
  · rw [hwritten] at hforeseen
    cases hforeseen
  · rw [hl, hgone, hready.vacant]

theorem Outlet.read_congr {o : Writing} (h : Outlet t q loc n o) (htree : t.IsTree)
    (halike : Alike t t' loc n) (bytes : Bytes) : t'.read q = .ok bytes ↔ t.read q = .ok bytes := by
  rw [h.read halike.tree halike.grown, h.read htree (SameShape.refl t).grown, halike.entry]

/-- A path that heads for an entry is an outlet there. -/
theorem Heads.outlet (h : t.Heads q init base (above ++ [n])) :
    Outlet t q (base ++ above) n
      { fault := t.writeFault? q base above n
        written? := t.written? q base above n
        legible := textFault? q = none ∧ ∀ m ∈ above ++ [n], isTooLong m = false } where
  made {out l e} hwritten := by
    simp only [FileTree.written?] at hwritten
    split at hwritten
    · next hplace =>
      refine .inl ⟨by rw [hplace.1, List.append_assoc], (Option.some.inj hwritten).symm,
        fun e' he' => ?_⟩
      rw [hplace.1] at he'
      rcases e' with b | _ | target
      · exact ⟨b, rfl⟩
      · -- a directory in the place would have been what goes wrong
        have hfault := hplace.2
        rw [writeFault?, Option.or_eq_none_iff, Option.or_eq_none_iff, placeFault?, he',
          Option.or_eq_none_iff] at hfault
        obtain ⟨-, -, -, hplace⟩ := hfault
        split at hplace <;> cases hplace
      · exact absurd he' (h.linkless _ List.prefix_rfl target)
    · split at hwritten
      · next hcleared =>
        obtain ⟨below, hbelow, -, hl, hopen⟩ := of_mem_cleared (List.contains_iff_mem.1 hcleared.2)
        refine .inr ⟨?_, (Option.some.inj hwritten).symm, hopen⟩
        rw [hl]
        exact (List.prefix_append_right_inj base).2 hbelow
      · cases hwritten
  placed hfault := by
    simp only at hfault
    refine ⟨?_, fun out => ?_⟩
    swap
    · show t.written? q base above n out (base ++ above ++ [n]) = some (.file out)
      rw [FileTree.written?, if_pos ⟨List.append_assoc .., hfault⟩]
    -- the draft was short enough, so the output is
    rw [writeFault?, Option.or_eq_none_iff, Option.or_eq_none_iff, placeFault?,
      Option.or_eq_none_iff] at hfault
    obtain ⟨-, hblocked, htext, hplace⟩ := hfault
    have hshort : isTooLong (n ++ ".enhancing") = false := by
      by_contra hlong
      rw [Bool.not_eq_false] at hlong
      rw [if_pos hlong] at hplace
      cases hplace
    rw [List.forall_mem_append, List.forall_mem_singleton]
    exact ⟨textFault?_beginning h.spells.text_ne_empty (text_draftPath q) htext,
      (of_blocked?_eq_none hblocked).1, isTooLong_draft hshort⟩
  steps hready out := h.writeJob hready out
  read {t'} htree' hgrown bytes := by
    rw [(h.grown hgrown).read_ok htree', and_assoc, List.append_assoc]

/-! ## Destinations -/

/-- **A path that leads to a place**, or would if the directories that are
missing were made: its segments lead to a directory, and behind them are
names without links, and no step up. -/
inductive Aims (t : FileTree) (d : Path) : Location → Prop
  | intro {init tail : List (List Char)} {base : Location} : d.lead = init ++ tail →
      Leads t true 40 (t.startOf d) (stepsOf init) base → t.entry? base = some .directory →
      ['.', '.'] ∉ tail →
      (∀ below, below <+: Path.namesIn tail →
        ∀ target, t.entry? (base ++ below) ≠ some (.link target)) →
      Aims t d (base ++ Path.namesIn tail)

theorem Aims.grown (h : Aims t d place) (hgrown : Grown t t') : Aims t' d place := by
  obtain ⟨hlead, hleads, hdir, hup, hlinkless⟩ := h
  refine .intro hlead ?_ (hgrown.directory _ hdir) hup fun below hbelow target hentry =>
    hlinkless below hbelow target ((hgrown.link _ _).1 hentry)
  rw [startOf, hgrown.home]
  exact hleads.grown hgrown

/-- The names among the segments of a path without a NUL are such, but for
steps up. -/
theorem isName_of_mem_namesIn {tail : List (List Char)} (hlead : d.lead = init ++ tail)
    (hup : ['.', '.'] ∉ tail) (hnul : Char.ofNat 0 ∉ d.text.toList) :
    ∀ n ∈ Path.namesIn tail, Path.IsName n := by
  intro n hn
  obtain ⟨s, hs, rfl⟩ := List.mem_map.1 hn
  obtain ⟨hmem, hidle⟩ := List.mem_filter.1 hs
  have hpiece : s ∈ d.segments := Path.mem_segments_of_lead (hlead ▸ List.mem_append_right _ hmem)
  rw [Path.isIdle, Bool.not_eq_true', Bool.or_eq_false_iff, List.isEmpty_eq_false_iff,
    beq_eq_false_iff_ne] at hidle
  exact
    { ne_empty := fun h => hidle.1 (by simpa using congrArg String.toList h)
      flat := by
        rw [String.toList_ofList]
        exact Text.not_mem_of_mem_pieces hpiece
      noNul := by
        rw [String.toList_ofList]
        exact fun h => hnul ((Text.mem_iff_exists_piece (by decide)).2 ⟨s, hpiece, h⟩)
      ne_dot := fun h => hidle.2 (by simpa using congrArg String.toList h)
      ne_up := fun h => hup (by
        have hs : s = "..".toList := by simpa using congrArg String.toList h
        rwa [hs] at hmem) }

theorem textFault?_of_nul (h : Char.ofNat 0 ∈ p.text.toList) : textFault? p = some .holdsNul := by
  rw [textFault?, if_pos (List.any_eq_true.2 ⟨_, h, by simp⟩)]

/-- What is taken from a path with a NUL is in a directory with one. -/
theorem parent_of_nul (hnames : ∀ m ∈ above ++ [n], Path.IsName m)
    (hnul : Char.ofNat 0 ∈ d.text.toList) :
    ∃ p, (d.join (Scan.relativePath (above ++ [n]))).parent? = some p ∧ p.text ≠ "" ∧
      bare p = p ∧ Char.ofNat 0 ∈ p.text.toList ∧
      Char.ofNat 0 ∈ (d.join (Scan.relativePath (above ++ [n]))).text.toList := by
  have hne : d.text ≠ "" := fun h => by
    rw [h] at hnul
    cases hnul
  obtain ⟨s, hs, hnul⟩ : ∃ s ∈ d.segments, Char.ofNat 0 ∈ s :=
    (Text.mem_iff_exists_piece (by decide)).1 hnul
  have hsegments := (Path.segments_join_relative d hnames (by simp)).1
  rw [List.map_append, List.map_singleton, ← List.append_assoc] at hsegments
  have hlead := Path.mem_lead_of_segments hne hs fun h => by
    rw [h] at hnul
    cases hnul
  -- the step with the NUL is no lone dot, so the parent takes it as well
  have hstep : String.ofList s ∈ stepsOf (d.lead ++ above.map String.toList) := by
    refine List.mem_map_of_mem (List.mem_filter.2 ⟨List.mem_append_left _ hlead, ?_⟩)
    rcases s with _ | ⟨c, cs⟩
    · cases hnul
    · rfl
  have hdot : String.ofList s ≠ "." := fun h => by
    have hs : s = ".".toList := by simpa using congrArg String.toList h
    rw [hs] at hnul
    exact absurd hnul (by decide)
  obtain ⟨p, hp, hpne, hbefore, hbare, dots, hdots, hsteps⟩ := parent?_of_segments hsegments
    (List.ne_nil_of_mem (List.mem_append_left _ hlead))
    (hnames n (List.mem_append_right _ List.mem_cons_self)).not_isIdle
  have hmem : String.ofList s ∈ steps p := by
    rcases hsteps with hsteps | ⟨-, hsteps⟩
    · rw [hsteps] at hstep
      exact (List.mem_append.1 hstep).resolve_right fun h => hdot (hdots _ h)
    · exact absurd (hdots _ (hsteps ▸ hstep)) hdot
  have hparent : Char.ofNat 0 ∈ p.text.toList := by
    obtain ⟨s', hs', heq⟩ := mem_steps hmem hdot
    rw [String.ofList_inj.1 heq] at hs'
    exact (Text.mem_iff_exists_piece (by decide)).2 ⟨s, hs', hnul⟩
  exact ⟨p, hp, hpne, hbare, hparent, hbefore.subset hparent⟩

/-- So no directory is made for it. -/
theorem makeParents_of_nul (hnames : ∀ m ∈ above ++ [n], Path.IsName m)
    (hnul : Char.ofNat 0 ∈ d.text.toList) :
    t.makeParents (d.join (Scan.relativePath (above ++ [n]))) = (t, .error .holdsNul) := by
  obtain ⟨p, hp, hne, hbare, hnul, -⟩ := parent_of_nul hnames hnul
  obtain ⟨hmade, hsame⟩ := (parentsJob_faulty (t := t) Job.composes_eq Job.composes_eq hp hne hbare
    (textFault?_of_nul hnul)).run Job.composes_eq Job.composes_eq
  rw [(run_parentsJob _ t).1] at hmade hsame
  exact Prod.ext hsame.symm hmade

/-- Nothing is written or read by a path that is taken from one with a
NUL. -/
theorem outlet_of_nul (hnames : ∀ m ∈ above ++ [n], Path.IsName m)
    (hnul : Char.ofNat 0 ∈ d.text.toList) :
    Outlet t (d.join (Scan.relativePath (above ++ [n]))) loc n
      ⟨some .holdsNul, fun _ _ => none, False⟩ where
  made h := by cases h
  placed h := by cases h
  steps {t'} hready out := by
    obtain ⟨p, hp, hne, hbare, hnul, -⟩ := parent_of_nul hnames hnul
    have hparents := parentsJob_faulty (R := Spares loc n) (G := Eq) (t := t') (composes_spares loc n)
      Job.composes_eq hp hne hbare (textFault?_of_nul hnul)
    rw [writeJob]
    refine ((hparents.keeps (I := fun s => s.entry? (loc ++ [n ++ ".enhancing"]) = none)
      (fun _ _ hgone hs => hs.draft.trans hgone) (fun _ _ hgone heq => heq ▸ hgone)
      hready.vacant).mono (fun _ _ hs => hs) (fun _ _ heq => heq ▸ (composes_touches _ _ _).refl _)
      fun _ _ hp => hp).bind (composes_spares loc n) ?_
    rintro _ s ⟨rfl, hgone⟩
    exact Job.promises_pure fun s' hs' =>
      ⟨rfl, fun _ _ h => (by cases h), hs'.draft.trans hgone⟩
  read {t'} _ _ bytes := by
    have hread : t'.read (d.join (Scan.relativePath (above ++ [n]))) = .error .holdsNul := by
      obtain ⟨-, -, -, -, -, hnul⟩ := parent_of_nul hnames hnul
      rw [FileTree.read, stat, resolve_eq, textFault?_of_nul hnul]
      rfl
    rw [hread]
    exact ⟨fun hok => (by cases hok), fun h => h.1.elim⟩

/-- **A destination has an outlet** for each output below its place. -/
theorem Aims.outlet (h : Aims t d place) (hlinks : t.LinkFree place)
    (hnames : ∀ m ∈ above ++ [n], Path.IsName m) :
    ∃ o, Outlet t (d.join (Scan.relativePath (above ++ [n]))) (place ++ above) n o := by
  by_cases hnul : Char.ofNat 0 ∈ d.text.toList
  · exact ⟨_, outlet_of_nul hnames hnul⟩
  obtain ⟨hlead, hleads, hdir, hup, hlinkless⟩ := h
  next init tail base =>
  have hspells := Path.spells_join hlead (isName_of_mem_namesIn hlead hup hnul) hnames (by simp)
  have hheads : t.Heads (d.join (Scan.relativePath (above ++ [n]))) init base
      (Path.namesIn tail ++ (above ++ [n])) :=
    { spells := hspells
      leads := by
        rw [startOf, (Path.segments_join_relative d hnames (by simp)).2]
        exact hleads
      directory := hdir
      linkless := by
        intro below hbelow target
        rcases List.prefix_or_prefix_of_prefix hbelow (List.prefix_append _ (above ++ [n]))
          with hshort | ⟨rest, rfl⟩
        · exact hlinkless below hshort target
        · rw [← List.append_assoc]
          exact hlinks _ target (List.prefix_append _ _) }
  rw [← List.append_assoc] at hheads
  have houtlet := hheads.outlet
  rw [← List.append_assoc] at houtlet
  exact ⟨_, houtlet⟩

end FileTree

end ClassWeave
