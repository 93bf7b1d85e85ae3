import ClassWeave.Proofs.Files.Undisturbed
/-!
# Files -- an output, written and read

What the steps of writing a file come to, for a path that heads for an entry
and with nothing where the file is drafted. First its directories are made as
far as they can be (`Heads.parentsJob`), then the file is drafted beside its
place and moved there (`Housed.besideJob`); what goes wrong is known
beforehand (`FileTree.writeFault?`), and what stands where afterwards
(`FileTree.written?`). It is all a matter of the path, of what is open on the
way and of what stands in the place itself, so others may do anything in
between that spares these.
-/


namespace ClassWeave

namespace FileTree

variable {t t' : FileTree} {p q : Path} {init : List (List Char)} {base l loc : Location}
  {names above : List String} {n : String} {bytes out : Bytes} {fault : Fault} {there : Bool}
  {R G : FileTree → FileTree → Prop} {change : Location → Option Entry}

/-! ## The directory of an output -/

/-- What is wrong with the text of the path of the directory that an output
is in. -/
def parentFault? (q : Path) : Option Fault :=
  match q.parent? with
  | some p => if p.text = "" then none else textFault? p
  | none => none

theorem parentFault?_eq (hp : q.parent? = some p) (hne : p.text ≠ "") :
    parentFault? q = textFault? p := by
  simp only [parentFault?, hp, if_neg hne]

theorem parentsJob_eq (hp : q.parent? = some p) (hne : p.text ≠ "") :
    parentsJob q = directoriesJob p.ancestors := by
  simp only [parentsJob, hp, if_neg hne]

/-- Nothing is made by a path with a text that something is wrong with. -/
theorem makeDirectory_faulty (hbare : bare p = p) (htext : textFault? p = some fault) :
    t.makeDirectory p = .error fault ∧ t.isDirectory p = false := by
  have hresolve : ∀ follow, t.resolve follow p = .error fault := fun follow => by
    rw [resolve_eq, htext]
  refine ⟨?_, ?_⟩
  · rw [makeDirectory, hbare, hresolve]
    rfl
  · rw [isDirectory, stat, hresolve]
    rfl

/-- Nothing is made where a directory is, even if it takes a link to get
there. -/
theorem makeDirectory_there (hbare : bare p = p) (htext : textFault? p = none)
    (hleads : Leads t true 40 (t.startOf p) (steps p) loc)
    (hdir : t.entry? loc = some .directory) :
    t.makeDirectory p = .error .present ∧ t.isDirectory p = true := by
  have hresolve : ∀ {follow r}, Leads t follow 40 (t.startOf p) (steps p) r →
      t.resolve follow p = .ok r := fun h => by
    rw [resolve_eq, htext]
    exact chase_ok.2 h
  obtain ⟨r, hr, hstands⟩ := hleads.exists_unfollowed (by rw [hdir]; rfl)
  obtain ⟨e, he⟩ := Option.isSome_iff_exists.1 hstands
  refine ⟨?_, ?_⟩
  · rw [makeDirectory, hbare, hresolve hr]
    simp [bind, Except.bind, he]
  · rw [isDirectory, stat, hresolve hleads]
    simp [bind, Except.bind, hdir]

/-- **Where a directory is refused** at once, others about or not, none is
made on the way to it, and that is well if it is there. -/
theorem directoriesJob_refused (hR : Job.Composes R) (hG : Job.Composes G) (hne : p.text ≠ "")
    (hfault : fault ≠ .missing)
    (h : ∀ s, R t s → s.makeDirectory p = .error fault ∧ s.isDirectory p = there) :
    (directoriesJob p.ancestors).Promises R G
      (fun made _ => made = if there then .ok () else .error fault) t := by
  obtain ⟨up, hup⟩ : ∃ up, p.ancestors = p :: up := ⟨_, rfl⟩
  rw [hup, directoriesJob, if_neg hne]
  refine Job.Promises.bind (P := fun made s => made = .error fault ∧ R t s) hR
    (promises_attempt fun s hs => .inr ⟨fault, (h s hs).1, hG.refl s, fun s' hs' =>
      ⟨rfl, hR.trans hs hs'⟩⟩) ?_
  rintro _ s ⟨rfl, hs⟩
  have hlook : (orThere p (.error fault)).Promises R G
      (fun made _ => made = if there then .ok () else .error fault) s := by
    rw [orThere_error]
    refine Job.promises_once fun s' hs' => ⟨hG.refl s', fun _ _ => ?_⟩
    simp only [(h s' (hR.trans hs hs')).2]
  rcases fault <;> first | exact absurd rfl hfault | exact hlook

/-- So it is with the directory of an output if something is wrong with the
text of its path. -/
theorem parentsJob_faulty (hR : Job.Composes R) (hG : Job.Composes G) (hp : q.parent? = some p)
    (hne : p.text ≠ "") (hbare : bare p = p) (htext : textFault? p = some fault) :
    (parentsJob q).Promises R G (fun made _ => made = .error fault) t := by
  rw [parentsJob_eq hp hne]
  exact directoriesJob_refused hR hG hne (fun heq => textFault?_ne_missing hne (heq ▸ htext))
    fun s _ => makeDirectory_faulty hbare htext

/-- **Where a path leads to something else than a directory**, or could, the
directory it is in is there, and none is made. -/
theorem makeParents_there (h : t.resolve true p = .ok r) (hr : t.entry? r ≠ some .directory) :
    t.makeParents p = (t, .ok ()) := by
  obtain ⟨hnul, hempty, hlong, hleads⟩ := resolve_ok.1 h
  have hslash : p.text.toList.getLast? ≠ some '/' := by
    intro hslash
    rw [steps_eq, if_pos hslash] at hleads
    exact hr hleads.directory_of_dot
  obtain ⟨init, n, hsegments, hne⟩ := Path.exists_last_segment hempty hslash
  rw [steps_eq, if_neg hslash, List.append_nil, trunkSteps, ← Path.segments_of_not_slash hslash,
    hsegments, stepsOf_append] at hleads
  have hn : Path.isIdle n = false := by
    rw [Path.isIdle, Bool.or_eq_false_iff, List.isEmpty_eq_false_iff, beq_eq_false_iff_ne]
    refine ⟨hne, ?_⟩
    rintro rfl
    exact hr hleads.directory_of_dot
  have hlast : stepsOf [n] ≠ [] := by simp [stepsOf, hne]
  rcases eq_or_ne init [] with rfl | hinit
  · -- a name alone is in the working directory
    have hparent : p.parent? = some ⟨""⟩ := by
      rw [Path.parent?, Path.tailSegments, hsegments]
      simp [hne]
    rw [makeParents, hparent]
    rfl
  obtain ⟨q, hq, hqempty, hbefore, hbare, dots, hidle, hsteps⟩ :=
    parent?_of_segments hsegments hinit hn
  obtain ⟨d, hdir, hfront⟩ := hleads.front hlast
  rw [← startOf_beginning hqempty hbefore] at hfront
  have htext : textFault? q = none := by
    refine textFault?_beginning hqempty hbefore ?_
    rcases htext : textFault? p with _ | fault
    · rfl
    · rw [resolve_eq, htext] at h
      cases h
  have hthere : Leads t true 40 (t.startOf q) (steps q) d → t.makeParents p = (t, .ok ()) := by
    intro hleads
    obtain ⟨hmade, hisdir⟩ := makeDirectory_there hbare htext hleads hdir
    obtain ⟨up, hup⟩ : ∃ up, q.ancestors = q :: up := ⟨_, rfl⟩
    simp only [makeParents, hq, if_neg hqempty, makeDirectories, hup, makeDirectoriesOf, hmade,
      hisdir, if_true]
  refine hthere ?_
  rcases hsteps with hsteps | ⟨hroot, hsteps⟩
  · rw [hsteps] at hfront
    exact hfront.of_dots hidle
  · rw [hsteps] at hfront
    rw [hroot, hfront.eq_of_dots hidle]
    rw [hfront.eq_of_dots hidle] at hdir
    exact .here hdir .done

namespace Heads

/-- The parent of a path that heads for an entry of the directory itself leads
to that, if it is no name alone. -/
theorem parent_base (h : t.Heads q init base [n]) :
    q.parent? = some ⟨""⟩ ∨ ∃ p, q.parent? = some p ∧ p.text ≠ "" ∧ bare p = p ∧
      Leads t true 40 (t.startOf p) (steps p) base := by
  obtain ⟨tail, hsegments, htail⟩ : ∃ tail, q.segments = init ++ tail ++ [n.toList] ∧
      Path.namesIn tail = [] := h.spells.segments_concat
  have hn := h.spells.isName n List.mem_cons_self
  -- nothing but lone dots is between the segments that lead there and the name
  have hdots : ∀ s ∈ stepsOf tail, s = "." := by
    refine stepsOf_idle fun s hs => ?_
    rw [Path.namesIn, List.map_eq_nil_iff, List.filter_eq_nil_iff] at htail
    simpa using htail s hs
  have hleads : Leads t true 40 (t.startOf q) (stepsOf (init ++ tail)) base := by
    rw [stepsOf_append]
    exact h.leads.concat_dots h.directory hdots
  by_cases hfront : init ++ tail = []
  · rw [hfront, List.nil_append] at hsegments
    left
    rw [Path.parent?, Path.tailSegments, hsegments]
    simp [hn.toList_ne_nil]
  obtain ⟨p, hp, hne, hbefore, hbare, dots, hidle, hsteps⟩ :=
    parent?_of_segments hsegments hfront hn.not_isIdle
  refine .inr ⟨p, hp, hne, hbare, ?_⟩
  rw [← startOf_beginning hne hbefore] at hleads
  rcases hsteps with hsteps | ⟨hroot, hsteps⟩
  · rw [hsteps] at hleads
    exact hleads.of_dots hidle
  · rw [hsteps] at hleads
    rw [hroot, ← hleads.eq_of_dots hidle]
    exact .here h.directory .done

/-- **The directories of an output** are made as far as they can be, unless
something is wrong with the text of the path already. -/
theorem parentsJob (htree : t.IsTree) (h : t.Heads q init base (above ++ [n])) :
    (FileTree.parentsJob q).Promises (SparesWay (base ++ above))
      (Clears (if parentFault? q = none then t.cleared base above else []))
      (fun made s => made = outcomeOf ((parentFault? q).or (t.blocked? base above)) ∧
        ∀ l ∈ (if parentFault? q = none then t.cleared base above else []),
          s.entry? l = some .directory) t := by
  rcases eq_or_ne above [] with rfl | habove
  · rw [cleared, ite_self, List.append_nil, blocked?, Option.or_none]
    rcases h.parent_base with hp | ⟨p, hp, hne, hbare, hleads⟩
    · have hfault : parentFault? q = none := by rw [parentFault?, hp]; rfl
      rw [FileTree.parentsJob, hp, hfault]
      exact Job.promises_pure fun _ _ => ⟨rfl, List.forall_mem_nil _⟩
    rw [parentFault?_eq hp hne]
    rcases htext : textFault? p with _ | fault
    · rw [parentsJob_eq hp hne]
      refine (directoriesJob_refused (composes_sparesWay base) (composes_clears []) hne
        (by decide : Fault.present ≠ .missing) fun s hs => makeDirectory_there hbare htext ?_
          (hs.grown.directory _ h.directory)).mono (fun _ _ hs => hs) (fun _ _ hs => hs)
        fun _ _ hmade => ⟨hmade, List.forall_mem_nil _⟩
      rw [startOf, hs.grown.home, ← startOf]
      exact hleads.grown hs.grown
    · exact (parentsJob_faulty (composes_sparesWay base) (composes_clears []) hp hne hbare htext).mono
        (fun _ _ hs => hs) (fun _ _ hs => hs) fun _ _ hmade => ⟨hmade, List.forall_mem_nil _⟩
  obtain ⟨p, hp, hheads, -⟩ := h.parent habove
  have hne := hheads.spells.text_ne_empty
  rw [parentFault?_eq hp hne]
  rcases htext : textFault? p with _ | fault
  · rw [if_pos rfl, Option.none_or, parentsJob_eq hp hne]
    refine (hheads.directoriesJob htree htext ?_ ((composes_sparesWay _).refl t)).mono
      (fun _ _ hs => hs) (fun _ _ hs => hs) fun _ _ hpassed => ⟨hpassed.made, hpassed.there⟩
    have hle := hheads.spells.length_le
    omega
  · rw [if_neg (Option.some_ne_none _), Option.some_or]
    exact (parentsJob_faulty (composes_sparesWay _) (composes_clears []) hp hne
      (bare_of_not_slash hheads.spells.not_slash) htext).mono (fun _ _ hs => hs) (fun _ _ hs => hs)
      fun _ _ hmade => ⟨hmade, List.forall_mem_nil _⟩

theorem makeParents (htree : t.IsTree) (h : t.Heads q init base (above ++ [n])) :
    ∃ t', t.makeParents q = (t', outcomeOf ((parentFault? q).or (t.blocked? base above))) ∧
      Cleared t (if parentFault? q = none then t.cleared base above else []) t' := by
  obtain ⟨⟨hmade, hdirs⟩, hclears⟩ :=
    (h.parentsJob htree).run (composes_sparesWay _) (composes_clears _)
  rw [(run_parentsJob q t).1] at hmade hdirs hclears
  exact ⟨_, Prod.ext rfl hmade, hclears.cleared htree hdirs⟩

/-! ## The output in its directory -/

/-- Where nothing but a link would be in the way, the path of a draft heads
for it. -/
theorem draft (h : t.Heads q init base (above ++ [n]))
    (hnolink : ∀ target, t.entry? (base ++ (above ++ [n ++ ".enhancing"])) ≠ some (.link target)) :
    t.Heads (draftPath q) init base (above ++ [n ++ ".enhancing"]) where
  spells := h.spells.draft
  leads := by
    rw [← startOf_beginning h.spells.text_ne_empty (text_draftPath q)]
    exact h.leads
  directory := h.directory
  linkless below hbelow target := by
    rcases List.prefix_concat_iff.1 hbelow with rfl | hbelow
    · exact hnolink target
    · exact h.linkless below (hbelow.trans (List.prefix_append _ _)) target

end Heads

/-- A file written beside its place and moved over it, where its directory
is. -/
def writeBeside (t : FileTree) (q : Path) (bytes : Bytes) : FileTree × Except Fault Unit :=
  match t.write (draftPath q) bytes with
  | .error e => (t, .error e)
  | .ok t =>
    match t.move (draftPath q) q with
    | .ok t => (t, .ok ())
    | .error e =>
      match t.remove (draftPath q) with
      | .ok t => (t, .error e)
      | .error _ => (t, .error e)

/-- What goes wrong with that. -/
def placeFault? (t : FileTree) (q : Path) (base : Location) (above : List String) (n : String) :
    Option Fault :=
  (textFault? (draftPath q)).or <|
    if isTooLong (n ++ ".enhancing") then some .nameTooLong
    else if t.entry? (base ++ (above ++ [n])) = some .directory then some .isDirectory else none

theorem isTooLong_draft (h : isTooLong (n ++ ".enhancing") = false) : isTooLong n = false := by
  simp only [isTooLong, decide_eq_false_iff_not, Nat.not_lt] at h ⊢
  rw [Utf8.encode, String.toList_append, List.flatMap_append, List.length_append] at h
  rw [Utf8.encode]
  omega

/-- A file is put beside others, over what stood there, if that was no
directory and no link: the tree is one still, it has grown, and it is one
again without the file. -/
theorem IsTree.draftedOver (htree : t.IsTree) (out : Bytes) (hdir : t.entry? loc = some .directory)
    (hn : Path.IsName n) (hfile : t.entry? (loc ++ [n]) ≠ some .directory)
    (hlink : ∀ target, t.entry? (loc ++ [n]) ≠ some (.link target)) :
    (t.put (loc ++ [n]) (.file out)).IsTree ∧ Grown t (t.put (loc ++ [n]) (.file out)) ∧
      ((t.put (loc ++ [n]) (.file out)).erase (loc ++ [n])).IsTree ∧
      ∀ l, FileTree.entry? ((t.put (loc ++ [n]) (.file out)).erase (loc ++ [n])) l =
        if l = loc ++ [n] then none else t.entry? l := by
  have hput : (t.put (loc ++ [n]) (.file out)).IsTree := htree.put hdir hn hfile
  refine ⟨hput, (sameShape_put (by simp) hfile hlink).grown, hput.erase ?_, fun l => ?_⟩
  · rw [entry?_put (by simp), if_pos rfl]
    nofun
  · rw [entry?_erase (by simp), entry?_put (by simp)]
    split <;> rfl

/-- **A path that heads for an entry of a directory that is there.** -/
structure Housed (t : FileTree) (q : Path) (init : List (List Char)) (base : Location)
    (above : List String) (n : String) : Prop where
  tree : t.IsTree
  heads : t.Heads q init base (above ++ [n])
  directory : t.entry? (base ++ above) = some .directory
  unblocked : t.blocked? base above = none

namespace Housed

theorem resolve (h : t.Housed q init base above n) (htext : textFault? q = none) (follow : Bool) :
    t.resolve follow q =
      if isTooLong n then .error .nameTooLong else .ok (base ++ (above ++ [n])) := by
  rw [h.heads.resolve, htext]
  exact h.tree.descend_there h.heads.directory h.directory h.unblocked

/-- A directory that is there stays as the tree grows. -/
theorem grown (h : t.Housed q init base above n) (htree : t'.IsTree) (hgrown : Grown t t') :
    t'.Housed q init base above n where
  tree := htree
  heads := h.heads.grown hgrown
  directory := hgrown.directory _ h.directory
  unblocked := by
    -- directories all the way, before and after
    have hway : ∀ below, below <+: above → below ≠ [] → t.entry? (base ++ below) = some .directory :=
      fun below hbelow hne => Heads.cleared_there h.tree h.directory _
        ((of_blocked?_eq_none h.unblocked).2 below hbelow hne)
    refine (clearing_congr fun below hbelow hne => ?_).1.trans h.unblocked
    have hdir := hway below hbelow hne
    rw [isOpen_iff.2 (.inr hdir), isOpen_iff.2 (.inr (hgrown.directory _ hdir))]

theorem draft (h : t.Housed q init base above n)
    (hvacant : t.entry? (base ++ (above ++ [n ++ ".enhancing"])) = none) :
    t.Housed (draftPath q) init base above (n ++ ".enhancing") where
  tree := h.tree
  heads := h.heads.draft fun target => by rw [hvacant]; nofun
  directory := h.directory
  unblocked := h.unblocked

theorem isName (h : t.Housed q init base above n) : Path.IsName n :=
  h.heads.spells.isName n (List.mem_append_right _ List.mem_cons_self)

/-- A draft is written, if its path and its name are short enough. -/
theorem write (h : t.Housed q init base above n)
    (hvacant : t.entry? (base ++ (above ++ [n ++ ".enhancing"])) = none) (out : Bytes) :
    t.write (draftPath q) out =
      match textFault? (draftPath q) with
      | some fault => .error fault
      | none =>
        if isTooLong (n ++ ".enhancing") then .error .nameTooLong
        else .ok (t.put (base ++ (above ++ [n ++ ".enhancing"])) (.file out)) := by
  have hdraft := h.draft hvacant
  rw [FileTree.write]
  rcases htext : textFault? (draftPath q) with _ | fault
  · rw [hdraft.resolve htext]
    split
    · rfl
    · simp only [bind, Except.bind, hvacant]
  · rw [hdraft.heads.resolve, htext]
    rfl

/-- A draft that was written can be removed again, and is moved over its
entry, unless that is a directory. -/
theorem move_or_remove (h : t.Housed q init base above n)
    (hdraft : t.Housed (draftPath q) init base above (n ++ ".enhancing"))
    (htext : textFault? (draftPath q) = none) (hshort : isTooLong (n ++ ".enhancing") = false)
    (hentry : t.entry? (base ++ (above ++ [n ++ ".enhancing"])) = some (.file out)) :
    t.remove (draftPath q) = .ok (t.erase (base ++ (above ++ [n ++ ".enhancing"]))) ∧
      t.move (draftPath q) q =
        if t.entry? (base ++ (above ++ [n])) = some .directory then .error .isDirectory
        else .ok ((t.erase (base ++ (above ++ [n ++ ".enhancing"]))).put (base ++ (above ++ [n]))
          (.file out)) := by
  have hne := h.heads.spells.text_ne_empty
  have hplace := h.resolve (textFault?_beginning hne (text_draftPath q) htext) false
  have hbeside := hdraft.resolve htext false
  rw [isTooLong_draft hshort, if_neg Bool.false_ne_true] at hplace
  rw [hshort, if_neg Bool.false_ne_true] at hbeside
  refine ⟨?_, ?_⟩
  · rw [remove, hbeside]
    simp only [bind, Except.bind, hentry]
  · rw [move, if_neg hne, hdraft.heads.spells.endsInDots, h.heads.spells.endsInDots,
      bare_of_not_slash h.heads.spells.not_slash, hbeside, hplace]
    simp only [bind, Except.bind, hentry, ne_eq, not_true_eq_false, if_false, Bool.or_self,
      Bool.false_eq_true]

end Housed

/-- **A file drafted beside its place**, in a directory that is there. -/
structure Drafted (t : FileTree) (q : Path) (init : List (List Char)) (base : Location)
    (above : List String) (n : String) (out : Bytes) : Prop where
  housed : t.Housed q init base above n
  draft : t.Housed (draftPath q) init base above (n ++ ".enhancing")
  entry : t.entry? (base ++ (above ++ [n ++ ".enhancing"])) = some (.file out)

namespace Drafted

theorem spared (h : t.Drafted q init base above n out) (hs : Spares (base ++ above) n t t') :
    t'.Drafted q init base above n out where
  housed := h.housed.grown (hs.tree h.housed.tree) hs.grown
  draft := h.draft.grown (hs.tree h.housed.tree) hs.grown
  entry := by
    have hdraft := hs.draft
    rw [List.append_assoc] at hdraft
    rw [hdraft, h.entry]

/-- A draft is removed. -/
theorem removed (h : t.Drafted q init base above n out) :
    Touches (base ++ above) n change t (t.erase (base ++ (above ++ [n ++ ".enhancing"]))) where
  home := rfl
  tree htree := by
    rw [← List.append_assoc]
    refine htree.erase ?_
    rw [List.append_assoc, h.entry]
    nofun
  entry l := by
    rw [entry?_erase (by simp)]
    split
    · next hl =>
      refine .inr (.draft (by rw [hl, List.append_assoc]) ?_ trivial)
      rw [hl, h.entry]
      trivial
    · exact .inl rfl

/-- A draft is moved to its place, over what is loose there. -/
theorem moved (h : t.Drafted q init base above n out)
    (hplace : t.entry? (base ++ (above ++ [n])) ≠ some .directory)
    (hchange : change (base ++ (above ++ [n])) = some (.file out)) :
    Touches (base ++ above) n change t
      ((t.erase (base ++ (above ++ [n ++ ".enhancing"]))).put (base ++ (above ++ [n]))
        (.file out)) := by
  have hremoved : Touches (base ++ above) n change t _ := h.removed
  refine (composes_touches _ _ _).trans hremoved ⟨rfl, fun htree => ?_, fun l => ?_⟩
  · rw [← List.append_assoc base above [n]]
    refine htree.put (hremoved.grown.directory _ h.housed.directory) h.housed.isName ?_
    rwa [List.append_assoc, entry?_erase (by simp), if_neg (ClassRoot.draft_ne base above n)]
  · rw [entry?_put (by simp)]
    split
    · next hl =>
      refine .inr (.place out (by rw [hl, List.append_assoc]) ?_ (hl ▸ hchange))
      rw [hl, entry?_erase (by simp), if_neg (ClassRoot.draft_ne base above n)]
      exact loose_of_ne hplace (h.housed.heads.linkless _ List.prefix_rfl)
    · exact .inl rfl

end Drafted

namespace Housed

/-- A file is drafted where nothing stood. -/
theorem drafted (h : t.Housed q init base above n)
    (hvacant : t.entry? (base ++ (above ++ [n ++ ".enhancing"])) = none) (out : Bytes) :
    Drafted (t.put (base ++ (above ++ [n ++ ".enhancing"])) (.file out)) q init base above n out ∧
      Touches (base ++ above) n change t
        (t.put (base ++ (above ++ [n ++ ".enhancing"])) (.file out)) := by
  have hdraft := h.draft hvacant
  have htouches : Touches (base ++ above) n change t
      (t.put (base ++ (above ++ [n ++ ".enhancing"])) (.file out)) := by
    refine ⟨rfl, fun htree => ?_, fun l => ?_⟩
    · rw [← List.append_assoc] at hvacant ⊢
      exact htree.put h.directory hdraft.isName (by rw [hvacant]; nofun)
    · rw [entry?_put (by simp)]
      split
      · next hl =>
        refine .inr (.draft (by rw [hl, List.append_assoc]) ?_ trivial)
        rw [hl, hvacant]
        trivial
      · exact .inl rfl
  have htree := htouches.tree h.tree
  exact ⟨⟨h.grown htree htouches.grown, hdraft.grown htree htouches.grown,
    by rw [entry?_put (by simp), if_pos rfl]⟩, htouches⟩

/-- **A file is drafted**, or what goes wrong with its path or its name does,
whatever others do that spares the output. -/
theorem attempt_write (h : t.Housed q init base above n)
    (hvacant : t.entry? (base ++ (above ++ [n ++ ".enhancing"])) = none) :
    (attempt fun t => t.write (draftPath q) out).Promises (Spares (base ++ above) n)
      (Touches (base ++ above) n change)
      (fun made s =>
        (∃ fault, made = .error fault ∧ t.placeFault? q base above n = some fault ∧
          s.entry? (base ++ (above ++ [n ++ ".enhancing"])) = none) ∨
        (made = .ok () ∧ textFault? (draftPath q) = none ∧
          isTooLong (n ++ ".enhancing") = false ∧ s.Drafted q init base above n out ∧
          s.entry? (base ++ (above ++ [n])) = t.entry? (base ++ (above ++ [n])))) t := by
  have hG := composes_touches (base ++ above) n change
  refine promises_attempt fun s hs => ?_
  have hhoused := h.grown (hs.tree h.tree) hs.grown
  have hvacant' := hs.entry_draft.trans hvacant
  have hwrite := hhoused.write hvacant' out
  rcases htext : textFault? (draftPath q) with _ | fault
  swap
  · rw [htext] at hwrite
    have hfault : t.placeFault? q base above n = some fault := by
      rw [placeFault?, htext, Option.some_or]
    exact .inr ⟨fault, hwrite, hG.refl s, fun s' hs' =>
      .inl ⟨fault, rfl, hfault, hs'.entry_draft.trans hvacant'⟩⟩
  rw [htext] at hwrite
  rcases hshort : isTooLong (n ++ ".enhancing") with _ | _
  swap
  · simp only [hshort, if_true] at hwrite
    have hfault : t.placeFault? q base above n = some .nameTooLong := by
      rw [placeFault?, htext, hshort, Option.none_or, if_pos rfl]
    exact .inr ⟨_, hwrite, hG.refl s, fun s' hs' =>
      .inl ⟨_, rfl, hfault, hs'.entry_draft.trans hvacant'⟩⟩
  simp only [hshort, Bool.false_eq_true, if_false] at hwrite
  obtain ⟨hdrafted, htouches⟩ := hhoused.drafted hvacant' out
  refine .inl ⟨_, hwrite, htouches, fun s' hs' => .inr ⟨rfl, rfl, rfl, hdrafted.spared hs', ?_⟩⟩
  rw [hs'.entry_place, entry?_put (by simp), if_neg (ClassRoot.draft_ne base above n),
    hs.entry_place]

end Housed

namespace Drafted

/-- **What was drafted is moved to its place**, unless a directory is there. -/
theorem attempt_move (h : t.Drafted q init base above n out)
    (htext : textFault? (draftPath q) = none) (hshort : isTooLong (n ++ ".enhancing") = false)
    (hchange : t.placeFault? q base above n = none →
      change (base ++ (above ++ [n])) = some (.file out)) :
    (attempt fun t => t.move (draftPath q) q).Promises (Spares (base ++ above) n)
      (Touches (base ++ above) n change)
      (fun made s =>
        (made = .ok () ∧ t.placeFault? q base above n = none ∧
          s.entry? (base ++ (above ++ [n])) = some (.file out) ∧
          s.entry? (base ++ (above ++ [n ++ ".enhancing"])) = none) ∨
        (made = .error .isDirectory ∧ t.placeFault? q base above n = some .isDirectory ∧
          s.Drafted q init base above n out)) t := by
  have hfault : t.placeFault? q base above n =
      if t.entry? (base ++ (above ++ [n])) = some .directory then some .isDirectory else none := by
    rw [placeFault?, htext, hshort, Option.none_or, if_neg Bool.false_ne_true]
  refine promises_attempt fun s hs => ?_
  have hdrafted := h.spared hs
  have hmove := (hdrafted.housed.move_or_remove hdrafted.draft htext hshort hdrafted.entry).2
  rw [hs.entry_place] at hmove
  by_cases hover : t.entry? (base ++ (above ++ [n])) = some .directory
  · rw [if_pos hover] at hmove hfault
    exact .inr ⟨_, hmove, (composes_touches _ _ _).refl s, fun s' hs' =>
      .inr ⟨rfl, hfault, hdrafted.spared hs'⟩⟩
  · rw [if_neg hover] at hmove hfault
    refine .inl ⟨_, hmove, hdrafted.moved (by rwa [hs.entry_place]) (hchange hfault), fun s' hs' =>
      .inl ⟨rfl, hfault, ?_, ?_⟩⟩
    · rw [hs'.entry_place, entry?_put (by simp), if_pos rfl]
    · rw [hs'.entry_draft, entry?_put (by simp), if_neg (ClassRoot.draft_ne base above n).symm,
        entry?_erase (by simp), if_pos rfl]

/-- **Or it is removed** again. -/
theorem attempt_remove (h : t.Drafted q init base above n out)
    (htext : textFault? (draftPath q) = none) (hshort : isTooLong (n ++ ".enhancing") = false) :
    (attempt fun t => t.remove (draftPath q)).Promises (Spares (base ++ above) n)
      (Touches (base ++ above) n change)
      (fun _ s => s.entry? (base ++ (above ++ [n ++ ".enhancing"])) = none) t := by
  refine promises_attempt fun s hs => ?_
  have hdrafted := h.spared hs
  have hremove := (hdrafted.housed.move_or_remove hdrafted.draft htext hshort hdrafted.entry).1
  refine .inl ⟨_, hremove, hdrafted.removed, fun s' hs' => ?_⟩
  rw [hs'.entry_draft, entry?_erase (by simp), if_pos rfl]

end Drafted

/-- **A file is written into its directory**, over what stands there unless
that is a directory, and what is drafted is gone; whatever others do that
spares the output. -/
theorem Housed.besideJob (h : t.Housed q init base above n)
    (hvacant : t.entry? (base ++ (above ++ [n ++ ".enhancing"])) = none)
    (hchange : t.placeFault? q base above n = none →
      change (base ++ (above ++ [n])) = some (.file out)) :
    (FileTree.besideJob q out).Promises (Spares (base ++ above) n)
      (Touches (base ++ above) n change)
      (fun made s => made = outcomeOf (t.placeFault? q base above n) ∧
        (t.placeFault? q base above n = none →
          s.entry? (base ++ (above ++ [n])) = some (.file out)) ∧
        s.entry? (base ++ (above ++ [n ++ ".enhancing"])) = none) t := by
  have hR := composes_spares (base ++ above) n
  -- where it ends with a fault, that is the one foreseen
  have hfails : ∀ {fault s}, t.placeFault? q base above n = some fault →
      s.entry? (base ++ (above ++ [n ++ ".enhancing"])) = none →
      (pure (.error fault) : Job FileTree (Except Fault Unit)).Promises (Spares (base ++ above) n)
        (Touches (base ++ above) n change)
        (fun made s => made = outcomeOf (t.placeFault? q base above n) ∧
          (t.placeFault? q base above n = none →
            s.entry? (base ++ (above ++ [n])) = some (.file out)) ∧
          s.entry? (base ++ (above ++ [n ++ ".enhancing"])) = none) s := by
    intro fault s hfault hgone
    rw [hfault]
    exact Job.promises_pure fun s' hs' => ⟨rfl, nofun, hs'.entry_draft.trans hgone⟩
  rw [FileTree.besideJob]
  refine (h.attempt_write hvacant).bind hR fun made s hmade => ?_
  rcases hmade with ⟨fault, rfl, hfault, hgone⟩ | ⟨rfl, htext, hshort, hdrafted, hplace⟩
  · exact hfails hfault hgone
  have hsame : s.placeFault? q base above n = t.placeFault? q base above n := by
    rw [placeFault?, placeFault?, hplace]
  refine (hdrafted.attempt_move htext hshort (hsame ▸ hchange)).bind hR fun made s' hmade => ?_
  rw [hsame] at hmade
  rcases hmade with ⟨rfl, hnone, hfile, hgone⟩ | ⟨rfl, hfault, hdrafted⟩
  · rw [hnone]
    exact Job.promises_pure fun s'' hs'' =>
      ⟨rfl, fun _ => hs''.entry_place.trans hfile, hs''.entry_draft.trans hgone⟩
  · exact (hdrafted.attempt_remove htext hshort).bind hR fun _ _ hgone => hfails hfault hgone

/-! ## Writing and reading -/

/-- **What goes wrong with writing an output**, if anything does. -/
def writeFault? (t : FileTree) (q : Path) (base : Location) (above : List String) (n : String) :
    Option Fault :=
  (parentFault? q).or ((t.blocked? base above).or (t.placeFault? q base above n))

/-- **What stands where after an output was written**, where that has a say:
the file, if nothing went wrong, and the directories on the way that could
be made. -/
def written? (t : FileTree) (q : Path) (base : Location) (above : List String) (n : String)
    (out : Bytes) (l : Location) : Option Entry :=
  if l = base ++ (above ++ [n]) ∧ t.writeFault? q base above n = none then some (.file out)
  else if parentFault? q = none ∧ (t.cleared base above).contains l then some .directory else none

/-- So it is the file in its place, or a directory on the way. -/
theorem of_written? {e : Entry} (h : t.written? q base above n out l = some e) :
    (l = base ++ (above ++ [n]) ∧ t.writeFault? q base above n = none ∧ e = .file out) ∨
      (l ∈ (if parentFault? q = none then t.cleared base above else []) ∧ e = .directory) := by
  rw [written?] at h
  split at h
  · next hplace => exact .inl ⟨hplace.1, hplace.2, (Option.some.inj h).symm⟩
  · split at h
    · next hway =>
      rw [if_pos hway.1]
      exact .inr ⟨List.contains_iff_mem.1 hway.2, (Option.some.inj h).symm⟩
    · cases h

/-- All directories on the way that can be made are foreseen. -/
theorem written?_way (h : l ∈ (if parentFault? q = none then t.cleared base above else [])) :
    l <+: base ++ above ∧ t.written? q base above n out l = some .directory := by
  split at h
  · next hparent =>
    obtain ⟨below, hbelow, -, rfl, -⟩ := of_mem_cleared h
    have hway := (List.prefix_append_right_inj base).2 hbelow
    refine ⟨hway, ?_⟩
    rw [written?, if_neg, if_pos ⟨hparent, List.contains_iff_mem.2 h⟩]
    rintro ⟨hplace, -⟩
    rw [hplace, ← List.append_assoc] at hway
    exact not_way hway
  · cases h

namespace Heads

/-- Once its directories are made, an output is in one that is there. -/
theorem housed (h : t.Heads q init base (above ++ [n])) (htree : t'.IsTree) (hgrown : Grown t t')
    (hblocked : t'.blocked? base above = none)
    (hdirs : ∀ l ∈ t'.cleared base above, t'.entry? l = some .directory) :
    t'.Housed q init base above n where
  tree := htree
  heads := h.grown hgrown
  directory := by
    rcases eq_or_ne above [] with rfl | hne
    · rw [List.append_nil]
      exact hgrown.directory _ h.directory
    · exact hdirs _ ((of_blocked?_eq_none hblocked).2 above List.prefix_rfl hne)
  unblocked := hblocked

/-- **An output is read** if its path and its names are short enough and a
file stands there. -/
theorem read_ok (htree : t.IsTree) (h : t.Heads q init base names) :
    t.read q = .ok bytes ↔ textFault? q = none ∧ (∀ n ∈ names, isTooLong n = false) ∧
      t.entry? (base ++ names) = some (.file bytes) := by
  rw [read, stat, h.resolve]
  rcases textFault? q with _ | fault
  · simp only [true_and]
    rcases hdescend : t.descend base names with fault | r
    · constructor
      · intro hread
        cases hread
      · rintro ⟨hshort, hentry⟩
        have hok : t.descend base names = .ok (base ++ names) :=
          descend_ok.2 ⟨rfl, hshort, (htree.of_isSome (by rw [hentry]; rfl)).2⟩
        rw [hdescend] at hok
        cases hok
    · obtain ⟨rfl, hshort, -⟩ := descend_ok.1 hdescend
      rw [and_iff_right hshort]
      rcases hentry : t.entry? (base ++ names) with _ | b | _ | target <;>
        simp [bind, Except.bind, hentry]
  · simp [bind, Except.bind]

end Heads

end FileTree

end ClassWeave
