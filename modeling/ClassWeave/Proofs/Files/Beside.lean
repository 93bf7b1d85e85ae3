import ClassWeave.Proofs.Files.Output
import Mathlib.Data.List.TakeWhile
import Mathlib.Logic.Relation
/-!
# Files -- a file written beside its place

A file is written as a whole in four operations, and each can fail for the
shape of the path alone. What has been done by then is said once for each part,
for every path and every tree without links. The directories of the place are
made as far as it gets, and nothing else is changed (`FileTree.Widened`). Then
the octets are written beside the place and moved to it, or taken away again
(`FileTree.writeBeside_cases`).
-/


namespace ClassWeave

namespace Path

variable {p a : Path}

/-- One step up from a path, to its parent. -/
def Ascends (p q : Path) : Prop := p.parent? = some q

/-- One steps up from a path to its ancestors. -/
theorem ascends_of_mem_ancestors (h : a ∈ p.ancestors) : Relation.ReflTransGen Ascends p a := by
  have hgo : ∀ (fuel : Nat) (p : Path), a ∈ ancestors.go p fuel →
      Relation.ReflTransGen Ascends p a := by
    intro fuel
    induction fuel with
    | zero =>
      intro p ha
      rw [List.mem_singleton.1 ha]
    | succ fuel ih =>
      intro p ha
      rcases List.mem_cons.1 ha with rfl | ha
      · exact .refl
      · rcases hparent : p.parent? with _ | q
        · rw [hparent] at ha
          cases ha
        · rw [hparent] at ha
          exact .head hparent (ih q ha)
  exact hgo _ p h

end Path

namespace FileTree

variable {t t' t'' : FileTree} {p a : Path} {made : Path → Prop} {l loc r : Location} {e : Entry}
  {follow : Bool} {out : Bytes}

/-! ## Trees without links -/

/-- Where there are no links, it makes no difference whether one in the last
place would be followed. -/
theorem Leads.refollow {n : Nat} {xs : List String} (h : Leads t follow n loc xs r)
    (hlinks : t.LinkFree []) (follow' : Bool) : Leads t follow' n loc xs r := by
  induction h with
  | done => exact .done
  | here hdir _ ih => exact .here hdir ih
  | up hdir _ ih => exact .up hdir ih
  | into hdir hdot hup hlong hnolink _ ih => exact .into hdir hdot hup hlong hnolink ih
  | stop _ _ _ _ hentry => exact absurd hentry (hlinks _ _ List.nil_prefix)
  | through _ _ _ _ hentry => exact absurd hentry (hlinks _ _ List.nil_prefix)

theorem resolve_refollow (hlinks : t.LinkFree []) (follow' : Bool)
    (h : t.resolve follow p = .ok r) : t.resolve follow' p = .ok r := by
  obtain ⟨hnul, hempty, hlong, hleads⟩ := resolve_ok.1 h
  exact resolve_ok.2 ⟨hnul, hempty, hlong, hleads.refollow hlinks follow'⟩

/-- A path reaches what stands where it leads. -/
theorem reaches_iff : t.reaches p = true ↔
    ∃ r e, t.resolve true p = .ok r ∧ t.entry? r = some e := by
  have hstat : t.reaches p = true ↔ ∃ e, t.stat p = .ok e := by
    rw [reaches]
    rcases t.stat p with fault | e <;> simp
  rw [hstat]
  constructor
  · rintro ⟨e, he⟩
    obtain ⟨r, hr, hentry⟩ := stat_ok.1 he
    exact ⟨r, e, hr, hentry⟩
  · rintro ⟨r, e, hr, hentry⟩
    exact ⟨e, stat_ok.2 ⟨r, hr, hentry⟩⟩

/-- A path that reaches nothing leads to where nothing stands, if anywhere. -/
theorem entry?_of_not_reaches (h : t.reaches p = false) (hr : t.resolve true p = .ok r) :
    t.entry? r = none := by
  rcases hentry : t.entry? r with _ | e
  · rfl
  · rw [reaches_iff.2 ⟨r, e, hr, hentry⟩] at h
    cases h

theorem not_reaches_of_vacant (hshape : SameShape t t')
    (hentry : ∀ r, t.resolve true p = .ok r → t'.entry? r = none) : t'.reaches p = false := by
  rw [← Bool.not_eq_true, reaches_iff]
  rintro ⟨r, e, hr, he⟩
  rw [hentry r (resolve_grown hshape.symm.grown hr)] at he
  cases he

/-! ## Directories that are made -/

/-- **Directories were made** that certain paths lead to, where nothing stood,
and nothing else was changed. -/
structure Widened (made : Path → Prop) (t t' : FileTree) : Prop where
  home : t'.home = t.home
  entry : ∀ l, t'.entry? l = t.entry? l ∨ t.entry? l = none ∧ t'.entry? l = some .directory ∧
    ∃ a, made a ∧ t'.resolve false (bare a) = .ok l

namespace Widened

theorem refl (made : Path → Prop) (t : FileTree) : Widened made t t := ⟨rfl, fun _ => .inl rfl⟩

theorem kept (h : Widened made t t') (hentry : t.entry? l = some e) : t'.entry? l = some e := by
  rcases h.entry l with hsame | ⟨hnone, -⟩
  · rw [hsame, hentry]
  · rw [hentry] at hnone
    cases hnone

theorem entry_of_ne (h : Widened made t t') (hentry : t'.entry? l = some e) (he : e ≠ .directory) :
    t.entry? l = some e := by
  rcases h.entry l with hsame | ⟨-, hdir, -⟩
  · rw [← hsame, hentry]
  · rw [hentry] at hdir
    exact absurd (Option.some.inj hdir) he

theorem grown (h : Widened made t t') : Grown t t' where
  home := h.home
  directory _ := h.kept
  link _ _ := ⟨fun hlink => h.entry_of_ne hlink nofun, h.kept⟩

/-- More directories can be made. -/
theorem trans (h : Widened made t t') (h' : Widened made t' t'') : Widened made t t'' where
  home := h'.home.trans h.home
  entry l := by
    rcases h'.entry l with hsame | ⟨hnone, hdir, hled⟩
    · rcases h.entry l with hsame' | ⟨hnone, hdir, a, ha, hled⟩
      · exact .inl (hsame.trans hsame')
      · exact .inr ⟨hnone, hsame.trans hdir, a, ha, resolve_grown h'.grown hled⟩
    · rcases h.entry l with hsame' | ⟨-, hdir', -⟩
      · exact .inr ⟨hsame'.symm.trans hnone, hdir, hled⟩
      · rw [hnone] at hdir'
        cases hdir'

theorem congr (h : Widened made t t') (hhome : t''.home = t'.home)
    (hentry : ∀ l, t''.entry? l = t'.entry? l) : Widened made t t'' :=
  h.trans ⟨hhome, fun l => .inl (hentry l)⟩

theorem stat (h : Widened made t t') (hstat : t.stat p = .ok e) : t'.stat p = .ok e := by
  obtain ⟨r, hr, hentry⟩ := stat_ok.1 hstat
  exact stat_ok.2 ⟨r, resolve_grown h.grown hr, h.kept hentry⟩

end Widened

/-- One directory is made where its path leads. -/
theorem widened_makeDirectory (ha : made a) (h : t.makeDirectory a = .ok t') :
    Widened made t t' := by
  rw [makeDirectory] at h
  rcases hr : t.resolve false (bare a) with fault | r
  · rw [hr] at h
    cases h
  rw [hr] at h
  rcases hentry : t.entry? r with _ | e
  swap
  · simp only [bind, Except.bind, hentry, reduceCtorEq] at h
  simp only [bind, Except.bind, hentry, Except.ok.injEq] at h
  obtain rfl := h
  have hne : r ≠ [] := by
    rintro rfl
    simp [ entry?] at hentry
  have hgrown : Grown t (t.put r .directory) := by
    refine ⟨rfl, fun l hdir => ?_, fun l target => ?_⟩
    · rw [entry?_put hne, hdir, ite_self]
    · rw [entry?_put hne]
      split
      · next hl => simp [hl, hentry]
      · exact Iff.rfl
  refine ⟨rfl, fun l => ?_⟩
  rw [entry?_put hne]
  split
  · next hl =>
    rw [hl]
    exact .inr ⟨hentry, rfl, a, ha, resolve_grown hgrown hr⟩
  · exact .inl rfl

/-- **Directories are made as far as it gets**, and nothing else is changed. -/
theorem widened_makeDirectoriesOf {paths : List Path} (hpaths : ∀ a ∈ paths, made a) :
    Widened made t (t.makeDirectoriesOf paths).1 := by
  induction paths with
  | nil => exact .refl made t
  | cons p up ih =>
    rw [List.forall_mem_cons] at hpaths
    rw [makeDirectoriesOf]
    split
    · exact .refl made t
    · split
      · next hmade => exact widened_makeDirectory hpaths.1 hmade
      · -- the directory was missing, so those above it come first
        have hup := ih hpaths.2
        split
        · next hrest => rwa [hrest] at hup
        · next hrest =>
          rw [hrest] at hup
          split
          · next hmade => exact hup.trans (widened_makeDirectory hpaths.1 hmade)
          · exact hup
      · exact .refl made t

/-- So are the directories that a path is in. -/
theorem widened_makeParents :
    Widened (Relation.TransGen Path.Ascends p) t (t.makeParents p).1 := by
  rw [makeParents]
  split
  · next q hq =>
    split
    · exact .refl _ t
    · exact widened_makeDirectoriesOf fun a ha => .head' hq (Path.ascends_of_mem_ancestors ha)
  · exact .refl _ t

/-! ## The output and its draft -/

/-- What ends in a slash though it is bare is nothing but slashes. -/
theorem all_slashes_of_bare (hbare : bare p = p) (hslash : p.text.toList.getLast? = some '/') :
    ∀ c ∈ p.text.toList, c = '/' := by
  have htext := congrArg (fun p => p.text.toList) hbare
  rw [bare] at htext
  dsimp only at htext
  rw [String.toList_ofList] at htext
  have hnot := List.head?_dropWhile_not (· == '/') p.text.toList.reverse
  split at htext
  · next hnil =>
    rw [List.reverse_eq_nil_iff, List.dropWhile_eq_nil_iff] at hnil
    intro c hc
    exact eq_of_beq (hnil c (List.mem_reverse.2 hc))
  · rw [← htext, List.getLast?_reverse] at hslash
    rw [hslash] at hnot
    cases hnot

/-- Such a path is the root, and names no entry. -/
theorem not_slash_of_bare (hbare : bare p = p) (hdots : endsInDots p = false) :
    p.text.toList.getLast? ≠ some '/' := by
  intro hslash
  have hall := all_slashes_of_bare hbare hslash
  have hempty : ∀ s ∈ p.segments, s = [] := by
    intro s hs
    rcases s with _ | ⟨c, s⟩
    · rfl
    · have hc : c ≠ '/' := by
        rintro rfl
        exact Text.not_mem_of_mem_pieces hs List.mem_cons_self
      exact absurd (hall c ((Text.mem_iff_exists_piece hc).2 ⟨_, hs, List.mem_cons_self⟩)) hc
  have hnone : (p.segments.filter fun s => !s.isEmpty) = [] := by
    rw [List.filter_eq_nil_iff]
    intro s hs
    simp [hempty s hs]
  have hrooted : p.isRooted = true := by
    rw [Path.isRooted]
    rcases hcs : p.text.toList with _ | ⟨c, cs⟩
    · rw [hcs] at hslash
      cases hslash
    · rw [hall c (hcs ▸ List.mem_cons_self)]
      rfl
  rw [endsInDots, hnone, List.getLast?_nil] at hdots
  dsimp only at hdots
  rw [hrooted] at hdots
  cases hdots

/-- The steps of a path that does not end in a slash end with its last
segment. -/
theorem steps_concat {init : List (List Char)} {s : List Char}
    (hsegments : p.segments = init ++ [s]) (hs : s ≠ []) :
    steps p = stepsOf init ++ [String.ofList s] := by
  have hslash : p.text.toList.getLast? ≠ some '/' := by
    intro hslash
    rw [Path.segments_of_slash hslash] at hsegments
    exact hs (List.singleton_inj.1 (List.append_inj_right' hsegments rfl)).symm
  have hlast : stepsOf [s] = [String.ofList s] := by simp [stepsOf, hs]
  rw [steps, if_neg hslash, ← stepsOf, hsegments, stepsOf_append, hlast]

/-- **An output that a file can be moved to stands beside its draft.** -/
theorem draft_beside {place : Location} (hlinks : t.LinkFree []) (hempty : p.text ≠ "")
    (hdots : endsInDots p = false) (hbare : bare p = p) (hplace : t.resolve true p = .ok place)
    (hloc : t.resolve true (draftPath p) = .ok loc) : place ≠ loc := by
  obtain ⟨-, -, -, hleads⟩ := resolve_ok.1 hplace
  obtain ⟨-, -, -, hdraft⟩ := resolve_ok.1 hloc
  obtain ⟨init, s, hsegments, hs⟩ :=
    Path.exists_last_segment hempty (not_slash_of_bare hbare hdots)
  have hfilter : ([s].filter fun s => !s.isEmpty) = [s] := by simp [hs]
  rw [endsInDots, hsegments, List.filter_append, hfilter, List.getLast?_concat] at hdots
  dsimp only at hdots
  rw [Bool.or_eq_false_iff, beq_eq_false_iff_ne, beq_eq_false_iff_ne] at hdots
  have hname : ∀ x d : List Char, x ≠ d → String.ofList x ≠ String.ofList d := fun x d hne heq =>
    hne (String.ofList_injective heq)
  have hlonger : ∀ d : List Char, d.length < 10 → s ++ ".enhancing".toList ≠ d := by
    rintro d hd rfl
    rw [List.length_append] at hd
    exact absurd hd (Nat.not_lt.2 (Nat.le_add_left _ _))
  -- both are taken from one directory, by names that differ
  rw [steps_concat hsegments hs] at hleads
  rw [steps_concat (Path.Spells.segments_draft hsegments) (by simp),
    ← startOf_beginning hempty (text_draftPath p)] at hdraft
  obtain ⟨d, -, hfront⟩ := hleads.front (List.cons_ne_nil _ _)
  obtain ⟨m, hm⟩ := hfront.append_iff
  have hplace' := (hm _ _ _ (List.cons_ne_nil _ _)).1 hleads
  have hloc' := (hm _ _ _ (List.cons_ne_nil _ _)).1 hdraft
  rw [leads_into (hname _ ['.'] hdots.1) (hname _ ['.', '.'] hdots.2)
    fun target => hlinks _ target List.nil_prefix, leads_nil] at hplace'
  rw [leads_into (hname _ ['.'] (hlonger _ (by decide)))
    (hname _ ['.', '.'] (hlonger _ (by decide)))
    fun target => hlinks _ target List.nil_prefix, leads_nil] at hloc'
  rw [hplace'.2.2, hloc'.2.2]
  intro heq
  have hsame := String.ofList_injective (List.singleton_inj.1 (List.append_cancel_left heq))
  exact absurd (congrArg List.length hsame) (by simp)

/-! ## Writing beside and moving -/

/-- What a move that succeeds does, and for what paths. -/
theorem of_move_ok {old new : Path} (h : t.move old new = .ok t') :
    new.text ≠ "" ∧ endsInDots new = false ∧ bare new = new ∧ ∃ source place e,
      t.resolve false old = .ok source ∧ t.resolve false new = .ok place ∧
        t.entry? source = some e ∧ t.entry? place ≠ some .directory ∧
          t' = (t.erase source).put place e := by
  unfold move at h
  split at h
  · cases h
  next hempty =>
  split at h
  · cases h
  next hdots =>
  rw [Bool.or_eq_true, not_or, Bool.not_eq_true, Bool.not_eq_true] at hdots
  rcases hsource : t.resolve false old with fault | source
  · rw [hsource] at h
    cases h
  rcases hplace : t.resolve false (bare new) with fault | place
  · rw [hsource, hplace] at h
    cases h
  simp only [hsource, hplace, bind, Except.bind] at h
  split at h
  · cases h
  next e hentry =>
  split at h
  · cases h
  next hbare =>
  rw [ne_eq, not_not] at hbare
  split at h
  · cases h
  next hdir =>
  rw [hbare] at hplace
  exact ⟨hempty, hdots.2, hbare, source, place, e, rfl, hplace, hentry, hdir,
    (Except.ok.inj h).symm⟩

/-- **What comes of writing a file beside its place**: nothing, if it cannot be
written there; or it is written and taken away again; or it is moved to its
place, which is another. -/
theorem writeBeside_cases (hlinks : t.LinkFree []) (p : Path) (out : Bytes) :
    (∃ fault, t.writeBeside p out = (t, .error fault) ∧
        ∀ loc, t.resolve true (draftPath p) = .ok loc → t.entry? loc = some .directory) ∨
      ∃ loc, loc ≠ [] ∧ t.resolve true (draftPath p) = .ok loc ∧
        t.entry? loc ≠ some .directory ∧
        ((∃ fault, t.writeBeside p out = ((t.put loc (.file out)).erase loc, .error fault)) ∨
          ∃ place, place ≠ [] ∧ place ≠ loc ∧ t.resolve true p = .ok place ∧
            t.entry? place ≠ some .directory ∧
            t.writeBeside p out =
              (((t.put loc (.file out)).erase loc).put place (.file out), .ok ())) := by
  have hroot : ∀ {l : Location}, t.entry? l ≠ some .directory → l ≠ [] := by
    rintro l hl rfl
    exact hl (by simp [ entry?])
  have hlink : ∀ l target, t.entry? l ≠ some (.link target) :=
    fun l target => hlinks l target List.nil_prefix
  rcases hloc : t.resolve true (draftPath p) with fault | loc
  · left
    refine ⟨fault, ?_, fun loc hok => by cases hok⟩
    rw [writeBeside, write, hloc]
    rfl
  by_cases hdir : t.entry? loc = some .directory
  · left
    refine ⟨.isDirectory, ?_, ?_⟩
    · rw [writeBeside, write, hloc]
      simp only [bind, Except.bind, hdir]
    · rintro _ ⟨⟩
      exact hdir
  right
  have hne := hroot hdir
  have hshape : SameShape t (t.put loc (.file out)) := sameShape_put hne hdir (hlink loc)
  have hlinks' : FileTree.LinkFree (t.put loc (.file out)) [] := hlinks.grown hshape.grown
  have hdraft : FileTree.resolve (t.put loc (.file out)) false (draftPath p) = .ok loc :=
    resolve_refollow hlinks' false (resolve_grown hshape.grown hloc)
  have hthere : FileTree.entry? (t.put loc (.file out)) loc = some (.file out) := by
    rw [entry?_put hne, if_pos rfl]
  have hwrite : t.write (draftPath p) out = .ok (t.put loc (.file out)) := by
    rw [write, hloc]
    simp only [bind, Except.bind]
  refine ⟨loc, hne, rfl, hdir, ?_⟩
  rw [writeBeside, hwrite]
  dsimp only
  rcases hmove : FileTree.move (t.put loc (.file out)) (draftPath p) p with fault | t'
  · -- what was written can be taken away again
    left
    refine ⟨fault, ?_⟩
    rw [remove, hdraft]
    simp only [bind, Except.bind, hthere]
  · right
    obtain ⟨hempty, hdots, hbare, source, place, e, hsource, hplace, he, hover, rfl⟩ :=
      of_move_ok hmove
    rw [hdraft] at hsource
    obtain rfl := Except.ok.inj hsource
    rw [hthere] at he
    obtain rfl := Option.some.inj he
    have hplace' : t.resolve true p = .ok place :=
      resolve_grown hshape.symm.grown (resolve_refollow hlinks' true hplace)
    have hover' := mt (hshape.directory place).2 hover
    exact ⟨place, hroot hover', draft_beside hlinks hempty hdots hbare hplace' hloc, hplace',
      hover', rfl⟩

end FileTree

end ClassWeave
