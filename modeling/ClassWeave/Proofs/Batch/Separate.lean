import ClassWeave.Proofs.Batch.Pointwise
import ClassWeave.Proofs.Batch.Written
import ClassWeave.Proofs.Eligibility
import ClassWeave.Proofs.Enhancer.Writes
/-!
# Batch -- a second run to a separate destination

A run whose output goes to a destination apart from the class root changes
nothing below the class root, and leaves both fit for the next run
(`run_apart`). What it wrote is in place (`Stored`) and is a copy of what was
read (`IsCopy`): the marker's digest comes back from its text whatever the
identities of the passes are. A second run, with any class files edited in
between (`Edited`), classifies each of them by its copy (`classify_stored`),
so that the copy stays if the digests agree and is written over if they do
not (`rerun_separate`).
-/


namespace ClassWeave

namespace FileTree

variable {t t' : FileTree} {root d : Path} {top place loc l : Location} {names : List String}
  {n : String}

/-- **Two locations apart**: neither is on the way to the other. -/
def Apart (l l' : Location) : Prop := ¬ l <+: l' ∧ ¬ l' <+: l

instance decidableApart (l l' : Location) : Decidable (Apart l l') :=
  inferInstanceAs (Decidable (¬ l <+: l' ∧ ¬ l' <+: l))

theorem Apart.symm (h : Apart top place) : Apart place top := And.symm h

theorem Apart.not_prefix (h : Apart top place) : ¬ top <+: place ++ names := by
  intro htop
  rcases List.prefix_or_prefix_of_prefix htop (List.prefix_append place names) with hl | hl
  · exact h.1 hl
  · exact h.2 hl

/-- **A tree in which files below a location were edited**: any of them may
hold other octets, and everything else is as it was. -/
structure Edited (top : Location) (t t' : FileTree) : Prop where
  home : t'.home = t.home
  tree : t'.IsTree
  entry : ∀ l, t'.entry? l = t.entry? l ∨
    top <+: l ∧ (∃ bytes, t.entry? l = some (.file bytes)) ∧ ∃ bytes, t'.entry? l = some (.file bytes)

/-- Other octets in one file are an edit. -/
theorem edited_put {bytes out : Bytes} (htree : t.IsTree)
    (hfile : t.entry? (top ++ names ++ [n]) = some (.file bytes)) :
    Edited top t (t.put (top ++ names ++ [n]) (.file out)) where
  home := rfl
  tree := by
    have hsome : (t.entry? (top ++ names ++ [n])).isSome := by rw [hfile]; rfl
    exact htree.put (htree.within _ _ hsome)
      ((htree.of_isSome hsome).1 n List.mem_cons_self)
      (by rw [hfile]; nofun)
  entry l := by
    rw [entry?_put (by simp)]
    split
    · next hl => exact .inr ⟨hl ▸ List.append_assoc top .. ▸ List.prefix_append _ _,
        ⟨bytes, hl ▸ hfile⟩, out, rfl⟩
    · exact .inl rfl

namespace Edited

variable (h : Edited top t t')
include h

/-- The tree keeps its shape. -/
theorem shape : SameShape t t' where
  home := h.home
  directory l := by
    rcases h.entry l with hl | ⟨-, ⟨bytes, hl⟩, bytes', hl'⟩
    · rw [hl]
    · rw [hl, hl']
      exact ⟨nofun, nofun⟩
  link l target := by
    rcases h.entry l with hl | ⟨-, ⟨bytes, hl⟩, bytes', hl'⟩
    · rw [hl]
    · rw [hl, hl']
      exact ⟨nofun, nofun⟩

theorem isSome (l : Location) : (t'.entry? l).isSome = (t.entry? l).isSome := by
  rcases h.entry l with hl | ⟨-, ⟨bytes, hl⟩, bytes', hl'⟩
  · rw [hl]
  · rw [hl, hl']
    rfl

theorem entry_of_not_prefix (hl : ¬ top <+: l) : t'.entry? l = t.entry? l :=
  (h.entry l).resolve_right fun hedited => hl hedited.1

theorem undrafted (hundrafted : t.Undrafted loc) : t'.Undrafted loc := fun names hne hsome =>
  hundrafted names hne (by rwa [h.isSome] at hsome)

theorem sites (hsites : Sites t root d top place) : Sites t' root d top place where
  classRoot := hsites.classRoot.shape h.tree h.shape
  aims := hsites.aims.grown h.shape.grown
  linkFree := hsites.linkFree.grown h.shape.grown
  undrafted := h.undrafted hsites.undrafted
  vacant := h.undrafted hsites.vacant

end Edited

/-- Whether a location is that of a draft is a matter of its last name. -/
theorem IsDraft.behind (h : IsDraft (loc ++ names)) (hne : names ≠ []) (loc' : Location) :
    IsDraft (loc' ++ names) := by
  obtain ⟨above, n, hn, hdraft⟩ := h
  obtain ⟨names, m, rfl⟩ := (List.eq_nil_or_concat' names).resolve_left hne
  rw [← List.append_assoc] at hdraft
  obtain ⟨-, hm⟩ := List.append_inj' hdraft rfl
  exact ⟨loc' ++ names, n, hn, by rw [hm, List.append_assoc]⟩

end FileTree

namespace Batch

open FileTree (Sites Merges Apart Edited Ready Writing EvolvedBelow)
open Processor (started)
open Scan (refreshed)

variable {p : Processor} {w w' : Workspace} {root d : Path} {top place l : Location}
  {s s' : ScannedUnit} {above names : List String} {n : String} {units : List ScannedUnit}
  {o : Writing} {t t' : FileTree} {out bytes : Bytes} {destination : Option Path}
  {recursive : Bool} {scan : ScanReport} {events : List Event} {calls : List PassCall}
  {c : ClassFile}

/-! ## What a run leaves -/

/-- **Below a class root a run to a destination apart changes nothing.** -/
theorem below_merged (h : Sites w.files root (destination.getD root) top place)
    (hapart : Apart top place) (hfound : ∀ s ∈ units, Scan.Found w.files root top s)
    (hmerges : Merges w.files (units.map (aloneFiles p destination w)) t') (hl : top <+: l) :
    t'.entry? l = w.files.entry? l := by
  rcases entry_cases h hfound hmerges l with hsame | ⟨s', -, above, n, o, e, hturn, hafter, -⟩
  · exact hsame
  · rcases hturn.made hafter with ⟨rfl, -⟩ | ⟨hway, -⟩
    · exact absurd hl hapart.not_prefix
    · exact absurd (hl.trans hway) hapart.not_prefix

/-- **The class root and the destination stay**, for the next run. -/
theorem sites_merged (h : Sites w.files root ((some d).getD root) top place)
    (hapart : Apart top place) (hfound : ∀ s ∈ units, Scan.Found w.files root top s)
    (htree : t'.IsTree) (hmerges : Merges w.files (units.map (aloneFiles p (some d) w)) t') :
    Sites t' root d top place where
  classRoot := h.classRoot.grown htree (grown_of_merges h hfound hmerges)
  aims := h.aims.grown (grown_of_merges h hfound hmerges)
  linkFree := h.linkFree.grown (grown_of_merges h hfound hmerges)
  undrafted names hne hsome := by
    rw [below_merged h hapart hfound hmerges (List.prefix_append _ _)] at hsome
    exact h.undrafted names hne hsome
  vacant names hne hsome hdraft := by
    rcases entry_cases h hfound hmerges (place ++ names) with
      hsame | ⟨s', -, above, n, o, e, hturn, hafter, -⟩
    · rw [hsame] at hsome
      exact h.vacant names hne hsome hdraft
    · -- what was made there has its names from below the class root
      exact h.undrafted names hne (hturn.isSome_of_prefix (hturn.prefix_of_made hafter))
        (hdraft.behind hne top)

/-- **A class file with its output in place**: the output can be written, and
is there with some octets. -/
def Stored (d : Path) (t : FileTree) (top place : Location) (s : ScannedUnit) (out : Bytes) : Prop :=
  ∃ above n o, Turn (some d) t top place s above n o ∧ o.fault = none ∧
    t.entry? (place ++ above ++ [n]) = some (.file out)

theorem Stored.read (h : Stored d t top place s out) :
    t.read (locate (some d) s).output = .ok out := by
  obtain ⟨above, n, o, hturn, hfault, hentry⟩ := h
  rw [hturn.outlet.read hturn.start.tree hturn.start.grown]
  exact ⟨(hturn.outlet.placed hfault).1, hentry⟩

/-- Class files in the same place below the class root have their turns at
the same place. -/
theorem Turn.names_eq {above' : List String} {n' : String} {o' : Writing}
    (h : Turn (some d) t top place s above n o) (h' : Turn (some d) t' top place s' above' n' o')
    (hrelative : s'.relative = s.relative) : above' = above ∧ n' = n := by
  have hnames : ∀ {t s above n o}, Turn (some d) t top place s above n o →
      ∀ m ∈ above ++ [n], Path.IsName m := fun h =>
    (h.start.tree.of_isSome (by rw [h.entry]; rfl)).1
  have heq := Scan.relativePath_inj (hnames h') (by simp) (hnames h) (by simp)
    (h'.relative.symm.trans (hrelative.trans h.relative))
  obtain ⟨habove, hn⟩ := List.append_inj' heq rfl
  exact ⟨habove, (List.cons.inj hn).1⟩

/-- **A class file whose output could be written has it in place**, in a tree
that is ready for it and has the file there. -/
theorem Turn.stored (hturn : Turn (some d) t top place s above n o) (hfault : o.fault = none)
    (h' : Sites t' root ((some d).getD root) top place) (hs' : Scan.Found t' root top s')
    (hrelative : s'.relative = s.relative) (hready : Ready t t' (place ++ above) n)
    (hentry : t'.entry? (place ++ above ++ [n]) = some (.file out)) :
    Stored d t' top place s' out := by
  obtain ⟨above', n', o', hturn'⟩ := exists_turn h' hs'
  obtain ⟨rfl, rfl⟩ := hturn.names_eq hturn' hrelative
  have houtput : (locate (some d) s').output = (locate (some d) s).output := by
    simp only [locate, hrelative]
  -- it can be written still, since writing comes to the same
  obtain ⟨t₁, hwrite, -⟩ := hturn.outlet.write hready []
  obtain ⟨t₂, hwrite', -⟩ := hturn'.outlet.write hturn'.start.ready []
  rw [houtput, hwrite, hfault] at hwrite'
  have hfault' : o'.fault = none := by
    rcases hf : o'.fault with _ | fault
    · rfl
    · rw [hf] at hwrite'
      cases (Prod.mk.inj hwrite').2
  exact ⟨above', n', o', hturn', hfault', hentry⟩

/-- **A class file with its output in place is not written in place.** -/
theorem Stored.not_inPlace (h : Stored d t top place s out) (hroot : t.ClassRoot root top)
    (hapart : Apart top place) (hs : Scan.Found t root top s) :
    (locate (some d) s).isInPlace = false := by
  obtain ⟨above, n, o, hturn, hfault, hentry⟩ := h
  by_contra hsame
  rw [Bool.not_eq_false] at hsame
  -- another file in the place of the output changes what is read there, but not the class file
  obtain ⟨other, hother⟩ : ∃ other, s.bytes ++ [0] = other := ⟨_, rfl⟩
  have hedited : Edited place t (t.put (place ++ above ++ [n]) (.file other)) :=
    FileTree.edited_put hroot.tree hentry
  have hread : (t.put (place ++ above ++ [n]) (.file other)).read s.path = .ok s.bytes := by
    refine Scan.Found.read (hroot.shape hedited.tree hedited.shape) ?_
    obtain ⟨names, hne, hrelative, hpath, hclass, hshort, hfile⟩ := hs
    refine ⟨names, hne, hrelative, hpath, hclass, hshort, ?_⟩
    rw [hedited.entry_of_not_prefix hapart.symm.not_prefix, hfile]
  have hread' : (t.put (place ++ above ++ [n]) (.file other)).read (locate (some d) s).output =
      .ok other :=
    (hturn.outlet.read hedited.tree hedited.shape.grown other).2
      ⟨(hturn.outlet.placed hfault).1, by rw [FileTree.entry?_put (by simp), if_pos rfl]⟩
  have hbytes := FileTree.read_of_same hsame hread hread'
  rw [← hother] at hbytes
  exact absurd (congrArg List.length hbytes) (by simp)

/-- **What a run stores**: for a class file that is written back, what it was
enhanced to; and for one that had its output in place, what it was enhanced
to, or what was there. -/
theorem stored_merged (h : Sites w.files root ((some d).getD root) top place)
    (hapart : Apart top place) (hfound : ∀ s ∈ units, Scan.Found w.files root top s)
    (hnodup : (units.map ScannedUnit.qualifiedName).Nodup) (htree : t'.IsTree)
    (hmerges : Merges w.files (units.map (aloneFiles p (some d) w)) t') (hs : s ∈ units)
    (hs' : Scan.Found t' root top s) :
    (∀ receipt, (aloneReport p (some d) w s).committed = some receipt →
        ∃ out, aloneFate p (some d) w s = .enhanced out ∧ Stored d t' top place s out) ∧
      ∀ old, Stored d w.files top place s old →
        Stored d t' top place s ((aloneFate p (some d) w s).outputAfter old) := by
  have hsites := sites_merged h hapart hfound htree hmerges
  obtain ⟨-, hfiles, -⟩ := alone_meets p (some d) w s
  -- what an output comes to that can be written
  have hafter : ∀ above n o, Turn (some d) w.files top place s above n o → o.fault = none →
      ∀ out, FileTree.entry? (aloneFiles p (some d) w s) (place ++ above ++ [n]) =
        some (.file out) → Stored d t' top place s out :=
    fun above n o hturn hfault out hentry => hturn.stored hfault hsites hs' rfl
      (hturn.ready h hfound htree hmerges)
      ((entry_merged h hfound hnodup hmerges hs hturn).trans hentry)
  have hwritten : ∀ above n o, Turn (some d) w.files top place s above n o → o.fault = none →
      ∀ out, aloneFate p (some d) w s = .enhanced out → Stored d t' top place s out := by
    intro above n o hturn hfault out hfate
    obtain ⟨-, -, -, -, hentries⟩ := hturn.alone_alike (p := p) hturn.start
    refine hafter above n o hturn hfault out ?_
    rw [hentries, hfate, afterFate, (hturn.outlet.placed hfault).2, Option.some_or]
  refine ⟨fun receipt hcommitted => ?_, fun old hstored => ?_⟩
  · obtain ⟨above, n, o, hturn⟩ := exists_turn h (hfound s hs)
    rw [aloneReport, (alone_meets p (some d) w s).1] at hcommitted
    obtain ⟨out, hfate, hok⟩ := Fate.of_committed hcommitted
    obtain ⟨t₁, hwrite, -⟩ := hturn.outlet.write hturn.start.ready out
    have hfault : o.fault = none := by
      rcases hf : o.fault with _ | fault
      · rfl
      · rw [hwrite, hf] at hok
        cases hok
    exact ⟨out, hfate, hwritten above n o hturn hfault out hfate⟩
  · obtain ⟨above, n, o, hturn, hfault, hentry⟩ := hstored
    rcases (aloneFate p (some d) w s).outputAfter_cases old with ⟨out, hfate, hover⟩ | ⟨hover, hidle⟩
    · rw [hover]
      exact hwritten above n o hturn hfault out hfate
    · rw [hover]
      refine hafter above n o hturn hfault old ?_
      rw [hfiles, hidle, hentry]

/-- Class files of different names are found by their names in what is
reported. -/
theorem find?_alone (hnodup : (units.map ScannedUnit.qualifiedName).Nodup) (hs : s ∈ units) :
    (units.map (aloneReport p destination w)).find? (fun r => r.unit == s.qualifiedName) =
      some (aloneReport p destination w s) := by
  have hunit : ∀ s, (aloneReport p destination w s).unit = s.qualifiedName := fun s => by
    rw [aloneReport, (alone_meets p destination w s).1, Fate.unit_report]
  have hsome : ((units.map (aloneReport p destination w)).find?
      fun r => r.unit == s.qualifiedName).isSome := by
    rw [List.find?_isSome]
    exact ⟨_, List.mem_map.2 ⟨s, hs, rfl⟩, by rw [hunit, beq_self_eq_true]⟩
  obtain ⟨r, hr⟩ := Option.isSome_iff_exists.1 hsome
  obtain ⟨s', hs', rfl⟩ := List.mem_map.1 (List.mem_of_find?_eq_some hr)
  have hname := List.find?_some hr
  rw [hunit, beq_iff_eq] at hname
  rw [hr, List.inj_on_of_nodup_map hnodup hs' hs hname]

/-- **A run to a destination apart**: nothing below the class root is
changed, all class files are still there, and each one is reported and
leaves its output as it does by itself. -/
theorem run_apart (h : Sites w.files root d top place) (hapart : Apart top place)
    (hscan : w.files.scan root recursive = .ok (scan, events))
    (hnodup : (scan.units.map ScannedUnit.qualifiedName).Nodup) :
    ∃ w' b' r, run (fresh p (some d)) w root recursive = .ok (w', b', r) ∧
      w'.calls = w.calls ++ scan.units.flatMap (aloneCalls p (some d) w) ∧
      Sites w'.files root d top place ∧
      (∀ l, top <+: l → w'.files.entry? l = w.files.entry? l) ∧
      ∀ s ∈ scan.units, r.find? s.qualifiedName = some (aloneReport p (some d) w s) ∧
        (∀ receipt, (aloneReport p (some d) w s).committed = some receipt →
          ∃ out, aloneFate p (some d) w s = .enhanced out ∧ Stored d w'.files top place s out) ∧
        ∀ old, Stored d w.files top place s old →
          Stored d w'.files top place s ((aloneFate p (some d) w s).outputAfter old) := by
  have hgoal : Sites w.files root ((some d).getD root) top place := h
  have hfound := h.classRoot.found_of_scan hscan
  obtain ⟨htree, hmerges, hreports, hcalls⟩ := processAll_pointwise (p := p) hgoal hfound hnodup
    (show (w.report events).files = w.files from rfl)
  have hbelow : ∀ l, top <+: l →
      ((fresh p (some d)).processAll (w.report events) scan.units).workspace.files.entry? l =
        w.files.entry? l := fun l => below_merged hgoal hapart hfound hmerges
  rw [run, hscan]
  refine ⟨_, _, _, rfl, hcalls, sites_merged hgoal hapart hfound htree hmerges, hbelow,
    fun s hs => ⟨?_, stored_merged hgoal hapart hfound hnodup htree hmerges hs ?_⟩⟩
  · rw [BatchReport.find?, reportOf, hreports, find?_alone hnodup hs]
  · obtain ⟨names, hne, hrelative, hpath, hclass, hshort, hentry⟩ := hfound s hs
    exact ⟨names, hne, hrelative, hpath, hclass, hshort,
      (hbelow _ (List.prefix_append _ _)).trans hentry⟩

/-! ## Copies -/

/-- **A copy that was made from octets**: its marker has their digest. -/
def IsCopy (out bytes : Bytes) : Prop :=
  ∃ c r, ClassFile.parse out = .ok c ∧ c.marker? = some r ∧
    r.sourceSha256 = some (Bytes.sha256Hex bytes)

theorem compiled_ownUnit (destination : Option Path) (s : ScannedUnit) :
    (ownUnit destination s).compiled = s.bytes ∧ (ownUnit destination s).enhanced = none := by
  simp only [ownUnit, ClassUnit.fresh, and_self]

/-- **What a class file was enhanced to is a copy of it**, and the class file
was to be enhanced. -/
theorem isCopy_of_fate (hfate : aloneFate p (some d) w s = .enhanced out)
    (hcomplete : ClassFile.PoolComplete s.bytes)
    (hproduced : ∀ bytes, p.chain.Produced (aloneCalls p (some d) w s) bytes →
      ClassFile.PoolComplete bytes ∧ ClassFile.Unmarked bytes) :
    p.filter.Eligible (ownUnit (some d) s) ∧
      (∃ c, ClassFile.parse s.bytes = .ok c ∧ c.isMarked = false) ∧ IsCopy out s.bytes := by
  obtain ⟨hcompiled, hfresh⟩ := compiled_ownUnit (some d) s
  obtain ⟨events, hverdict, -⟩ := Processor.of_fateOn_enhanced hfate
  obtain ⟨c, hc, heligible, hmarker, -⟩ := EligibilityFilter.of_classify_proceed hverdict
  have hunmarked : c.isMarked = false := by
    rw [← EligibilityFilter.isSome_marker?, hmarker]
    rfl
  have hown : ClassFile.PoolComplete s.bytes ∧ ClassFile.Unmarked s.bytes := by
    refine ⟨hcomplete, fun c' hc' => ?_⟩
    rw [← hcompiled, hc] at hc'
    rwa [← Except.ok.inj hc']
  rw [← hcompiled] at hown
  have hcopy := Processor.marker_of_fateOn hfresh hfate hown hproduced
  rw [hcompiled] at hc hcopy
  exact ⟨heligible, ⟨c, hc, hunmarked⟩, hcopy⟩

/-- **The verdict on a class file with a copy in place** of some octets: it
is passed over exactly if it has the digest of those. -/
theorem classify_stored (hstored : Stored d t top place s out) (hroot : t.ClassRoot root top)
    (hapart : Apart top place) (hs : Scan.Found t root top s) (hcopy : IsCopy out bytes)
    (heligible : p.filter.Eligible (ownUnit (some d) s)) (hc : ClassFile.parse s.bytes = .ok c)
    (hunmarked : c.isMarked = false) :
    ∃ events, p.filter.classify t (ownUnit (some d) s) = .ok (
      if Bytes.sha256Hex bytes = Bytes.sha256Hex s.bytes then .alreadyEnhanced .outputCopy
      else .proceed, events) := by
  obtain ⟨c', r, hc', hr, hdigest⟩ := hcopy
  have hplace := hstored.not_inPlace hroot hapart hs
  have hread := hstored.read
  rw [← location_ownUnit] at hplace hread
  rw [← (compiled_ownUnit (some d) s).1] at hc ⊢
  rw [EligibilityFilter.classify_copy heligible hc hunmarked hplace hread hc' hr, hdigest]
  by_cases hsame : Bytes.sha256Hex bytes = Bytes.sha256Hex (ownUnit (some d) s).compiled
  · rw [if_pos (congrArg some hsame), if_pos hsame]
    exact ⟨_, rfl⟩
  · rw [if_neg fun h => hsame (Option.some.inj h), if_neg hsame]
    exact ⟨_, rfl⟩

/-- **What a second run makes of a class file that a first one wrote.** If it
holds what it held, it is skipped for its copy, with no call about it, and
the copy stays. If it holds another class that is to be enhanced, it is not
skipped, and what the chain makes of it goes over the copy. -/
structure Again (p : Processor) (d : Path) (s : ScannedUnit) (t t' : FileTree)
    (calls : List PassCall) (r : UnitReport) : Prop where
  unchanged : t.read s.path = .ok s.bytes →
    r.state = .skipped ∧ r.skipReason = some (.alreadyEnhanced .outputCopy) ∧
      (∀ call ∈ calls, call.unit ≠ s.qualifiedName) ∧
      ∃ out, t.read (d.join s.relative) = .ok out ∧ t'.read (d.join s.relative) = .ok out
  changed : ∀ bytes c, t.read s.path = .ok bytes → ClassFile.parse bytes = .ok c →
    c.isMarked = false → p.filter.Eligible (ownUnit (some d) { s with bytes := bytes }) →
    Bytes.sha256Hex bytes ≠ Bytes.sha256Hex s.bytes →
    r.state ≠ .skipped ∧
      ((p.chain.apply (started (ownUnit (some d) { s with bytes := bytes }))).error = none →
        t'.read (d.join s.relative) =
          .ok (p.chain.apply (started (ownUnit (some d) { s with bytes := bytes }))).unit.current)

/-- An edit leaves in place what a run stored. -/
theorem Stored.edited (h : Stored d t top place s out) (hapart : Apart top place)
    (hedited : Edited top t t') (hsites : Sites t' root d top place)
    (hs' : Scan.Found t' root top s') (hrelative : s'.relative = s.relative) :
    Stored d t' top place s' out := by
  obtain ⟨above, n, o, hturn, hfault, hentry⟩ := h
  have hsame : ∀ l, l <+: place ++ above ∨ place <+: l → t'.entry? l = t.entry? l := by
    rintro l (hl | ⟨names, rfl⟩)
    · exact hedited.entry_of_not_prefix fun htop => hapart.not_prefix (htop.trans hl)
    · exact hedited.entry_of_not_prefix hapart.not_prefix
  have hplace : ∀ m, place <+: place ++ above ++ [m] := fun m => by
    rw [List.append_assoc]
    exact List.prefix_append _ _
  refine hturn.stored hfault (show Sites t' root ((some d).getD root) top place from hsites) hs'
    hrelative ?_ ((hsame _ (.inr (hplace n))).trans hentry)
  exact
    { tree := hedited.tree
      grown := hedited.shape.grown
      isOpen := fun l hl => by rw [FileTree.isOpen, FileTree.isOpen, hsame l (.inl hl)]
      directory := hedited.shape.directory _
      vacant := (hsame _ (.inr (hplace _))).trans hturn.start.vacant }

/-- **A second run over a class file with a copy of it in place.** -/
theorem again_of_stored (hroot : w.files.ClassRoot root top) (hapart : Apart top place)
    (hs : Scan.Found w.files root top (refreshed w.files s))
    (hstored : Stored d w.files top place (refreshed w.files s) out) (hcopy : IsCopy out s.bytes)
    (heligible : p.filter.Eligible (ownUnit (some d) s))
    (hunmarked : ∃ c, ClassFile.parse s.bytes = .ok c ∧ c.isMarked = false)
    (hcalls : ∀ call ∈ calls, call.unit = s.qualifiedName →
      call ∈ aloneCalls p (some d) w (refreshed w.files s))
    (hkept : Stored d t' top place (refreshed w.files s)
      ((aloneFate p (some d) w (refreshed w.files s)).outputAfter out)) :
    Again p d s w.files t' calls (aloneReport p (some d) w (refreshed w.files s)) := by
  obtain ⟨hreport, -, -⟩ := alone_meets p (some d) w (refreshed w.files s)
  have hread := hstored.read
  have hread' := hkept.read
  rw [aloneReport, hreport]
  constructor
  · intro hbytes
    have hrefreshed : refreshed w.files s = s := by simp only [refreshed, hbytes]
    rw [hrefreshed] at hs hstored hcalls hread hread' ⊢
    obtain ⟨c, hc, hunmarked⟩ := hunmarked
    obtain ⟨events, hverdict⟩ := classify_stored hstored hroot hapart hs hcopy heligible hc hunmarked
    rw [if_pos rfl] at hverdict
    obtain ⟨hfate, hnone⟩ := p.fateOn_skip (ownUnit (some d) s) events
      (show (Verdict.alreadyEnhanced .outputCopy).skipReason? = _ from rfl)
    rw [← hverdict, ← aloneFate] at hfate
    rw [← hverdict, ← aloneCalls] at hnone
    rw [hfate] at hread' ⊢
    refine ⟨rfl, rfl, fun call hcall hname => ?_, out, hread, hread'⟩
    have hmem := hcalls call hcall hname
    rw [hnone] at hmem
    cases hmem
  · intro bytes c hbytes hc hunmarked heligible hdigest
    have hrefreshed : refreshed w.files s = { s with bytes := bytes } := by
      simp only [refreshed, hbytes]
    rw [hrefreshed] at hs hstored hread' ⊢
    obtain ⟨events, hverdict⟩ := classify_stored hstored hroot hapart hs hcopy heligible hc hunmarked
    rw [if_neg hdigest.symm] at hverdict
    rw [aloneFate, hverdict] at hread' ⊢
    refine ⟨?_, fun herror => ?_⟩
    · rw [Fate.state_report]
      rcases herror : (p.chain.apply (started (ownUnit (some d) { s with bytes := bytes }))).error
        with _ | e
      · obtain ⟨out', -, -, hfate⟩ := Processor.fateOn_ok events herror
        rw [hfate]
        rintro ⟨⟩
      · rw [Processor.fateOn_error herror]
        rintro ⟨⟩
    · obtain ⟨out', -, hunit, hfate⟩ := Processor.fateOn_ok events herror
      rw [hfate] at hread'
      rw [hunit]
      exact hread'

/-- **A second run to a separate destination.** Take a class root and a
destination apart from each other, with no links in them, no drafts, and no
step up in the destination's path behind a directory that is missing, and
class files of different names with complete pools. Whatever the filter, the
passes and their identities, a fresh run changes nothing below the class
root. If the passes produced classes with complete pools and without markers
in it, and any class files are edited then, a fresh run changes nothing below
the class root either, and each class file that was written is passed over
for its copy or redone, as its octets say (`Again`). -/
theorem rerun_separate (h : Sites w.files root d top place) (hapart : Apart top place)
    (hscan : w.files.scan root recursive = .ok (scan, events))
    (hnodup : (scan.units.map ScannedUnit.qualifiedName).Nodup)
    (hscanned : ∀ s ∈ scan.units, ClassFile.PoolComplete s.bytes) :
    ∃ w₁ b₁ r₁ calls₁, run (fresh p (some d)) w root recursive = .ok (w₁, b₁, r₁) ∧
      w₁.calls = w.calls ++ calls₁ ∧
      (∀ l, top <+: l → w₁.files.entry? l = w.files.entry? l) ∧
      ((∀ bytes, p.chain.Produced calls₁ bytes →
          ClassFile.PoolComplete bytes ∧ ClassFile.Unmarked bytes) →
        ∀ w' : Workspace, Edited top w₁.files w'.files →
          ∃ w₂ b₂ r₂ calls₂, run (fresh p (some d)) w' root recursive = .ok (w₂, b₂, r₂) ∧
            w₂.calls = w'.calls ++ calls₂ ∧
            (∀ l, top <+: l → w₂.files.entry? l = w'.files.entry? l) ∧
            ∀ s ∈ scan.units, ∃ report₁ report₂, r₁.find? s.qualifiedName = some report₁ ∧
              r₂.find? s.qualifiedName = some report₂ ∧
              (report₁.committed.isSome → Again p d s w'.files w₂.files calls₂ report₂)) := by
  obtain ⟨w₁, b₁, r₁, hrun₁, hcalls₁, hsites₁, hbelow₁, hunits₁⟩ :=
    run_apart (p := p) h hapart hscan hnodup
  refine ⟨w₁, b₁, r₁, _, hrun₁, hcalls₁, hbelow₁, fun hproduced w' hedited => ?_⟩
  have hsites' := hedited.sites hsites₁
  -- the scan finds the class files that it found, with the octets that are there now
  have hevolved : EvolvedBelow top w.files w'.files :=
    { directory := fun names => by
        rw [hedited.shape.directory, hbelow₁ _ (List.prefix_append _ _)]
      vacant := fun names hnone => by
        rw [← hbelow₁ _ (List.prefix_append _ _)] at hnone
        rw [← Option.not_isSome_iff_eq_none, hedited.isSome, hnone]
        nofun
      vanished := fun names hsome hnone => by
        rw [← hbelow₁ _ (List.prefix_append _ _), ← hedited.isSome, hnone] at hsome
        cases hsome }
  obtain ⟨scan', events', hscan', hunits'⟩ := hevolved.scan h.classRoot hsites'.classRoot hscan
  have hnames : scan'.units.map ScannedUnit.qualifiedName =
      scan.units.map ScannedUnit.qualifiedName := by
    have hsame : ScannedUnit.qualifiedName ∘ refreshed w'.files = ScannedUnit.qualifiedName := by
      funext s
      rw [Function.comp_apply, Scan.qualifiedName_refreshed]
    rw [hunits', List.map_map, hsame]
  have hnodup' : (scan'.units.map ScannedUnit.qualifiedName).Nodup := by rwa [hnames]
  obtain ⟨w₂, b₂, r₂, hrun₂, hcalls₂, -, hbelow₂, hunits₂⟩ :=
    run_apart (p := p) hsites' hapart hscan' hnodup'
  refine ⟨w₂, b₂, r₂, _, hrun₂, hcalls₂, hbelow₂, fun s hs => ?_⟩
  have hs' : refreshed w'.files s ∈ scan'.units := by
    rw [hunits']
    exact List.mem_map.2 ⟨s, hs, rfl⟩
  have hfound' := hsites'.classRoot.found_of_scan hscan' _ hs'
  have hname := Scan.qualifiedName_refreshed w'.files s
  obtain ⟨hfind₁, hwritten, -⟩ := hunits₁ s hs
  obtain ⟨hfind₂, -, hkept⟩ := hunits₂ _ hs'
  rw [hname] at hfind₂
  refine ⟨_, _, hfind₁, hfind₂, fun hcommitted => ?_⟩
  obtain ⟨receipt, hreceipt⟩ := Option.isSome_iff_exists.1 hcommitted
  obtain ⟨out, hfate, hstored⟩ := hwritten receipt hreceipt
  obtain ⟨heligible, hunmarked, hcopy⟩ := isCopy_of_fate hfate (hscanned s hs)
    fun bytes hmade => hproduced bytes (hmade.mono fun call hcall => List.mem_flatMap.2 ⟨s, hs, hcall⟩)
  have hstored' := hstored.edited hapart hedited hsites' hfound' (Scan.relative_refreshed _ _)
  refine again_of_stored hsites'.classRoot hapart hfound' hstored' hcopy heligible hunmarked
    (fun call hcall hunit => ?_) (hkept out hstored')
  -- a call about the class file is one of its own
  obtain ⟨s', hs'', hcall⟩ := List.mem_flatMap.1 hcall
  have hunit' : call.unit = s'.qualifiedName :=
    (Processor.unit_of_mem_callsOn hcall).trans (name_ownUnit (some d) s')
  rwa [List.inj_on_of_nodup_map hnodup' hs' hs'' (by rw [hname, ← hunit, hunit'])]

/-- Two classes in a directory, and nothing else. -/
def plainWorkspace : Workspace where
  files := ⟨[], [(["c"], .directory), (["c", "A.class"], .file (letterClass 0x41)),
    (["c", "B.class"], .file (letterClass 0x42))]⟩
  ledgers := []
  clock := 0
  events := []
  calls := []

theorem classRoot_plain : plainWorkspace.files.ClassRoot ⟨"c"⟩ ["c"] where
  tree := .of_listed (by decide) (by decide +kernel)
  resolves := by decide +kernel
  directory := rfl
  linkFree := .of_listed (by decide +kernel)

theorem scan_plain : plainWorkspace.files.scan ⟨"c"⟩ true = .ok (⟨letterUnits, [], [], 0⟩, []) := by
  have hvisited : plainWorkspace.files.visited ⟨"c"⟩ ["c"] true = [["A.class"], ["B.class"]] := by
    rw [FileTree.visited, if_neg (by decide +kernel)]
    cbv
  rw [classRoot_plain.scan_eq, hvisited]
  decide +kernel

/-- A destination that is to be made beside them. -/
theorem sites_plain : plainWorkspace.files.Sites ⟨"c"⟩ ⟨"out"⟩ ["c"] ["out"] where
  classRoot := classRoot_plain
  aims := by
    have hlead : (⟨"out"⟩ : Path).lead = [] ++ ["out".toList] := by decide
    have haims : FileTree.Aims plainWorkspace.files ⟨"out"⟩
        ([] ++ Path.namesIn ["out".toList]) :=
      .intro hlead .done rfl (by decide) fun below _ target =>
        FileTree.LinkFree.of_listed (by decide +kernel) _ target (List.prefix_append _ _)
    exact haims
  linkFree := .of_listed (by decide +kernel)
  undrafted := .of_listed (by decide +kernel)
  vacant := .of_listed (by decide +kernel)

/-- A run over them writes both, and takes no calls. -/
theorem run_plain {w₁ : Workspace} {b₁ : Batch} {r₁ : BatchReport}
    (hrun : run (fresh .marking (some ⟨"out"⟩)) plainWorkspace ⟨"c"⟩ true = .ok (w₁, b₁, r₁)) :
    w₁.calls = [] ∧
      ∀ s ∈ letterUnits, ∀ r ∈ r₁.find? s.qualifiedName, r.committed.isSome = true := by
  obtain ⟨w', b', r', hrun', hcalls, -, -, hunits⟩ :=
    run_apart (p := .marking) sites_plain (by decide) scan_plain (by decide +kernel)
  obtain ⟨rfl, hrest⟩ := Prod.mk.inj (Except.ok.inj (hrun.symm.trans hrun'))
  obtain ⟨-, rfl⟩ := Prod.mk.inj hrest
  have hwritten : ∀ s ∈ letterUnits,
      (aloneReport .marking (some ⟨"out"⟩) plainWorkspace s).committed.isSome = true := by
    decide +kernel
  refine ⟨?_, fun s hs r hr => ?_⟩
  · have hnone : letterUnits.flatMap (aloneCalls .marking (some ⟨"out"⟩) plainWorkspace) = [] :=
      List.flatMap_eq_nil_iff.2 fun s _ => Processor.callsOn_of_nil rfl _
    rw [hcalls, hnone]
    rfl
  · rw [(hunits s hs).1] at hr
    obtain rfl := Option.some.inj hr
    exact hwritten s hs

/-- With another class in the place of the first one, a second run redoes
that one and passes over the other. -/
theorem rerun_separate_plain : ∃ w₁ b₁ r₁ w' w₂ b₂ r₂ reportA reportB out,
    run (fresh .marking (some ⟨"out"⟩)) plainWorkspace ⟨"c"⟩ true = .ok (w₁, b₁, r₁) ∧
      w'.files = w₁.files.put ["c", "A.class"] (.file (letterClass 0x44)) ∧
      run (fresh .marking (some ⟨"out"⟩)) w' ⟨"c"⟩ true = .ok (w₂, b₂, r₂) ∧
      r₂.find? "A" = some reportA ∧ reportA.state ≠ .skipped ∧
      ClassFile.stamp (letterClass 0x44) ⟨[], some (Bytes.sha256Hex (letterClass 0x44))⟩ = .ok out ∧
      w₂.files.read ⟨"out/A.class"⟩ = .ok out ∧
      r₂.find? "B" = some reportB ∧ reportB.skipReason = some (.alreadyEnhanced .outputCopy) := by
  have hapart : Apart ["c"] ["out"] := by decide
  have hnodup : (letterUnits.map ScannedUnit.qualifiedName).Nodup := by decide +kernel
  have hcomplete : ∀ s ∈ letterUnits, ClassFile.PoolComplete s.bytes := by decide +kernel
  obtain ⟨w₁, b₁, r₁, calls₁, hrun₁, hcalls₁, hbelow₁, hagain⟩ :=
    rerun_separate (p := .marking) sites_plain hapart scan_plain hnodup hcomplete
  obtain ⟨hnone, hwritten⟩ := run_plain hrun₁
  have hproduced : ∀ bytes, Processor.marking.chain.Produced calls₁ bytes →
      ClassFile.PoolComplete bytes ∧ ClassFile.Unmarked bytes := by
    rintro bytes ⟨call, hcall, -⟩
    rw [hnone] at hcalls₁
    rw [(List.append_eq_nil_iff.1 hcalls₁.symm).2] at hcall
    cases hcall
  -- the tree is one still, and one class in it is put in the place of another
  obtain ⟨w₀, b₀, r₀, hrun₀, -, hsites, -⟩ :=
    run_apart (p := .marking) sites_plain hapart scan_plain hnodup
  obtain ⟨rfl, -⟩ := Prod.mk.inj (Except.ok.inj (hrun₁.symm.trans hrun₀))
  have hentry : w₁.files.entry? ["c", "A.class"] = some (.file (letterClass 0x41)) :=
    hbelow₁ _ ⟨["A.class"], rfl⟩
  obtain ⟨w', hw'⟩ : ∃ w' : Workspace,
      w'.files = w₁.files.put ["c", "A.class"] (.file (letterClass 0x44)) :=
    ⟨w₁.withFiles (w₁.files.put ["c", "A.class"] (.file (letterClass 0x44))), rfl⟩
  have hedited : Edited ["c"] w₁.files w'.files := by
    rw [hw']
    have hput : Edited ["c"] w₁.files
        (w₁.files.put (["c"] ++ [] ++ ["A.class"]) (.file (letterClass 0x44))) :=
      FileTree.edited_put hsites.classRoot.tree hentry
    exact hput
  obtain ⟨w₂, b₂, r₂, calls₂, hrun₂, -, -, hunits⟩ := hagain hproduced w' hedited
  have hroot := (hedited.sites hsites).classRoot
  obtain ⟨r, reportA, hr, hreportA, hagainA⟩ := hunits _ (List.mem_cons_self)
  obtain ⟨r', reportB, hr', hreportB, hagainB⟩ := hunits _
    (List.mem_cons_of_mem _ List.mem_cons_self)
  have hreadA : w'.files.read (Scan.pathOf ⟨"c"⟩ ["A.class"]) = .ok (letterClass 0x44) := by
    refine (hroot.read_below (by decide) ?_).2 ⟨⟨by decide, by decide⟩, ?_⟩
    all_goals
      rw [hw', FileTree.entry?_put (List.cons_ne_nil _ _)]
      rfl
  have hreadB : w'.files.read (Scan.pathOf ⟨"c"⟩ ["B.class"]) = .ok (letterClass 0x42) := by
    refine (hroot.read_below (by decide) ?_).2 ⟨⟨by decide, by decide⟩, ?_⟩
    all_goals
      rw [hw', FileTree.entry?_put (List.cons_ne_nil _ _), if_neg (by decide),
        hbelow₁ _ ⟨["B.class"], rfl⟩]
      rfl
  have hcommitted : r.committed.isSome := hwritten _ List.mem_cons_self r hr
  have hcommitted' : r'.committed.isSome :=
    hwritten _ (List.mem_cons_of_mem _ List.mem_cons_self) r' hr'
  obtain ⟨-, hreason, -⟩ := (hagainB hcommitted').unchanged hreadB
  obtain ⟨hstate, hout⟩ := (hagainA hcommitted).changed _ _ hreadA rfl (by decide +kernel)
    (by decide +kernel) (by decide +kernel)
  -- there is room for the marker in the other class
  obtain ⟨l, hl⟩ : ∃ l, ClassFile.Layout.read (letterClass 0x44) = .ok l := ⟨_, rfl⟩
  have hok : (Processor.marking.chain.apply (Processor.started (ownUnit (some ⟨"out"⟩)
      ⟨⟨"A.class"⟩, ⟨"c/A.class"⟩, letterClass 0x44⟩))).error = none := by
    have hchain : Registry.builtin.chain [] = .ok Processor.marking.chain := rfl
    refine Chain.error_apply_of_room hchain hl ?_ nofun
      ((Chain.length_record_le _ _).trans_lt (by decide)) nofun ?_ ?_
    all_goals
      obtain rfl := Except.ok.inj hl
      decide
  obtain ⟨out, hstamp, hunit⟩ := Chain.apply_ok hok
  have hwritten := hout hok
  rw [hunit] at hwritten
  have hname : letterUnits.map ScannedUnit.qualifiedName = ["A", "B"] := by decide +kernel
  obtain ⟨hnameA, hnames⟩ := List.cons.inj hname
  rw [hnameA] at hreportA
  rw [(List.cons.inj hnames).1] at hreportB
  exact ⟨w₁, b₁, r₁, w', w₂, b₂, r₂, reportA, reportB, out, hrun₁, hw', hrun₂, hreportA, hstate,
    hstamp, hwritten, hreportB, hreason⟩

/-- A step up behind a directory that is missing, and that is one below the
class root: the first class that is written makes it there. -/
theorem run_detour_source : ∃ w' b' r,
    run (fresh .marking (some ⟨"c/n/../../out"⟩)) plainWorkspace ⟨"c"⟩ true = .ok (w', b', r) ∧
      (letterUnits.map ScannedUnit.qualifiedName).Nodup ∧
      (∀ p ∈ plainWorkspace.files.entries, p.2.isLink = false) ∧
      plainWorkspace.files.entry? ["c", "n"] = none ∧
      w'.files.entry? ["c", "n"] = some .directory := by
  rw [run, scan_plain]
  exact ⟨_, _, _, rfl, by decide +kernel, by decide +kernel, by decide +kernel, by decide +kernel⟩

end Batch

end ClassWeave
