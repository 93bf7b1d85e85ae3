import ClassWeave.Proofs.Loader.Failure
import ClassWeave.Proofs.Loader.Generation
import ClassWeave.Proofs.Loader.Names
/-!
# Loader -- what a request can reach

A request reads files at the class path of its name, taken from a few
directories (`Loader.roots`), and the archives of the class path; two trees
that are alike there are answered alike (`Settled.resolve_alike`). It writes at
most one file, at the class path taken from the destination
(`Settled.files_resolve`), and the units that are kept are all placed so
(`Later.sited`). Since the class path of whatever is asked for leads below
each directory that it is taken from, no name leads out of them
(`resolve_confined`).
-/


namespace ClassWeave

/-- The directory that an entry of a class path is, if it is one. -/
def ClasspathEntry.directory? : ClasspathEntry → Option Path
  | .directory d => some d
  | .archive _ => none

namespace Loader

variable {l l₀ : Loader} {classpath : Classpath} {w w' : Workspace} {t t' : FileTree}
  {raw name : String} {u : ClassUnit}

/-! ## Reading -/

/-- **The directories that class paths are taken from**: the source tree, the
destination, and those of the parent's class path. -/
def roots (l : Loader) (classpath : Classpath) : List Path :=
  l.source :: l.destination :: classpath.filterMap ClasspathEntry.directory?

/-- **Trees that are alike for a name**: the same can be read at its class path
below each directory that it is taken from, and they have the same archives. -/
structure Alike (l : Loader) (classpath : Classpath) (name : String) (t t' : FileTree) :
    Prop where
  read : ∀ d ∈ l.roots classpath, t'.read (d.join ⟨ClassFile.classPath name⟩) =
    t.read (d.join ⟨ClassFile.classPath name⟩)
  archive : ∀ a, .archive a ∈ classpath → t'.stat a = t.stat a

/-- The class path has the same for a name in trees that are alike for it. -/
theorem lookUp_congr
    (hread : ∀ d ∈ classpath.filterMap ClasspathEntry.directory?,
      t'.read (d.join ⟨ClassFile.classPath name⟩) = t.read (d.join ⟨ClassFile.classPath name⟩))
    (harchive : ∀ a, .archive a ∈ classpath → t'.stat a = t.stat a) :
    classpath.lookUp t' name = classpath.lookUp t name := by
  induction classpath with
  | nil => rfl
  | cons entry rest ih =>
    have hentry : entry.lookUp t' name = entry.lookUp t name := by
      cases entry with
      | directory d =>
        unfold ClasspathEntry.lookUp
        dsimp only
        rw [hread d List.mem_cons_self]
      | archive a =>
        have hmember : t'.readMember a (ClassFile.classPath name) =
            t.readMember a (ClassFile.classPath name) := by
          unfold FileTree.readMember
          rw [harchive a List.mem_cons_self]
        unfold ClasspathEntry.lookUp
        dsimp only
        rw [hmember]
    have hrest := ih
      (fun d hd => hread d (by
        obtain ⟨e, he, hd⟩ := List.mem_filterMap.1 hd
        exact List.mem_filterMap.2 ⟨e, List.mem_cons_of_mem _ he, hd⟩))
      fun a ha => harchive a (List.mem_cons_of_mem _ ha)
    rw [Classpath.lookUp, Classpath.lookUp, hentry, hrest]

/-- The class path answers alike as a parent. -/
theorem Alike.answerDelegated (h : l.Alike classpath name w.files w'.files)
    (hparent : l.parent = .ofClasspath classpath) :
    (l.answerDelegated w' name).loader = (l.answerDelegated w name).loader ∧
      (l.answerDelegated w' name).answer = (l.answerDelegated w name).answer := by
  have hsame : classpath.lookUp w'.files name = classpath.lookUp w.files name :=
    lookUp_congr (fun d hd => h.read d (List.mem_cons_of_mem _ (List.mem_cons_of_mem _ hd)))
      h.archive
  have hfound : l.parent.lookUp w'.files name = l.parent.lookUp w.files name := by
    rw [hparent]
    exact congrArg (Except.mapError LoadError.lookup) hsame
  simp only [Loader.answerDelegated, delegate, hfound, and_self]

/-- There is the same unit for a name. -/
theorem Alike.unit? (h : l.Alike classpath name w.files w'.files) : l.unit? w' name = l.unit? w name := by
  have hread : l.readLocal w' name = l.readLocal w name := by
    unfold readLocal
    dsimp only
    rw [h.read l.source List.mem_cons_self]
  rw [Loader.unit?, Loader.unit?, hread]

/-- And the same becomes of it, if what is kept is settled. -/
theorem Alike.unit_process (h : l.Alike classpath name w.files w'.files) (hsettled : l.Settled)
    (hu : l.unit? w name = .ok (some u)) :
    (l.processor.process w' u).unit = (l.processor.process w u).unit := by
  rcases unit?_ok hu with hkept | ⟨bytes, rfl⟩
  · have hfinal := hsettled.final name u hkept
    rw [Processor.process, if_pos hfinal, Processor.process, if_pos hfinal]
    rfl
  · refine Processor.unit_process_congr (EligibilityFilter.classify_congr fun bytes => ?_)
    have hread := h.read l.destination (List.mem_cons_of_mem _ List.mem_cons_self)
    simp only [ClassUnit.fresh, place]
    rw [hread]

theorem Settled.answer_reached (hsettled : l.Settled) (h : l.Reaches w raw u) :
    (l.resolve w raw).answer = answerOf (normalName raw) (l.processor.process w u).unit := by
  obtain ⟨v, hkept, -, hanswer⟩ := (hsettled.resolvesOnce w raw).reached u h
  rw [(resolve_of_reaches h).2, UnitCache.get?_put_self] at hkept
  rw [hanswer, ← Option.some.inj hkept]

/-- **A request cannot tell trees apart that are alike for its name**: it is
answered alike and keeps the same. One that asks for no name at all is
answered alike in any trees. -/
theorem Settled.resolve_alike (hsettled : l.Settled) (hparent : l.parent = .ofClasspath classpath)
    (h : IsAsked (normalName raw) → l.Alike classpath (normalName raw) w.files w'.files) :
    (l.resolve w' raw).loader = (l.resolve w raw).loader ∧
      (l.resolve w' raw).answer = (l.resolve w raw).answer := by
  by_cases hasked : IsAsked (normalName raw)
  swap
  · obtain ⟨harray, hfault⟩ := not_or.1 hasked
    obtain ⟨fault, hfault⟩ := Option.ne_none_iff_exists'.1 hfault
    rw [Loader.resolve, Loader.resolve, if_neg harray, if_neg harray, hfault]
    exact ⟨rfl, rfl⟩
  have halike := h hasked
  by_cases hforeign : l.IsForeign (normalName raw)
  · rw [hforeign.resolve, hforeign.resolve]
    exact halike.answerDelegated hparent
  obtain ⟨harray, hreserved⟩ := not_or.1 hforeign
  have hlocal : l.IsLocal (normalName raw) :=
    ⟨harray, hasked.resolve_left harray,
      Option.not_isSome_iff_eq_none.1 fun h => hreserved ⟨hasked.resolve_left harray, h⟩⟩
  -- the source tree has the same for the name, whatever that is
  rcases hunit : l.unit? w (normalName raw) with e | _ | u
  · rw [hlocal.resolve_error hunit, hlocal.resolve_error (halike.unit?.trans hunit)]
    exact ⟨rfl, rfl⟩
  · -- a slot makes no difference to what trees are alike
    have hslot : (l.reserve (normalName raw)).Alike classpath (normalName raw) w.files w'.files :=
      ⟨halike.read, halike.archive⟩
    rw [hlocal.resolve_missing hunit, hlocal.resolve_missing (halike.unit?.trans hunit)]
    exact hslot.answerDelegated hparent
  · have hreaches : l.Reaches w raw u := ⟨hlocal, hunit⟩
    have hreaches' : l.Reaches w' raw u := ⟨hlocal, halike.unit?.trans hunit⟩
    rw [(resolve_of_reaches hreaches).2, (resolve_of_reaches hreaches').2,
      hsettled.answer_reached hreaches, hsettled.answer_reached hreaches',
      halike.unit_process hsettled hunit]
    exact ⟨rfl, rfl⟩

/-! ## Writing -/

/-- **A request writes one file at most**, at the class path of its name taken
from the destination, and only for a name that is asked for. -/
theorem Settled.files_resolve (hsettled : l.Settled) (w : Workspace) (raw : String) :
    (l.resolve w raw).workspace.files = w.files ∨
      IsAsked (normalName raw) ∧ ∃ out, (l.resolve w raw).workspace.files =
        (w.files.writeWhole (l.destination.join ⟨ClassFile.classPath (normalName raw)⟩) out).1 := by
  by_cases hreaches : ∃ u, l.Reaches w raw u
  swap
  · rw [(resolve_unreached (not_exists.1 hreaches)).1]
    exact .inl rfl
  obtain ⟨u, hu⟩ := hreaches
  rw [(resolve_of_reaches hu).1]
  by_cases henhances : ∃ out, l.processor.Enhances w u out
  swap
  · exact .inl (Processor.files_process (not_exists.1 henhances))
  obtain ⟨out, henhances⟩ := henhances
  have houtput : u.location.output = l.destination.join ⟨ClassFile.classPath (normalName raw)⟩ := by
    rcases unit?_ok hu.unit with hkept | ⟨bytes, rfl⟩
    · -- a unit that is kept is settled, and is not enhanced again
      have hfinal := hsettled.final _ u hkept
      rw [henhances.state] at hfinal
      cases hfinal
    · simp only [ClassUnit.fresh, place]
  refine .inr ⟨.inr hu.isLocal.fault, out, ?_⟩
  rw [henhances.process.2.2, houtput]

/-! ## Keeping -/

/-- **A loader whose units are where their names place them**: they are kept
for names that were asked for, and are read from and written to the class
paths of those. -/
def Sited (l : Loader) : Prop :=
  ∀ name u, l.cache.get? name = some u →
    IsAsked name ∧ '/' ∉ name.toList ∧ u.location = l.place name

/-- A request places the unit that it keeps. -/
theorem Sited.resolve (h : l.Sited) (hsettled : l.Settled) (w : Workspace) (raw : String) :
    (l.resolve w raw).loader.Sited := by
  obtain ⟨-, hsource, hdestination⟩ := l.configuration_resolve w raw
  intro name v hv
  rw [place, hsource, hdestination, ← place]
  by_cases hreaches : ∃ u, l.Reaches w raw u
  · obtain ⟨u, hu⟩ := hreaches
    rw [(resolve_of_reaches hu).2] at hv
    rcases UnitCache.of_get?_put hv with ⟨rfl, rfl⟩ | hkept
    · refine ⟨.inr hu.isLocal.fault, flat_normalName raw, ?_⟩
      rcases unit?_ok hu.unit with hkept | ⟨bytes, rfl⟩
      · rw [Processor.process, if_pos (hsettled.final _ u hkept)]
        exact (h _ u hkept).2.2
      · exact (l.processor.process_meets w _ _ bytes).kept.2.1
    · exact h name v hkept
  · obtain ⟨-, delegated, cache, hsame, hloader⟩ := resolve_unreached (not_exists.1 hreaches)
    rw [hloader] at hv
    exact h name v ((hsame.get? name).symm.trans hv)

/-- **All over a generation** the units that are kept are where their names
place them. -/
theorem Later.sited (h : Later l₀ l) (hsettled : l₀.Settled) (hsited : l₀.Sited) : l.Sited := by
  induction h with
  | start => exact hsited
  | resolve w raw hlater ih => exact ih.resolve (hlater.retains hsettled).1 w raw

theorem Later.parent (h : Later l₀ l) : l.parent = l₀.parent := by
  induction h with
  | start => rfl
  | @resolve l w raw _ ih => rw [parent_resolve, ih]

/-- **No name leads out of the directories of a loader** whose parent is a
class path. Whatever was asked before in its generation, with anything done to
the workspace in between, and whatever text is asked for now: if that is a
name to ask for, an array's included, then its class path taken from any
directory is the directory and one name or more behind it, and so is the path
that its octets are drafted at. The answer and what is kept are a matter of what stands there, below the
loader's own directories, and of the archives; of nothing, if it is no name to
ask for. At most one file is written, there below the destination, and all
units that are kept are placed there. A name without faults can be told from
its class path, so two of them have different paths in any directory. -/
theorem resolve_confined (hparent : l₀.parent = .ofClasspath classpath) (hcache : l₀.cache = [])
    (hdelegated : l₀.delegated = []) (h : Later l₀ l) (w : Workspace) (raw : String) :
    (IsAsked (normalName raw) → ∀ d : Path,
      d.IsBelow (d.join ⟨ClassFile.classPath (normalName raw)⟩) ∧
        d.IsBelow (FileTree.draftPath (d.join ⟨ClassFile.classPath (normalName raw)⟩))) ∧
    (∀ w' : Workspace,
      (IsAsked (normalName raw) → l.Alike classpath (normalName raw) w.files w'.files) →
        (l.resolve w' raw).loader = (l.resolve w raw).loader ∧
          (l.resolve w' raw).answer = (l.resolve w raw).answer) ∧
    ((l.resolve w raw).workspace.files = w.files ∨
      IsAsked (normalName raw) ∧ ∃ out, (l.resolve w raw).workspace.files =
        (w.files.writeWhole (l.destination.join ⟨ClassFile.classPath (normalName raw)⟩) out).1) ∧
    (∀ name u, (l.resolve w raw).loader.cache.get? name = some u →
      l.source.IsBelow u.location.source ∧ l.destination.IsBelow u.location.output) ∧
    (nameFault? (normalName raw) = none →
      (⟨ClassFile.classPath (normalName raw)⟩ : Path).qualifiedName = normalName raw ∧
      ∀ raw', nameFault? (normalName raw') = none → normalName raw' ≠ normalName raw → ∀ d : Path,
        ¬ (d.join ⟨ClassFile.classPath (normalName raw')⟩).same
          (d.join ⟨ClassFile.classPath (normalName raw)⟩)) := by
  have hflat := flat_normalName raw
  have hempty := settled_of_empty hcache hdelegated
  have hsettled := (h.retains hempty).1
  have hsited : l.Sited := by
    refine h.sited hempty fun name u hu => ?_
    rw [hcache] at hu
    cases hu
  refine ⟨fun hasked => isBelow_classPath hasked hflat,
    fun w' => hsettled.resolve_alike (h.parent.trans hparent), hsettled.files_resolve w raw,
    fun name u hu => ?_, fun hfault => ⟨qualifiedName_classPath hfault hflat,
      fun raw' hfault' hne => not_same_classPath hfault' (flat_normalName raw') hfault hflat hne⟩⟩
  obtain ⟨-, hsource, hdestination⟩ := l.configuration_resolve w raw
  obtain ⟨hasked, hname, hplace⟩ := hsited.resolve hsettled w raw name u hu
  simp only [hplace, place, hsource, hdestination]
  exact ⟨(isBelow_classPath hasked hname _).1, (isBelow_classPath hasked hname _).1⟩

/-- Behind a bracket the steps up of a text are empty parts of an array's name,
which mean nothing; a class is told from its path. -/
theorem resolve_confined_array :
    IsAsked (normalName " [/../A ") ∧ nameFault? (normalName "a/B") = none ∧
      (Path.join ⟨"src"⟩ ⟨ClassFile.classPath (normalName " [/../A ")⟩).components =
        [.name "src", .name "[", .name "A.class"] ∧
      Path.IsBelow ⟨"src"⟩ (Path.join ⟨"src"⟩ ⟨ClassFile.classPath (normalName " [/../A ")⟩) ∧
      (⟨ClassFile.classPath (normalName "a/B")⟩ : Path).qualifiedName = "a.B" := by
  have hlater : Later libraryLoader (libraryLoader.resolve libraryWorkspace "A").loader :=
    .resolve libraryWorkspace "A" .start
  have hasked : IsAsked (normalName " [/../A ") := .inl (by decide +kernel)
  have hfault : nameFault? (normalName "a/B") = none := by decide +kernel
  have hname : normalName "a/B" = "a.B" := by decide +kernel
  refine ⟨hasked, hfault, by decide +kernel, ?_, ?_⟩
  · exact ((resolve_confined rfl rfl rfl hlater libraryWorkspace " [/../A ").1 hasked _).1
  · rw [((resolve_confined rfl rfl rfl hlater libraryWorkspace "a/B").2.2.2.2 hfault).1, hname]

end Loader

end ClassWeave
