import ClassWeave.Ledger.Store
import ClassWeave.Proofs.Files.Output
/-!
# Ledger -- opened again

What opening a ledger leaves behind (`Ledger.Opened`) is what opening it
asks for: the path leads to the ledger's file, and the lock is beside it.
So a ledger that was opened and is held by nobody opens again, in the same
place, and nothing changes (`Ledger.Opened.open?`), whatever rows were
recorded in between.
-/


namespace ClassWeave

namespace Ledger

variable {w w₀ : Workspace} {held : List Location} {p : Path} {loc : Location} {l : Ledger}

/-- **What a ledger that was opened finds**: its path leads to its file, and
its lock is there. -/
structure Opened (t : FileTree) (p : Path) (loc : Location) : Prop where
  resolves : t.resolve true p = .ok loc
  marked : t.entry? loc = some (.file fileMark)
  locked : ∃ e, t.stat (lockPath p) = .ok e ∧ e ≠ .directory

/-- **Such a ledger opens again**, if nobody holds it, and nothing changes. -/
theorem Opened.open? (h : Opened w.files p loc) (hheld : loc ∉ held) :
    open? w held p = (w, .ok ⟨p, loc⟩) := by
  obtain ⟨e, hstat, hdir⟩ := h.locked
  have hparents : w.files.makeParents p = (w.files, .ok ()) :=
    FileTree.makeParents_there h.resolves (by rw [h.marked]; simp)
  have hreaches : w.files.reaches p = true := by
    simp [FileTree.reaches, FileTree.stat, h.resolves, h.marked, bind, Except.bind]
  have hlock : makeLock w.files (lockPath p) = .ok w.files := by
    rw [makeLock, hstat]
    rcases e with bytes | _ | target
    · rfl
    · exact absurd rfl hdir
    · rfl
  have hhomed : isHomeless w.files p = false := by rw [isHomeless, hreaches]; rfl
  have hnonempty : fileMark ≠ [] := by decide
  have hstore : openStore w held p = (w, .ok loc) := by
    rw [openStore, hhomed]
    simp only [Bool.false_eq_true, if_false, h.resolves, if_neg hheld, hlock, Workspace.withFiles,
      h.marked]
    split
    · rfl
    · next hmark => exact absurd trivial hmark
  rw [Ledger.open?, hparents]
  simp only [Workspace.withFiles, hstore]

/-- A lock that was made is there, and nothing but it is new. -/
theorem makeLock_ok {t t' : FileTree} {lock : Path} (h : makeLock t lock = .ok t') :
    t.Grown t' ∧ ∃ e, t'.stat lock = .ok e ∧ e ≠ .directory := by
  unfold makeLock at h
  split at h
  · cases h
  · next e hdir hstat =>
    cases h
    exact ⟨(FileTree.SameShape.refl t).grown, e, hstat, hdir⟩
  · next hmissing =>
    -- the lock is written where its path leads and nothing stands
    rw [FileTree.write] at h
    rcases hresolve : t.resolve true lock with fault | r
    · rw [hresolve] at h
      cases h
    rcases hentry : t.entry? r with _ | e
    swap
    · rw [FileTree.stat_ok.2 ⟨r, hresolve, hentry⟩] at hmissing
      cases hmissing
    · have hr : r ≠ [] := by
        rintro rfl
        cases hentry
      simp only [hresolve, bind, Except.bind, hentry, Except.ok.injEq] at h
      subst h
      have hgrown : t.Grown (t.put r (.file fileMark)) :=
        (FileTree.sameShape_put hr (by simp [hentry]) (by simp [hentry])).grown
      refine ⟨hgrown, .file fileMark, ?_, by simp⟩
      exact FileTree.stat_ok.2
        ⟨r, FileTree.resolve_grown hgrown hresolve, by simp [FileTree.entry?_put hr]⟩
  · cases h

/-- The ledger's file is found where it was made, or taken over empty. -/
theorem opened_put {t : FileTree} {e : Entry} (hresolve : t.resolve true p = .ok loc)
    (hstat : t.stat (lockPath p) = .ok e) (hdir : e ≠ .directory)
    (hnodir : t.entry? loc ≠ some .directory)
    (hnolink : ∀ target, t.entry? loc ≠ some (.link target)) :
    Opened (t.put loc (.file fileMark)) p loc := by
  have hloc : loc ≠ [] := by
    rintro rfl
    exact hnodir rfl
  have hput : t.Grown (t.put loc (.file fileMark)) :=
    (FileTree.sameShape_put hloc hnodir hnolink).grown
  obtain ⟨lock, hlock, hentry⟩ := FileTree.stat_ok.1 hstat
  refine ⟨FileTree.resolve_grown hput hresolve, by simp [FileTree.entry?_put hloc], ?_⟩
  rcases eq_or_ne lock loc with rfl | hne
  · exact ⟨.file fileMark, FileTree.stat_ok.2
      ⟨lock, FileTree.resolve_grown hput hlock, by simp [FileTree.entry?_put hloc]⟩, nofun⟩
  · exact ⟨e, FileTree.stat_ok.2 ⟨lock, FileTree.resolve_grown hput hlock, by
      rw [FileTree.entry?_put hloc, if_neg hne, hentry]⟩, hdir⟩

/-- **A store that was opened** is where its path leads, and will be found
there. -/
theorem openStore_ok (h : openStore w₀ held p = (w, .ok loc)) :
    loc ∉ held ∧ Opened w.files p loc := by
  unfold openStore at h
  split at h
  · cases h
  split at h
  · cases h
  next r hresolve =>
  split at h
  · cases h
  next hheld =>
  split at h
  · cases h
  next files hlock =>
  obtain ⟨hgrown, e, hstat, hdir⟩ := makeLock_ok hlock
  have hresolve' := FileTree.resolve_grown hgrown hresolve
  simp only [Workspace.withFiles] at h
  split at h
  · next hnone =>
    obtain ⟨rfl, rfl⟩ := h
    exact ⟨hheld, opened_put hresolve' hstat hdir (by simp [hnone]) (by simp [hnone])⟩
  · next hempty =>
    obtain ⟨rfl, rfl⟩ := h
    exact ⟨hheld, opened_put hresolve' hstat hdir (by simp [hempty]) (by simp [hempty])⟩
  · next bytes _ hfile =>
    split at h
    · next hmark =>
      obtain ⟨rfl, rfl⟩ := h
      exact ⟨hheld, hresolve', by rw [hfile, hmark], e, hstat, hdir⟩
    · cases h
  · cases h

/-- **A ledger that was opened will be found where it is.** -/
theorem open?_ok (h : open? w₀ held p = (w, .ok l)) :
    l.path = p ∧ l.location ∉ held ∧ Opened w.files p l.location := by
  unfold Ledger.open? at h
  split at h
  · cases h
  split at h
  · cases h
  next hstore =>
  obtain ⟨rfl, rfl⟩ := h
  obtain ⟨hheld, hopened⟩ := openStore_ok hstore
  exact ⟨rfl, hheld, hopened⟩

end Ledger

end ClassWeave
