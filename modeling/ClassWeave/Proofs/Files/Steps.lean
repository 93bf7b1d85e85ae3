import ClassWeave.Files.Steps
import ClassWeave.Proofs.Job
/-!
# Files -- what the steps of writing amount to

With nothing in between, the steps that writing an output is taken apart into
amount to writing it (`FileTree.run_writeJob`), and none of them has to wait.
-/


namespace ClassWeave

namespace FileTree

variable {t : FileTree} {change : FileTree → Except Fault FileTree} {p : Path}
  {R G : FileTree → FileTree → Prop} {P : Except Fault Unit → FileTree → Prop}

@[simp] theorem run_attempt : (attempt change).run t = match change t with
    | .ok t' => (t', .ok ())
    | .error fault => (t, .error fault) := rfl

@[simp] theorem unhindered_attempt : (attempt change).Unhindered t := ⟨rfl, trivial⟩

/-- An attempt promises what comes of it, as the files are when it is made. -/
theorem promises_attempt
    (h : ∀ s, R t s →
      (∃ s', change s = .ok s' ∧ G s s' ∧ ∀ s'', R s' s'' → P (.ok ()) s'') ∨
        ∃ fault, change s = .error fault ∧ G s s ∧ ∀ s'', R s s'' → P (.error fault) s'') :
    (attempt change).Promises R G P t := by
  refine Job.promises_once fun s hs => ?_
  rcases h s hs with ⟨s', hchange, hs'⟩ | ⟨fault, hchange, hs'⟩
  · simpa only [hchange] using hs'
  · simpa only [hchange] using hs'

theorem orThere_error (fault : Fault) : orThere p (.error fault) =
    Job.look fun t => if t.isDirectory p then .ok () else .error fault := rfl

@[simp] theorem run_orThere (made : Except Fault Unit) : (orThere p made).run t = match made with
    | .ok () => (t, .ok ())
    | .error fault => (t, if t.isDirectory p then .ok () else .error fault) := by
  rcases made with fault | ⟨⟩ <;> rfl

@[simp] theorem unhindered_orThere (made : Except Fault Unit) : (orThere p made).Unhindered t := by
  rcases made with fault | ⟨⟩
  · exact ⟨rfl, trivial⟩
  · trivial

/-- Directories made one by one are made. -/
theorem run_directoriesJob (ps : List Path) (t : FileTree) :
    (directoriesJob ps).run t = t.makeDirectoriesOf ps ∧ (directoriesJob ps).Unhindered t := by
  induction ps generalizing t with
  | nil => exact ⟨rfl, trivial⟩
  | cons p up ih =>
    rw [directoriesJob, makeDirectoriesOf]
    split
    · exact ⟨rfl, trivial⟩
    rw [Job.run_bind, Job.unhindered_bind, run_attempt]
    rcases hmade : t.makeDirectory p with fault | t₁
    · rcases fault <;> simp only [run_orThere, unhindered_orThere, unhindered_attempt, true_and, and_true]
      -- what is missing further up comes first
      obtain ⟨hrun, hfree⟩ := ih t
      rw [Job.run_bind, Job.unhindered_bind, hrun]
      rcases t.makeDirectoriesOf up with ⟨t₂, fault | ⟨⟩⟩
      · exact ⟨rfl, hfree, trivial⟩
      · simp only [Job.run_bind, Job.unhindered_bind, run_attempt, run_orThere, unhindered_attempt,
          unhindered_orThere, and_true]
        refine ⟨?_, hfree⟩
        rcases t₂.makeDirectory p with fault | t₃ <;> rfl
    · exact ⟨rfl, ⟨rfl, trivial⟩, trivial⟩

theorem run_parentsJob (p : Path) (t : FileTree) :
    (parentsJob p).run t = t.makeParents p ∧ (parentsJob p).Unhindered t := by
  unfold parentsJob makeParents
  rcases p.parent? with _ | q
  · exact ⟨rfl, trivial⟩
  · dsimp only
    split
    · exact ⟨rfl, trivial⟩
    · exact run_directoriesJob q.ancestors t

/-- Octets drafted, moved and, if that fails, removed are written at once. -/
theorem run_writeJob (p : Path) (bytes : Bytes) (t : FileTree) :
    (writeJob p bytes).run t = t.writeWhole p bytes ∧ (writeJob p bytes).Unhindered t := by
  obtain ⟨hrun, hfree⟩ := run_parentsJob p t
  rw [writeJob, Job.run_bind, Job.unhindered_bind, hrun, writeWhole]
  rcases t.makeParents p with ⟨t₁, fault | ⟨⟩⟩
  · exact ⟨rfl, hfree, trivial⟩
  simp only [besideJob, Job.run_bind, Job.unhindered_bind, run_attempt, unhindered_attempt,
    true_and, hfree]
  rcases t₁.write (draftPath p) bytes with fault | t₂
  · exact ⟨rfl, trivial⟩
  simp only [Job.run_bind, Job.unhindered_bind, run_attempt, unhindered_attempt, true_and]
  rcases t₂.move (draftPath p) p with fault | t₃
  · simp only [Job.run_bind, Job.unhindered_bind, run_attempt, unhindered_attempt, true_and]
    rcases t₂.remove (draftPath p) with fault | t₃ <;> exact ⟨rfl, trivial⟩
  · exact ⟨rfl, trivial⟩

end FileTree

end ClassWeave
