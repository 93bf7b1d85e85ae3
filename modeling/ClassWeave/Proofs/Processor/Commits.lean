import ClassWeave.Batch
import ClassWeave.Proofs.Enhancer.Stamping
/-!
# Processor -- what is committed

Whatever state a unit is in, processing it does one of three things to files
and ledgers (`Processor.Effect`): nothing, a writing that goes wrong, or a
writing that is recorded then. Only the last one is a commit, and changes a
ledger. The commits of a processor (`Processor.commits`) and of a run
(`Batch.commits`) say of each what was written where.
-/


namespace ClassWeave

/-- What was committed: the file that was written, and what it was made of. -/
structure Commit where
  /-- Where the path that was written to led afterwards. -/
  file : Option Location
  unit : String
  sourceSha256 : String
  enhancers : List String
  deriving DecidableEq, Repr

namespace Commit

/-- The last commit to a file. -/
def last? (commits : List Commit) (file : Location) : Option Commit :=
  (commits.filter fun c => c.file == some file).getLast?

theorem last?_concat_self {c : Commit} {file : Location} (commits : List Commit)
    (h : c.file = some file) : last? (commits ++ [c]) file = some c := by
  simp [last?, h]

theorem last?_concat_of_ne {c : Commit} {file : Location} (commits : List Commit)
    (h : c.file ≠ some file) : last? (commits ++ [c]) file = last? commits file := by
  simp [last?, h]

/-- A row that says what was committed. -/
structure Says (c : Commit) (row : LedgerRow) : Prop where
  unit : row.unit = c.unit
  source : row.sourceSha256 = c.sourceSha256
  enhancers : row.enhancers = c.enhancers

end Commit

namespace Processor

variable {p : Processor} {w : Workspace} {u u' : ClassUnit}

/-- **What processing a unit does to files and ledgers.** -/
inductive Effect (p : Processor) (w : Workspace) (u : ClassUnit) (done : Processed) : Prop
  /-- Nothing. -/
  | idle : done.workspace.files = w.files → done.workspace.ledgers = w.ledgers →
      done.report.committed = none → Effect p w u done
  /-- Its octets cannot be written. -/
  | lost (out : Bytes) (fault : Fault) :
      w.files.writeWhole u.location.output out = (done.workspace.files, .error fault) →
      done.workspace.ledgers = w.ledgers → done.report.committed = none → Effect p w u done
  /-- They are written, and that is recorded. -/
  | written (out : Bytes) (w₁ : Workspace) :
      w.files.writeWhole u.location.output out = (w₁.files, .ok ()) → w₁.ledgers = w.ledgers →
      done.workspace = p.record w₁ u ⟨u.location.output, out.length, Bytes.sha256Hex out⟩ →
      done.report.committed = some ⟨u.location.output, out.length, Bytes.sha256Hex out⟩ →
      done.report.state = .enhanced → done.report.persistenceError = none → Effect p w u done

theorem settle_keeps (w : Workspace) (u : ClassUnit) (step : Except StateError ClassUnit) :
    (settle w u step).workspace.files = w.files ∧ (settle w u step).workspace.ledgers = w.ledgers ∧
      (settle w u step).report.committed = none := by
  cases step <;> exact ⟨rfl, rfl, rfl⟩

theorem effect_settle (w₁ : Workspace) (hfiles : w₁.files = w.files)
    (hledgers : w₁.ledgers = w.ledgers) (u' : ClassUnit) (step : Except StateError ClassUnit) :
    p.Effect w u (settle w₁ u' step) := by
  obtain ⟨hsame, hsame', hnone⟩ := settle_keeps w₁ u' step
  exact .idle (hsame.trans hfiles) (hsame'.trans hledgers) hnone

/-- Writing an enhanced unit back is nothing, goes wrong, or is recorded. -/
theorem effect_writeBack (w₁ : Workspace) (hfiles : w₁.files = w.files)
    (hledgers : w₁.ledgers = w.ledgers) (u : ClassUnit) (enhanced : Option Bytes) :
    p.Effect w u (p.writeBack w₁ { u with state := .enhanced, enhanced := enhanced }) := by
  unfold writeBack ClassUnit.commit
  rw [hfiles]
  rcases ({ u with state := .enhanced, enhanced := enhanced } : ClassUnit).output? with _ | out
  · exact .idle rfl hledgers rfl
  · rcases hwrite : w.files.writeWhole u.location.output out with ⟨files, fault | ⟨⟩⟩
    · simp only [hwrite]
      exact .lost out fault hwrite hledgers rfl
    · simp only [hwrite]
      refine .written out (w₁.withFiles files) hwrite hledgers ?_ rfl rfl rfl
      simp only [record, rowOf]

/-- A unit in progress is given up by its chain, or written back. -/
theorem effect_enhance (w₁ : Workspace) (hfiles : w₁.files = w.files)
    (hledgers : w₁.ledgers = w.ledgers) : p.Effect w u (p.enhance w₁ { u with state := .inProgress }) := by
  obtain ⟨enhanced, hunit⟩ := p.chain.apply_unit { u with state := .inProgress }
  simp only [enhance, hunit]
  split
  · obtain ⟨hsame, hsame', hnone⟩ := settle_keeps
      ((w₁.noteCalls (p.chain.apply { u with state := .inProgress }).calls).report
        [.enhancementFailed _]) _ _
    exact .idle (hsame.trans hfiles) (hsame'.trans hledgers) hnone
  · exact effect_writeBack (w₁.noteCalls _) hfiles hledgers u enhanced

theorem eq_of_advance {state : EnhancementState} (h : u.advance state = .ok u') :
    u' = { u with state := state } := by
  unfold ClassUnit.advance at h
  split at h
  · exact (Except.ok.inj h).symm
  · cases h

/-- **Processing has one of these effects**, whatever state the unit is in. -/
theorem process_effect (p : Processor) (w : Workspace) (u : ClassUnit) :
    p.Effect w u (p.process w u) := by
  unfold process
  split
  · exact .idle rfl rfl rfl
  split
  · exact effect_settle (w := w) (w.report _) rfl rfl _ _
  split
  · exact effect_settle (w := w) (w.report _) rfl rfl _ _
  split
  · exact .idle rfl rfl rfl
  · next hadvance =>
    rw [eq_of_advance hadvance]
    exact effect_enhance (w := w) (w.report _) rfl rfl

/-- **A unit that failed, was skipped or could not be written** leaves the
ledgers alone. -/
theorem Effect.ledgers {done : Processed} (h : p.Effect w u done)
    (hnot : done.report.state = .failed ∨ done.report.state = .skipped ∨
      done.report.persistenceError.isSome) : done.workspace.ledgers = w.ledgers := by
  cases h with
  | idle _ hledgers => exact hledgers
  | lost _ _ _ hledgers => exact hledgers
  | written _ _ _ _ _ _ hstate herror =>
    rw [hstate, herror] at hnot
    simp at hnot

/-! ## Commits -/

/-- The commit of a unit to a file. -/
def commitTo (p : Processor) (u : ClassUnit) (file : Option Location) : Commit where
  file := file
  unit := u.name
  sourceSha256 := Bytes.sha256Hex u.compiled
  enhancers := p.chain.ids.map EnhancerId.display

/-- **What processing a unit commits**, if it writes its octets. -/
def commits (p : Processor) (w : Workspace) (u : ClassUnit) : List Commit :=
  let done := p.process w u
  match done.report.committed with
  | none => []
  | some receipt => [p.commitTo u (done.workspace.files.resolve true receipt.path).toOption]

/-- All that is committed is of the unit. -/
theorem of_mem_commits {c : Commit} (h : c ∈ p.commits w u) : ∃ file, c = p.commitTo u file := by
  unfold commits at h
  dsimp only at h
  split at h
  · cases h
  · exact ⟨_, List.mem_singleton.1 h⟩

end Processor

/-- What processing class files commits, in their order. -/
def Batch.commits (r : Batch.Progress) : List ScannedUnit → List Commit
  | [] => []
  | s :: units =>
    r.batch.processor.commits r.workspace (r.batch.unitOf s) ++ commits (Batch.step r s) units

end ClassWeave
