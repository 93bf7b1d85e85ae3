/-!
# Job -- what is done in steps

A job is done in steps, on a state that it shares with others. A step is
taken at once; what is left to do after it depends on the state it found. A
step may have to wait until the state is ready for it, as for a lock.

Several jobs over one state are a crew. Whichever of them need not wait may
take the next step (`Job.Moves`), so what is sure of a crew is what it comes
to however they take turns (`Job.Always`).
-/


namespace ClassWeave

/-- Something that is done in steps on a shared state, and has a result. -/
inductive Job (σ α : Type) where
  | done (result : α)
  /-- A step that is taken when the state is ready. -/
  | step (ready : σ → Bool) (act : σ → σ) (next : σ → Job σ α)

namespace Job

variable {σ τ α β : Type}

/-- A job, and behind it one that depends on its result. -/
def bind : Job σ α → (α → Job σ β) → Job σ β
  | done a, f => f a
  | step ready act next, f => step ready act fun s => (next s).bind f

instance : Monad (Job σ) where
  pure := done
  bind := bind

/-! ## Steps -/

/-- A step that waits. -/
def await (ready : σ → Bool) (f : σ → σ × α) : Job σ α :=
  step ready (fun s => (f s).1) fun s => done (f s).2

/-- A step that changes the state and has a result. -/
def once (f : σ → σ × α) : Job σ α := await (fun _ => true) f

def look (f : σ → α) : Job σ α := once fun s => (s, f s)

/-- A step that only changes the state. -/
def act (f : σ → σ) : Job σ Unit := once fun s => (f s, ())

/-- A job on a part of the state. -/
def within (get : σ → τ) (set : τ → σ → σ) : Job τ α → Job σ α
  | done a => done a
  | step ready act next =>
    step (fun s => ready (get s)) (fun s => set (act (get s)) s) fun s => (next (get s)).within get set

/-! ## Alone -/

/-- The state and the result after a job that nothing comes in between. -/
def run : Job σ α → σ → σ × α
  | done a, s => (s, a)
  | step _ act next, s => (next s).run (act s)

/-- Whether such a job never has to wait. -/
def Unhindered : Job σ α → σ → Prop
  | done _, _ => True
  | step ready act next, s => ready s = true ∧ (next s).Unhindered (act s)

/-! ## In a crew -/

/-- **A crew takes a step**: one of its jobs does, which need not wait. -/
inductive Moves : List (Job σ α) → σ → List (Job σ α) → σ → Prop
  | here {ready : σ → Bool} {act : σ → σ} {next : σ → Job σ α} {s : σ} (jobs : List (Job σ α)) :
    ready s = true → Moves (step ready act next :: jobs) s (next s :: jobs) (act s)
  | there {jobs jobs' : List (Job σ α)} {s s' : σ} (job : Job σ α) : Moves jobs s jobs' s' →
    Moves (job :: jobs) s (job :: jobs') s'

/-- **What is sure of a crew**, in whatever order its jobs take their steps:
they come to an end, with a state and results, in the order of the jobs, that
are as told. As long as a job is not done, some job need not wait. -/
inductive Always (Q : σ → List α → Prop) : List (Job σ α) → σ → Prop
  | finished {results : List α} {s : σ} : Q s results → Always Q (results.map done) s
  | going {jobs : List (Job σ α)} {s : σ} : (∃ jobs' s', Moves jobs s jobs' s') →
    (∀ jobs' s', Moves jobs s jobs' s' → Always Q jobs' s') → Always Q jobs s

end Job

end ClassWeave
