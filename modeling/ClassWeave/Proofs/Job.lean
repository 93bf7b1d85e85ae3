import ClassWeave.Job
import Mathlib.Data.List.Forall2
/-!
# Job -- what jobs promise each other

A job promises something (`Job.Promises`) if, as long as the others only do
what it relies on, each of its steps is one that is granted to it, none of
them has to wait, and it ends as told. Promises are made up of those of the
steps, as the job is. If what each job of a crew is granted is what the others
rely on, the crew comes to what its jobs promise, in whatever order they take
their steps (`Job.always_of_promises`).

The jobs one by one are one of these orders (`Always.one`).
-/


namespace ClassWeave

namespace Job

variable {σ τ α β ι : Type} {job : Job σ α} {jobs jobs' : List (Job σ α)} {s s' : σ} {a : α}
  {as : List α} {f : α → Job σ β} {R R' G G' : σ → σ → Prop} {P P' : α → σ → Prop} {Q : β → σ → Prop}

/-! ## Alone -/

@[simp] theorem run_pure (a : α) (s : σ) : (pure a : Job σ α).run s = (s, a) := rfl

@[simp] theorem run_bind (job : Job σ α) (f : α → Job σ β) (s : σ) :
    (job >>= f).run s = (f (job.run s).2).run (job.run s).1 := by
  show (job.bind f).run s = _
  induction job generalizing s with
  | done a => rfl
  | step ready act next ih => exact ih s (act s)

@[simp] theorem run_await (ready : σ → Bool) (f : σ → σ × α) (s : σ) :
    (await ready f).run s = f s := rfl

@[simp] theorem run_look (f : σ → α) (s : σ) : (look f).run s = (s, f s) := rfl

@[simp] theorem run_act (f : σ → σ) (s : σ) : (act f).run s = (f s, ()) := rfl

@[simp] theorem unhindered_pure (a : α) (s : σ) : (pure a : Job σ α).Unhindered s := trivial

@[simp] theorem unhindered_bind :
    (job >>= f).Unhindered s ↔ job.Unhindered s ∧ (f (job.run s).2).Unhindered (job.run s).1 := by
  show (job.bind f).Unhindered s ↔ _
  induction job generalizing s with
  | done a => exact (iff_of_eq (true_and _)).symm
  | step ready act next ih => exact (and_congr_right fun _ => ih s).trans and_assoc.symm

/-- A part of the state that can be read and written. -/
structure IsPart (get : σ → τ) (set : τ → σ → σ) : Prop where
  get_set : ∀ t s, get (set t s) = t
  set_set : ∀ t t' s, set t (set t' s) = set t s
  set_get : ∀ s, set (get s) s = s

section Part

variable {get : σ → τ} {set : τ → σ → σ} {part : Job τ α} (hpart : IsPart get set)
include hpart

theorem run_within (part : Job τ α) (s : σ) :
    (part.within get set).run s = (set (part.run (get s)).1 s, (part.run (get s)).2) := by
  induction part generalizing s with
  | done a => exact Prod.ext (hpart.set_get s).symm rfl
  | step ready act next ih =>
    rw [within, run, ih, hpart.get_set, hpart.set_set]
    rfl

theorem unhindered_within : (part.within get set).Unhindered s ↔ part.Unhindered (get s) := by
  induction part generalizing s with
  | done a => exact Iff.rfl
  | step ready act next ih =>
    rw [within, Unhindered, ih, hpart.get_set]
    rfl

end Part

/-! ## Promises -/

/-- **What a job promises**: while the others go from state to state as `R`
says, its steps go as `G` says and need not wait, and it ends with a result as
`P` says. -/
def Promises (R G : σ → σ → Prop) (P : α → σ → Prop) : Job σ α → σ → Prop
  | done a, s => ∀ s', R s s' → P a s'
  | step ready act next, s => ∀ s', R s s' →
    ready s' = true ∧ G s' (act s') ∧ (next s').Promises R G P (act s')

/-- What may be done one after another may be done at once, and nothing need
be done. -/
structure Composes (R : σ → σ → Prop) : Prop where
  refl : ∀ s, R s s
  trans : ∀ {s s' s''}, R s s' → R s' s'' → R s s''

theorem Composes.onto {R : τ → τ → Prop} (h : Composes R) (get : σ → τ) :
    Composes (InvImage R get) := ⟨fun s => h.refl (get s), h.trans⟩

theorem composes_eq : Composes (Eq : σ → σ → Prop) := ⟨Eq.refl, Eq.trans⟩

section Rely

variable (hR : Composes R)
include hR

/-- What is promised is promised as long as only others do something. -/
theorem Promises.later (h : job.Promises R G P s) (hs : R s s') : job.Promises R G P s' := by
  cases job with
  | done a => exact fun s'' hs' => h s'' (hR.trans hs hs')
  | step ready act next => exact fun s'' hs' => h s'' (hR.trans hs hs')

/-- **A job and one behind it** promise what the second does where the first
ends. -/
theorem Promises.bind (h : job.Promises R G P s)
    (hf : ∀ a s', P a s' → (f a).Promises R G Q s') : (job >>= f).Promises R G Q s := by
  show (job.bind f).Promises R G Q s
  induction job generalizing s with
  | done a => exact hf a s (h s (hR.refl s))
  | step ready act next ih =>
    intro s' hs
    obtain ⟨hready, hgranted, hnext⟩ := h s' hs
    exact ⟨hready, hgranted, ih s' hnext⟩

omit hR in
/-- What neither the others nor the job itself can change stays. -/
theorem Promises.keeps {I : σ → Prop} (h : job.Promises R G P s)
    (hothers : ∀ s s', I s → R s s' → I s') (hown : ∀ s s', I s → G s s' → I s') (hI : I s) :
    job.Promises R G (fun a s => P a s ∧ I s) s := by
  induction job generalizing s with
  | done a => exact fun s' hs => ⟨h s' hs, hothers s s' hI hs⟩
  | step ready act next ih =>
    intro s' hs
    obtain ⟨hready, hgranted, hnext⟩ := h s' hs
    exact ⟨hready, hgranted, ih s' hnext (hown s' _ (hothers s s' hI hs) hgranted)⟩

/-- **Alone, a job comes to what it promises**, and what was granted to its
steps is all that it does. -/
theorem Promises.run (hG : Composes G) (h : job.Promises R G P s) :
    P (job.run s).2 (job.run s).1 ∧ G s (job.run s).1 := by
  induction job generalizing s with
  | done a => exact ⟨h s (hR.refl s), hG.refl s⟩
  | step ready act next ih =>
    obtain ⟨-, hgranted, hnext⟩ := h s (hR.refl s)
    obtain ⟨hp, hg⟩ := ih s hnext
    exact ⟨hp, hG.trans hgranted hg⟩

end Rely

/-- One may rely on more, grant more and promise less. -/
theorem Promises.mono (h : job.Promises R G P s) (hR : ∀ s s', R' s s' → R s s')
    (hG : ∀ s s', G s s' → G' s s') (hP : ∀ a s, P a s → P' a s) : job.Promises R' G' P' s := by
  induction job generalizing s with
  | done a => exact fun s' hs => hP a s' (h s' (hR s s' hs))
  | step ready act next ih =>
    intro s' hs
    obtain ⟨hready, hgranted, hnext⟩ := h s' (hR s s' hs)
    exact ⟨hready, hG _ _ hgranted, ih s' hnext⟩

theorem promises_pure (h : ∀ s', R s s' → P a s') : (pure a : Job σ α).Promises R G P s := h

theorem promises_await {ready : σ → Bool} {f : σ → σ × α}
    (h : ∀ s', R s s' → ready s' = true ∧ G s' (f s').1 ∧ ∀ s'', R (f s').1 s'' → P (f s').2 s'') :
    (await ready f).Promises R G P s := h

theorem promises_once {f : σ → σ × α}
    (h : ∀ s', R s s' → G s' (f s').1 ∧ ∀ s'', R (f s').1 s'' → P (f s').2 s'') :
    (once f).Promises R G P s := fun s' hs => ⟨rfl, h s' hs⟩

theorem promises_look (hG : Composes G) {f : σ → α}
    (h : ∀ s', R s s' → P (f s') s') (hP : ∀ a s s', P a s → R s s' → P a s') :
    (look f).Promises R G P s :=
  promises_once fun s' hs => ⟨hG.refl s', fun s'' hs' => hP _ s' s'' (h s' hs) hs'⟩

/-- A part of the state does not see what happens beside it. -/
theorem Promises.within {get : σ → τ} {set : τ → σ → σ} {part : Job τ α} {R G : τ → τ → Prop}
    {P : α → τ → Prop} {R' G' : σ → σ → Prop} (hpart : IsPart get set)
    (h : part.Promises R G P (get s)) (hR : ∀ s s', R' s s' → R (get s) (get s'))
    (hG : ∀ s t, G (get s) t → G' s (set t s)) :
    (part.within get set).Promises R' G' (fun a s => P a (get s)) s := by
  induction part generalizing s with
  | done a => exact fun s' hs => h (get s') (hR s s' hs)
  | step ready act next ih =>
    intro s' hs
    obtain ⟨hready, hgranted, hnext⟩ := h (get s') (hR s s' hs)
    refine ⟨hready, hG s' _ hgranted, ih _ ?_⟩
    rwa [hpart.get_set]

/-! ## Crews -/

/-- A crew after a step, as far as the jobs go. -/
inductive Below : List (Job σ α) → List (Job σ α) → Prop
  | here {ready : σ → Bool} {act : σ → σ} {next : σ → Job σ α} (s : σ) (jobs : List (Job σ α)) :
    Below (next s :: jobs) (step ready act next :: jobs)
  | there {jobs jobs' : List (Job σ α)} (job : Job σ α) : Below jobs' jobs →
    Below (job :: jobs') (job :: jobs)

/-- **A crew cannot take steps for ever**: a job more keeps it so, by the
steps of that job and, within, by those of the others. -/
theorem acc_below (jobs : List (Job σ α)) : Acc Below jobs := by
  induction jobs with
  | nil => exact ⟨_, fun jobs' h => by cases h⟩
  | cons job jobs ih =>
    induction job generalizing jobs with
    | done a =>
      induction ih with
      | intro jobs _ ihjobs =>
        refine ⟨_, fun jobs' h => ?_⟩
        cases h with
        | there _ h => exact ihjobs _ h
    | step ready act next ihnext =>
      induction ih with
      | intro jobs hjobs ihjobs =>
        refine ⟨_, fun jobs' h => ?_⟩
        cases h with
        | here s => exact ihnext s jobs ⟨_, hjobs⟩
        | there _ h => exact ihjobs _ h

theorem Moves.lowers (h : Moves jobs s jobs' s') : Below jobs' jobs := by
  induction h with
  | here jobs _ => exact .here _ jobs
  | there job _ ih => exact .there job ih

section Crew

variable {items : List ι} {R G : ι → σ → σ → Prop} {P : ι → α → σ → Prop} {I : σ → Prop}

/-- A crew whose jobs promise something is done, or goes on. -/
theorem done_or_moves (hR : ∀ x, Composes (R x))
    (h : List.Forall₂ (fun x job => Promises (R x) (G x) (P x) job s) items jobs) :
    (∃ as, jobs = as.map done ∧ List.Forall₂ (fun x a => P x a s) items as) ∨
      ∃ jobs' s', Moves jobs s jobs' s' := by
  induction h with
  | nil => exact .inl ⟨[], rfl, .nil⟩
  | @cons x job items jobs hjob _ ih =>
    cases job with
    | done a =>
      rcases ih with ⟨as, rfl, has⟩ | ⟨jobs', s', hmoves⟩
      · exact .inl ⟨a :: as, rfl, .cons (hjob s ((hR x).refl s)) has⟩
      · exact .inr ⟨_, s', .there _ hmoves⟩
    | step ready act next => exact .inr ⟨_, _, .here jobs (hjob s ((hR x).refl s)).1⟩

/-- **A step of a crew is granted to one of its jobs**, and all go on to
promise what they did. -/
theorem Moves.promises (hmoves : Moves jobs s jobs' s') (hR : ∀ x, Composes (R x))
    (hspare : items.Pairwise fun x y => ∀ s s', (G x s s' → R y s s') ∧ (G y s s' → R x s s'))
    (h : List.Forall₂ (fun x job => Promises (R x) (G x) (P x) job s) items jobs) :
    ∃ x ∈ items, G x s s' ∧
      List.Forall₂ (fun x job => Promises (R x) (G x) (P x) job s') items jobs' := by
  induction hmoves generalizing items with
  | @here ready act next s jobs hready =>
    obtain ⟨x, items, hjob, hjobs, rfl⟩ := List.forall₂_cons_right_iff.1 h
    rw [List.pairwise_cons] at hspare
    obtain ⟨-, hgranted, hnext⟩ := hjob s ((hR x).refl s)
    refine ⟨x, List.mem_cons_self, hgranted, .cons hnext ?_⟩
    rw [List.forall₂_iff_get] at hjobs ⊢
    refine ⟨hjobs.1, fun i hi hi' => (hjobs.2 i hi hi').later (hR _) ?_⟩
    exact (hspare.1 _ (List.getElem_mem hi) s _).1 hgranted
  | @there jobs jobs' s s' job _ ih =>
    obtain ⟨x, items, hjob, hjobs, rfl⟩ := List.forall₂_cons_right_iff.1 h
    rw [List.pairwise_cons] at hspare
    obtain ⟨y, hy, hgranted, hjobs'⟩ := ih hspare.2 hjobs
    exact ⟨y, List.mem_cons_of_mem _ hy, hgranted,
      .cons (hjob.later (hR x) ((hspare.1 y hy s s').2 hgranted)) hjobs'⟩

/-- **A crew comes to what its jobs promise**, in whatever order they take
their steps, if what is granted to each is what every other relies on; and
what no step that is granted can change stays. -/
theorem always_of_promises (hR : ∀ x, Composes (R x))
    (hspare : items.Pairwise fun x y => ∀ s s', (G x s s' → R y s s') ∧ (G y s s' → R x s s'))
    (hI : ∀ x ∈ items, ∀ s s', I s → G x s s' → I s')
    (h : List.Forall₂ (fun x job => Promises (R x) (G x) (P x) job s) items jobs) (hs : I s) :
    Always (fun s as => I s ∧ List.Forall₂ (fun x a => P x a s) items as) jobs s := by
  -- on the steps that the crew can still take
  induction acc_below jobs generalizing s with
  | intro jobs _ ih =>
    rcases done_or_moves hR h with ⟨as, rfl, has⟩ | hgoes
    · exact .finished ⟨hs, has⟩
    · refine .going hgoes fun jobs' s' hmoves => ?_
      obtain ⟨x, hx, hgranted, h'⟩ := hmoves.promises hR hspare h
      exact ih jobs' hmoves.lowers h' (hI x hx s s' hs hgranted)

end Crew

/-! ## One by one -/

theorem Always.mono {Q Q' : σ → List α → Prop} (h : Always Q jobs s)
    (hQ : ∀ s as, Q s as → Q' s as) : Always Q' jobs s := by
  induction h with
  | finished hq => exact .finished (hQ _ _ hq)
  | going hgoes _ ih => exact .going hgoes ih

theorem Moves.behind (as : List α) (h : Moves jobs s jobs' s') :
    Moves (as.map done ++ jobs) s (as.map done ++ jobs') s' := by
  induction as with
  | nil => exact h
  | cons a as ih => exact .there (done a) ih

/-- A crew that is done takes no step. -/
theorem not_moves_done : ¬ Moves (as.map done) s jobs' s' := by
  intro h
  induction as generalizing jobs' with
  | nil => cases h
  | cons a as ih =>
    cases h with
    | there _ h => exact ih h

/-- A crew that is done is as is sure of it. -/
theorem Always.of_done {Q : σ → List α → Prop} (h : Always Q (as.map done) s) : Q s as := by
  generalize hjobs : as.map done = jobs at h
  cases h with
  | @finished as' s hq =>
    obtain rfl : as = as' := List.map_injective_iff.2 (fun _ _ heq => done.inj heq) hjobs
    exact hq
  | going hgoes _ =>
    obtain ⟨jobs', s', hmoves⟩ := hgoes
    exact absurd (hjobs ▸ hmoves) not_moves_done

/-- **One job after another is one of the orders**: what is sure of a crew is
sure after its first job alone, if that need not wait. -/
theorem Always.one {Q : σ → List α → Prop} (h : Always Q (as.map done ++ job :: jobs) s)
    (hjob : job.Unhindered s) :
    Always Q ((as ++ [(job.run s).2]).map done ++ jobs) (job.run s).1 := by
  induction job generalizing s with
  | done a =>
    rw [List.map_append, List.append_assoc]
    exact h
  | step ready act next ih =>
    have hmoves : Moves (as.map done ++ step ready act next :: jobs) s
        (as.map done ++ next s :: jobs) (act s) := .behind as (.here jobs hjob.1)
    refine ih s ?_ hjob.2
    generalize as.map done ++ step ready act next :: jobs = crew at h hmoves
    cases h with
    | finished _ => exact absurd hmoves not_moves_done
    | going _ hall => exact hall _ _ hmoves

-- a promise is made up of others, and not looked into
attribute [irreducible] Promises

end Job

end ClassWeave
