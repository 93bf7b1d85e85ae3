import ClassWeave.Batch.Parallel
import ClassWeave.Proofs.Batch.Turn
import ClassWeave.Proofs.Steps
/-!
# Batch -- workers that do not disturb each other

A worker takes its class file to the end that it comes to by itself, whatever
the others do in between, if they leave alone what is of consequence for it
(`Turn.promises_job`): the way to its output, what stands in its place and
where it is drafted, and the unit of its name. That is all that a worker
touches itself, so the workers of a run with class files of different names
leave each other alone (`Turn.spares`), and in whatever order they take their
steps there are the reports and the files of all by themselves
(`always_pointwise`).

One class file after another is one of these orders (`run_of_ensures`).
-/


namespace ClassWeave

namespace Batch

open FileTree (Sites Merges Alike Outlet Grown Spares Touches Undisturbed Writing)

variable {p : Processor} {destination : Option Path} {b : Batch} {w w' : Workspace} {root : Path}
  {top place : Location} {s s' : ScannedUnit} {above above' : List String} {n n' name : String}
  {o o' : Writing} {units : List ScannedUnit} {r r' : Shared} {recursive : Bool}
  {change : Location → Option Entry} {t t₁ t₂ : FileTree} {f : Fate}
  {Q : Except StructuralError (Workspace × Batch × BatchReport) → Prop}

/-! ## One by one -/

theorem isPart_workspace :
    Job.IsPart Shared.workspace fun w (r : Shared) => { r with workspace := w } :=
  ⟨fun _ _ => rfl, fun _ _ _ => rfl, fun _ => rfl⟩

/-- **Alone, a worker does what a run does with a class file**, and need not
wait. -/
theorem run_job (b : Batch) (s : ScannedUnit) (w : Workspace) {done : Processed}
    (hdone : b.processor.process w (b.unitOf s) = done) :
    (b.job s).run ⟨w, b.cache, []⟩ =
        (⟨done.workspace, b.cache.put s.qualifiedName done.unit, []⟩, done.report) ∧
      (b.job s).Unhindered ⟨w, b.cache, []⟩ := by
  obtain ⟨hrun, hfree⟩ := b.processor.run_job (b.unitOf s) w
  rw [hdone] at hrun
  -- whether the unit was kept or not, it is the one that the run takes
  have hkeep : ∃ cache, Shared.keep ⟨w, b.cache, []⟩ s.qualifiedName (b.newUnit s) = ⟨w, cache, []⟩ ∧
      (cache.get? s.qualifiedName).getD (b.newUnit s) = b.unitOf s ∧
      ∀ v, cache.put s.qualifiedName v = b.cache.put s.qualifiedName v := by
    rw [Shared.keep, unitOf]
    rcases hkept : b.cache.get? s.qualifiedName with _ | u
    · exact ⟨_, rfl, by rw [UnitCache.get?_put_self]; rfl, UnitCache.put_put _ _ _⟩
    · exact ⟨_, rfl, by simp only [hkept, Option.getD_some], fun _ => rfl⟩
  obtain ⟨cache, hkeep, hunit, hput⟩ := hkeep
  simp only [job, Job.run_bind, Job.unhindered_bind, Job.run_act, Job.run_await, hkeep,
    Shared.unitFor, Shared.lock, hunit, Job.run_within isPart_workspace, Job.unhindered_within isPart_workspace, hrun,
    Shared.unlock, hput, List.erase_cons_head, Job.run_pure]
  exact ⟨trivial, ⟨rfl, trivial⟩, ⟨rfl, trivial⟩, hfree, ⟨rfl, trivial⟩, trivial⟩

/-- What is sure of workers is sure of one class file after another. -/
theorem always_foldl {P : Shared → List UnitReport → Prop} (units : List ScannedUnit)
    (x : Progress)
    (h : Job.Always P (x.reports.reverse.map Job.done ++ units.map x.batch.job)
      ⟨x.workspace, x.batch.cache, []⟩) :
    P ⟨(units.foldl step x).workspace, (units.foldl step x).batch.cache, []⟩
      (units.foldl step x).reports.reverse := by
  induction units generalizing x with
  | nil =>
    rw [List.map_nil, List.append_nil] at h
    exact h.of_done
  | cons s units ih =>
    obtain ⟨hrun, hfree⟩ := run_job x.batch s x.workspace rfl
    have hone := h.one hfree
    rw [hrun] at hone
    refine ih (step x s) ?_
    rw [show (step x s).reports = _ :: x.reports from rfl, List.reverse_cons]
    exact hone

theorem batch_foldl (units : List ScannedUnit) (x : Progress) :
    (units.foldl step x).batch = { x.batch with cache := (units.foldl step x).batch.cache } := by
  induction units generalizing x with
  | nil => rfl
  | cons s units ih => exact ih (step x s)

/-- **What is sure of a run, in parallel or not, is what it comes to one class
file after another.** -/
theorem run_of_ensures (h : b.Ensures w root recursive Q) : Q (b.run w root recursive) := by
  unfold Ensures at h
  split at h
  · rw [run]
    rcases hscan : w.files.scan root recursive with e | ⟨scan, events⟩
    · rwa [hscan] at h
    · rw [hscan] at h
      have hrun := always_foldl scan.units ⟨w.report events, b, []⟩ h
      have hbatch := batch_foldl scan.units ⟨w.report events, b, []⟩
      dsimp only at hrun hbatch
      rwa [← hbatch] at hrun
  · exact h

/-! ## Side by side -/

/-- **What the others leave to a worker**: what its output is a matter of, and
the unit of its name and whether that is locked. -/
structure Leaves (name : String) (loc : Location) (n : String) (r r' : Shared) : Prop where
  files : Spares loc n r.workspace.files r'.workspace.files
  unit : r'.cache.get? name = r.cache.get? name
  locked : name ∈ r'.locked ↔ name ∈ r.locked

/-- **What a worker takes for itself**: what its output touches, and the unit
of its name. -/
structure Takes (name : String) (loc : Location) (n : String) (change : Location → Option Entry)
    (r r' : Shared) : Prop where
  files : Touches loc n change r.workspace.files r'.workspace.files
  unit : ∀ other, other ≠ name → r'.cache.get? other = r.cache.get? other
  locked : ∀ other, other ≠ name → (other ∈ r'.locked ↔ other ∈ r.locked)

theorem composes_leaves (name : String) (loc : Location) (n : String) :
    Job.Composes (Leaves name loc n) where
  refl _ := ⟨(FileTree.composes_spares loc n).refl _, rfl, Iff.rfl⟩
  trans h h' := ⟨(FileTree.composes_spares loc n).trans h.files h'.files, h'.unit.trans h.unit,
    h'.locked.trans h.locked⟩

/-- **Workers leave each other alone** whose outputs do not disturb each
other, if their units have different names. -/
theorem Takes.leaves {other : String} {loc loc' : Location} (h : Takes name loc n change r r')
    (hclear : Undisturbed loc n loc' n') (hne : other ≠ name) : Leaves other loc' n' r r' :=
  ⟨h.files.spares hclear, h.unit other hne, h.locked other hne⟩

section Steps

variable {loc : Location} {u : ClassUnit}

/-- A unit is kept for a name that none was kept for, and stays. -/
theorem promises_keep (u : ClassUnit) (hunmet : r.cache.get? name = none) :
    (Job.act fun r => r.keep name u).Promises (Leaves name loc n) (Takes name loc n change)
      (fun _ r' => Spares loc n r.workspace.files r'.workspace.files ∧
        r'.cache.get? name = some u ∧ (name ∈ r'.locked ↔ name ∈ r.locked)) r := by
  refine Job.promises_once fun r₁ h₁ => ?_
  have hkeep : r₁.keep name u = { r₁ with cache := r₁.cache.put name u } := by
    rw [Shared.keep, h₁.unit, hunmet]
    rfl
  dsimp only
  rw [hkeep]
  refine ⟨⟨(FileTree.composes_touches loc n change).refl _,
      fun other hne => UnitCache.get?_put_of_ne _ _ hne, fun _ _ => Iff.rfl⟩, fun r₂ h₂ => ?_⟩
  exact ⟨(FileTree.composes_spares loc n).trans h₁.files h₂.files,
    h₂.unit.trans (UnitCache.get?_put_self _ _ _), h₂.locked.trans h₁.locked⟩

/-- A unit that is free need not be waited for: nobody else is to lock it. -/
theorem promises_lock (other : ClassUnit) (hkept : r.cache.get? name = some u)
    (hfree : name ∉ r.locked) :
    (Job.await (fun r => !r.locked.contains name)
        fun r => (r.lock name, r.unitFor name other)).Promises
      (Leaves name loc n) (Takes name loc n change)
      (fun v r' => v = u ∧ Spares loc n r.workspace.files r'.workspace.files) r := by
  refine Job.promises_await fun r₁ h₁ => ⟨?_, ?_, fun r₂ h₂ => ⟨?_, ?_⟩⟩
  · simpa [h₁.locked] using hfree
  · exact ⟨(FileTree.composes_touches loc n change).refl _, fun _ _ => rfl,
      fun other hne => List.mem_cons.trans (or_iff_right hne)⟩
  · rw [Shared.unitFor, h₁.unit, hkept, Option.getD_some]
  · exact (FileTree.composes_spares loc n).trans h₁.files h₂.files

/-- To put a unit back leaves the files. -/
theorem promises_unlock (u : ClassUnit) :
    (Job.act fun r => r.unlock name u).Promises (Leaves name loc n) (Takes name loc n change)
      (fun _ r' => Spares loc n r.workspace.files r'.workspace.files) r := by
  refine Job.promises_once fun r₁ h₁ => ⟨?_, fun r₂ h₂ => ?_⟩
  · exact ⟨(FileTree.composes_touches loc n change).refl _,
      fun other hne => UnitCache.get?_put_of_ne _ _ hne, fun other hne => List.mem_erase_of_ne hne⟩
  · exact (FileTree.composes_spares loc n).trans h₁.files h₂.files

end Steps

/-- **What has come of a fate** in the files: all that it has a say in is as it
has it, and no draft is left. -/
structure Ended (o : Writing) (f : Fate) (loc : Location) (n : String) (t : FileTree) : Prop where
  entry : ∀ l e, afterFate o f l = some e → t.entry? l = some e
  vacant : t.entry? (loc ++ [n ++ ".enhancing"]) = none

/-- That stays so if others spare the output. -/
theorem Turn.ended_spared (h : Turn destination t top place s above n o)
    (hended : Ended o f (place ++ above) n t₁) (hs : Spares (place ++ above) n t₁ t₂) :
    Ended o f (place ++ above) n t₂ where
  entry l e hafter := by
    have hthere := hended.entry l e hafter
    rcases h.made hafter with ⟨hl, -⟩ | ⟨-, rfl, -⟩
    · rw [hl] at hthere ⊢
      rw [hs.entry_place, hthere]
    · exact hs.grown.directory l hthere
  vacant := hs.draft.trans hended.vacant

/-- **A class file meets its own fate** in trees that are alike for its output,
whatever others do that spares it. -/
theorem Turn.promises_process (h : Turn destination w.files top place s above n o)
    (halike : Alike w.files w'.files (place ++ above) n) :
    (p.job (ownUnit destination s)).Promises
      (InvImage (Spares (place ++ above) n) Workspace.files)
      (InvImage (Touches (place ++ above) n (afterFate o (aloneFate p destination w s)))
        Workspace.files)
      (fun done w'' => done.2 = aloneReport p destination w s ∧
        Ended o (aloneFate p destination w s) (place ++ above) n w''.files) w' := by
  obtain ⟨f, hf⟩ : ∃ f, aloneFate p destination w s = f := ⟨_, rfl⟩
  have hfate : p.fateOn (ownUnit destination s)
      (p.filter.classify w.files (ownUnit destination s)) = f := hf
  have hreport : aloneReport p destination w s =
      f.report w'.files (ownUnit destination s).location.output (ownUnit destination s).name := by
    rw [aloneReport, (alone_meets p destination w s).1, hf, location_ownUnit, name_ownUnit]
    exact (h.meet halike f s.qualifiedName).1.symm
  rw [hf]
  refine (Processor.promises_job (FileTree.composes_spares _ n) (FileTree.composes_touches _ n _) p
    (u := ownUnit destination s) (K := Ended o f (place ++ above) n) rfl ⟨rfl, rfl⟩ (fun t ht => ?_)
    (fun t t' ht hended => h.ended_spared hended ht) (fun hnot => ?_) fun out hout t ht => ?_).mono
    (fun _ _ hs => hs) (fun _ _ hg => hg) fun _ _ hdone => ⟨by rw [hdone.1, hfate, hreport], hdone.2⟩
  · -- its copy is read as at the start, so the verdict is the same
    exact EligibilityFilter.classify_congr (h.outlet.read_congr h.start.tree (halike.spared ht))
  · rw [hfate] at hnot
    refine ⟨fun l e hafter => ?_, halike.vacant⟩
    rcases f with reason | ⟨message, enhancer⟩ | out
    · cases hafter
    · cases hafter
    · exact absurd rfl (hnot out)
  · obtain rfl := hfate.symm.trans hout
    obtain ⟨t₁, hwrite, -⟩ := h.outlet.write halike.ready out
    rw [location_ownUnit, hwrite]
    exact (h.outlet.steps (halike.spared ht).ready out).mono (fun _ _ hs => hs) (fun _ _ hg => hg)
      fun _ _ hended => ⟨hended.1, hended.2.1, hended.2.2⟩

/-- **A worker takes its class file to the end** that it comes to by itself,
whatever the others do that leave it alone. -/
theorem Turn.promises_job (h : Turn b.destination w.files top place s above n o)
    (halike : Alike w.files r.workspace.files (place ++ above) n)
    (hunmet : r.cache.get? s.qualifiedName = none) (hfree : s.qualifiedName ∉ r.locked) :
    (b.job s).Promises (Leaves s.qualifiedName (place ++ above) n)
      (Takes s.qualifiedName (place ++ above) n
        (afterFate o (aloneFate b.processor b.destination w s)))
      (fun report r' => report = aloneReport b.processor b.destination w s ∧
        Ended o (aloneFate b.processor b.destination w s) (place ++ above) n r'.workspace.files)
      r := by
  have hR := composes_leaves s.qualifiedName (place ++ above) n
  rw [job]
  refine (promises_keep (b.newUnit s) hunmet).bind hR ?_
  rintro _ r₁ ⟨hspared₁, hunit₁, hlocked₁⟩
  refine (promises_lock (b.newUnit s) hunit₁ (hlocked₁.not.2 hfree)).bind hR ?_
  rintro _ r₂ ⟨rfl, hspared₂⟩
  refine ((h.promises_process ((halike.spared hspared₁).spared hspared₂)).within isPart_workspace
    (fun _ _ hs => hs.files) fun r t ht => ⟨ht, fun _ _ => rfl, fun _ _ => Iff.rfl⟩).bind hR ?_
  rintro done r₃ ⟨hreport, hended⟩
  refine (promises_unlock done.1).bind hR fun _ r₄ hspared => Job.promises_pure fun r₅ hs => ?_
  exact ⟨hreport, h.ended_spared (h.ended_spared hended hspared) hs.files⟩

/-! ## A whole crew -/

/-- **Files that workers are busy with**: whatever stands anywhere stood there
at the start, or is where one of them drafts, or is as the fate of one of
their class files has it. -/
structure Underway (p : Processor) (destination : Option Path) (w : Workspace) (place : Location)
    (units : List ScannedUnit) (above : ScannedUnit → List String) (n : ScannedUnit → String)
    (o : ScannedUnit → Writing) (t : FileTree) : Prop where
  home : t.home = w.files.home
  tree : t.IsTree
  entry : ∀ l, t.entry? l = w.files.entry? l ∨ ∃ s ∈ units,
    l = place ++ above s ++ [n s ++ ".enhancing"] ∨
      ∃ e, t.entry? l = some e ∧ afterFate (o s) (aloneFate p destination w s) l = some e

/-- They are so after what any of the workers may do. -/
theorem Underway.touches {above : ScannedUnit → List String} {n : ScannedUnit → String}
    {o : ScannedUnit → Writing} (h : Underway p destination w place units above n o t)
    (hs : s ∈ units) (htouches : Touches (place ++ above s) (n s)
      (afterFate (o s) (aloneFate p destination w s)) t t') :
    Underway p destination w place units above n o t' where
  home := htouches.home.trans h.home
  tree := htouches.tree h.tree
  entry l := by
    rcases htouches.entry l with hsame | htouched
    · rw [hsame]
      exact h.entry l
    · rcases htouched.foreseen with ⟨e, he, hafter⟩ | hdraft
      · exact .inr ⟨s, hs, .inr ⟨e, he, hafter⟩⟩
      · exact .inr ⟨s, hs, .inl hdraft⟩

/-- **Where all class files have come to their end, the files are merged.** -/
theorem Underway.merges {above : ScannedUnit → List String} {n : ScannedUnit → String}
    {o : ScannedUnit → Writing} (h : Underway p destination w place units above n o t)
    (hturn : ∀ s ∈ units, Turn destination w.files top place s (above s) (n s) (o s))
    (hended : ∀ s ∈ units, Ended (o s) (aloneFate p destination w s) (place ++ above s) (n s) t) :
    Merges w.files (units.map (aloneFiles p destination w)) t := by
  have halone : ∀ s ∈ units, ∀ l, FileTree.entry? (aloneFiles p destination w s) l =
      (afterFate (o s) (aloneFate p destination w s) l).or (w.files.entry? l) := fun s hs => by
    obtain ⟨-, -, -, -, hentries⟩ := (hturn s hs).alone_alike (p := p) (hturn s hs).start
    exact hentries
  refine ⟨h.home, fun a ha l hne => ?_, fun l hkept => ?_⟩
  · obtain ⟨s, hs, rfl⟩ := List.mem_map.1 ha
    rw [halone s hs] at hne ⊢
    rcases hafter : afterFate (o s) (aloneFate p destination w s) l with _ | e
    · rw [hafter, Option.none_or] at hne
      exact absurd rfl hne
    · rw [Option.some_or, (hended s hs).entry l e hafter]
  · rcases h.entry l with hsame | ⟨s, hs, hdraft | ⟨e, he, hafter⟩⟩
    · exact hsame
    · rw [hdraft, (hended s hs).vacant, (hturn s hs).start.vacant]
    · have hsame := hkept _ (List.mem_map_of_mem hs)
      rw [halone s hs, hafter, Option.some_or] at hsame
      rw [he, hsame]

/-- **Workers with class files of different names** report each of them as it
is reported by itself, and leave the files merged, in whatever order they take
their steps. -/
theorem always_pointwise (h : Sites w.files root (b.destination.getD root) top place)
    (hfound : ∀ s ∈ units, Scan.Found w.files root top s)
    (hnodup : (units.map ScannedUnit.qualifiedName).Nodup) (hfiles : r.workspace.files = w.files)
    (hunmet : ∀ s ∈ units, r.cache.get? s.qualifiedName = none) (hfree : r.locked = []) :
    Job.Always (fun r reports => reports = units.map (aloneReport b.processor b.destination w) ∧
        Merges w.files (units.map (aloneFiles b.processor b.destination w)) r.workspace.files)
      (units.map b.job) r := by
  have hsome : Nonempty Writing := ⟨⟨none, fun _ _ => none, True⟩⟩
  choose! above n o hturn using fun s hs => exists_turn h (hfound s hs)
  -- each is granted what the others leave to it
  have hspare : units.Pairwise fun s s' => ∀ r r' : Shared,
      (Takes s.qualifiedName (place ++ above s) (n s)
          (afterFate (o s) (aloneFate b.processor b.destination w s)) r r' →
        Leaves s'.qualifiedName (place ++ above s') (n s') r r') ∧
      (Takes s'.qualifiedName (place ++ above s') (n s')
          (afterFate (o s') (aloneFate b.processor b.destination w s')) r r' →
        Leaves s.qualifiedName (place ++ above s) (n s) r r') := by
    refine (List.pairwise_map.1 hnodup).imp_of_mem fun {s s'} hs hs' hne r r' => ?_
    have hclear := (hturn s hs).undisturbed (hturn s' hs') hne.symm h.undrafted
    exact ⟨fun htakes => htakes.leaves hclear hne.symm,
      fun htakes => htakes.leaves hclear.symm hne⟩
  have hstart : Underway b.processor b.destination w place units above n o r.workspace.files := by
    rw [hfiles]
    exact ⟨rfl, h.classRoot.tree, fun _ => .inl rfl⟩
  refine (Job.always_of_promises
    (P := fun s report r => Ended (o s) (aloneFate b.processor b.destination w s)
      (place ++ above s) (n s) r.workspace.files ∧ aloneReport b.processor b.destination w s = report)
    (I := fun r => Underway b.processor b.destination w place units above n o r.workspace.files)
    (fun s => composes_leaves _ _ _) hspare
    (fun s hs _ _ hunderway htakes => hunderway.touches hs htakes.files) ?_ hstart).mono ?_
  · rw [List.forall₂_map_right_iff, List.forall₂_same]
    intro s hs
    refine ((hturn s hs).promises_job ?_ (hunmet s hs) (by rw [hfree]; nofun)).mono
      (fun _ _ hleaves => hleaves) (fun _ _ htakes => htakes) fun _ _ hdone => ⟨hdone.2, hdone.1.symm⟩
    rw [hfiles]
    exact (hturn s hs).start
  · rintro r' reports ⟨hunderway, hdone⟩
    obtain ⟨hended, hreports⟩ := (List.forall₂_and_left _ _).1 hdone
    rw [← List.forall₂_map_left_iff (R := Eq), List.forall₂_eq_eq_eq] at hreports
    exact ⟨hreports.symm, hunderway.merges hturn hended⟩

end Batch

end ClassWeave
