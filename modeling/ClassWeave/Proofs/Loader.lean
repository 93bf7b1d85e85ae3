import ClassWeave.Batch
import ClassWeave.Loader
import ClassWeave.Proofs.Eligibility
import ClassWeave.Proofs.Fate
/-!
# Loader -- what is handed out

A loader keeps units that a processor has settled, each made of what its
source tree had for a name at some time (`Loader.Keeps`), over any history
of requests, batches and renewals (`Loader.Reached`). So what it answers
with octets of the project's own is told by the way that the unit was
settled: for a class that is not exempt the octets carry the marker, unless
the unit was passed over because the copy at its output was up to date
(`resolve_marked_iff`). Then it is the copy that is enhanced, but the
loader hands out the unit (`resolve_unmarked`).
-/


namespace ClassWeave

namespace Processor

variable {p : Processor} {w : Workspace} {u : ClassUnit} {done : Processed}

/-! ## Calls are added to -/

theorem calls_settle (w : Workspace) (u : ClassUnit) (step : Except StateError ClassUnit) :
    (settle w u step).workspace.calls = w.calls := by
  cases step <;> rfl

theorem calls_writeBack (p : Processor) (w : Workspace) (u : ClassUnit) :
    (p.writeBack w u).workspace.calls = w.calls := by
  unfold writeBack
  split
  · rfl
  · rfl
  · next files receipt _ => exact record_calls p (w.withFiles files) u receipt

/-- **Processing adds to the calls**, whatever state the unit is in. -/
theorem calls_process (p : Processor) (w : Workspace) (u : ClassUnit) :
    w.calls <+: (p.process w u).workspace.calls := by
  unfold process
  split
  · exact List.prefix_rfl
  split
  · rw [calls_settle]
    exact List.prefix_rfl
  split
  · rw [calls_settle]
    exact List.prefix_rfl
  split
  · exact List.prefix_rfl
  · next u' _ =>
    have hnoted : ∀ w : Workspace, w.calls <+: (w.noteCalls (p.chain.apply u').calls).calls :=
      fun w => List.prefix_append _ _
    simp only [enhance]
    split
    · rw [calls_settle]
      exact hnoted _
    · rw [calls_writeBack, calls_settle]
      exact hnoted _

/-! ## Marked or not -/

/-- **When a settled unit is marked**: one that is eligible and did not fail
carries the marker, unless it was passed over for its copy; the pools are to
be complete. -/
theorem marked_iff {name : String} {location : UnitLocation} {bytes : Bytes}
    (hdone : p.process w (.fresh name location bytes) = done)
    (heligible : p.filter.Eligible done.unit) (hstate : done.unit.state ≠ .failed)
    (hcompiled : ClassFile.PoolComplete done.unit.compiled)
    (hproduced : ∀ out, p.chain.Produced done.workspace.calls out → ClassFile.PoolComplete out) :
    (∃ c, ClassFile.parse done.unit.current = .ok c ∧ c.isMarked = true) ↔
      done.unit.skipReason ≠ some (.alreadyEnhanced .outputCopy) := by
  obtain ⟨-, hsettled, ⟨hname, -, hbytes⟩, hskipped, henhanced, -, hcalls, -⟩ :=
    p.process_meets w name location bytes
  rw [hdone] at hsettled hname hbytes hskipped henhanced hcalls
  obtain ⟨u, hu⟩ : ∃ u, ClassUnit.fresh name location bytes = u := ⟨_, rfl⟩
  have hfresh : u.enhanced = none := by rw [← hu]; rfl
  rw [hu] at hsettled hname hbytes hskipped henhanced hcalls
  rw [hbytes] at hcompiled
  have helig : p.filter.Eligible u :=
    ⟨by rw [← hname]; exact heligible.name, by rw [← hbytes]; exact heligible.structural⟩
  have hsaid : done.unit.state = (UnitReport.settled done.unit).state ∧
      done.unit.skipReason = (UnitReport.settled done.unit).skipReason := ⟨rfl, rfl⟩
  rw [hsettled] at hsaid
  -- one case for each way that the unit was settled
  rcases hparse : ClassFile.parse u.compiled with e | c
  · rw [EligibilityFilter.classify_malformed helig hparse] at hsaid
    exact absurd hsaid.1 hstate
  rw [EligibilityFilter.classify_eligible helig hparse] at hsaid hskipped henhanced hcalls
  rcases hmarker : c.marker? with _ | r
  · have hbare : c.isMarked = false := by
      rw [← EligibilityFilter.isSome_marker?, hmarker]
      rfl
    rcases hcopy : EligibilityFilter.freshCopy? w.files u with _ | r
    · simp only [hmarker, hcopy] at hsaid henhanced hcalls
      rcases herror : (p.chain.apply (started u)).error with _ | e
      · obtain ⟨out, -, -, hfate⟩ := fateOn_ok [] herror
        rw [hfate] at hsaid
        rw [henhanced out hfate, hsaid.2]
        refine iff_of_true (marked_of_fateOn hfresh hfate hcompiled fun bytes hmade => ?_)
          (Option.some_ne_none _).symm
        refine hproduced bytes (hmade.mono fun call hcall => ?_)
        rw [hcalls]
        exact List.mem_append_right _ hcall
      · rw [fateOn_error herror] at hsaid
        exact absurd hsaid.1 hstate
    · simp only [hmarker, hcopy] at hsaid hskipped
      rw [(p.fateOn_skip u _ rfl).1] at hsaid hskipped
      rw [hskipped _ rfl, hsaid.2, hparse]
      refine iff_of_false ?_ fun hne => hne rfl
      rintro ⟨c', hc', hmarked⟩
      obtain rfl := Except.ok.inj hc'
      rw [hbare] at hmarked
      cases hmarked
  · have hmarked : c.isMarked = true := by
      rw [← EligibilityFilter.isSome_marker?, hmarker]
      rfl
    simp only [hmarker] at hsaid hskipped
    rw [(p.fateOn_skip u _ rfl).1] at hsaid hskipped
    rw [hskipped _ rfl, hsaid.2, hparse]
    refine iff_of_true ⟨c, rfl, hmarked⟩ fun heq => ?_
    cases heq

/-- A unit that is written in place is not passed over for a copy. -/
theorem skipReason_inPlace {name : String} {location : UnitLocation} {bytes : Bytes}
    (hdone : p.process w (.fresh name location bytes) = done) (hinPlace : location.isInPlace = true) :
    done.unit.skipReason ≠ some (.alreadyEnhanced .outputCopy) := by
  have hsettled := (p.process_meets w name location bytes).settled
  rw [hdone] at hsettled
  have hsaid : done.unit.skipReason = (UnitReport.settled done.unit).skipReason := rfl
  rw [hsaid, hsettled, skipReason_fateOn]
  rcases hv : p.filter.classify w.files (.fresh name location bytes) with cause | ⟨verdict, events⟩
  · nofun
  · intro heq
    cases verdict with
    | proceed => cases heq
    | exempt reason => cases heq
    | alreadyEnhanced prior =>
      cases heq
      have hcopy := EligibilityFilter.of_classify_outputCopy hv
      rw [EligibilityFilter.freshCopy?_inPlace (u := .fresh name location bytes) hinPlace] at hcopy
      cases hcopy

end Processor

namespace Batch

theorem calls_foldl (units : List ScannedUnit) (r : Progress) :
    r.workspace.calls <+: (units.foldl step r).workspace.calls := by
  induction units generalizing r with
  | nil => exact List.prefix_rfl
  | cons s units ih => exact (r.batch.processor.calls_process _ _).trans (ih (step r s))

/-- **A run adds to the calls.** -/
theorem calls_run {b b' : Batch} {w w' : Workspace} {root : Path} {recursive : Bool}
    {r : BatchReport} (h : b.run w root recursive = .ok (w', b', r)) : w.calls <+: w'.calls := by
  unfold run at h
  split at h
  · cases h
  · next scan events _ =>
    obtain ⟨rfl, -⟩ := Prod.mk.inj (Except.ok.inj h)
    exact calls_foldl scan.units ⟨w.report events, b, []⟩

end Batch

namespace Loader

variable {p : Processor} {source : Path} {destination : Option Path} {parent : ParentResolver}
  {w w' : Workspace} {l l' : Loader} {raw name : String} {u : ClassUnit} {c : DefinedClass}
  {calls : List PassCall}

/-! ## Requests -/

/-- Where the unit of a name is read from and written to. -/
def place (l : Loader) (name : String) : UnitLocation :=
  ⟨l.source.join ⟨ClassFile.classPath name⟩, l.destination.join ⟨ClassFile.classPath name⟩⟩

/-- What octets define has the octets, and comes from where they came. -/
theorem define_ok {requested : String} {bytes : Bytes} {origin : ClassOrigin}
    (h : DefinedClass.define requested bytes origin = .ok c) :
    c.name = requested ∧ c.origin = origin ∧ c.bytes = bytes := by
  unfold DefinedClass.define at h
  split at h
  · cases h
  · split at h
    · cases h
    · next hname =>
      obtain rfl := Except.ok.inj h
      exact ⟨not_ne_iff.1 hname, rfl, rfl⟩

/-- The unit for a name is kept, or is made of what the source tree has. -/
theorem unit?_ok (h : l.unit? w name = .ok (some u)) :
    l.cache.get? name = some u ∨ ∃ bytes, u = .fresh name (l.place name) bytes := by
  unfold unit? at h
  split at h
  · next hkept => exact .inl (hkept.trans (Except.ok.inj h))
  · refine .inr ?_
    unfold readLocal at h
    simp only at h
    split at h
    · cases h
    · cases h
    · next bytes _ =>
      refine ⟨bytes, ?_⟩
      split at h
      · exact (Option.some.inj (Except.ok.inj h)).symm
      · split at h
        · exact (Option.some.inj (Except.ok.inj h)).symm
        · cases h

/-- The parent changes nothing but what is kept of its answers. -/
theorem answerDelegated_keeps (l : Loader) (w : Workspace) (name : String) :
    (l.answerDelegated w name).workspace = w ∧
      ∃ delegated, (l.answerDelegated w name).loader = { l with delegated := delegated } := by
  refine ⟨rfl, ?_⟩
  simp only [answerDelegated, delegate]
  split
  · exact ⟨_, rfl⟩
  · split
    · exact ⟨_, rfl⟩
    · exact ⟨_, rfl⟩
    · split <;> exact ⟨_, rfl⟩

/-- **A loader with slots more that are empty**, and nothing else that can be
told from it. -/
structure Reserves (l l' : Loader) : Prop where
  eq : l' = { l with cache := l'.cache }
  cache : l.cache.Same l'.cache

theorem Reserves.refl (l : Loader) : l.Reserves l := ⟨rfl, .refl _⟩

theorem reserves_reserve (l : Loader) (name : String) : l.Reserves (l.reserve name) :=
  ⟨rfl, l.cache.same_reserve name⟩

/-- A slot makes no difference to the parent. -/
theorem answerDelegated_reserve (l : Loader) (w : Workspace) (name slot : String) :
    (l.reserve slot).answerDelegated w name =
      ⟨w, (l.answerDelegated w name).loader.reserve slot, (l.answerDelegated w name).answer⟩ := by
  have hsame : (l.reserve slot).delegated = l.delegated ∧ (l.reserve slot).parent = l.parent :=
    ⟨rfl, rfl⟩
  simp only [answerDelegated, delegate, hsame]
  split
  · rfl
  · split
    · rfl
    · rfl
    · split <;> rfl

/-- **The three ways to answer a name**: with an error at once, from the
parent, or with a unit of the source tree. The first two may leave an empty
slot. -/
theorem resolve_cases (l : Loader) (w : Workspace) (raw : String) :
    (∃ l' e, l.Reserves l' ∧ l.resolve w raw = ⟨w, l', .error e⟩) ∨
      (∃ l', (l.answerDelegated w (normalName raw)).loader.Reserves l' ∧
        l.resolve w raw = ⟨w, l', (l.answerDelegated w (normalName raw)).answer⟩) ∨
      ∃ u, l.unit? w (normalName raw) = .ok (some u) ∧
        l.resolve w raw = l.answerLocal w (normalName raw) u := by
  have hforeign : ∃ l', (l.answerDelegated w (normalName raw)).loader.Reserves l' ∧
      l.answerDelegated w (normalName raw) =
        ⟨w, l', (l.answerDelegated w (normalName raw)).answer⟩ := ⟨_, .refl _, rfl⟩
  simp only [resolve]
  split
  · exact .inr (.inl hforeign)
  · split
    · exact .inl ⟨l, _, .refl l, rfl⟩
    · split
      · exact .inr (.inl hforeign)
      · split
        · exact .inl ⟨_, _, l.reserves_reserve _, rfl⟩
        · exact .inr (.inl ⟨_, reserves_reserve _ _, l.answerDelegated_reserve w _ _⟩)
        · next u hu => exact .inr (.inr ⟨u, hu, rfl⟩)

/-- **A name that is looked for in the source tree**: no array's, that of a
class, and in no reserved namespace. -/
structure IsLocal (l : Loader) (name : String) : Prop where
  array : name.toList.head? ≠ some '['
  fault : nameFault? name = none
  unreserved : l.processor.filter.platformNamespace? name = none

/-- **A unit that a request reaches**: its name is looked for in the source
tree, and the unit is there or is kept. -/
structure Reaches (l : Loader) (w : Workspace) (raw : String) (u : ClassUnit) : Prop where
  isLocal : l.IsLocal (normalName raw)
  unit : l.unit? w (normalName raw) = .ok (some u)

theorem resolve_reached (h : l.Reaches w raw u) :
    l.resolve w raw = l.answerLocal w (normalName raw) u := by
  obtain ⟨⟨harray, hfault, hunreserved⟩, hunit⟩ := h
  simp only [resolve, harray, hfault, hunreserved, hunit]
  rfl

theorem resolve_of_reaches (h : l.Reaches w raw u) :
    (l.resolve w raw).workspace = (l.processor.process w u).workspace ∧
      (l.resolve w raw).loader =
        { l with cache := l.cache.put (normalName raw) (l.processor.process w u).unit } := by
  rw [resolve_reached h]
  exact ⟨rfl, rfl⟩

/-- A request that reaches none leaves the workspace and the units that are
kept, and changes nothing but what is kept of the parent. -/
theorem resolve_unreached (h : ∀ u, ¬ l.Reaches w raw u) :
    (l.resolve w raw).workspace = w ∧ ∃ delegated cache, l.cache.Same cache ∧
      (l.resolve w raw).loader = { l with delegated := delegated, cache := cache } := by
  obtain ⟨-, delegated, hdelegated⟩ := l.answerDelegated_keeps w (normalName raw)
  simp only [resolve]
  split
  · exact ⟨rfl, delegated, _, .refl _, hdelegated⟩
  next harray =>
  split
  · exact ⟨rfl, l.delegated, l.cache, .refl _, rfl⟩
  next hfault =>
  split
  · exact ⟨rfl, delegated, _, .refl _, hdelegated⟩
  next hunreserved =>
  split
  · exact ⟨rfl, l.delegated, _, l.cache.same_reserve _, rfl⟩
  · rw [answerDelegated_reserve, hdelegated]
    exact ⟨rfl, delegated, _, l.cache.same_reserve _, rfl⟩
  · next v hv =>
    rw [Option.not_isSome_iff_eq_none] at hunreserved
    exact absurd ⟨⟨harray, hfault, hunreserved⟩, hv⟩ (h v)

/-- A name that is looked for in the source tree, where nothing can be loaded
for it, gets a slot. -/
theorem resolve_reserves (hlocal : l.IsLocal (normalName raw)) (h : ∀ u, ¬ l.Reaches w raw u) :
    (l.resolve w raw).loader.cache = l.cache.reserve (normalName raw) := by
  obtain ⟨harray, hfault, hunreserved⟩ := hlocal
  simp only [resolve, if_neg harray, hfault, hunreserved]
  rcases hunit : l.unit? w (normalName raw) with e | _ | u
  · rfl
  · obtain ⟨-, delegated, hdelegated⟩ := l.answerDelegated_keeps w (normalName raw)
    simp only [answerDelegated_reserve, hdelegated]
    rfl
  · exact absurd ⟨⟨harray, hfault, hunreserved⟩, hunit⟩ (h u)

/-- A unit of the source tree is answered with its octets, unless it
failed. -/
theorem answerLocal_ok (h : (l.answerLocal w name u).answer = .ok c) :
    (l.processor.process w u).report.state ≠ .failed ∧
      c.origin = .project (l.processor.process w u).report.state ∧
      c.bytes = (l.processor.process w u).unit.current := by
  simp only [answerLocal] at h
  split at h
  · cases h
  · next hstate =>
    obtain ⟨-, horigin, hbytes⟩ := define_ok h
    exact ⟨hstate, horigin, hbytes⟩

/-! ## What is kept -/

/-- **A unit that was made for a name**: a processor settled it, with calls
that are among some. -/
def Made (l : Loader) (calls : List PassCall) (name : String) (u : ClassUnit) : Prop :=
  ∃ w bytes done, l.processor.process w (.fresh name (l.place name) bytes) = done ∧
    done.unit = u ∧ ∀ call ∈ done.workspace.calls, call ∈ calls

/-- **What a loader keeps**: units made for their names, and classes of the
parent. -/
structure Keeps (calls : List PassCall) (l : Loader) : Prop where
  made : ∀ name u, l.cache.get? name = some u → l.Made calls name u
  delegated : ∀ name c, l.delegated.lookup name = some c → c.origin = .parent

theorem Keeps.mono {calls' : List PassCall} (h : l.Keeps calls)
    (hsub : ∀ call ∈ calls, call ∈ calls') : l.Keeps calls' where
  made name u hu := by
    obtain ⟨w, bytes, done, hdone, hunit, hcalls⟩ := h.made name u hu
    exact ⟨w, bytes, done, hdone, hunit, fun call hcall => hsub call (hcalls call hcall)⟩
  delegated := h.delegated

theorem Keeps.reserves (h : l.Keeps calls) (hreserves : l.Reserves l') : l'.Keeps calls := by
  obtain ⟨heq, hsame⟩ := hreserves
  rw [heq]
  exact ⟨fun name u hu => h.made name u ((hsame.get? name).symm.trans hu), h.delegated⟩

/-- A loader that has answered nothing keeps nothing. -/
theorem keeps_of_empty (hcache : l.cache = []) (hdelegated : l.delegated = []) :
    l.Keeps calls where
  made name u hu := by
    rw [hcache] at hu
    cases hu
  delegated name c hc := by
    rw [hdelegated] at hc
    cases hc

/-- A unit that was made is settled, and is reported as it stands. -/
theorem Made.process_eq (h : l.Made calls name u) (w : Workspace) :
    l.processor.process w u = Processor.rest w u := by
  obtain ⟨w₀, bytes, done, hdone, rfl, -⟩ := h
  have hfinal := (l.processor.process_meets w₀ name (l.place name) bytes).final
  rw [hdone] at hfinal
  rw [Processor.process, if_pos hfinal]

/-- **The unit that answers a name was made for it**, whether it was kept or
is made now, and its state is the one reported. -/
theorem Keeps.made_now (h : l.Keeps w.calls) (hu : l.unit? w name = .ok (some u)) :
    l.Made (l.processor.process w u).workspace.calls name (l.processor.process w u).unit ∧
      (l.processor.process w u).report.state = (l.processor.process w u).unit.state := by
  rcases unit?_ok hu with hkept | ⟨bytes, rfl⟩
  · have hmade := h.made name u hkept
    rw [hmade.process_eq w]
    exact ⟨hmade, rfl⟩
  · refine ⟨⟨w, bytes, _, rfl, rfl, fun call hcall => hcall⟩, ?_⟩
    have hmeets := l.processor.process_meets w name (l.place name) bytes
    rw [hmeets.report, Fate.state_report, ← hmeets.settled, UnitReport.settled]

/-- The answer of the parent comes from there, and so does what is kept of
it. -/
theorem Keeps.answerDelegated (h : l.Keeps w.calls) (name : String) :
    (l.answerDelegated w name).loader.Keeps w.calls ∧
      ∀ c, (l.answerDelegated w name).answer = .ok c → c.origin = .parent := by
  simp only [Loader.answerDelegated, delegate]
  split
  · next c hc => exact ⟨h, fun c' hc' => Except.ok.inj hc' ▸ h.delegated name c hc⟩
  · split
    · exact ⟨h, fun c hc => by cases hc⟩
    · exact ⟨h, fun c hc => by cases hc⟩
    · split
      · exact ⟨h, fun c hc => by cases hc⟩
      · next c hc =>
        obtain ⟨-, horigin, -⟩ := define_ok hc
        refine ⟨⟨h.made, fun other c' hc' => ?_⟩, fun c' hc' => Except.ok.inj hc' ▸ horigin⟩
        rw [List.lookup_cons] at hc'
        split at hc'
        · exact Option.some.inj hc' ▸ horigin
        · exact h.delegated other c' hc'

/-- An answer of the source tree is kept, and nothing else changes. -/
theorem Keeps.answerLocal (h : l.Keeps w.calls) (hu : l.unit? w name = .ok (some u)) :
    (l.answerLocal w name u).loader.Keeps (l.answerLocal w name u).workspace.calls where
  made other v hv := by
    have hcalls := l.processor.calls_process w u
    simp only [Loader.answerLocal] at hv ⊢
    rcases UnitCache.of_get?_put hv with ⟨rfl, rfl⟩ | hkept
    · exact (h.made_now hu).1
    · exact (h.mono fun call hcall => hcalls.subset hcall).made other v hkept
  delegated := h.delegated

/-- **A request leaves what a loader keeps in order.** -/
theorem Keeps.resolve (h : l.Keeps w.calls) (raw : String) :
    (l.resolve w raw).loader.Keeps (l.resolve w raw).workspace.calls := by
  rcases l.resolve_cases w raw with ⟨l', e, hreserves, hr⟩ | ⟨l', hreserves, hr⟩ | ⟨u, hu, hr⟩ <;>
    rw [hr]
  · exact h.reserves hreserves
  · exact (h.answerDelegated _).1.reserves hreserves
  · exact h.answerLocal hu

/-! ## Histories -/

/-- **What a loader and the files under it can come to** by requests, by
renewals, and by batches of the same processor over the same trees, whatever
those batches have met before. -/
inductive Reached (p : Processor) (source : Path) (destination : Option Path)
    (parent : ParentResolver) : Workspace → Loader → Prop
  | start (w : Workspace) :
    Reached p source destination parent w (.fresh source destination p parent)
  | batch {w w' : Workspace} {l : Loader} {b b' : Batch} {recursive : Bool} {r : BatchReport} :
    Reached p source destination parent w l → b.processor = p → b.destination = destination →
    b.run w source recursive = .ok (w', b', r) → Reached p source destination parent w' l
  | resolve {w : Workspace} {l : Loader} (raw : String) :
    Reached p source destination parent w l →
    Reached p source destination parent (l.resolve w raw).workspace (l.resolve w raw).loader
  | renew {w : Workspace} {l : Loader} :
    Reached p source destination parent w l → Reached p source destination parent w l.renew

/-- A request changes neither the trees nor the processor. -/
theorem configuration_resolve (l : Loader) (w : Workspace) (raw : String) :
    (l.resolve w raw).loader.processor = l.processor ∧
      (l.resolve w raw).loader.source = l.source ∧
      (l.resolve w raw).loader.destination = l.destination := by
  rcases l.resolve_cases w raw with ⟨l', e, hreserves, hr⟩ | ⟨l', hreserves, hr⟩ | ⟨u, hu, hr⟩ <;>
    rw [hr]
  · rw [hreserves.eq]
    exact ⟨rfl, rfl, rfl⟩
  · obtain ⟨-, delegated, hloader⟩ := l.answerDelegated_keeps w (normalName raw)
    rw [hreserves.eq, hloader]
    exact ⟨rfl, rfl, rfl⟩
  · exact ⟨rfl, rfl, rfl⟩

/-- Nor the parent. -/
theorem parent_resolve (l : Loader) (w : Workspace) (raw : String) :
    (l.resolve w raw).loader.parent = l.parent := by
  rcases l.resolve_cases w raw with ⟨l', e, hreserves, hr⟩ | ⟨l', hreserves, hr⟩ | ⟨u, hu, hr⟩ <;>
    rw [hr]
  · rw [hreserves.eq]
  · obtain ⟨-, delegated, hloader⟩ := l.answerDelegated_keeps w (normalName raw)
    rw [hreserves.eq, hloader]
  · rfl

/-- **What holds over all histories**: the configuration, and what is kept. -/
theorem Reached.keeps (h : Reached p source destination parent w l) :
    l.processor = p ∧ l.source = source ∧ l.destination = destination.getD source ∧
      l.Keeps w.calls := by
  induction h with
  | start w => exact ⟨rfl, rfl, rfl, keeps_of_empty rfl rfl⟩
  | batch _ _ _ hrun ih =>
    obtain ⟨hprocessor, hsource, hdestination, hkeeps⟩ := ih
    have hcalls := Batch.calls_run hrun
    exact ⟨hprocessor, hsource, hdestination, hkeeps.mono fun call hcall => hcalls.subset hcall⟩
  | @resolve w l raw _ ih =>
    obtain ⟨hprocessor, hsource, hdestination, hkeeps⟩ := ih
    obtain ⟨hprocessor', hsource', hdestination'⟩ := l.configuration_resolve w raw
    exact ⟨hprocessor'.trans hprocessor, hsource'.trans hsource,
      hdestination'.trans hdestination, hkeeps.resolve raw⟩
  | renew _ ih =>
    obtain ⟨hprocessor, hsource, hdestination, -⟩ := ih
    exact ⟨hprocessor, hsource, hdestination, keeps_of_empty rfl rfl⟩

/-- **What a loader hands out of the project's own.** Over any history of
requests, renewals and batches, an answer from the source tree has the
octets of the unit that is kept for the name. For a class that is not
exempt, and with complete pools, they carry the marker unless the unit was
passed over for the copy at its output; which never happens where the output
goes over the sources. -/
theorem resolve_marked_iff {state : EnhancementState}
    (h : Reached p source destination parent w l)
    (hanswer : (l.resolve w raw).answer = .ok c) (horigin : c.origin = .project state) :
    ∃ u, (l.resolve w raw).loader.cache.get? (normalName raw) = some u ∧
      u.name = normalName raw ∧ u.location = l.place (normalName raw) ∧ c.bytes = u.current ∧
      (destination.getD source = source →
        u.skipReason ≠ some (.alreadyEnhanced .outputCopy)) ∧
      (p.filter.Eligible u → ClassFile.PoolComplete u.compiled →
        (∀ out, p.chain.Produced (l.resolve w raw).workspace.calls out →
          ClassFile.PoolComplete out) →
        ((∃ cf, ClassFile.parse c.bytes = .ok cf ∧ cf.isMarked = true) ↔
          u.skipReason ≠ some (.alreadyEnhanced .outputCopy))) := by
  obtain ⟨rfl, hsource, hdestination, hkeeps⟩ := h.keeps
  rcases l.resolve_cases w raw with ⟨l', e, -, hr⟩ | ⟨l', -, hr⟩ | ⟨v, hv, hr⟩
  · rw [hr] at hanswer
    cases hanswer
  · rw [hr] at hanswer
    rw [(hkeeps.answerDelegated _).2 c hanswer] at horigin
    cases horigin
  rw [hr] at hanswer ⊢
  obtain ⟨hstate, -, hbytes⟩ := answerLocal_ok hanswer
  obtain ⟨⟨w₀, bytes, done, hdone, hunit, hcalls⟩, hreported⟩ := hkeeps.made_now hv
  obtain ⟨-, -, ⟨hname, hlocation, -⟩, -⟩ :=
    l.processor.process_meets w₀ (normalName raw) (l.place (normalName raw)) bytes
  rw [hdone] at hname hlocation
  refine ⟨done.unit, ?_, hname, hlocation, hunit ▸ hbytes, fun hsame => ?_, fun heligible
    hcompiled hproduced => ?_⟩
  · simp only [answerLocal, UnitCache.get?_put_self, hunit]
  · refine Processor.skipReason_inPlace hdone ?_
    rw [place, UnitLocation.isInPlace, Path.same, hdestination, hsource, hsame]
    exact beq_self_eq_true _
  · rw [hbytes, ← hunit]
    rw [hreported, ← hunit] at hstate
    exact Processor.marked_iff hdone heligible hstate hcompiled fun out hmade =>
      hproduced out (hmade.mono hcalls)

/-- A class that declares the name `A`. -/
def plainClass : Bytes :=
  [0xca, 0xfe, 0xba, 0xbe, 0, 0, 0, 0x34, 0, 3, 1, 0, 1, 0x41, 7, 0, 1, 0, 0x21, 0, 2, 0, 0,
    0, 0, 0, 0, 0, 0, 0, 0]

/-- A workspace with the class in a source tree. -/
def plainWorkspace : Workspace where
  files := ⟨[], [(["src"], .directory), (["src", "A.class"], .file plainClass)]⟩
  ledgers := []
  clock := 0
  events := []
  calls := []

/-- A loader over it whose processor only marks. -/
def markingLoader (destination : Option Path) : Loader :=
  .fresh ⟨"src"⟩ destination .marking .noParent

/-- Where output goes over the sources, the class is handed out marked. -/
theorem resolve_marked_iff_inPlace : ∃ c,
    ((markingLoader none).resolve plainWorkspace "A").answer = .ok c ∧
      c.origin = .project .enhanced ∧
      ∃ cf, ClassFile.parse c.bytes = .ok cf ∧ cf.isMarked = true := by
  obtain ⟨hanswered, hkept⟩ :
      ((markingLoader none).resolve plainWorkspace "A").answer.toOption.map DefinedClass.origin =
        some (.project .enhanced) ∧
      (((markingLoader none).resolve plainWorkspace "A").loader.cache.get? (normalName "A")).all
        (fun u => decide (Processor.marking.filter.Eligible u ∧ ClassFile.PoolComplete u.compiled)) =
          true := by decide +kernel
  rcases hanswer : ((markingLoader none).resolve plainWorkspace "A").answer with e | c
  · rw [hanswer] at hanswered
    cases hanswered
  rw [hanswer] at hanswered
  have horigin : c.origin = .project .enhanced := Option.some.inj hanswered
  obtain ⟨u, hu, -, -, -, hinPlace, hmarked⟩ :=
    resolve_marked_iff (.start plainWorkspace) hanswer horigin
  rw [markingLoader, hu, Option.all_some, decide_eq_true_eq] at hkept
  have hproduced : ∀ calls out, Processor.marking.chain.Produced calls out →
      ClassFile.PoolComplete out := by
    rintro calls out ⟨call, -, pass, hpass, -⟩
    cases hpass
  exact ⟨c, rfl, horigin, (hmarked hkept.1 hkept.2 (hproduced _)).2 (hinPlace rfl)⟩

/-- Where it goes to a tree of its own, the next generation of a loader
passes the class over for its copy, and hands it out as it was compiled. -/
theorem resolve_unmarked : ∃ w l c, Reached .marking ⟨"src"⟩ (some ⟨"out"⟩) .noParent w l ∧
    (l.resolve w "A").answer = .ok c ∧ c.origin = .project .skipped ∧ c.bytes = plainClass ∧
      Processor.marking.filter.Eligible (.fresh "A" (l.place "A") plainClass) ∧
      ClassFile.PoolComplete plainClass ∧
      ∃ cf, ClassFile.parse plainClass = .ok cf ∧ cf.isMarked = false := by
  obtain ⟨first, hfirst⟩ : ∃ first,
      (markingLoader (some ⟨"out"⟩)).resolve plainWorkspace "A" = first := ⟨_, rfl⟩
  have hreached : Reached .marking ⟨"src"⟩ (some ⟨"out"⟩) .noParent first.workspace first.loader.renew := by
    rw [← hfirst]
    exact .renew (.resolve "A" (.start plainWorkspace))
  obtain ⟨hanswered, heligible⟩ :
      (first.loader.renew.resolve first.workspace "A").answer.toOption.map
        (fun c => (c.origin, c.bytes)) = some (.project .skipped, plainClass) ∧
      Processor.marking.filter.Eligible
        (.fresh "A" (first.loader.renew.place "A") plainClass) := by
    rw [← hfirst]
    decide +kernel
  rcases hanswer : (first.loader.renew.resolve first.workspace "A").answer with e | c
  · rw [hanswer] at hanswered
    cases hanswered
  rw [hanswer] at hanswered
  obtain ⟨horigin, hbytes⟩ := Prod.mk.inj (Option.some.inj hanswered)
  exact ⟨_, _, c, hreached, hanswer, horigin, hbytes, heligible, by decide, _, rfl, by decide⟩

end Loader

end ClassWeave
