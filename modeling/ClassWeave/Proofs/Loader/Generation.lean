import ClassWeave.Proofs.Driver
/-!
# Loader -- the answers of one generation

Between two requests of a generation anything may happen to the files
(`Loader.Later`). A loader keeps every unit and every class that it has
answered with (`Settled.resolve`), so a name that was answered from the
project, and a name that is always asked of the parent, has one answer
for good. A name that the source tree did not have is looked for there again
each time, before what is kept of the parent. So its answer stays
exactly as long as the tree still has nothing for it (`resolve_again_iff`),
and a file that turns up there takes its place (`resolve_again_shadowed`).
-/


namespace ClassWeave

namespace Loader

variable {l l₀ l' : Loader} {w w' : Workspace} {raw raw' name : String} {u : ClassUnit}
  {c : DefinedClass}

/-! ## Where a request goes -/

/-- **A name that is never looked for in the source tree**, though it is one
to be asked for: that of an array in its written form with a bracket in
front, or that of a class in a reserved namespace. -/
def IsForeign (l : Loader) (name : String) : Prop :=
  name.toList.head? = some '[' ∨
    nameFault? name = none ∧ (l.processor.filter.platformNamespace? name).isSome = true

/-- **A request that goes to the parent**: its name is never looked for
in the source tree, or is not found there. -/
def Delegates (l : Loader) (w : Workspace) (raw : String) : Prop :=
  l.IsForeign (normalName raw) ∨
    l.IsLocal (normalName raw) ∧ l.unit? w (normalName raw) = .ok none

/-- Requests for one name are one request, however the name is written. -/
theorem resolve_congr (l : Loader) (w : Workspace) (h : normalName raw' = normalName raw) :
    l.resolve w raw' = l.resolve w raw := by
  simp only [resolve, h]

/-- A name that is never looked for in the source tree is handed to the
parent. -/
theorem IsForeign.resolve (h : l.IsForeign (normalName raw)) :
    l.resolve w raw = l.answerDelegated w (normalName raw) := by
  rcases h with harray | ⟨hfault, hreserved⟩
  · rw [Loader.resolve, if_pos harray]
  · by_cases harray : (normalName raw).toList.head? = some '['
    · rw [Loader.resolve, if_pos harray]
    · simp only [Loader.resolve, if_neg harray, hfault, hreserved, if_true]

/-- One that the source tree has nothing for is handed to the parent too, and
gets a slot. -/
theorem IsLocal.resolve_missing (h : l.IsLocal (normalName raw))
    (hnone : l.unit? w (normalName raw) = .ok none) :
    l.resolve w raw = (l.reserve (normalName raw)).answerDelegated w (normalName raw) := by
  simp only [Loader.resolve, if_neg h.array, h.fault, h.unreserved, hnone]
  rfl

theorem IsLocal.resolve_error {e : LoadError} (h : l.IsLocal (normalName raw))
    (herror : l.unit? w (normalName raw) = .error e) :
    l.resolve w raw = ⟨w, l.reserve (normalName raw), .error e⟩ := by
  simp only [Loader.resolve, if_neg h.array, h.fault, h.unreserved, herror]
  rfl

/-- **A request that goes to the parent is answered from there**, and may
leave an empty slot. -/
theorem Delegates.resolve (h : l.Delegates w raw) :
    ∃ l', (l.answerDelegated w (normalName raw)).loader.Reserves l' ∧
      l.resolve w raw = ⟨w, l', (l.answerDelegated w (normalName raw)).answer⟩ := by
  rcases h with hforeign | ⟨hlocal, hnone⟩
  · exact ⟨_, .refl _, hforeign.resolve⟩
  · refine ⟨_, reserves_reserve _ (normalName raw), ?_⟩
    rw [hlocal.resolve_missing hnone, answerDelegated_reserve]

/-- **A request reaches a unit, goes to the parent, or fails at once**, and
may leave an empty slot. -/
theorem reaches_or_delegates (l : Loader) (w : Workspace) (raw : String) :
    (∃ u, l.Reaches w raw u) ∨ l.Delegates w raw ∨
      ∃ l' e, l.Reserves l' ∧ l.resolve w raw = ⟨w, l', .error e⟩ := by
  by_cases hforeign : l.IsForeign (normalName raw)
  · exact .inr (.inl (.inl hforeign))
  obtain ⟨harray, hreserved⟩ := not_or.1 hforeign
  rcases hfault : nameFault? (normalName raw) with _ | fault
  · have hlocal : l.IsLocal (normalName raw) :=
      ⟨harray, hfault, Option.not_isSome_iff_eq_none.1 fun h => hreserved ⟨hfault, h⟩⟩
    rcases hunit : l.unit? w (normalName raw) with e | _ | u
    · exact .inr (.inr ⟨_, e, l.reserves_reserve (normalName raw), hlocal.resolve_error hunit⟩)
    · exact .inr (.inl (.inr ⟨hlocal, hunit⟩))
    · exact .inl ⟨u, hlocal, hunit⟩
  · refine .inr (.inr ⟨l, .invalidName (normalName raw) fault, .refl l, ?_⟩)
    simp only [resolve, if_neg harray, hfault]

/-- **The three ways the parent answers a name**: with the class that is
kept for it, with an error, or with what it has for the name now, which is
kept. -/
theorem delegate_cases (l : Loader) (w : Workspace) (name : String) :
    (∃ c, l.delegated.lookup name = some c ∧ l.delegate w name = (l, .ok c)) ∨
      l.delegated.lookup name = none ∧
        ((∃ e, l.delegate w name = (l, .error e)) ∨
          ∃ bytes c, l.parent.lookUp w.files name = .ok (some bytes) ∧
            DefinedClass.define name bytes .parent = .ok c ∧
            l.delegate w name = ({ l with delegated := (name, c) :: l.delegated }, .ok c)) := by
  rcases hkept : l.delegated.lookup name with _ | c
  · refine .inr ⟨rfl, ?_⟩
    rcases hfound : l.parent.lookUp w.files name with e | _ | bytes
    · exact .inl ⟨e, by simp only [delegate, hkept, hfound]⟩
    · exact .inl ⟨.notFound name, by simp only [delegate, hkept, hfound]⟩
    · rcases hc : DefinedClass.define name bytes .parent with e | c
      · exact .inl ⟨e, by simp only [delegate, hkept, hfound, hc]⟩
      · exact .inr ⟨bytes, c, rfl, hc, by simp only [delegate, hkept, hfound, hc]⟩
  · exact .inl ⟨c, rfl, by simp only [delegate, hkept]⟩

/-- **What a request makes of what is kept of the parent**: nothing, or
one class more, for a name that it had none for, made of what the parent
has for that name. -/
theorem delegated_resolve_cases (l : Loader) (w : Workspace) (raw : String) :
    (l.resolve w raw).loader.delegated = l.delegated ∨
      ∃ c, l.Delegates w raw ∧ l.delegated.lookup (normalName raw) = none ∧
        l.parent.lookUp w.files (normalName raw) = .ok (some c.bytes) ∧
        DefinedClass.define (normalName raw) c.bytes .parent = .ok c ∧
        (l.resolve w raw).loader.delegated = (normalName raw, c) :: l.delegated := by
  rcases l.reaches_or_delegates w raw with ⟨u, hu⟩ | hdelegates | ⟨l', e, hreserves, he⟩
  · rw [resolve_reached hu]
    exact .inl rfl
  · obtain ⟨l', hreserves, hresolve⟩ := hdelegates.resolve
    rw [hresolve, hreserves.eq]
    rcases l.delegate_cases w (normalName raw) with
      ⟨c, -, hc⟩ | ⟨hnone, ⟨e, he⟩ | ⟨bytes, c, hfound, hdefine, hc⟩⟩
    · exact .inl (by simp only [answerDelegated, hc])
    · exact .inl (by simp only [answerDelegated, he])
    · obtain ⟨-, -, rfl⟩ := define_ok hdefine
      exact .inr ⟨c, hdelegates, hnone, hfound, hdefine, by simp only [answerDelegated, hc]⟩
  · rw [he, hreserves.eq]
    exact .inl rfl

/-- A class that is kept of the parent stays. -/
theorem lookup_delegated_resolve (hkept : l.delegated.lookup name = some c) (w : Workspace)
    (raw : String) : (l.resolve w raw).loader.delegated.lookup name = some c := by
  rcases l.delegated_resolve_cases w raw with hsame | ⟨d, -, hnone, -, -, hmore⟩
  · rw [hsame]
    exact hkept
  · -- a name that is kept already is another one
    have hne : name ≠ normalName raw := by
      rintro rfl
      cases hnone.symm.trans hkept
    rw [hmore, List.lookup_cons, beq_eq_false_iff_ne.2 hne]
    exact hkept

/-! ## What is kept -/

/-- **A loader that has settled what it keeps**: its units are final, they
have names that are looked for in the source tree, and the classes that it
keeps beside them come from the parent. -/
structure Settled (l : Loader) : Prop where
  final : ∀ name u, l.cache.get? name = some u → u.state.isFinal = true
  isLocal : ∀ name u, l.cache.get? name = some u → l.IsLocal name
  delegated : ∀ name c, l.delegated.lookup name = some c → c.origin = .parent

/-- **A loader that keeps all that another one keeps**, and answers in the
same way. -/
structure Retains (l l' : Loader) : Prop where
  processor : l'.processor = l.processor
  cache : ∀ name u, l.cache.get? name = some u → l'.cache.get? name = some u
  delegated : ∀ name c, l.delegated.lookup name = some c → l'.delegated.lookup name = some c

/-- A loader that has answered nothing has nothing to settle. -/
theorem settled_of_empty (hcache : l.cache = []) (hdelegated : l.delegated = []) : l.Settled where
  final name u hu := by
    rw [hcache] at hu
    cases hu
  isLocal name u hu := by
    rw [hcache] at hu
    cases hu
  delegated name c hc := by
    rw [hdelegated] at hc
    cases hc

theorem Retains.refl (l : Loader) : l.Retains l := ⟨rfl, fun _ _ hu => hu, fun _ _ hc => hc⟩

theorem Retains.trans {m : Loader} (h : l.Retains m) (h' : m.Retains l') : l.Retains l' where
  processor := h'.processor.trans h.processor
  cache name u hu := h'.cache name u (h.cache name u hu)
  delegated name c hc := h'.delegated name c (h.delegated name c hc)

/-- A settled loader has done all that it keeps once, whatever was done
before. -/
theorem Settled.once (h : l.Settled) (w : Workspace) : Once w.calls w l.cache where
  final := h.final
  calls := ⟨[], (List.append_nil _).symm, List.nodup_nil, List.forall_mem_nil _⟩

theorem Settled.resolvesOnce (h : l.Settled) (w : Workspace) (raw : String) :
    l.ResolvesOnce w raw :=
  (resolve_once (h.once w) h.isLocal raw).2.2.2

/-- **A request settles what it keeps, and nothing is lost by it.** -/
theorem Settled.resolve (h : l.Settled) (w : Workspace) (raw : String) :
    (l.resolve w raw).loader.Settled ∧ l.Retains (l.resolve w raw).loader := by
  obtain ⟨honce, hstays, hlocal, -⟩ := resolve_once (h.once w) h.isLocal raw
  have hprocessor := (l.configuration_resolve w raw).1
  refine ⟨⟨honce.final, fun name u hu => ?_, fun name c hc => ?_⟩, hprocessor, hstays,
    fun name c hc => lookup_delegated_resolve hc w raw⟩
  · obtain ⟨harray, hfault, hunreserved⟩ := hlocal name u hu
    exact ⟨harray, hfault, by rw [hprocessor]; exact hunreserved⟩
  · rcases l.delegated_resolve_cases w raw with hsame | ⟨d, -, -, -, hdefine, hmore⟩
    · rw [hsame] at hc
      exact h.delegated name c hc
    · rw [hmore, List.lookup_cons] at hc
      split at hc
      · rw [← Option.some.inj hc]
        exact (define_ok hdefine).2.1
      · exact h.delegated name c hc

/-! ## A generation -/

/-- **What a loader comes to within its generation**: by requests, with
anything at all done to the workspace before each of them. -/
inductive Later (l₀ : Loader) : Loader → Prop
  | start : Later l₀ l₀
  | resolve {l : Loader} (w : Workspace) (raw : String) : Later l₀ l →
    Later l₀ (l.resolve w raw).loader

/-- **What a generation preserves**: all that is kept is settled, and what
was kept at its start stays. -/
theorem Later.retains (h : Later l₀ l) (hsettled : l₀.Settled) : l.Settled ∧ l₀.Retains l := by
  induction h with
  | start => exact ⟨hsettled, .refl _⟩
  | resolve w raw _ ih =>
    obtain ⟨hdone, hmore⟩ := ih.1.resolve w raw
    exact ⟨hdone, ih.2.trans hmore⟩

/-- The names that are never looked for in the source tree are a matter of
the processor. -/
theorem Retains.isForeign (h : l.Retains l') : l'.IsForeign name ↔ l.IsForeign name := by
  rw [IsForeign, IsForeign, h.processor]

theorem Retains.isLocal (h : l.Retains l') (hlocal : l.IsLocal name) : l'.IsLocal name :=
  ⟨hlocal.array, hlocal.fault, by rw [h.processor]; exact hlocal.unreserved⟩

/-- A unit answers with a class of the project. -/
theorem origin_of_answerOf (h : answerOf name u = .ok c) : c.origin = .project u.state := by
  rw [answerOf] at h
  split at h
  · cases h
  · exact (define_ok h).2.1

/-- **What is kept of the parent answers a request that goes there.** -/
theorem Delegates.answer (h : l.Delegates w raw)
    (hkept : l.delegated.lookup (normalName raw) = some c) :
    (l.resolve w raw).answer = .ok c := by
  obtain ⟨l', -, hresolve⟩ := h.resolve
  rw [hresolve]
  simp only [answerDelegated, delegate, hkept]

/-- A request that goes to the parent and is answered is kept. -/
theorem Delegates.kept (h : l.Delegates w raw) (hanswer : (l.resolve w raw).answer = .ok c) :
    (l.resolve w raw).loader.delegated.lookup (normalName raw) = some c := by
  obtain ⟨l', hreserves, hresolve⟩ := h.resolve
  rw [hresolve] at hanswer ⊢
  rw [hreserves.eq]
  rcases l.delegate_cases w (normalName raw) with
    ⟨d, hkept, hd⟩ | ⟨-, ⟨e, he⟩ | ⟨bytes, d, -, -, hd⟩⟩
  · simp only [answerDelegated, hd] at hanswer ⊢
    rwa [← Except.ok.inj hanswer]
  · simp only [answerDelegated, he] at hanswer
    cases hanswer
  · simp only [answerDelegated, hd] at hanswer ⊢
    rw [Except.ok.inj hanswer, List.lookup_cons_self]

/-- **When a name keeps its class.** Within a generation, whatever happens
between the requests to the source tree and to the parent: once a name
was answered, every later request for it has the same answer, with the one
exception of a name that was answered from the parent because the source
tree had nothing for it. That one has the same answer exactly if the tree
still has nothing for it. -/
theorem resolve_again_iff (hcache : l₀.cache = []) (hdelegated : l₀.delegated = [])
    (h : Later l₀ l) (hanswer : (l.resolve w raw).answer = .ok c)
    (hlater : Later (l.resolve w raw).loader l') (hname : normalName raw' = normalName raw) :
    (l'.resolve w' raw').answer = .ok c ↔
      (c.origin = .parent → l'.IsLocal (normalName raw) →
        l'.unit? w' (normalName raw) = .ok none) := by
  obtain ⟨hsettled, -⟩ := h.retains (settled_of_empty hcache hdelegated)
  obtain ⟨hfirst, hkeeps⟩ := hsettled.resolve w raw
  obtain ⟨hsettled', hmore⟩ := hlater.retains hfirst
  rw [l'.resolve_congr w' hname]
  rcases l.reaches_or_delegates w raw with ⟨u, hu⟩ | hdelegates | ⟨l', e, -, he⟩
  · -- the unit that answered is kept, and answers as it stands
    obtain ⟨v, hv, -, hanswered⟩ := (hsettled.resolvesOnce w raw).reached u hu
    have hagain := ((hsettled'.resolvesOnce w' raw).again v (hmore.cache _ _ hv)).2
    have horigin := origin_of_answerOf (hanswered.symm.trans hanswer)
    refine iff_of_true (hagain.trans (hanswered.symm.trans hanswer)) fun hparent => ?_
    cases horigin.symm.trans hparent
  · have hkept := hmore.delegated _ _ (hdelegates.kept hanswer)
    have horigin := hsettled'.delegated _ _ hkept
    have hsame := hkeeps.trans hmore
    constructor
    · intro hagain _ hlocal
      rcases hunit : l'.unit? w' (normalName raw) with e | _ | v
      · simp only [Loader.resolve, if_neg hlocal.array, hlocal.fault, hlocal.unreserved, hunit]
          at hagain
        cases hagain
      · rfl
      · obtain ⟨v', -, -, hanswered⟩ := (hsettled'.resolvesOnce w' raw).reached v ⟨hlocal, hunit⟩
        cases (origin_of_answerOf (hanswered.symm.trans hagain)).symm.trans horigin
    · intro hmissing
      refine Delegates.answer ?_ hkept
      rcases hdelegates with hforeign | ⟨hlocal, -⟩
      · exact .inl (hsame.isForeign.2 hforeign)
      · exact .inr ⟨hsame.isLocal hlocal, hmissing horigin (hsame.isLocal hlocal)⟩
  · rw [he] at hanswer
    cases hanswer

/-- The same class in a library, and no source tree. -/
def libraryWorkspace : Workspace :=
  plainWorkspace.withFiles ⟨[], [(["lib"], .directory), (["lib", "A.class"], .file plainClass)]⟩

/-- A loader with the library on its class path. -/
def libraryLoader : Loader := .fresh ⟨"src"⟩ none .marking (.ofClasspath [.directory ⟨"lib"⟩])

/-- A class of the library is answered again when the library is gone. -/
theorem resolve_again_iff_removed : ∃ c,
    (libraryLoader.resolve libraryWorkspace "A").answer = .ok c ∧ c.origin = .parent ∧
      ((libraryLoader.resolve libraryWorkspace "A").loader.resolve Processor.bareWorkspace
        "A").answer = .ok c := by
  obtain ⟨hanswered, hmissing⟩ :
      (libraryLoader.resolve libraryWorkspace "A").answer.toOption.map DefinedClass.origin =
        some .parent ∧
      (libraryLoader.resolve libraryWorkspace "A").loader.unit? Processor.bareWorkspace
        (normalName "A") = .ok none := by decide +kernel
  rcases hanswer : (libraryLoader.resolve libraryWorkspace "A").answer with e | c
  · rw [hanswer] at hanswered
    cases hanswered
  rw [hanswer] at hanswered
  refine ⟨c, rfl, Option.some.inj hanswered, ?_⟩
  exact (resolve_again_iff rfl rfl .start hanswer .start rfl).2 fun _ _ => hmissing

/-- A class that turns up in the source tree takes the place of the one that
the library answered with. -/
theorem resolve_again_shadowed : ∃ w c d,
    (libraryLoader.resolve libraryWorkspace "A").answer = .ok c ∧
      ((libraryLoader.resolve libraryWorkspace "A").loader.resolve w "A").answer = .ok d ∧
      c.origin = .parent ∧ d.origin = .project .enhanced ∧ d.bytes ≠ c.bytes := by
  obtain ⟨w, hw⟩ : ∃ w, libraryWorkspace.withFiles ⟨[], libraryWorkspace.files.entries ++
    plainWorkspace.files.entries⟩ = w := ⟨_, rfl⟩
  obtain ⟨hfirst, hsecond⟩ :
      (libraryLoader.resolve libraryWorkspace "A").answer.toOption.map
        (fun c => (c.origin, c.bytes)) = some (.parent, plainClass) ∧
      ((libraryLoader.resolve libraryWorkspace "A").loader.resolve w "A").answer.toOption.map
        (fun d => (d.origin, decide (d.bytes ≠ plainClass))) = some (.project .enhanced, true) := by
    rw [← hw]
    decide +kernel
  rcases hc : (libraryLoader.resolve libraryWorkspace "A").answer with e | c
  · rw [hc] at hfirst
    cases hfirst
  rcases hd : ((libraryLoader.resolve libraryWorkspace "A").loader.resolve w "A").answer with e | d
  · rw [hd] at hsecond
    cases hsecond
  rw [hc] at hfirst
  rw [hd] at hsecond
  obtain ⟨hparent, hbytes⟩ := Prod.mk.inj (Option.some.inj hfirst)
  obtain ⟨hproject, hother⟩ := Prod.mk.inj (Option.some.inj hsecond)
  refine ⟨w, c, d, rfl, hd, hparent, hproject, ?_⟩
  rw [hbytes]
  exact of_decide_eq_true hother

end Loader

end ClassWeave
