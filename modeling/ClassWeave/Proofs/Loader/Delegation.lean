import ClassWeave.Proofs.Loader.Generation
/-!
# Loader -- what is asked of the parent

A foreign name is answered from the parent, whatever trees a loader stands
over. Two loaders that are asked for the same names in the same order
(`Loader.InStep`) keep the same for such a name as long as their parents have
the same for it, and so they answer alike, whatever else differs in their
files, their trees and their passes (`InStep.answer`). And a request that goes
to the parent, for whatever reason, does nothing but keep what it answers: the
octets that the parent had for the name when it was first answered from there
(`Later.firstAnswers`). Both together are `resolve_delegated`.

An array's name is foreign only with a bracket in front. With the brackets
behind it is exempt all the same, but it is looked for in the source tree
(`resolve_bracketed`).
-/


namespace ClassWeave

namespace Loader

variable {l l₀ l' l₀' : Loader} {w w' : Workspace} {raw name : String} {c : DefinedClass}

/-! ## Loaders in step -/

/-- **Two loaders in step over a name**: they were asked for the same names
one after another and renewed together, each over a workspace to which
anything may have been done before, where the parents had the same for
that name at each request. -/
inductive InStep (name : String) (l₀ l₀' : Loader) : Loader → Loader → Prop
  | start : InStep name l₀ l₀' l₀ l₀'
  | resolve {l l' : Loader} {w w' : Workspace} (raw : String) : InStep name l₀ l₀' l l' →
    l.parent.lookUp w.files name = l'.parent.lookUp w'.files name →
    InStep name l₀ l₀' (l.resolve w raw).loader (l'.resolve w' raw).loader
  | renew {l l' : Loader} : InStep name l₀ l₀' l l' → InStep name l₀ l₀' l.renew l'.renew

/-- What the parent answers is a matter of what is kept of it and of what
it has. -/
theorem delegate_congr (hkept : l.delegated.lookup name = l'.delegated.lookup name)
    (hfound : l.parent.lookUp w.files name = l'.parent.lookUp w'.files name) :
    (l.delegate w name).2 = (l'.delegate w' name).2 ∧
      (l.delegate w name).1.delegated.lookup name =
        (l'.delegate w' name).1.delegated.lookup name := by
  rcases hc : l.delegated.lookup name with _ | c
  · have hc' := hkept.symm.trans hc
    rcases hb : l.parent.lookUp w.files name with e | _ | bytes
    · simp only [delegate, hc, hc', hb, ← hfound, and_self]
    · simp only [delegate, hc, hc', hb, ← hfound, and_self]
    · rcases hd : DefinedClass.define name bytes .parent with e | c
      · simp only [delegate, hc, hc', hb, ← hfound, hd, and_self]
      · simp only [delegate, hc, hc', hb, ← hfound, hd, List.lookup_cons_self, and_self]
  · simp only [delegate, hc, hkept.symm.trans hc, and_self]

/-- A request for another name leaves what is kept of the parent for a
name. -/
theorem delegated_resolve_of_ne (l : Loader) (w : Workspace) (hne : name ≠ normalName raw) :
    (l.resolve w raw).loader.delegated.lookup name = l.delegated.lookup name := by
  rcases l.delegated_resolve_cases w raw with hsame | ⟨c, -, -, -, -, hmore⟩
  · rw [hsame]
  · rw [hmore, List.lookup_cons, beq_eq_false_iff_ne.2 hne]

/-- **A foreign name is answered alike** where the same is kept for it and
the parents have the same, and then the same is kept for it again. -/
theorem resolve_foreign (hforeign : l.IsForeign name) (hforeign' : l'.IsForeign name)
    (hkept : l.delegated.lookup name = l'.delegated.lookup name)
    (hfound : l.parent.lookUp w.files name = l'.parent.lookUp w'.files name)
    (hname : normalName raw = name) :
    (l.resolve w raw).answer = (l'.resolve w' raw).answer ∧
      (l.resolve w raw).loader.delegated.lookup name =
        (l'.resolve w' raw).loader.delegated.lookup name := by
  subst hname
  rw [hforeign.resolve, hforeign'.resolve]
  exact delegate_congr hkept hfound

/-- A name is foreign under reserved namespaces, whatever else a processor
has. -/
theorem isForeign_congr
    (hreserved : l'.processor.filter.reserved = l.processor.filter.reserved) :
    l'.IsForeign name ↔ l.IsForeign name := by
  simp only [IsForeign, EligibilityFilter.platformNamespace?, hreserved]

/-- **What loaders in step preserve**: the reserved namespaces, and for a
foreign name what is kept of the parent. -/
theorem InStep.kept (h : InStep name l₀ l₀' l l') (hforeign : l₀.IsForeign name)
    (hreserved : l₀'.processor.filter.reserved = l₀.processor.filter.reserved)
    (hkept : l₀.delegated.lookup name = l₀'.delegated.lookup name) :
    l.IsForeign name ∧ l'.IsForeign name ∧
      l.delegated.lookup name = l'.delegated.lookup name := by
  induction h with
  | start => exact ⟨hforeign, (isForeign_congr hreserved).2 hforeign, hkept⟩
  | @resolve l l' w w' raw _ hfound ih =>
    obtain ⟨ihforeign, ihforeign', ihkept⟩ := ih
    have hprocessor := (l.configuration_resolve w raw).1
    have hprocessor' := (l'.configuration_resolve w' raw).1
    refine ⟨(isForeign_congr (by rw [hprocessor])).2 ihforeign,
      (isForeign_congr (by rw [hprocessor'])).2 ihforeign', ?_⟩
    by_cases hname : normalName raw = name
    · exact (resolve_foreign ihforeign ihforeign' ihkept hfound hname).2
    · rw [delegated_resolve_of_ne l w (Ne.symm hname),
        delegated_resolve_of_ne l' w' (Ne.symm hname), ihkept]
  | renew _ ih => exact ⟨ih.1, ih.2.1, rfl⟩

/-- **Loaders in step answer a foreign name alike.** -/
theorem InStep.answer (h : InStep name l₀ l₀' l l') (hforeign : l₀.IsForeign name)
    (hreserved : l₀'.processor.filter.reserved = l₀.processor.filter.reserved)
    (hkept : l₀.delegated.lookup name = l₀'.delegated.lookup name)
    (hfound : l.parent.lookUp w.files name = l'.parent.lookUp w'.files name)
    (hname : normalName raw = name) :
    (l.resolve w raw).answer = (l'.resolve w' raw).answer := by
  obtain ⟨hleft, hright, hsame⟩ := h.kept hforeign hreserved hkept
  exact (resolve_foreign hleft hright hsame hfound hname).1

/-! ## What is kept of the parent -/

/-- What is kept of the parent stays for the generation. -/
theorem Later.lookup_delegated (h : Later l l') (hkept : l.delegated.lookup name = some c) :
    l'.delegated.lookup name = some c := by
  induction h with
  | start => exact hkept
  | resolve w raw _ ih => exact lookup_delegated_resolve ih w raw

/-- **A request that a name was first answered with from the parent** in
a generation: the parent had the octets of the class then, and they
define it. Every request for the name before it that went there had
failed. -/
structure FirstAnswers (l₀ l : Loader) (w : Workspace) (raw : String) (c : DefinedClass) :
    Prop where
  later : Later l₀ l
  delegates : l.Delegates w raw
  found : l.parent.lookUp w.files (normalName raw) = .ok (some c.bytes)
  defined : DefinedClass.define (normalName raw) c.bytes .parent = .ok c
  answer : (l.resolve w raw).answer = .ok c
  failed : ∀ m v raw', Later l₀ m → Later (m.resolve v raw').loader l →
    normalName raw' = normalName raw → m.Delegates v raw' →
    ∃ e, (m.resolve v raw').answer = .error e

/-- A request that is answered from the parent, for a name that none was
kept for, is the first. -/
theorem Delegates.firstAnswers (h : l.Delegates w raw) (hlater : Later l₀ l)
    (hnone : l.delegated.lookup (normalName raw) = none)
    (hfound : l.parent.lookUp w.files (normalName raw) = .ok (some c.bytes))
    (hdefine : DefinedClass.define (normalName raw) c.bytes .parent = .ok c) :
    FirstAnswers l₀ l w raw c where
  later := hlater
  delegates := h
  found := hfound
  defined := hdefine
  answer := by
    obtain ⟨l', -, hresolve⟩ := h.resolve
    rw [hresolve]
    simp only [answerDelegated, delegate, hnone, hfound, hdefine]
  failed m v raw' _ hmore hname hdelegates := by
    rcases hanswer : (m.resolve v raw').answer with e | d
    · exact ⟨e, rfl⟩
    · -- an answer would have been kept
      have hkept := hmore.lookup_delegated (hdelegates.kept hanswer)
      rw [hname, hnone] at hkept
      cases hkept

/-- **What is kept of the parent is what a name was first answered
with** from there. -/
theorem Later.firstAnswers (h : Later l₀ l) (hempty : l₀.delegated = [])
    (hkept : l.delegated.lookup name = some c) :
    ∃ m w raw, FirstAnswers l₀ m w raw c ∧ normalName raw = name ∧
      Later (m.resolve w raw).loader l := by
  induction h with
  | start =>
    rw [hempty] at hkept
    cases hkept
  | @resolve l w raw h ih =>
    rcases l.delegated_resolve_cases w raw with hsame | ⟨d, hdelegates, hnone, hfound, hdefine, hmore⟩
    · rw [hsame] at hkept
      obtain ⟨m, v, raw', hfirst, hname, hlater⟩ := ih hkept
      exact ⟨m, v, raw', hfirst, hname, .resolve w raw hlater⟩
    · rw [hmore, List.lookup_cons] at hkept
      split at hkept
      · next hname =>
        obtain rfl := Option.some.inj hkept
        exact ⟨l, w, raw, hdelegates.firstAnswers h hnone hfound hdefine, (eq_of_beq hname).symm,
          .start⟩
      · obtain ⟨m, v, raw', hfirst, hname, hlater⟩ := ih hkept
        exact ⟨m, v, raw', hfirst, hname, .resolve w raw hlater⟩

/-- What octets define declares the name that was asked for. -/
theorem declares_of_define {bytes : Bytes} {origin : ClassOrigin}
    (h : DefinedClass.define name bytes origin = .ok c) :
    ∃ cf, ClassFile.parse bytes = .ok cf ∧ cf.qualifiedName = name := by
  unfold DefinedClass.define at h
  split at h
  · cases h
  · next cf hcf =>
    split at h
    · cases h
    · next hname => exact ⟨cf, hcf, not_ne_iff.1 hname⟩

/-- **What the parent answers is a matter of the parent.** A foreign
name has one answer over any source and destination trees: two loaders that
have kept nothing, under the same reserved namespaces and in step over the
name, answer it alike, whatever their files, trees and passes are. And in any
generation, a request that goes to the parent, whatever the reason, leaves
the workspace as it was, calls and files included, and the units that are kept
too; a name that was looked for in the source tree may get an empty slot, and
a foreign one gets none. If it is answered, it is so with the octets that the
parent had when the name was first answered from there, and they declare the
name. -/
theorem resolve_delegated (hempty : l₀.delegated = []) :
    (∀ l₀' l l' w w' raw, l₀'.delegated = [] →
      l₀'.processor.filter.reserved = l₀.processor.filter.reserved →
      l₀.IsForeign (normalName raw) → InStep (normalName raw) l₀ l₀' l l' →
      l.parent.lookUp w.files (normalName raw) =
        l'.parent.lookUp w'.files (normalName raw) →
      (l.resolve w raw).answer = (l'.resolve w' raw).answer) ∧
    ∀ l w raw, Later l₀ l → l.Delegates w raw →
      (l.resolve w raw).workspace = w ∧ l.cache.Same (l.resolve w raw).loader.cache ∧
      (l.IsForeign (normalName raw) → (l.resolve w raw).loader.cache = l.cache) ∧
      ∀ c, (l.resolve w raw).answer = .ok c →
        c.origin = .parent ∧
        (∃ cf, ClassFile.parse c.bytes = .ok cf ∧ cf.qualifiedName = normalName raw) ∧
        ∃ m v raw', FirstAnswers l₀ m v raw' c ∧ normalName raw' = normalName raw ∧
          Later (m.resolve v raw').loader (l.resolve w raw).loader := by
  refine ⟨fun l₀' l l' w w' raw hempty' hreserved hforeign hstep hfound => ?_,
    fun l w raw hlater hdelegates => ?_⟩
  · exact hstep.answer hforeign hreserved (by rw [hempty, hempty']) hfound rfl
  · obtain ⟨l', hreserves, hresolve⟩ := hdelegates.resolve
    obtain ⟨-, delegated, hloader⟩ := l.answerDelegated_keeps w (normalName raw)
    refine ⟨by rw [hresolve], ?_, fun hforeign => by rw [hforeign.resolve, hloader],
      fun c hanswer => ?_⟩
    · have hsame := hreserves.cache
      rw [hloader] at hsame
      rw [hresolve]
      exact hsame
    obtain ⟨m, v, raw', hfirst, hname, hmore⟩ :=
      (Later.resolve w raw hlater).firstAnswers hempty (hdelegates.kept hanswer)
    have hdefined := hfirst.defined
    rw [hname] at hdefined
    exact ⟨(define_ok hdefined).2.1, declares_of_define hdefined, m, v, raw', hfirst, hname, hmore⟩

/-- A class that declares the name `java/A`, with some access flags. -/
def platformClass (flags : UInt8) : Bytes :=
  [0xca, 0xfe, 0xba, 0xbe, 0, 0, 0, 0x34, 0, 3, 1, 0, 6, 0x6a, 0x61, 0x76, 0x61, 0x2f, 0x41, 7, 0,
    1, 0, flags, 0, 2, 0, 0, 0, 0, 0, 0, 0, 0, 0, 0]

/-- The class in a library. -/
def platformLibrary : List (Location × Entry) :=
  [(["lib"], .directory), (["lib", "java"], .directory),
    (["lib", "java", "A.class"], .file (platformClass 0x21))]

/-- Another one of that name in a source tree. -/
def platformShadow : List (Location × Entry) :=
  [(["src"], .directory), (["src", "java"], .directory),
    (["src", "java", "A.class"], .file (platformClass 0x20))]

/-- The class of a reserved namespace that a library has is answered, whether
the source tree has one of that name or not. -/
theorem resolve_delegated_shadow : ∃ c,
    (libraryLoader.resolve (plainWorkspace.withFiles ⟨[], platformLibrary⟩) "java/A").answer =
      .ok c ∧
    (libraryLoader.resolve (plainWorkspace.withFiles ⟨[], platformLibrary ++ platformShadow⟩)
      "java/A").answer = .ok c ∧ c.bytes = platformClass 0x21 := by
  obtain ⟨hanswered, hfound⟩ :
      (libraryLoader.resolve (plainWorkspace.withFiles ⟨[], platformLibrary⟩)
        "java/A").answer.toOption.map DefinedClass.bytes = some (platformClass 0x21) ∧
      libraryLoader.parent.lookUp
          (plainWorkspace.withFiles ⟨[], platformLibrary⟩).files (normalName "java/A") =
        libraryLoader.parent.lookUp
          (plainWorkspace.withFiles ⟨[], platformLibrary ++ platformShadow⟩).files
          (normalName "java/A") := by decide +kernel
  rcases hanswer : (libraryLoader.resolve (plainWorkspace.withFiles ⟨[], platformLibrary⟩)
    "java/A").answer with e | c
  · rw [hanswer] at hanswered
    cases hanswered
  rw [hanswer] at hanswered
  refine ⟨c, rfl, ?_, Option.some.inj hanswered⟩
  have hforeign : libraryLoader.IsForeign (normalName "java/A") :=
    .inr ⟨by decide +kernel, by decide +kernel⟩
  have hempty : libraryLoader.delegated = [] := rfl
  rw [← hanswer]
  exact ((resolve_delegated hempty).1 libraryLoader _ _ _ _ "java/A" hempty rfl hforeign .start
    hfound).symm

/-- A class that declares the name `A[]`. -/
def bracketedClass : Bytes :=
  [0xca, 0xfe, 0xba, 0xbe, 0, 0, 0, 0x34, 0, 3, 1, 0, 3, 0x41, 0x5b, 0x5d, 7, 0, 1, 0, 0x21, 0, 2,
    0, 0, 0, 0, 0, 0, 0, 0, 0, 0]

/-- The name of an array with its brackets behind is answered from the source
tree if there is a class of that name, and not at all if there is none. -/
theorem resolve_bracketed : ∃ w c,
    EligibilityFilter.isArrayName (normalName "A[]") = true ∧
      (markingLoader none).parent.lookUp w.files (normalName "A[]") =
        (markingLoader none).parent.lookUp Processor.bareWorkspace.files (normalName "A[]") ∧
      ((markingLoader none).resolve w "A[]").answer = .ok c ∧
      c.origin = .project .skipped ∧ c.bytes = bracketedClass ∧
      ((markingLoader none).resolve Processor.bareWorkspace "A[]").answer =
        .error (.notFound "A[]") := by
  obtain ⟨w, hw⟩ : ∃ w, plainWorkspace.withFiles
    ⟨[], [(["src"], .directory), (["src", "A[].class"], .file bracketedClass)]⟩ = w := ⟨_, rfl⟩
  have hanswered : ((markingLoader none).resolve w "A[]").answer.toOption.map
      (fun c => (c.origin, c.bytes)) = some (.project .skipped, bracketedClass) := by
    rw [← hw]
    decide +kernel
  rcases hanswer : ((markingLoader none).resolve w "A[]").answer with e | c
  · rw [hanswer] at hanswered
    cases hanswered
  rw [hanswer] at hanswered
  obtain ⟨horigin, hbytes⟩ := Prod.mk.inj (Option.some.inj hanswered)
  exact ⟨w, c, by decide +kernel, rfl, hanswer, horigin, hbytes, by decide +kernel⟩

end Loader

end ClassWeave
