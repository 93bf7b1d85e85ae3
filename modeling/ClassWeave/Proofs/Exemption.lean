import ClassWeave.Proofs.Fate
/-!
# Exemption -- what is left alone, and what decides it

A unit is exempt by its name, or else by what its header says: the access
flags and the name that it declares. The reason is a function of these and
of the reserved namespaces (`exemption?`), and so no part of it can be
anything else that a filter sees: attributes, the marker, the copy at the
output, or the passes that are expected. An exempt unit goes no further. It
is skipped for that reason, and nothing else happens to it or to the
workspace (`process_exempt_iff`).
-/


namespace ClassWeave

namespace ClassFile

/-- What the header of a class file says of its kind. -/
structure Header where
  accessFlags : UInt16
  thisClass : String
  deriving DecidableEq, Repr

/-- Whether a header says any bit of a flag. -/
def Header.hasFlag (h : Header) (flag : UInt16) : Bool := h.accessFlags &&& flag != 0

/-- The header of a class file. -/
def header (c : ClassFile) : Header := ⟨c.accessFlags, c.thisClass⟩

/-- The header of octets, if they are a class file. -/
def headerOf? (bytes : Bytes) : Option Header := (parse bytes).toOption.map header

end ClassFile

namespace EligibilityFilter

variable {f : EligibilityFilter} {t : FileTree} {u : ClassUnit} {reserved : List String}
  {name : String} {h : ClassFile.Header} {reason : ExemptReason}

/-! ## The reason -/

/-- The exemption that a header gives: of several flags the first one here
counts, and the name that is declared counts last. -/
def headerExemption? (h : ClassFile.Header) : Option ExemptReason :=
  if h.hasFlag ClassFile.moduleFlag then some .moduleInfo
  else if h.hasFlag ClassFile.annotationFlag then some .annotationType
  else if h.hasFlag ClassFile.interfaceFlag then some .interfaceType
  else if h.hasFlag ClassFile.enumFlag then some .enumType
  else if simpleName '/' h.thisClass = "package-info" then some .packageInfo
  else none

/-- **Why a unit is exempt**, by its name under the reserved namespaces, and
by its header only if the name decides nothing. -/
def exemption? (reserved : List String) (name : String) (header? : Option ClassFile.Header) :
    Option ExemptReason :=
  match nameExemption? ⟨reserved, []⟩ name with
  | some reason => some reason
  | none => header?.bind headerExemption?

theorem structuralExemption?_eq (c : ClassFile) :
    structuralExemption? c = headerExemption? c.header := rfl

/-- **The verdict that a unit is exempt** is the one on its name and its
header, and comes without a warning. -/
theorem classify_exempt_iff {events : List Event} :
    f.classify t u = .ok (.exempt reason, events) ↔
      exemption? f.reserved u.name (ClassFile.headerOf? u.compiled) = some reason ∧ events = [] := by
  have hname : nameExemption? ⟨f.reserved, []⟩ u.name = f.nameExemption? u.name := rfl
  rw [classify, exemption?, hname]
  -- down the questions that a filter asks, up to the last one on exemption
  rcases f.nameExemption? u.name with _ | byName
  swap
  · simp [eq_comm]
  rcases hparse : ClassFile.parse u.compiled with e | c
  · have hheader : ClassFile.headerOf? u.compiled = none := by
      rw [ClassFile.headerOf?, hparse]
      rfl
    simp [hheader]
  have hheader : ClassFile.headerOf? u.compiled = some c.header := by
    rw [ClassFile.headerOf?, hparse]
    rfl
  simp only [hheader, Option.bind_some, structuralExemption?_eq]
  rcases headerExemption? c.header with _ | byHeader
  · rcases c.marker? with _ | r
    · rcases freshCopy? t u with _ | r <;> simp
    · simp
  · simp [eq_comm]

/-! ## The kinds that are exempt -/

/-- **A name that is exempt**: that of an array, one in a reserved namespace,
or that of a package or module descriptor. -/
def ExemptName (reserved : List String) (name : String) : Prop :=
  isArrayName name = true ∨ (∃ s ∈ reserved, s.toList <+: name.toList) ∨
    simpleName '.' name ∈ ["package-info", "package", "module-info"]

/-- **A header that is exempt**: that of a module, an annotation, an
interface or an enum by its flags, or of a package by its declared name. -/
def ExemptHeader (h : ClassFile.Header) : Prop :=
  (∃ flag ∈ [ClassFile.moduleFlag, ClassFile.annotationFlag, ClassFile.interfaceFlag,
    ClassFile.enumFlag], h.hasFlag flag = true) ∨ simpleName '/' h.thisClass = "package-info"

/-- The names that are exempt are those with a reason. -/
theorem isSome_nameExemption? :
    (nameExemption? f name).isSome = true ↔ ExemptName f.reserved name := by
  have hreserved : (f.platformNamespace? name).isSome = true ↔
      ∃ s ∈ f.reserved, s.toList <+: name.toList := by
    simp only [platformNamespace?, List.find?_isSome, List.isPrefixOf_iff_prefix]
  unfold nameExemption? ExemptName
  split
  · next harray => simp [harray]
  next harray =>
  split
  · next s hs =>
    rw [hs] at hreserved
    simp [hreserved.1 rfl]
  next hnone =>
  rw [hnone] at hreserved
  have hunreserved : ¬ ∃ s ∈ f.reserved, s.toList <+: name.toList := fun h => by
    cases hreserved.2 h
  rw [or_iff_right harray, or_iff_right hunreserved]
  simp only [List.mem_cons, List.not_mem_nil, or_false]
  by_cases hpackage : simpleName '.' name = "package-info" ∨ simpleName '.' name = "package"
  · simp [hpackage, ← or_assoc]
  · rw [if_neg hpackage, ← or_assoc, or_iff_right hpackage]
    by_cases hmodule : simpleName '.' name = "module-info" <;> simp [hmodule]

/-- The headers that are exempt are those with a reason. -/
theorem isSome_headerExemption? : (headerExemption? h).isSome = true ↔ ExemptHeader h := by
  unfold headerExemption? ExemptHeader
  simp only [List.mem_cons, List.not_mem_nil, or_false, exists_eq_or_imp, exists_eq_left]
  split
  · next hflag => simp [hflag]
  next hmodule =>
  split
  · next hflag => simp [hflag]
  next hannotation =>
  split
  · next hflag => simp [hflag]
  next hinterface =>
  split
  · next hflag => simp [hflag]
  next henum =>
  rw [or_iff_right (by simp [hmodule, hannotation, hinterface, henum])]
  by_cases hsimple : simpleName '/' h.thisClass = "package-info" <;> simp [hsimple]

/-- **What is exempt is exactly what has a reason.** -/
theorem isSome_exemption? {header? : Option ClassFile.Header} :
    (exemption? reserved name header?).isSome = true ↔
      ExemptName reserved name ∨ ∃ h, header? = some h ∧ ExemptHeader h := by
  have hname := @isSome_nameExemption? ⟨reserved, []⟩ name
  unfold exemption?
  split
  · next reason hreason =>
    rw [hreason] at hname
    exact iff_of_true rfl (.inl (hname.1 rfl))
  next hnone =>
  rw [hnone] at hname
  rw [or_iff_right fun h => by cases hname.2 h]
  rcases header? with _ | h
  · simp
  · simp [isSome_headerExemption?]

/-- A header has no say where the name decides. -/
theorem exemption?_congr {header? header?' : Option ClassFile.Header}
    (h : ¬ ExemptName reserved name → header? = header?') :
    exemption? reserved name header? = exemption? reserved name header?' := by
  have hname := @isSome_nameExemption? ⟨reserved, []⟩ name
  unfold exemption?
  split
  · rfl
  next hnone =>
  rw [hnone] at hname
  rw [h fun hexempt => by cases hname.2 hexempt]

end EligibilityFilter

namespace Processor

variable {p : Processor} {w : Workspace} {u : ClassUnit} {reason : ExemptReason}

/-! ## What becomes of an exempt unit -/

/-- A unit that processing skips as exempt, for a reason. -/
def SkipsExempt (p : Processor) (w : Workspace) (u : ClassUnit) (reason : ExemptReason) : Prop :=
  (p.process w u).unit.state = .skipped ∧
    (p.process w u).unit.skipReason = some (.exempt reason)

/-- **A unit is skipped for what its verdict says**, and for nothing else. -/
theorem skips_iff {skip : SkipReason} (hstate : u.state = .unprocessed) :
    (p.process w u).unit.state = .skipped ∧ (p.process w u).unit.skipReason = some skip ↔
      ∃ verdict events, p.filter.classify w.files u = .ok (verdict, events) ∧
        verdict.skipReason? = some skip := by
  rw [← fateOn_eq_skipped]
  obtain ⟨hsettled, -, -, hskipped, -⟩ := process_fate (p := p) (w := w) hstate rfl
  generalize p.fateOn u (p.filter.classify w.files u) = f at hsettled hskipped ⊢
  rw [hsettled]
  cases f with
  | skipped reason => simp [hskipped reason rfl, Fate.settled]
  | failed message enhancer => simp [Fate.settled]
  | enhanced out => simp [Fate.settled]

/-- So it is skipped as exempt for the reason that its name and its header
give. -/
theorem skipsExempt_iff (hstate : u.state = .unprocessed) :
    p.SkipsExempt w u reason ↔ EligibilityFilter.exemption? p.filter.reserved u.name
      (ClassFile.headerOf? u.compiled) = some reason := by
  rw [SkipsExempt, skips_iff hstate]
  constructor
  · rintro ⟨verdict, events, hv, hskip⟩
    cases verdict with
    | proceed => cases hskip
    | alreadyEnhanced prior => cases hskip
    | exempt reason' =>
      obtain rfl : reason' = reason := SkipReason.exempt.inj (Option.some.inj hskip)
      exact (EligibilityFilter.classify_exempt_iff.1 hv).1
  · intro hreason
    exact ⟨_, _, EligibilityFilter.classify_exempt_iff.2 ⟨hreason, rfl⟩, rfl⟩

/-- **What is exempt is left alone, and nothing else decides what is.** Of
all units that nothing was done with, exactly those that are exempt by their
names, or by their headers if they have any, are skipped as exempt, for the
reason that these give under the reserved namespaces. Nothing else comes of
it: the workspace stays, and so do the octets of the unit, which are those
it was read with unless others were installed before. And two such units of
one name, under the same reserved namespaces, are skipped for the same
reason if their headers agree, or the name decides; whatever else differs in
them, in the passes, in those expected, and in the files. -/
theorem process_exempt_iff (hstate : u.state = .unprocessed) :
    ((∃ reason, p.SkipsExempt w u reason) ↔
      EligibilityFilter.ExemptName p.filter.reserved u.name ∨
        ∃ c, ClassFile.parse u.compiled = .ok c ∧ EligibilityFilter.ExemptHeader c.header) ∧
    (∀ reason, p.SkipsExempt w u reason ↔ EligibilityFilter.exemption? p.filter.reserved u.name
      (ClassFile.headerOf? u.compiled) = some reason) ∧
    (∀ reason, p.SkipsExempt w u reason →
      p.process w u =
        rest w { u with state := .skipped, skipReason := some (.exempt reason) } ∧
      (p.process w u).unit.current = u.current ∧
      (u.enhanced = none → (p.process w u).unit.current = u.compiled)) ∧
    ∀ (p' : Processor) (w' : Workspace) (u' : ClassUnit), u'.state = .unprocessed →
      p'.filter.reserved = p.filter.reserved → u'.name = u.name →
      (¬ EligibilityFilter.ExemptName p.filter.reserved u.name →
        ClassFile.headerOf? u'.compiled = ClassFile.headerOf? u.compiled) →
      ∀ reason, p'.SkipsExempt w' u' reason ↔ p.SkipsExempt w u reason := by
  refine ⟨?_, fun reason => skipsExempt_iff hstate, fun reason hskips => ?_,
    fun p' w' u' hstate' hreserved hname hheader reason => ?_⟩
  · simp only [skipsExempt_iff hstate]
    rw [← Option.isSome_iff_exists, EligibilityFilter.isSome_exemption?]
    refine or_congr Iff.rfl ?_
    rcases hparse : ClassFile.parse u.compiled with e | c
    · simp [ClassFile.headerOf?, hparse, Except.toOption]
    · simp [ClassFile.headerOf?, hparse, Except.toOption]
  · have hreason := (skipsExempt_iff hstate).1 hskips
    have hprocess := process_skipped (p := p) (w := w) hstate
      (EligibilityFilter.classify_exempt_iff.2 ⟨hreason, rfl⟩) rfl
    have hquiet : w.report [] = w := by rw [Workspace.report, List.append_nil]
    rw [hquiet] at hprocess
    rw [hprocess]
    refine ⟨rfl, rfl, fun hbare => ?_⟩
    rw [rest, ClassUnit.current, hbare, Option.getD_none]
  · rw [skipsExempt_iff hstate, skipsExempt_iff hstate', hreserved, hname]
    rw [EligibilityFilter.exemption?_congr hheader]

/-- A class that declares the name `A`, with some access flags. -/
def flaggedClass (high low : UInt8) : Bytes :=
  [0xca, 0xfe, 0xba, 0xbe, 0, 0, 0, 0x34, 0, 3, 1, 0, 1, 0x41, 7, 0, 1, high, low, 0, 2, 0, 0,
    0, 0, 0, 0, 0, 0, 0, 0]

/-- An annotation is skipped as one, although it is an interface too. -/
theorem process_exempt_iff_annotation :
    (marking.process bareWorkspace
      (.fresh "A" (.inPlace ⟨"A.class"⟩) (flaggedClass 0x26 0x01))).report =
        ⟨"A", .skipped, some (.exempt .annotationType), none, none, none, none⟩ := by
  obtain ⟨-, hreason, huntouched, -⟩ := process_exempt_iff (p := marking) (w := bareWorkspace)
    (u := .fresh "A" (.inPlace ⟨"A.class"⟩) (flaggedClass 0x26 0x01)) rfl
  rw [(huntouched .annotationType ((hreason _).2 (by decide +kernel))).1]
  rfl

/-- Octets that were installed before stay installed, and they are not those
that the unit was read with. -/
theorem process_exempt_installed : ∃ u : ClassUnit,
    u.state = .unprocessed ∧ EligibilityFilter.ExemptName marking.filter.reserved u.name ∧
      marking.SkipsExempt bareWorkspace u .arrayType ∧
      (marking.process bareWorkspace u).unit.current ≠ u.compiled := by
  refine ⟨(ClassUnit.fresh "[A" (.inPlace ⟨"A.class"⟩) (flaggedClass 0 0x21)).install
    (flaggedClass 0 0x20), rfl, .inl ?_, ?_, ?_⟩
  · decide
  · exact ⟨by decide +kernel, by decide +kernel⟩
  · decide +kernel

end Processor

end ClassWeave
